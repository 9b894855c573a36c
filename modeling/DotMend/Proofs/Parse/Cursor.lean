import DotMend.Proofs.Parse.Nodes
import DotMend.Proofs.Token.Guarded

/-! Reading a list of tokens by index. A reader fails on a token behind the end, on a span that ends before it
starts and on a child that has not been built. -/

namespace DotMend.Parse.Guarded

structure State where
  index : Nat
  built : Nat
  complaints : List Diagnostic

abbrev Reader := StateT State Option

section Reader

variable (tokens : List Token)

def current : Reader Token := fun s => tokens[min s.index (tokens.length - 1)]?.map (·, s)

def sees (p : Kind → Bool) : Reader Bool := do return p (← current tokens).kind

def startAt : Reader Nat := do return (← current tokens).span.start

def secondKind : Reader Kind := fun s => some (tokens[s.index + 1]?.elim .endOfFile Token.kind, s)

def bump : Reader Token := do
  let t ← current tokens
  if t.kind = .endOfFile then return t
  else fun s => some (t, { s with index := s.index + 1 })

def lastEnd : Reader Nat := fun s =>
  if s.index = 0 then some (0, s) else tokens[s.index - 1]?.map fun t => (t.span.stop, s)

def forward (start stop : Nat) : Reader Span := fun s => (Span.forward? start stop).map (·, s)

def report (d : Diagnostic) : Reader Unit := fun s => some ((), { s with complaints := s.complaints ++ [d] })

def complain (what : Expectation) : Reader Unit := do
  let t ← current tokens
  report (.error t.span .expectationFailed ("Expected " ++ what.text))

/-- A node with the next number, whose children have been built before it. -/
def alloc (span : Span) (faulty : Bool) (make : Tree.Info → Tree) : Reader Tree := fun s =>
  let tree := make ⟨s.built, span, faulty || (make ⟨s.built, span, faulty⟩).children.any Tree.flagged⟩
  if tree.children.all (·.number < s.built) then some (tree, { s with built := s.built + 1 }) else none

def node (start : Nat) (faulty : Bool) (make : Tree.Info → Tree) : Reader Tree := do
  let stop ← lastEnd tokens
  let span ← forward start stop
  alloc span faulty make

def leaf : Reader Tree := do
  let t ← bump tokens
  alloc t.span t.faulty (.token · t.kind)

def optional (wanted : Kind → Bool) : Reader (Option Tree) := do
  if ← sees tokens wanted then return some (← leaf tokens) else return none

def lastToken : Reader Token := fun s => if 2 ≤ tokens.length then tokens[tokens.length - 2]?.map (·, s) else none

end Reader

lemma run_bind {α β : Type} {x : Reader α} {f : α → Reader β} {s s' : State} {a : α} (h : x s = some (a, s')) :
    (x >>= f) s = f a s' := by
  change (x s).bind _ = _
  rw [h]
  rfl

lemma forward_eq {start stop : Nat} {s : State} (h : start ≤ stop) :
    forward start stop s = some (⟨start, stop⟩, s) := by
  rw [forward, Span.forward?, if_pos h]
  rfl

structure Input where
  body : List Token
  eof : Token
  ordered : Ordered body
  inner : ∀ t ∈ body, t.kind ≠ .endOfFile
  ends : eof.kind = .endOfFile

namespace Input

variable (i : Input)

def tokens : List Token := i.body ++ [i.eof]

def state (ts : List Token) (m : Trail) (cs : List Diagnostic) : State := ⟨i.body.length - ts.length, m.built, cs⟩

/-- A reader in front of `ts` has read the tokens before them and ends where the last one of those ends. -/
def Stands (ts : List Token) (m : Trail) : Prop := ∃ done, i.body = done ++ ts ∧ m.lastEnd = endOf .start done

variable {i} {ts : List Token} {t : Token} {m : Trail} {cs : List Diagnostic}

lemma Stands.ordered (h : i.Stands ts m) : Ordered ts := by
  obtain ⟨done, hbody, -⟩ := h
  have ho := i.ordered
  rw [hbody] at ho
  exact ho.right

lemma Stands.of_steps {eof : Span} {ts' : List Token} {m' : Trail} {kids : List Tree} {faults : Bool}
    {cs : List Diagnostic} (h : i.Stands ts m) (hs : Steps eof ts m kids faults ts' m' cs) : i.Stands ts' m' := by
  obtain ⟨done, hbody, hend⟩ := h
  obtain ⟨used, rfl, -, hend'⟩ := hs.laid
  exact ⟨done ++ used, by rw [hbody, List.append_assoc], by rw [hend', endOf_append _ _ _ _ hend]⟩

lemma Stands.pass (h : i.Stands (t :: ts) m) : i.Stands ts (m.pass t) := by
  obtain ⟨done, hbody, -⟩ := h
  exact ⟨done ++ [t], by simp [hbody], by simp [endOf, Trail.pass]⟩

lemma Stands.grown (h : i.Stands ts m) : i.Stands ts m.grown := h

lemma Stands.kind_ne (h : i.Stands (t :: ts) m) : t.kind ≠ .endOfFile := by
  obtain ⟨done, hbody, -⟩ := h
  exact i.inner t (by simp [hbody])

lemma Stands.length_lt (h : i.Stands ts m) : ts.length < i.tokens.length := by
  obtain ⟨done, hbody, -⟩ := h
  rw [tokens, hbody, List.length_append, List.length_append, List.length_singleton]
  omega

lemma index_eq {done : List Token} (h : i.body = done ++ ts) : i.body.length - ts.length = done.length := by
  simp [h]

lemma getElem?_tokens {done : List Token} (h : i.body = done ++ ts) :
    i.tokens[done.length]? = some (ts.headD i.eof) := by
  cases ts <;> simp [tokens, h]

lemma current_eq (h : i.Stands ts m) : current i.tokens (i.state ts m cs) =
    some (ts.headD i.eof, i.state ts m cs) := by
  obtain ⟨done, hbody, -⟩ := h
  have hmin : min done.length (i.tokens.length - 1) = done.length := by simp [tokens, hbody]
  simp only [current, state, index_eq hbody, hmin, getElem?_tokens hbody, Option.map_some]

lemma sees_eq {p : Kind → Bool} (h : i.Stands ts m) (hp : p .endOfFile = false) :
    sees i.tokens p (i.state ts m cs) = some (nextIs p ts, i.state ts m cs) := by
  rw [sees, run_bind (current_eq h)]
  cases ts with
  | nil =>
    rw [List.headD_nil, i.ends, hp]
    rfl
  | cons t ts => rfl

lemma startAt_eq (h : i.Stands (t :: ts) m) :
    startAt i.tokens (i.state (t :: ts) m cs) = some (t.span.start, i.state (t :: ts) m cs) := by
  rw [startAt, run_bind (current_eq h)]
  rfl

lemma secondKind_eq (h : i.Stands (t :: ts) m) :
    secondKind i.tokens (i.state (t :: ts) m cs) = some ((ts.headD i.eof).kind, i.state (t :: ts) m cs) := by
  obtain ⟨done, hbody, -⟩ := h
  have hget : i.tokens[(done ++ [t]).length]? = some (ts.headD i.eof) := getElem?_tokens (by simp [hbody])
  rw [List.length_append, List.length_singleton] at hget
  simp only [secondKind, state, index_eq hbody, hget, Option.elim_some]

lemma bump_eq (h : i.Stands (t :: ts) m) :
    bump i.tokens (i.state (t :: ts) m cs) = some (t, i.state ts (m.pass t) cs) := by
  obtain ⟨done, hbody, -⟩ := id h
  have hindex : i.body.length - (t :: ts).length + 1 = i.body.length - ts.length := by simp [hbody]; omega
  rw [bump, run_bind (current_eq h)]
  rw [List.headD_cons, if_neg h.kind_ne]
  simp only [state, hindex, Trail.pass]

lemma lastEnd_eq (h : i.Stands ts m) : lastEnd i.tokens (i.state ts m cs) = some (m.lastEnd, i.state ts m cs) := by
  obtain ⟨done, hbody, hend⟩ := h
  rw [hend]
  simp only [lastEnd, state, index_eq hbody]
  cases done using List.reverseRecOn with
  | nil => rfl
  | append_singleton done u =>
    have hget : i.tokens[done.length]? = some u := by simp [tokens, hbody]
    simp [hget, endOf]

lemma lastToken_eq {s : State} {u : Token} (h : i.body.getLast? = some u) :
    lastToken i.tokens s = some (u, s) := by
  obtain ⟨us, hbody⟩ := List.getLast?_eq_some_iff.mp h
  simp [lastToken, tokens, hbody]

lemma complain_eq {what : Expectation} (h : i.Stands ts m) :
    complain i.tokens what (i.state ts m cs) = some ((), i.state ts m (cs ++ [expected i.eof.span what ts])) := by
  rw [complain, run_bind (current_eq h)]
  cases ts <;> rfl

lemma alloc_eq {span : Span} {faulty : Bool} {make : Tree.Info → Tree} {n : Tree}
    (hn : make ⟨m.built, span, faulty || (make ⟨m.built, span, faulty⟩).children.any Tree.flagged⟩ = n)
    (hkids : ∀ c ∈ n.children, c.number < m.built) :
    alloc span faulty make (i.state ts m cs) = some (n, i.state ts m.grown cs) := by
  have hall : n.children.all (·.number < m.built) = true := by simpa using hkids
  simp only [alloc, state, hn, Trail.grown]
  exact if_pos hall

lemma leaf_eq (h : i.Stands (t :: ts) m) :
    leaf i.tokens (i.state (t :: ts) m cs) = some (m.leaf t, i.state ts (m.pass t).grown cs) := by
  rw [leaf, run_bind (bump_eq h)]
  apply alloc_eq
  · simp [Tree.children_eq, Trail.leaf, Trail.pass]
  · simp [Tree.children_eq, Trail.leaf]

lemma node_eq {start : Nat} {faulty : Bool} {make : Tree.Info → Tree} {n : Tree} {eof : Span} {us ts' : List Token}
    {m₀ m' : Trail} {faults : Bool} {cs' : List Diagnostic} (h : i.Stands ts m) (hn : m.node start faulty make = n)
    (hinfo : ∀ j, (make j).info = j) (hs : Steps eof us m₀ [n] faults ts' m' cs') (ho : Ordered us) :
    node i.tokens start faulty make (i.state ts m cs) = some (n, i.state ts m.grown cs) := by
  have hspan : n.span = ⟨start, m.lastEnd⟩ := by rw [← hn, Trail.node, Tree.span, hinfo]
  have hnumber : n.number = m.built := by rw [← hn, Trail.node, Tree.number, hinfo]
  obtain ⟨used, rfl, hlaid, -⟩ := hs.laid
  have hle := (hlaid.placed ho.left n (by simp)).here.1
  have hkids := (hs.descending ho n (by simp)).here
  rw [hspan] at hle
  rw [hnumber] at hkids
  rw [node, run_bind (lastEnd_eq h), run_bind (forward_eq (Nat.le_of_lt hle))]
  exact alloc_eq hn hkids

/-- A reader in front of `ts` comes to the result `r`. -/
structure Agrees (i : Input) {α : Type} (x : Reader α) (ts : List Token) (m : Trail) {n : Nat} (r : Parsed n α) :
    Prop where
  run : ∀ cs, x (i.state ts m cs) = some (r.value, i.state r.rest r.trail (cs ++ r.complaints))
  stands : i.Stands r.rest r.trail

namespace Agrees

variable {α β : Type} {x y : Reader α} {n k : Nat} {r r' : Parsed n α}

lemma map (f : α → β) (hx : i.Agrees x ts m r) (hk : r.rest.length ≤ k) :
    i.Agrees (do return f (← x)) ts m (⟨f r.value, r.rest, r.trail, r.complaints, hk⟩ : Parsed k β) :=
  ⟨fun cs => run_bind (hx.run cs), hx.stands⟩

lemma bump {f : Token → Reader α} (h : i.Stands (t :: ts) m) (hx : i.Agrees (f t) ts (m.pass t) r)
    (hk : r.rest.length ≤ k) :
    i.Agrees (bump i.tokens >>= f) (t :: ts) m (⟨r.value, r.rest, r.trail, r.complaints, hk⟩ : Parsed k α) :=
  ⟨fun cs => (run_bind (bump_eq h)).trans (hx.run cs), hx.stands⟩

lemma peek_nil {p : Kind → Bool} (h : i.Stands [] m) (hp : p .endOfFile = false) (hy : i.Agrees y [] m r) :
    i.Agrees (do if ← sees i.tokens p then x else y) [] m r :=
  ⟨fun cs => (run_bind (sees_eq h hp)).trans (hy.run cs), hy.stands⟩

lemma peek_cons {p : Kind → Bool} {q : Prop} [Decidable q] (h : i.Stands (t :: ts) m) (hp : p .endOfFile = false)
    (hq : p t.kind = true ↔ q) (hx : q → i.Agrees x (t :: ts) m r) (hy : ¬ q → i.Agrees y (t :: ts) m r') :
    i.Agrees (do if ← sees i.tokens p then x else y) (t :: ts) m (if q then r else r') := by
  by_cases hd : q
  · rw [if_pos hd]
    refine ⟨fun cs => ?_, (hx hd).stands⟩
    rw [run_bind (sees_eq h hp), nextIs, if_pos (hq.mpr hd), (hx hd).run]
  · rw [if_neg hd]
    refine ⟨fun cs => ?_, (hy hd).stands⟩
    rw [run_bind (sees_eq h hp), nextIs, if_neg (mt hq.mp hd), (hy hd).run]

end Agrees

lemma skip_agrees {α : Type} (a : α) (h : i.Stands ts m) : i.Agrees (pure a) ts m (skip a ts m) :=
  ⟨fun cs => by rw [skip, List.append_nil]; rfl, h⟩

lemma miss_agrees {α : Type} {what : Expectation} (a : α) (h : i.Stands ts m) :
    i.Agrees (do complain i.tokens what; return a) ts m (miss i.eof.span what a ts m) :=
  ⟨fun _ => run_bind (complain_eq h), h⟩

lemma leaf_agrees (h : i.Stands (t :: ts) m) :
    i.Agrees (leaf i.tokens) (t :: ts) m
      (⟨m.leaf t, ts, (m.pass t).grown, [], Nat.le_refl _⟩ : Parsed ts.length Tree) :=
  ⟨fun cs => by rw [leaf_eq h, List.append_nil], h.pass.grown⟩

lemma optional_agrees (wanted : Kind → Bool) (h : i.Stands ts m) (hw : wanted .endOfFile = false) :
    i.Agrees (optional i.tokens wanted) ts m (Parse.optional wanted ts m) := by
  cases ts with
  | nil => exact .peek_nil h hw (skip_agrees none h)
  | cons t ts =>
    exact .peek_cons h hw Iff.rfl (fun _ => (leaf_agrees h).map some _) fun _ => skip_agrees none h

lemma Stands.le_start (h : i.Stands (t :: ts) m) : m.lastEnd ≤ t.span.start := by
  obtain ⟨done, hbody, hend⟩ := h
  have ho := i.ordered.apart
  rw [hbody] at ho
  rw [hend]
  cases hlast : done.getLast? with
  | none => simp [endOf, hlast, Trail.start]
  | some u =>
    have := (List.pairwise_append.mp ho).2.2 u (List.mem_of_getLast? hlast) t (by simp)
    simpa [endOf, hlast] using this

end Input

end DotMend.Parse.Guarded
