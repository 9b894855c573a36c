import DotMend.Parse.Graph
import DotMend.Proofs.Tree.Shape
import Mathlib.Data.List.Induction
import Mathlib.Order.Nat

/-! The ways of a reader through its tokens. Every function of the parser goes such a way; what holds of all trees
that are built, of their places, numbers and marks, follows from the ways alone. -/

namespace DotMend.Parse

structure Ordered (ts : List Token) : Prop where
  nonempty : ∀ t ∈ ts, t.span.start < t.span.stop
  apart : ts.Pairwise fun a b => a.span.stop ≤ b.span.start

lemma Ordered.left {ts us : List Token} (h : Ordered (ts ++ us)) : Ordered ts :=
  ⟨fun t ht => h.nonempty t (by simp [ht]), (List.pairwise_append.mp h.apart).1⟩

lemma Ordered.right {ts us : List Token} (h : Ordered (ts ++ us)) : Ordered us :=
  ⟨fun t ht => h.nonempty t (by simp [ht]), (List.pairwise_append.mp h.apart).2.1⟩

lemma Ordered.tail {t : Token} {ts : List Token} (h : Ordered (t :: ts)) : Ordered ts := @Ordered.right [t] ts h

lemma Ordered.behind {t : Token} {ts : List Token} (h : Ordered (t :: ts)) :
    ∀ u ∈ ts, t.span.stop ≤ u.span.start :=
  (List.pairwise_cons.mp h.apart).1

def hull (t : Token) (ts : List Token) : Span := ⟨t.span.start, ((t :: ts).getLast (by simp)).span.stop⟩

@[simp] lemma hull_nil (t : Token) : hull t [] = t.span := rfl

def isBare (k : Kind) : Bool :=
  k = .openBrace || k = .closeBrace || k = .openBracket || k = .closeBracket || k = .colon || k = .equals ||
    k = .semicolon

def isPart (k : Kind) : Bool := k = .plus || k = .quoted

def Expectation.skips : Expectation → Bool
  | statement | attrName => true
  | _ => false

/-- A reader's way from some tokens to others: the trees that it builds, whether it complains outside of them, and
all its complaints. -/
inductive Steps (eof : Span) :
    List Token → Trail → List Tree → Bool → List Token → Trail → List Diagnostic → Prop
  | stay {ts m} : Steps eof ts m [] false ts m []
  | pass {t ts m} : isBare t.kind → Steps eof (t :: ts) m [] false ts (m.pass t) []
  | complain {ts m} (what) : what.skips = false → Steps eof ts m [] true ts m [expected eof what ts]
  | stray {t ts m} (what) : what.skips → Steps eof (t :: ts) m [] true ts (m.pass t) [expected eof what (t :: ts)]
  | leaf {t ts m} : t.kind.isToken → Steps eof (t :: ts) m [m.leaf t] false ts (m.pass t).grown []
  | identifier {t part ts m} (text) (faults : Bool) : t.kind.isIdentifier → (∀ p ∈ part, isPart p.kind) →
      Steps eof (t :: part ++ ts) m
        [.identifier ⟨m.built, hull t part, faults || t.faulty || part.any fun p => p.kind = .quoted && p.faulty⟩
          t.kind text]
        false ts ⟨m.built + 1, (hull t part).stop⟩ (if faults then [expected eof .quotedPart ts] else [])
  | node {t ts m kids faults ts' m' cs} (make) : Steps eof (t :: ts) m kids faults ts' m' cs →
      ts'.length ≤ ts.length →
      (∀ i, (make i).info = i ∧ (make i).children = kids ∧ (make i).IsInner ∧ (make i).Proper) →
      (∀ i, ∀ body ∈ (make i).statements?, ∀ s ∈ body, t.span.stop ≤ s.span.start) →
      Steps eof (t :: ts) m [m'.node t.span.start faults make] false ts' m'.grown cs
  | seq {ts m kids faults ts' m' cs kids' faults' ts'' m'' cs'} : Steps eof ts m kids faults ts' m' cs →
      Steps eof ts' m' kids' faults' ts'' m'' cs' →
      Steps eof ts m (kids ++ kids') (faults || faults') ts'' m'' (cs ++ cs')

namespace Steps

variable {eof : Span} {ts ts' : List Token} {m m' : Trail} {kids : List Tree} {faults : Bool}
  {cs : List Diagnostic}

lemma exists_used (h : Steps eof ts m kids faults ts' m' cs) : ∃ used, ts = used ++ ts' := by
  induction h with
  | stay | complain => exact ⟨[], rfl⟩
  | @pass t | @stray t | @leaf t => exact ⟨[t], rfl⟩
  | @identifier t part => exact ⟨t :: part, rfl⟩
  | node _ _ _ _ _ ih => exact ih
  | seq _ _ ih ih' =>
    obtain ⟨u, rfl⟩ := ih
    obtain ⟨v, rfl⟩ := ih'
    exact ⟨u ++ v, by simp⟩

lemma suffix (h : Steps eof ts m kids faults ts' m' cs) : ts' <:+ ts := by
  obtain ⟨used, hused⟩ := h.exists_used
  exact ⟨used, hused.symm⟩

lemma ordered (h : Steps eof ts m kids faults ts' m' cs) (ho : Ordered ts) : Ordered ts' := by
  obtain ⟨u, rfl⟩ := h.exists_used
  exact ho.right

lemma exists_first (h : Steps eof ts m kids faults ts' m' cs) :
    ∀ c ∈ kids, ∃ u ∈ ts, c.span.start = u.span.start := by
  induction h with
  | stay | pass | complain | stray => simp
  | @leaf t => exact List.forall_mem_singleton.mpr ⟨t, by simp, rfl⟩
  | @identifier t => exact List.forall_mem_singleton.mpr ⟨t, by simp, rfl⟩
  | @node t _ _ _ _ _ m' _ make _ _ hmake =>
    refine List.forall_mem_singleton.mpr ⟨t, by simp, ?_⟩
    rw [Trail.node, Tree.span, (hmake _).1]
  | seq hs _ ih ih' =>
    obtain ⟨u, rfl⟩ := hs.exists_used
    refine List.forall_mem_append.mpr ⟨ih, fun c hc => ?_⟩
    obtain ⟨v, hv, he⟩ := ih' c hc
    exact ⟨v, by simp [hv], he⟩

lemma le_start {t : Token} (h : Steps eof ts m kids faults ts' m' cs) (ht : ∀ u ∈ ts, t.span.stop ≤ u.span.start) :
    ∀ c ∈ kids, t.span.stop ≤ c.span.start := by
  intro c hc
  obtain ⟨u, hu, he⟩ := h.exists_first c hc
  rw [he]
  exact ht u hu

end Steps

structure Parsed.Traced (eof : Span) (ts : List Token) (m : Trail) {n : Nat} (r : Parsed n α) (trees : List Tree)
    (faults : Bool) (kinds : Kind → Prop) : Prop where
  steps : Steps eof ts m trees faults r.rest r.trail r.complaints
  kinds : ∀ c ∈ trees, kinds c.kind

variable {eof : Span} {ts : List Token} {m : Trail}

@[simp] lemma skip_value (a : α) : (skip a ts m).value = a := rfl

@[simp] lemma skip_rest (a : α) : (skip a ts m).rest = ts := rfl

@[simp] lemma skip_trail (a : α) : (skip a ts m).trail = m := rfl

@[simp] lemma skip_complaints (a : α) : (skip a ts m).complaints = [] := rfl

lemma skip_traced {a : α} {kinds : Kind → Prop} : (skip a ts m).Traced eof ts m [] false kinds := ⟨.stay, by simp⟩

lemma miss_traced {what : Expectation} {a : α} {kinds : Kind → Prop} (hw : what.skips = false) :
    (miss eof what a ts m).Traced eof ts m [] true kinds := ⟨.complain what hw, by simp⟩

lemma optional_traced (eof : Span) (ts : List Token) (m : Trail) {wanted : Kind → Bool}
    (hw : ∀ k, wanted k → k.isToken) :
    (optional wanted ts m).Traced eof ts m (optional wanted ts m).value.toList false (wanted ·) := by
  cases ts with
  | nil => exact skip_traced
  | cons t ts =>
    simp only [optional]
    split
    · rename_i h
      exact ⟨.leaf (hw _ h), by simpa [Trail.leaf, Tree.kind] using h⟩
    · exact skip_traced

lemma isToken_of_eq {k₀ : Kind} (h : k₀.isToken) (k : Kind) (hk : decide (k = k₀)) : k.isToken :=
  of_decide_eq_true hk ▸ h

lemma hull_append (t p : Token) (ts : List Token) : hull t (ts ++ [p]) = ⟨t.span.start, p.span.stop⟩ := by
  simp [hull]

lemma hull_lt {t : Token} {ts : List Token} (h : Ordered (t :: ts)) : (hull t ts).start < (hull t ts).stop := by
  induction ts using List.reverseRecOn with
  | nil => exact h.nonempty t (by simp)
  | append_singleton ts p _ =>
    have hp := h.nonempty p (by simp)
    have ht := h.nonempty t (by simp)
    have := (List.pairwise_cons.mp h.apart).1 p (by simp)
    rw [hull_append]
    simp only
    omega

lemma joined_spec (eof : Span) (m : Trail) (t : Token) (done : List Token) (j : Joined)
    (hd : ∀ p ∈ done, isPart p.kind)
    (ho : Ordered (t :: done ++ ts)) (hj : j.span = hull t done) (hm : m.lastEnd = (hull t done).stop)
    (hf : j.faulty = (t.faulty || done.any fun p => p.kind = .quoted && p.faulty)) :
    ∃ part faults, (∀ p ∈ part, isPart p.kind) ∧ done ++ ts = part ++ (joined eof j ts m).rest ∧
      (joined eof j ts m).value.span = hull t part ∧
      (joined eof j ts m).value.faulty =
        (faults || t.faulty || part.any fun p => p.kind = .quoted && p.faulty) ∧
      (joined eof j ts m).trail = ⟨m.built, (hull t part).stop⟩ ∧
      (joined eof j ts m).complaints =
        (if faults then [expected eof .quotedPart (joined eof j ts m).rest] else []) := by
  fun_induction joined eof j ts m generalizing done with
  | case1 j m => exact ⟨done, false, hd, rfl, hj, by simpa using hf, by simp [← hm], rfl⟩
  | case2 j m p hp =>
    refine ⟨done ++ [p], true, ?_, by simp, by simp [hj, hull], by simp, by simp [Trail.pass, hull], by simp⟩
    simpa [or_imp, forall_and, isPart, hp] using hd
  | case3 j m p hp q rest hq r ih =>
    have hcover : j.span.cover q.span = hull t (done ++ [p, q]) := by
      have hpq : done ++ [p, q] = (done ++ [p]) ++ [q] := by simp
      have hlt := hull_lt (@Ordered.left (t :: done) (p :: q :: rest) (by simpa using ho))
      have hle : ∀ u ∈ t :: done, u.span.stop ≤ q.span.start := by
        intro u hu
        have := (List.pairwise_append.mp ho.apart).2.2 u (by simpa using hu) q (by simp)
        exact this
      have hh : (hull t done).stop ≤ q.span.start := hle _ (List.getLast_mem _)
      have hq := ho.nonempty q (by simp)
      rw [hj, hpq, hull_append]
      simp only [Span.cover, Span.mk.injEq]
      refine ⟨?_, ?_⟩
      · exact Nat.min_eq_left (by have : (hull t done).start = t.span.start := rfl; omega)
      · exact Nat.max_eq_right (by omega)
    obtain ⟨part, faults, hpart, hrest, h⟩ :=
      ih (done ++ [p, q]) (by simpa [or_imp, forall_and, isPart, hp, hq] using hd)
      (by simpa using ho) hcover (by simp [Trail.pass, hull]) (by simp [hf, hp, hq, Bool.or_assoc])
    exact ⟨part, faults, hpart, by simpa using hrest, h⟩
  | case4 j m p hp q rest hq =>
    refine ⟨done ++ [p], true, ?_, by simp, by simp [hj, hull], by simp, by simp [Trail.pass, hull], by simp⟩
    simpa [or_imp, forall_and, isPart, hp] using hd
  | case5 j m p rest hp => exact ⟨done, false, hd, rfl, hj, by simpa using hf, by simp [← hm], rfl⟩

lemma identifier_traced (eof : Span) (m : Trail) {t : Token} (ho : Ordered (t :: ts)) (ht : t.kind.isIdentifier) :
    (identifier eof t ts m).Traced eof (t :: ts) m [(identifier eof t ts m).value] false (·.isIdentifier) := by
  refine ⟨?_, by simpa [identifier, Tree.kind] using ht⟩
  by_cases hq : t.kind = .quoted
  · obtain ⟨part, faults, hpart, hrest, hspan, hfaulty, htrail, hcs⟩ :=
      joined_spec eof (m.pass t) t [] ⟨t.value, t.span, t.faulty⟩ (by simp) ho rfl rfl (by simp)
    simp only [identifier, if_pos hq]
    generalize joined eof ⟨t.value, t.span, t.faulty⟩ ts (m.pass t) = r at *
    have h := @Steps.identifier eof t part r.rest m r.value.text faults ht hpart
    rw [List.cons_append, ← hrest, ← hfaulty, ← hcs] at h
    rw [htrail, hspan]
    exact h
  · have h := @Steps.identifier eof t [] ts m t.value false ht (by simp)
    simpa [identifier, hq, Trail.grown, Trail.pass] using h

lemma requireIdentifier_traced (eof : Span) (what : Expectation) (m : Trail) (ho : Ordered ts)
    (hw : what.skips = false) :
    (requireIdentifier eof what ts m).Traced eof ts m (requireIdentifier eof what ts m).value.toList
      (requireIdentifier eof what ts m).value.isNone (·.isIdentifier) := by
  cases ts with
  | nil => exact miss_traced hw
  | cons t ts =>
    simp only [requireIdentifier]
    split
    · rename_i h
      have := identifier_traced eof m ho h
      exact ⟨this.steps, this.kinds⟩
    · exact miss_traced hw

lemma optionalIdentifier_traced (eof : Span) (m : Trail) (ho : Ordered ts) :
    (optionalIdentifier eof ts m).Traced eof ts m (optionalIdentifier eof ts m).value.toList false
      (·.isIdentifier) := by
  unfold optionalIdentifier
  split
  · rename_i h
    have hr := requireIdentifier_traced eof .identifier m ho rfl
    have hs : (requireIdentifier eof .identifier ts m).value.isNone = false := by
      cases ts with
      | nil => simp [nextIs] at h
      | cons t ts => simp [requireIdentifier, show t.kind.isIdentifier from h]
    rwa [hs] at hr
  · exact skip_traced

lemma compass_traced (eof : Span) (m : Trail) (ho : Ordered ts) :
    (compass eof ts m).Traced eof ts m (compass eof ts m).value.1.toList (compass eof ts m).value.2
      (·.isIdentifier) := by
  cases ts with
  | nil => exact skip_traced
  | cons t ts =>
    simp only [compass]
    split
    · rename_i h
      have hr := requireIdentifier_traced eof .compass (m.pass t) ho.tail rfl
      exact ⟨(Steps.pass (by simp [isBare, h])).seq hr.steps, hr.kinds⟩
    · exact skip_traced

lemma Parsed.Traced.of_mem {n : Nat} {r : Parsed n α} {o : Option Tree} {faults : Bool} {kinds : Kind → Prop}
    (h : r.Traced eof ts m o.toList faults kinds) : ∀ c ∈ o, kinds c.kind :=
  fun c hc => h.kinds c (Option.mem_toList.mpr hc)

lemma ite_traced {p : Prop} [Decidable p] {n : Nat} {r r' : Parsed n α} (trees : α → List Tree) (faults : α → Bool)
    {kinds : Kind → Prop} (h : p → r.Traced eof ts m (trees r.value) (faults r.value) kinds)
    (h' : ¬ p → r'.Traced eof ts m (trees r'.value) (faults r'.value) kinds) :
    (if p then r else r').Traced eof ts m (trees (if p then r else r').value) (faults (if p then r else r').value)
      kinds := by
  split
  · exact h ‹_›
  · exact h' ‹_›

lemma node_traced {t : Token} {kids : List Tree} {faults : Bool} (make : Tree.Info → Tree) {ts' : List Token}
    {m' : Trail} {cs : List Diagnostic} {kind : Kind}
    (hs : Steps eof (t :: ts) m kids faults ts' m' cs) (hl : ts'.length ≤ ts.length)
    (hp : ∀ i, (make i).Proper) (hc : ∀ i, (make i).children = kids) (hi : ∀ i, (make i).info = i)
    (hk : ∀ i, (make i).IsInner ∧ (make i).kind = kind)
    (hb : ∀ i, ∀ body ∈ (make i).statements?, ∀ s ∈ body, t.span.stop ≤ s.span.start) {n : Nat}
    (hn : ts'.length ≤ n) :
    Parsed.Traced eof (t :: ts) m (n := n) ⟨m'.node t.span.start faults make, ts', m'.grown, cs, hn⟩
      [m'.node t.span.start faults make] false (· = kind) := by
  refine ⟨hs.node make hl (fun i => ⟨hi i, hc i, (hk i).1, hp i⟩) hb, ?_⟩
  simp only [List.mem_singleton, forall_eq]
  exact (hk _).2

lemma port_traced (eof : Span) (m : Trail) {t : Token} (ho : Ordered (t :: ts)) (ht : t.kind = .colon) :
    (port eof t ts m).Traced eof (t :: ts) m [(port eof t ts m).value] false (· = .port) := by
  have hname := requireIdentifier_traced eof .portName (m.pass t) ho.tail rfl
  have hpoint := ite_traced (p := (requireIdentifier eof .portName ts (m.pass t)).value.isSome = true)
    (fun v : Option Tree × Bool => v.1.toList) Prod.snd
    (fun _ => compass_traced eof _ (hname.steps.ordered ho.tail))
    (fun _ => skip_traced (a := (none, false)) (m := (requireIdentifier eof .portName ts (m.pass t)).trail))
  have hs := (@Steps.pass eof t ts m (by simp [isBare, ht])).seq (hname.steps.seq hpoint.steps)
  exact node_traced (.port · _ _) hs (port eof t ts m).fits (fun _ => ⟨hname.of_mem, hpoint.of_mem⟩)
    (fun _ => Tree.children_eq _) (fun _ => rfl) (fun _ => ⟨trivial, rfl⟩) nofun _

lemma optionalPort_traced (eof : Span) (m : Trail) (ho : Ordered ts) :
    (optionalPort eof ts m).Traced eof ts m (optionalPort eof ts m).value.toList false (· = .port) := by
  cases ts with
  | nil => exact skip_traced
  | cons t ts =>
    simp only [optionalPort]
    split
    · rename_i h
      have hp := port_traced eof m ho h
      exact ⟨hp.steps, hp.kinds⟩
    · exact skip_traced

lemma nodeId_traced (eof : Span) (m : Trail) {t : Token} (ho : Ordered (t :: ts)) (ht : t.kind.isIdentifier) :
    (nodeId eof t ts m).Traced eof (t :: ts) m [(nodeId eof t ts m).value] false (· = .nodeId) := by
  have hname := identifier_traced eof m ho ht
  have hplace := optionalPort_traced eof ((identifier eof t ts m).trail) (hname.steps.ordered ho)
  exact node_traced (.nodeId · _ _) (hname.steps.seq hplace.steps) (nodeId eof t ts m).fits
    (fun _ => ⟨hname.kinds _ (by simp), hplace.of_mem⟩)
    (fun _ => Tree.children_eq _) (fun _ => rfl) (fun _ => ⟨trivial, rfl⟩) nofun _

lemma attrValue_traced (eof : Span) (m : Trail) (ho : Ordered ts) :
    (attrValue eof ts m).Traced eof ts m (attrValue eof ts m).value.toList (attrValue eof ts m).value.isNone
      (·.isIdentifier) := by
  cases ts with
  | nil => exact miss_traced rfl
  | cons t ts =>
    simp only [attrValue]
    split
    · rename_i h
      have hr := requireIdentifier_traced eof .attrValue (m.pass t) ho.tail rfl
      exact ⟨(Steps.pass (by simp [isBare, h])).seq hr.steps, hr.kinds⟩
    · exact miss_traced rfl

lemma isToken_of_endsAttr {k : Kind} (h : endsAttr k) : k.isToken := by
  cases k <;> simp [endsAttr, Kind.isToken] at *

lemma attr_traced (eof : Span) (m : Trail) {t : Token} (ho : Ordered (t :: ts)) (ht : t.kind.isIdentifier) :
    (attr eof t ts m).Traced eof (t :: ts) m [(attr eof t ts m).value] false (· = .attr) := by
  have hleft := identifier_traced eof m ho ht
  have hright := attrValue_traced eof ((identifier eof t ts m).trail) (hleft.steps.ordered ho)
  have hstop := optional_traced eof (attrValue eof (identifier eof t ts m).rest (identifier eof t ts m).trail).rest
    (attrValue eof (identifier eof t ts m).rest (identifier eof t ts m).trail).trail fun _ => isToken_of_endsAttr
  have hs := (hleft.steps.seq hright.steps).seq hstop.steps
  rw [Bool.or_false, Bool.false_or] at hs
  exact node_traced (.attr · _ _ _) hs (attr eof t ts m).fits
    (fun _ => ⟨hleft.kinds _ (by simp), hright.of_mem, hstop.of_mem⟩)
    (fun _ => Tree.children_eq _) (fun _ => rfl) (fun _ => ⟨trivial, rfl⟩) nofun _

lemma attrs_traced (eof : Span) (m : Trail) (ho : Ordered ts) :
    (attrs eof ts m).Traced eof ts m (attrs eof ts m).value.1 (attrs eof ts m).value.2 (· = .attr) := by
  fun_induction attrs eof ts m with
  | case1 => exact miss_traced rfl
  | case2 m t ts h => exact ⟨.pass (by simp [isBare, h]), by simp⟩
  | case3 => exact miss_traced rfl
  | case4 m t ts _ _ h a r ih =>
    have ha := attr_traced eof m ho h
    have hr := ih (ha.steps.ordered ho)
    exact ⟨ha.steps.seq hr.steps, List.forall_mem_cons.mpr ⟨ha.kinds _ (List.mem_singleton_self _), hr.kinds⟩⟩
  | case5 m t ts _ _ _ r ih => exact ⟨(Steps.stray _ rfl).seq (ih ho.tail).steps, (ih ho.tail).kinds⟩

lemma attrList_traced (eof : Span) (m : Trail) {t : Token} (ho : Ordered (t :: ts)) (ht : t.kind = .openBracket) :
    (attrList eof t ts m).Traced eof (t :: ts) m [(attrList eof t ts m).value] false (· = .attrList) := by
  have hr := attrs_traced eof (m.pass t) ho.tail
  have hs := (@Steps.pass eof t ts m (by simp [isBare, ht])).seq hr.steps
  exact node_traced (.attrList · _) hs (attrList eof t ts m).fits (fun _ => hr.kinds)
    (fun _ => Tree.children_eq _) (fun _ => rfl) (fun _ => ⟨trivial, rfl⟩) nofun _

lemma attrLists_traced (eof : Span) (m : Trail) (ho : Ordered ts) :
    (attrLists eof ts m).Traced eof ts m (attrLists eof ts m).value false (· = .attrList) := by
  fun_induction attrLists eof ts m with
  | case1 m t ts h a r ih =>
    have ha := attrList_traced eof m ho h
    have hr := ih (ha.steps.ordered ho)
    exact ⟨ha.steps.seq hr.steps, List.forall_mem_cons.mpr ⟨ha.kinds _ (List.mem_singleton_self _), hr.kinds⟩⟩
  | case2 => exact skip_traced
  | case3 => exact skip_traced

lemma terminator_traced (eof : Span) (ts : List Token) (m : Trail) :
    (terminator ts m).Traced eof ts m (terminator ts m).value.toList false (· = .semicolon) := by
  have h := optional_traced eof ts m (@isToken_of_eq .semicolon rfl)
  exact ⟨h.steps, fun c hc => by simpa using h.kinds c hc⟩

lemma isToken_of_isSubject {k : Kind} (h : isSubject k) : k.isToken := by
  cases k <;> simp [isSubject, Kind.isToken] at *

lemma attrStatement_traced (eof : Span) (m : Trail) {t : Token} (ho : Ordered (t :: ts)) (ht : isSubject t.kind) :
    (attrStatement eof t ts m).Traced eof (t :: ts) m [(attrStatement eof t ts m).value] false
      (· = .attrStatement) := by
  have hlists := attrLists_traced eof ((m.pass t).grown) ho.tail
  have hstop := terminator_traced eof (attrLists eof ts (m.pass t).grown).rest
    (attrLists eof ts (m.pass t).grown).trail
  have hbare : Steps eof ts (m.pass t).grown [] (!nextIs (· = .openBracket) ts) ts (m.pass t).grown
      (if !nextIs (· = .openBracket) ts then [expected eof .openBracket ts] else []) := by
    cases nextIs (· = .openBracket) ts
    · exact .complain _ rfl
    · exact .stay
  have hs := (@Steps.leaf eof t ts m (isToken_of_isSubject ht)).seq ((hbare.seq hlists.steps).seq hstop.steps)
  simp only [Bool.or_false, Bool.false_or] at hs
  exact node_traced (.attrStatement · (m.leaf t) _ _) hs (attrStatement eof t ts m).fits
    (fun _ => ⟨ht, hlists.kinds, hstop.of_mem⟩)
    (fun _ => Tree.children_eq _) (fun _ => rfl) (fun _ => ⟨trivial, rfl⟩) nofun _

lemma equation_traced (eof : Span) (m : Trail) {t e : Token} (ho : Ordered (t :: e :: ts))
    (ht : t.kind.isIdentifier) (he : e.kind = .equals) :
    (equation eof t e ts m).Traced eof (t :: e :: ts) m [(equation eof t e ts m).value] false (· = .equation) := by
  have hright := requireIdentifier_traced eof .identifier ((m.pass e).grown) ho.tail.tail rfl
  have hstop := terminator_traced eof (requireIdentifier eof .identifier ts (m.pass e).grown).rest
    (requireIdentifier eof .identifier ts (m.pass e).grown).trail
  have hleft := @Steps.identifier eof t [] (e :: ts) m t.value false ht (by simp)
  have hs := hleft.seq ((Steps.pass (by simp [isBare, he])).seq (hright.steps.seq hstop.steps))
  simp only [Bool.or_false, Bool.false_or, List.any_nil] at hs
  exact node_traced (.equation · (.identifier ⟨m.built, t.span, t.faulty⟩ t.kind t.value) _ _) hs
    (Nat.le_succ_of_le (equation eof t e ts m).fits) (fun _ => ⟨ht, hright.of_mem, hstop.of_mem⟩)
    (fun _ => Tree.children_eq _) (fun _ => rfl) (fun _ => ⟨trivial, rfl⟩) nofun _

lemma nodeStatement_traced {t : Token} {us : List Token} {m₀ : Trail} {node : Tree} {cs : List Diagnostic}
    (hnode : Steps eof (t :: us) m₀ [node] false ts m cs) (hk : node.kind = .nodeId) (hl : ts.length ≤ us.length)
    (ho : Ordered (t :: us)) :
    Steps eof (t :: us) m₀ [(nodeStatement eof t.span.start node ts m).value] false
      (nodeStatement eof t.span.start node ts m).rest (nodeStatement eof t.span.start node ts m).trail
      (cs ++ (nodeStatement eof t.span.start node ts m).complaints) := by
  have hlists := attrLists_traced eof m (hnode.ordered ho)
  have hstop := terminator_traced eof ((attrLists eof ts m).rest) ((attrLists eof ts m).trail)
  have hs := hnode.seq (hlists.steps.seq hstop.steps)
  exact hs.node (.nodeStatement · node _ _) (Nat.le_trans (nodeStatement eof t.span.start node ts m).fits hl)
    (fun _ => ⟨rfl, Tree.children_eq _, trivial, hk, hlists.kinds, hstop.of_mem⟩) nofun

lemma subgraphStatement_traced {t : Token} {us : List Token} {m₀ : Trail} {body : Tree} {cs : List Diagnostic}
    (hbody : Steps eof (t :: us) m₀ [body] false ts m cs) (hk : body.kind = .subgraph)
    (hl : ts.length ≤ us.length) : Steps eof (t :: us) m₀ [(subgraphStatement t.span.start body ts m).value] false
      (subgraphStatement t.span.start body ts m).rest (subgraphStatement t.span.start body ts m).trail
      (cs ++ (subgraphStatement t.span.start body ts m).complaints) := by
  have hstop := terminator_traced eof ts m
  exact (hbody.seq hstop.steps).node (.subgraphStatement · body _)
    (Nat.le_trans (subgraphStatement t.span.start body ts m).fits hl)
    (fun _ => ⟨rfl, Tree.children_eq _, trivial, hk, hstop.of_mem⟩) nofun

lemma edgeStatement_traced {t : Token} {us : List Token} {m₀ : Trail} {source : Tree} {cs : List Diagnostic}
    (hsource : Steps eof (t :: us) m₀ [source] false ts m cs) (hk : source.kind.isEndpoint)
    (hl : ts.length ≤ us.length)
    (ho : Ordered (t :: us))
    (hchain : (chain eof ts m).Traced eof ts m (chain eof ts m).value false (· = .edgeRhs))
    (hne : (chain eof ts m).value ≠ []) :
    Steps eof (t :: us) m₀ [(edgeStatement eof t.span.start source ts m).value] false
      (edgeStatement eof t.span.start source ts m).rest (edgeStatement eof t.span.start source ts m).trail
      (cs ++ (edgeStatement eof t.span.start source ts m).complaints) := by
  have hlists := attrLists_traced eof ((chain eof ts m).trail)
    (hchain.steps.ordered (hsource.ordered ho))
  have hstop := terminator_traced eof (attrLists eof (chain eof ts m).rest (chain eof ts m).trail).rest
    (attrLists eof (chain eof ts m).rest (chain eof ts m).trail).trail
  have hfits := (edgeStatement eof t.span.start source ts m).fits
  have hs := hsource.seq ((hchain.steps.seq hlists.steps).seq hstop.steps)
  rw [edgeStatement] at hfits ⊢
  refine hs.node (.edgeStatement · source _ _ _) (Nat.le_trans hfits hl)
    (fun _ => ⟨rfl, ?_, trivial, hk, hne, hchain.kinds, hlists.kinds, hstop.of_mem⟩) nofun
  simp [Tree.children_eq]

lemma chain_ne_nil (h : nextIs Kind.isEdgeOp ts) : (chain eof ts m).value ≠ [] := by
  cases ts with
  | nil => simp [nextIs] at h
  | cons t ts =>
    rw [chain, if_pos (by exact h)]
    simp

lemma isIdentifier_of_startsStatement {k : Kind} (h : startsStatement k) (hs : isSubject k = false)
    (hb : opensBody k = false) : k.isIdentifier := by
  simpa [startsStatement, hs, hb] using h

lemma isToken_of_isEdgeOp {k : Kind} (h : k.isEdgeOp) : k.isToken := by
  cases k <;> simp [Kind.isEdgeOp, Kind.edgeOp?, Kind.isToken] at *

lemma openedBody_of_closeBrace {c : Token} {behind : List Token} (h : (statements eof ts m).rest = c :: behind)
    (hc : c.kind = .closeBrace) :
    (openedBody eof ts m).value = (statements eof ts m).value ∧ (openedBody eof ts m).rest = behind ∧
      (openedBody eof ts m).trail = (statements eof ts m).trail.pass c ∧
      (openedBody eof ts m).complaints = (statements eof ts m).complaints := by
  rw [openedBody]
  split
  · rename_i c' behind' h'
    obtain ⟨rfl, rfl⟩ := List.cons.inj (h.symm.trans h')
    simp [hc]
  · rename_i h'
    rw [h] at h'
    cases h'

lemma openedBody_of_unclosed (h : nextIs (· = .closeBrace) (statements eof ts m).rest = false) :
    (openedBody eof ts m).value = ((statements eof ts m).value.1, true) ∧
      (openedBody eof ts m).rest = (statements eof ts m).rest ∧
      (openedBody eof ts m).trail = (statements eof ts m).trail ∧
      (openedBody eof ts m).complaints =
        (statements eof ts m).complaints ++ [expected eof .closeBrace (statements eof ts m).rest] := by
  rw [openedBody]
  split
  · rename_i c behind hr
    have hc : ¬ c.kind = .closeBrace := by simpa [hr, nextIs] using h
    simp [hc]
  · simp

lemma openedBody_trees (eof : Span) (ts : List Token) (m : Trail) :
    (openedBody eof ts m).value.1 = (statements eof ts m).value.1 := by
  rw [openedBody]
  split
  · split <;> rfl
  · rfl

mutual

theorem statements_traced (ts : List Token) (m : Trail) (ho : Ordered ts) :
    (statements eof ts m).Traced eof ts m (statements eof ts m).value.1 (statements eof ts m).value.2
      (·.isStatement) := by
  cases ts with
  | nil => rw [statements]; exact skip_traced
  | cons t ts =>
    rw [statements]
    split
    · exact skip_traced
    split
    · rename_i h
      have hr := statements_traced ts (m.pass t) ho.tail
      exact ⟨(Steps.pass (by simp [isBare, h])).seq hr.steps, hr.kinds⟩
    split
    · rename_i h
      have hst := statement_traced t ts m ho h
      have hfits := (statement eof t ts m).fits
      have hr := statements_traced (statement eof t ts m).rest (statement eof t ts m).trail (hst.steps.ordered ho)
      exact ⟨hst.steps.seq hr.steps, List.forall_mem_cons.mpr ⟨hst.kinds _ (List.mem_singleton_self _), hr.kinds⟩⟩
    · have hr := statements_traced ts (m.pass t) ho.tail
      exact ⟨(Steps.stray _ rfl).seq hr.steps, hr.kinds⟩
  termination_by 8 * ts.length + 4
  decreasing_by all_goals subst_vars; simp only [List.length_cons]; omega

theorem statement_traced (t : Token) (ts : List Token) (m : Trail) (ho : Ordered (t :: ts))
    (ht : startsStatement t.kind) :
    (statement eof t ts m).Traced eof (t :: ts) m [(statement eof t ts m).value] false (·.isStatement) := by
  rw [statement.eq_def]
  split
  · rename_i h
    have := attrStatement_traced eof m ho h
    exact ⟨this.steps, fun c hc => by rw [this.kinds c hc]; rfl⟩
  rename_i hsub
  split
  · rename_i h
    have hbody := subgraph_traced t ts m ho h
    have hfits := (subgraph eof t ts m).fits
    have hk := hbody.kinds _ (List.mem_singleton_self _)
    simp only
    split
    · rename_i hop
      have hchain := chain_traced (subgraph eof t ts m).rest (subgraph eof t ts m).trail (hbody.steps.ordered ho)
      exact ⟨edgeStatement_traced hbody.steps (by simp [Kind.isEndpoint, hk]) hfits ho hchain
        (chain_ne_nil hop), by
        rw [edgeStatement]; simp [Trail.node, Tree.kind, Kind.isStatement]⟩
    · exact ⟨subgraphStatement_traced hbody.steps hk hfits, by
        simp [subgraphStatement, Trail.node, Tree.kind, Kind.isStatement]⟩
  rename_i hbody
  have hid := isIdentifier_of_startsStatement ht (by simpa using hsub) (by simpa using hbody)
  cases ts with
  | nil => exact namedStatement_traced t [] m ho hid
  | cons e ts =>
    simp only
    split
    · rename_i he
      have := equation_traced eof m ho hid he
      exact ⟨this.steps, fun c hc => by rw [this.kinds c hc]; rfl⟩
    · exact namedStatement_traced t (e :: ts) m ho hid
  termination_by 8 * ts.length + 11
  decreasing_by all_goals subst_vars; omega

theorem namedStatement_traced (t : Token) (ts : List Token) (m : Trail) (ho : Ordered (t :: ts))
    (ht : t.kind.isIdentifier) :
    (namedStatement eof t ts m).Traced eof (t :: ts) m [(namedStatement eof t ts m).value] false
      (·.isStatement) := by
  have hnode := nodeId_traced eof m ho ht
  have hfits := (nodeId eof t ts m).fits
  have hk := hnode.kinds _ (List.mem_singleton_self _)
  rw [namedStatement]
  simp only
  split
  · rename_i hop
    have hchain := chain_traced (nodeId eof t ts m).rest (nodeId eof t ts m).trail (hnode.steps.ordered ho)
    exact ⟨edgeStatement_traced hnode.steps (by simp [Kind.isEndpoint, hk]) hfits ho hchain (chain_ne_nil hop), by
      rw [edgeStatement]; simp [Trail.node, Tree.kind, Kind.isStatement]⟩
  · exact ⟨nodeStatement_traced hnode.steps hk hfits ho, by
      simp [nodeStatement, Trail.node, Tree.kind, Kind.isStatement]⟩
  termination_by 8 * ts.length + 10
  decreasing_by omega

theorem chain_traced (ts : List Token) (m : Trail) (ho : Ordered ts) :
    (chain eof ts m).Traced eof ts m (chain eof ts m).value false (· = .edgeRhs) := by
  cases ts with
  | nil => rw [chain]; exact skip_traced
  | cons t ts =>
    rw [chain]
    split
    · rename_i hop
      have htip := target_traced ts (m.pass t).grown ho.tail
      have hfits := (target eof ts (m.pass t).grown).fits
      have hr := chain_traced (target eof ts (m.pass t).grown).rest (target eof ts (m.pass t).grown).trail.grown
        (htip.steps.ordered ho.tail)
      have hs := (@Steps.leaf eof t ts m (isToken_of_isEdgeOp hop)).seq htip.steps
      have hn := hs.node (.edgeRhs · (m.leaf t) _) hfits
        (fun _ => ⟨rfl, Tree.children_eq _, trivial, hop, htip.of_mem⟩) nofun
      exact ⟨hn.seq hr.steps, List.forall_mem_cons.mpr ⟨rfl, hr.kinds⟩⟩
    · exact skip_traced
  termination_by 8 * ts.length + 8
  decreasing_by all_goals subst_vars; simp only [List.length_cons]; omega

theorem target_traced (ts : List Token) (m : Trail) (ho : Ordered ts) :
    (target eof ts m).Traced eof ts m (target eof ts m).value.toList (target eof ts m).value.isNone
      (·.isEndpoint) := by
  cases ts with
  | nil => rw [target]; exact miss_traced rfl
  | cons t ts =>
    rw [target]
    split
    · rename_i h
      have hr := subgraph_traced t ts m ho h
      exact ⟨hr.steps, fun c hc => by rw [hr.kinds c hc]; rfl⟩
    split
    · rename_i h
      have hr := nodeId_traced eof m ho h
      exact ⟨hr.steps, fun c hc => by rw [hr.kinds c hc]; rfl⟩
    · exact miss_traced rfl
  termination_by 8 * ts.length + 3
  decreasing_by all_goals subst_vars; simp only [List.length_cons]; omega

theorem subgraph_traced (t : Token) (ts : List Token) (m : Trail) (ho : Ordered (t :: ts))
    (ht : opensBody t.kind) :
    (subgraph eof t ts m).Traced eof (t :: ts) m [(subgraph eof t ts m).value] false (· = .subgraph) := by
  rw [subgraph]
  split
  · rename_i h
    have hname := optionalIdentifier_traced eof ((m.pass t).grown) ho.tail
    have hfits := (optionalIdentifier eof ts (m.pass t).grown).fits
    have hbody := bracedBody_traced (optionalIdentifier eof ts (m.pass t).grown).rest
      (optionalIdentifier eof ts (m.pass t).grown).trail (hname.steps.ordered ho.tail)
    have hs := (@Steps.leaf eof t ts m (by simp [h, Kind.isToken])).seq (hname.steps.seq hbody.steps)
    have hbehind := List.forall_mem_append.mp ((hname.steps.seq hbody.steps).le_start ho.behind)
    exact node_traced (.subgraph · (some (m.leaf t)) _ _) hs (Nat.le_trans (bracedBody eof _ _).fits hfits)
      (fun _ => ⟨by simpa [Trail.leaf, Tree.kind] using h, hname.of_mem, hbody.kinds⟩)
      (fun _ => Tree.children_eq _) (fun _ => rfl) (fun _ => ⟨trivial, rfl⟩)
      (fun _ _ he => Option.some.inj he ▸ hbehind.2) _
  · rename_i h
    have hopen : t.kind = .openBrace := by simpa [opensBody, h] using ht
    have hbody := openedBody_traced ts (m.pass t) ho.tail
    have hs := (@Steps.pass eof t ts m (by simp [isBare, hopen])).seq hbody.steps
    exact node_traced (.subgraph · none none _) hs (openedBody eof _ _).fits
      (fun _ => ⟨by simp, by simp, hbody.kinds⟩) (fun _ => Tree.children_eq _) (fun _ => rfl)
      (fun _ => ⟨trivial, rfl⟩)
      (fun _ _ he => Option.some.inj he ▸ hbody.steps.le_start ho.behind) _
  termination_by 8 * ts.length + 10
  decreasing_by all_goals omega

theorem bracedBody_traced (ts : List Token) (m : Trail) (ho : Ordered ts) :
    (bracedBody eof ts m).Traced eof ts m (bracedBody eof ts m).value.1 (bracedBody eof ts m).value.2
      (·.isStatement) := by
  cases ts with
  | nil => rw [bracedBody]; exact miss_traced rfl
  | cons t ts =>
    rw [bracedBody]
    split
    · rename_i h
      have hr := openedBody_traced ts (m.pass t) ho.tail
      exact ⟨(Steps.pass (by simp [isBare, h])).seq hr.steps, hr.kinds⟩
    · exact miss_traced rfl
  termination_by 8 * ts.length + 6
  decreasing_by all_goals subst_vars; simp only [List.length_cons]; omega

theorem openedBody_traced (ts : List Token) (m : Trail) (ho : Ordered ts) :
    (openedBody eof ts m).Traced eof ts m (openedBody eof ts m).value.1 (openedBody eof ts m).value.2
      (·.isStatement) := by
  have hr := statements_traced ts m ho
  have hunclosed := hr.steps.seq (.complain .closeBrace rfl)
  rw [List.append_nil, Bool.or_true] at hunclosed
  rw [openedBody]
  split
  · rename_i t rest hrest
    split
    · rename_i h
      have hs := hrest ▸ hr.steps
      have := hs.seq (.pass (by simp [isBare, h]))
      simp only [List.append_nil, Bool.or_false] at this
      exact ⟨this, hr.kinds⟩
    · exact ⟨hunclosed, hr.kinds⟩
  · exact ⟨hunclosed, hr.kinds⟩
  termination_by 8 * ts.length + 5
  decreasing_by omega

end

lemma isToken_of_graphKind? {k : Kind} (h : k.graphKind?.isSome) : k.isToken := by
  cases k <;> simp [Kind.graphKind?, Kind.isToken] at *

lemma graphKind?_isSome {k : Kind} (h : isGraphKeyword k) : k.graphKind?.isSome := by
  cases k <;> simp [isGraphKeyword, Kind.graphKind?] at *

lemma graphFrom_traced (limit : Nat) {t k : Token} {us : List Token} {m₀ : Trail} {strict : Option Tree}
    (hs : Steps eof (t :: us) m₀ strict.toList false (k :: ts) m [])
    (hstrict : ∀ s ∈ strict, s.kind = .strictKeyword)
    (hk : k.kind.graphKind?.isSome) (ho : Ordered (t :: us)) (hl : ts.length ≤ us.length) :
    ∃ graph rest m' cs,
      graphFrom eof limit t.span.start strict k ts m = ⟨some graph, none, cs ++ trailing limit rest⟩ ∧
      Steps eof (t :: us) m₀ [graph] false rest m' cs ∧ graph.kind = .graph ∧ graph.span.stop = m'.lastEnd := by
  have hok := hs.ordered ho
  have hname := optionalIdentifier_traced eof ((m.pass k).grown) hok.tail
  have hfits := (optionalIdentifier eof ts (m.pass k).grown).fits
  have hbody := @bracedBody_traced eof (optionalIdentifier eof ts (m.pass k).grown).rest
    (optionalIdentifier eof ts (m.pass k).grown).trail (hname.steps.ordered hok.tail)
  have hfits' := (bracedBody eof (optionalIdentifier eof ts (m.pass k).grown).rest
    (optionalIdentifier eof ts (m.pass k).grown).trail).fits
  have hsteps := (hs.seq (.leaf (isToken_of_graphKind? hk))).seq (hname.steps.seq hbody.steps)
  have hts : ∀ u ∈ ts, u ∈ us := by
    obtain ⟨used, hused⟩ := hs.exists_used
    cases used with
    | nil => obtain ⟨-, rfl⟩ := List.cons.inj hused; exact fun _ => id
    | cons _ used => obtain ⟨-, rfl⟩ := List.cons.inj hused; exact fun u hu => by simp [hu]
  have hbehind := List.forall_mem_append.mp
    ((hname.steps.seq hbody.steps).le_start fun u hu => ho.behind u (hts u hu))
  refine ⟨_, _, _, _, rfl, hsteps.node (.graph · strict (m.leaf k) _ _) (by omega)
    (fun _ => ⟨rfl, ?_, trivial, hstrict, hk, hname.of_mem, hbody.kinds⟩)
    (fun _ _ he => Option.some.inj he ▸ hbehind.2), rfl, rfl⟩
  simp [Tree.children_eq]

/-- The way to the graph of a token list, if there is one: it starts with the first token, and what it leaves
behind is complained about as a whole. -/
theorem source_traced {limit : Nat} {graph : Tree} (ho : Ordered ts)
    (h : (source eof limit ts).graph = some graph) :
    ∃ rest m cs, Steps eof ts .start [graph] false rest m cs ∧ graph.kind = .graph ∧ graph.span.stop = m.lastEnd ∧
      (source eof limit ts).diagnostics = cs ++ trailing limit rest ∧ (source eof limit ts).loose = none := by
  cases ts with
  | nil => simp [source] at h
  | cons t ts =>
    have hstrict := optional_traced eof (t :: ts) .start (@isToken_of_eq .strictKeyword rfl)
    have hfits := (optional (· = .strictKeyword) (t :: ts) .start).fits
    have hnil : (optional (· = .strictKeyword) (t :: ts) .start).complaints = [] := by
      simp only [optional]
      split <;> rfl
    have hs := hstrict.steps
    rw [hnil] at hs
    simp only [source] at h ⊢
    generalize (optional (· = .strictKeyword) (t :: ts) .start).rest = rest at h hfits hs ⊢
    cases rest with
    | nil => simp at h
    | cons k rest =>
      simp only at h ⊢
      split at h
      · rename_i hk
        rw [if_pos hk]
        obtain ⟨g, rest', m', cs, he, hg, hkind, hstop⟩ := graphFrom_traced limit hs
          (fun s hs => by simpa using hstrict.of_mem s hs) (graphKind?_isSome hk) ho (by simpa using hfits)
        rw [he] at h ⊢
        obtain rfl := Option.some.inj h
        exact ⟨rest', m', cs, hg, hkind, hstop, rfl, rfl⟩
      · simp at h

def limitOf (ts : List Token) : Nat := ts.getLast?.elim 0 (·.span.stop)

lemma ofTokens_concat {ts : List Token} {e : Token} (h : ∀ t ∈ ts, t.kind ≠ .endOfFile)
    (he : e.kind = .endOfFile) : ofTokens (ts ++ [e]) = source e.span (limitOf ts) ts := by
  have hends : endsFile e = true := decide_eq_true he
  have hnot : ∀ t ∈ ts, endsFile t = false := fun t ht => by simp [endsFile, h t ht]
  have hclosed : closed (ts ++ [e]) = ts ++ [e] := by simp [closed, hends]
  have hfind : (ts ++ [e]).find? endsFile = some e := by
    rw [List.find?_append, List.find?_eq_none.mpr (by simpa using hnot)]
    simp [hends]
  have htake : (ts ++ [e]).takeWhile (!endsFile ·) = ts := by
    rw [List.takeWhile_append_of_pos (by simpa using hnot)]
    simp [hends]
  simp only [ofTokens, hclosed, hfind, htake]
  simp [limitOf]

end DotMend.Parse
