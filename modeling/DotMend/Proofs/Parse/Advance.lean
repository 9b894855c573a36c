import DotMend.Proofs.Parse.Guarded

namespace DotMend.Parse.Guarded

variable {α β : Type} {stop : Nat} {tokens : List Token} {p q : Kind → Bool}

lemma run_bind_eq_some {x : Reader α} {f : α → Reader β} {s s'' : State} {b : β}
    (h : (x >>= f) s = some (b, s'')) : ∃ a s', x s = some (a, s') ∧ f a s' = some (b, s'') := by
  obtain ⟨⟨a, s'⟩, hx, hf⟩ := Option.bind_eq_some_iff.mp h
  exact ⟨a, s', hx, hf⟩

def Still (x : Reader α) : Prop := ∀ ⦃s a s'⦄, x s = some (a, s') → s'.index = s.index

/-- The reader goes neither back nor behind `stop`. -/
def Within (stop : Nat) (x : Reader α) : Prop := ∀ ⦃s a s'⦄, x s = some (a, s') → s.index ≤ stop →
  s.index ≤ s'.index ∧ s'.index ≤ stop

/-- The reader takes a token whenever it stands on one that `p` holds of. -/
def Takes (tokens : List Token) (stop : Nat) (p : Kind → Bool) (x : Reader α) : Prop :=
  ∀ ⦃s t a s'⦄, tokens[s.index]? = some t → p t.kind → x s = some (a, s') → s.index ≤ stop →
    s.index < s'.index ∧ s'.index ≤ stop

def Stops (tokens : List Token) (stop : Nat) (p : Kind → Bool) (x : Reader α) : Prop :=
  ∀ ⦃s a s'⦄, x s = some (a, s') → s.index ≤ stop → ∃ t, tokens[s'.index]? = some t ∧ p t.kind

section Combinators

variable {x y : Reader α} {f : α → Reader β}

lemma Still.bind (hx : Still x) (hf : ∀ a, Still (f a)) : Still (x >>= f) := by
  intro s b s'' h
  obtain ⟨a, s', h₁, h₂⟩ := run_bind_eq_some h
  rw [hf a h₂, hx h₁]

lemma Still.of_map {r : State → Option α} : Still fun s => (r s).map (·, s) := by
  intro s a s' h
  obtain ⟨_, -, h⟩ := Option.map_eq_some_iff.mp h
  rw [(Prod.mk.inj h).2]

lemma Still.within (hx : Still x) : Within stop x := by
  intro s a s' h hs
  rw [hx h]
  exact ⟨le_rfl, hs⟩

lemma Within.pure (a : α) : Within stop (Pure.pure a : Reader α) := by
  intro s b s' h hs
  obtain ⟨-, rfl⟩ := Prod.mk.inj (Option.some.inj h)
  exact ⟨le_rfl, hs⟩

lemma Within.none : Within stop (fun _ => Option.none : Reader α) := by
  intro s a s' h
  cases h

lemma Within.bind (hx : Within stop x) (hf : ∀ a, Within stop (f a)) : Within stop (x >>= f) := by
  intro s b s'' h hs
  obtain ⟨a, s', h₁, h₂⟩ := run_bind_eq_some h
  obtain ⟨hle, hs'⟩ := hx h₁ hs
  obtain ⟨hle', hs''⟩ := hf a h₂ hs'
  exact ⟨hle.trans hle', hs''⟩

lemma Within.ite {c : Prop} [Decidable c] (hx : Within stop x) (hy : Within stop y) :
    Within stop (if c then x else y) := by
  split
  · exact hx
  · exact hy

lemma Takes.bind (hx : Takes tokens stop p x) (hf : ∀ a, Within stop (f a)) : Takes tokens stop p (x >>= f) := by
  intro s t b s'' ht hp h hs
  obtain ⟨a, s', h₁, h₂⟩ := run_bind_eq_some h
  obtain ⟨hlt, hs'⟩ := hx ht hp h₁ hs
  obtain ⟨hle, hs''⟩ := hf a h₂ hs'
  exact ⟨hlt.trans_le hle, hs''⟩

lemma Takes.still_bind (hx : Still x) (hf : ∀ a, Takes tokens stop p (f a)) : Takes tokens stop p (x >>= f) := by
  intro s t b s'' ht hp h hs
  obtain ⟨a, s', h₁, h₂⟩ := run_bind_eq_some h
  have heq := hx h₁
  rw [← heq] at ht hs ⊢
  exact hf a ht hp h₂ hs

lemma Takes.run_bind {a : α}
    (hx : ∀ ⦃s t⦄, s.index ≤ stop → tokens[s.index]? = some t → p t.kind → x s = some (a, s))
    (hf : Takes tokens stop p (f a)) : Takes tokens stop p (x >>= f) := by
  intro s t b s'' ht hp h hs
  rw [Guarded.run_bind (hx hs ht hp)] at h
  exact hf ht hp h hs

lemma Takes.mono (hx : Takes tokens stop q x) (h : ∀ k, p k → q k) : Takes tokens stop p x :=
  fun _ t _ _ ht hp => hx ht (h t.kind hp)

lemma Stops.bind (hx : Within stop x) (hf : ∀ a, Stops tokens stop p (f a)) : Stops tokens stop p (x >>= f) := by
  intro s b s'' h hs
  obtain ⟨a, s', h₁, h₂⟩ := run_bind_eq_some h
  exact hf a h₂ (hx h₁ hs).2

lemma Stops.bind_still (hx : Stops tokens stop p x) (hf : ∀ a, Still (f a)) : Stops tokens stop p (x >>= f) := by
  intro s b s'' h hs
  obtain ⟨a, s', h₁, h₂⟩ := run_bind_eq_some h
  rw [hf a h₂]
  exact hx h₁ hs

/-- The reader takes a token unless it stands at the end of the file. -/
structure Consumes (tokens : List Token) (stop : Nat) (x : Reader α) : Prop where
  within : Within stop x
  takes : Takes tokens stop (· ≠ .endOfFile) x

lemma Consumes.bind (hx : Consumes tokens stop x) (hf : ∀ a, Within stop (f a)) : Consumes tokens stop (x >>= f) :=
  ⟨hx.within.bind hf, hx.takes.bind hf⟩

lemma Consumes.takes_on (hx : Consumes tokens stop x) {k : Kind} (hk : k ≠ .endOfFile) :
    Takes tokens stop (· = k) x :=
  hx.takes.mono fun _ h => decide_eq_true (of_decide_eq_true h ▸ hk)

lemma Consumes.still_bind (hx : Still x) (hf : ∀ a, Consumes tokens stop (f a)) : Consumes tokens stop (x >>= f) :=
  ⟨hx.within.bind fun a => (hf a).within, .still_bind hx fun a => (hf a).takes⟩

end Combinators

lemma Still.pure (a : α) : Still (Pure.pure a : Reader α) := fun _ _ _ h => by
  rw [(Prod.mk.inj (Option.some.inj h)).2]

section Basic

lemma still_current : Still (current tokens) := .of_map

lemma still_sees : Still (sees tokens p) := still_current.bind fun _ => .pure _

lemma still_startAt : Still (startAt tokens) := still_current.bind fun _ => .pure _

lemma still_secondKind : Still (secondKind tokens) := Still.of_map (r := fun _ => some _)

lemma still_lastEnd : Still (lastEnd tokens) := by
  intro s a s' h
  rw [lastEnd] at h
  split at h
  · rw [(Prod.mk.inj (Option.some.inj h)).2]
  · obtain ⟨_, -, h⟩ := Option.map_eq_some_iff.mp h
    rw [(Prod.mk.inj h).2]

lemma still_lastToken : Still (lastToken tokens) := by
  intro s a s' h
  rw [lastToken] at h
  split at h
  · obtain ⟨_, -, h⟩ := Option.map_eq_some_iff.mp h
    rw [(Prod.mk.inj h).2]
  · cases h

lemma forward_run {start stop : Nat} {span : Span} {s s' : State} (h : forward start stop s = some (span, s')) :
    span = ⟨start, stop⟩ ∧ s' = s := by
  obtain ⟨_, hspan, h⟩ := Option.map_eq_some_iff.mp h
  obtain ⟨rfl, rfl⟩ := Prod.mk.inj h
  rw [Span.forward?] at hspan
  split at hspan
  · exact ⟨(Option.some.inj hspan).symm, rfl⟩
  · cases hspan

lemma still_report {d : Diagnostic} : Still (report d) := by
  intro s a s' h
  rw [← (Prod.mk.inj (Option.some.inj h)).2]

lemma still_complain {what : Expectation} : Still (complain tokens what) :=
  still_current.bind fun _ => still_report

lemma still_alloc {span : Span} {faulty : Bool} {make : Tree.Info → Tree} : Still (alloc span faulty make) := by
  intro s a s' h
  simp only [alloc] at h
  split at h
  · rw [← (Prod.mk.inj (Option.some.inj h)).2]
  · cases h

lemma still_node {start : Nat} {faulty : Bool} {make : Tree.Info → Tree} : Still (node tokens start faulty make) :=
  still_lastEnd.bind fun _ => Still.of_map.bind fun _ => still_alloc

end Basic

def EndsAt (tokens : List Token) (stop : Nat) : Prop := ∃ e, tokens[stop]? = some e ∧ e.kind = .endOfFile

section Readers

variable (he : EndsAt tokens stop)

include he

lemma exists_next {s : State} (hs : s.index ≤ stop) : ∃ t, tokens[s.index]? = some t := by
  obtain ⟨e, he, -⟩ := he
  obtain ⟨hlt, -⟩ := List.getElem?_eq_some_iff.mp he
  exact ⟨_, List.getElem?_eq_getElem (hs.trans_lt hlt)⟩

lemma current_run {s : State} {t : Token} (hs : s.index ≤ stop) (ht : tokens[s.index]? = some t) :
    current tokens s = some (t, s) := by
  obtain ⟨e, he, -⟩ := he
  obtain ⟨hlt, -⟩ := List.getElem?_eq_some_iff.mp he
  rw [current, Nat.min_eq_left (by omega), ht]
  rfl

lemma sees_run {s : State} {t : Token} (hs : s.index ≤ stop) (ht : tokens[s.index]? = some t) :
    sees tokens p s = some (p t.kind, s) := by
  rw [sees, run_bind (current_run he hs ht)]
  rfl

lemma takes_current {f : Token → Reader β} (h : ∀ t, p t.kind → Takes tokens stop (· = t.kind) (f t)) :
    Takes tokens stop p (current tokens >>= f) := by
  intro s t b s' ht hp hrun hs
  rw [run_bind (current_run he hs ht)] at hrun
  exact h t hp ht (decide_eq_true rfl) hrun hs

lemma takes_bump : Takes tokens stop (· ≠ .endOfFile) (bump tokens) := by
  obtain ⟨e, hget, hend⟩ := id he
  intro s t a s' ht hk h hs
  rw [bump, run_bind (current_run he hs ht), if_neg (of_decide_eq_true hk)] at h
  obtain ⟨-, rfl⟩ := Prod.mk.inj (Option.some.inj h)
  have hne : s.index ≠ stop := by
    rintro heq
    rw [heq, hget] at ht
    obtain rfl := Option.some.inj ht
    exact of_decide_eq_true hk hend
  exact ⟨Nat.lt_succ_self _, Nat.lt_of_le_of_ne hs hne⟩

lemma consumes_bump : Consumes tokens stop (bump tokens) := by
  refine ⟨fun s a s' h hs => ?_, takes_bump he⟩
  obtain ⟨t, ht⟩ := exists_next he hs
  by_cases hk : t.kind = .endOfFile
  · rw [bump, run_bind (current_run he hs ht), if_pos hk] at h
    obtain ⟨-, rfl⟩ := Prod.mk.inj (Option.some.inj h)
    exact ⟨le_rfl, hs⟩
  · obtain ⟨hlt, hs'⟩ := takes_bump he ht (decide_eq_true hk) h hs
    exact ⟨hlt.le, hs'⟩

lemma consumes_leaf : Consumes tokens stop (leaf tokens) := (consumes_bump he).bind fun _ => still_alloc.within

lemma within_optional : Within stop (optional tokens p) :=
  still_sees.within.bind fun _ => .ite ((consumes_leaf he).within.bind fun _ => .pure _) (.pure _)

lemma within_joined {rounds : Nat} {j : Joined} : Within stop (joined tokens rounds j) := by
  induction rounds generalizing j with
  | zero => exact .none
  | succ rounds ih =>
    exact still_sees.within.bind fun _ => .ite
      ((consumes_bump he).within.bind fun _ => still_sees.within.bind fun _ =>
        .ite ((consumes_bump he).within.bind fun _ => ih)
          (still_complain.within.bind fun _ => still_lastEnd.within.bind fun _ =>
            Still.of_map.within.bind fun _ => .pure _))
      (.pure _)

lemma within_whole {t : Token} : Within stop (whole tokens t) := .ite (within_joined he) (.pure _)

lemma consumes_identifier : Consumes tokens stop (identifier tokens) :=
  (consumes_bump he).bind fun _ => (within_whole he).bind fun _ => still_alloc.within

lemma within_requireIdentifier {what : Expectation} : Within stop (requireIdentifier tokens what) :=
  still_sees.within.bind fun _ => .ite ((consumes_identifier he).within.bind fun _ => .pure _)
    (still_complain.within.bind fun _ => .pure _)

lemma within_optionalIdentifier : Within stop (optionalIdentifier tokens) :=
  still_sees.within.bind fun _ => .ite ((consumes_identifier he).within.bind fun _ => .pure _) (.pure _)

lemma within_compass {name : Option Tree} : Within stop (compass tokens name) := by
  cases name with
  | none => exact .pure _
  | some _ =>
    exact still_sees.within.bind fun _ => .ite
      ((consumes_bump he).within.bind fun _ => (within_requireIdentifier he).bind fun _ => .pure _) (.pure _)

lemma within_port : Within stop (port tokens) :=
  still_startAt.within.bind fun _ => (consumes_bump he).within.bind fun _ =>
    (within_requireIdentifier he).bind fun _ => (within_compass he).bind fun _ => still_node.within

lemma within_optionalPort : Within stop (optionalPort tokens) :=
  still_sees.within.bind fun _ => .ite ((within_port he).bind fun _ => .pure _) (.pure _)

lemma consumes_nodeId : Consumes tokens stop (nodeId tokens) :=
  .still_bind still_startAt fun _ => (consumes_identifier he).bind fun _ => (within_optionalPort he).bind fun _ =>
    still_node.within

lemma within_attrValue : Within stop (attrValue tokens) :=
  still_sees.within.bind fun _ => .ite ((consumes_bump he).within.bind fun _ => within_requireIdentifier he)
    (still_complain.within.bind fun _ => .pure _)

lemma consumes_attr : Consumes tokens stop (attr tokens) :=
  .still_bind still_startAt fun _ => (consumes_identifier he).bind fun _ => (within_attrValue he).bind fun _ =>
    (within_optional he).bind fun _ => still_node.within

lemma within_attrs {rounds : Nat} : Within stop (attrs tokens rounds) := by
  induction rounds with
  | zero => exact .none
  | succ rounds ih =>
    exact still_current.within.bind fun _ => .ite ((consumes_bump he).within.bind fun _ => .pure _) <|
      .ite (still_complain.within.bind fun _ => .pure _) <|
      .ite ((consumes_attr he).within.bind fun _ => ih.bind fun _ => .pure _) <|
      still_complain.within.bind fun _ => (consumes_bump he).within.bind fun _ => ih.bind fun _ => .pure _

lemma consumes_attrList : Consumes tokens stop (attrList tokens) :=
  .still_bind still_startAt fun _ => (consumes_bump he).bind fun _ => (within_attrs he).bind fun _ =>
    still_node.within

lemma within_attrLists : Within stop (attrLists tokens) := by
  rw [attrLists]
  generalize tokens.length = rounds
  induction rounds with
  | zero => exact .none
  | succ rounds ih =>
    exact still_sees.within.bind fun _ =>
      .ite ((consumes_attrList he).within.bind fun _ => ih.bind fun _ => .pure _) (.pure _)

lemma within_terminator : Within stop (terminator tokens) := within_optional he

lemma consumes_attrStatement {start : Nat} : Consumes tokens stop (attrStatement tokens start) :=
  (consumes_leaf he).bind fun _ => still_sees.within.bind fun _ =>
    (Within.ite (.pure _) still_complain.within).bind fun _ => (within_attrLists he).bind fun _ =>
    (within_terminator he).bind fun _ => still_node.within

lemma consumes_equation {start : Nat} : Consumes tokens stop (equation tokens start) :=
  (consumes_identifier he).bind fun _ => (consumes_bump he).within.bind fun _ =>
    (within_requireIdentifier he).bind fun _ => (within_terminator he).bind fun _ => still_node.within

lemma within_nodeStatement {start : Nat} {name : Tree} : Within stop (nodeStatement tokens start name) :=
  (within_attrLists he).bind fun _ => (within_terminator he).bind fun _ => still_node.within

lemma within_subgraphStatement {start : Nat} {body : Tree} : Within stop (subgraphStatement tokens start body) :=
  (within_terminator he).bind fun _ => still_node.within

lemma within_subgraphName {keyword : Option Tree} : Within stop (subgraphName tokens keyword) := by
  cases keyword with
  | none => exact .pure _
  | some _ => exact within_optionalIdentifier he

structure Nested (tokens : List Token) (stop depth : Nat) : Prop where
  statements : Within stop (statements tokens depth)
  statement : Within stop (statement tokens depth)
  edgeStatement : ∀ start source, Within stop (edgeStatement tokens depth start source)
  chain : Within stop (chain tokens depth)
  edgeRhs : Within stop (edgeRhs tokens depth)
  target : Within stop (target tokens depth)
  subgraph : Within stop (subgraph tokens depth)
  bracedBody : Within stop (bracedBody tokens depth)
  openedBody : Within stop (openedBody tokens depth)

lemma nested (depth : Nat) : Nested tokens stop depth := by
  induction depth with
  | zero => exact ⟨.none, .none, fun _ _ => .none, .none, .none, .none, .none, .none, .none⟩
  | succ depth ih =>
    constructor
    case statements =>
      rw [statements]
      exact still_current.within.bind fun _ => .ite (.pure _) <|
        .ite ((consumes_bump he).within.bind fun _ => ih.statements) <|
        .ite (ih.statement.bind fun _ => ih.statements.bind fun _ => .pure _) <|
        still_complain.within.bind fun _ => (consumes_bump he).within.bind fun _ => ih.statements.bind fun _ =>
          .pure _
    case statement =>
      rw [statement]
      exact still_current.within.bind fun _ => .ite (consumes_attrStatement he).within <|
        .ite (ih.subgraph.bind fun _ => still_sees.within.bind fun _ =>
          .ite (ih.edgeStatement _ _) (within_subgraphStatement he)) <|
        still_secondKind.within.bind fun _ => .ite (consumes_equation he).within <|
        (consumes_nodeId he).within.bind fun _ => still_sees.within.bind fun _ =>
          .ite (ih.edgeStatement _ _) (within_nodeStatement he)
    case edgeStatement =>
      intro start source
      rw [edgeStatement]
      exact ih.chain.bind fun _ => (within_attrLists he).bind fun _ => (within_terminator he).bind fun _ =>
        still_node.within
    case chain =>
      rw [chain]
      exact still_sees.within.bind fun _ =>
        .ite (ih.edgeRhs.bind fun _ => ih.chain.bind fun _ => .pure _) (.pure _)
    case edgeRhs =>
      rw [edgeRhs]
      exact still_startAt.within.bind fun _ => (consumes_leaf he).within.bind fun _ => ih.target.bind fun _ =>
        still_node.within
    case target =>
      rw [target]
      exact still_sees.within.bind fun _ => .ite (ih.subgraph.bind fun _ => .pure _) <|
        still_sees.within.bind fun _ => .ite ((consumes_nodeId he).within.bind fun _ => .pure _) <|
        still_complain.within.bind fun _ => .pure _
    case subgraph =>
      rw [subgraph]
      exact still_startAt.within.bind fun _ => (within_optional he).bind fun _ =>
        (within_subgraphName he).bind fun _ =>
        ih.bracedBody.bind fun _ => still_node.within
    case bracedBody =>
      rw [bracedBody]
      exact still_sees.within.bind fun _ => .ite ((consumes_bump he).within.bind fun _ => ih.openedBody) <|
        still_complain.within.bind fun _ => .pure _
    case openedBody =>
      rw [openedBody]
      exact ih.statements.bind fun _ => still_sees.within.bind fun _ =>
        .ite ((consumes_bump he).within.bind fun _ => .pure _) <| still_complain.within.bind fun _ => .pure _

lemma takes_seen {x y : Reader α} {k : Kind} (hx : Takes tokens stop (· = k) x) :
    Takes tokens stop (· = k) (do if ← sees tokens (· = k) then x else y) := by
  refine .run_bind (a := true) (fun s t hs ht hk => ?_) (by rwa [if_pos rfl])
  rw [sees_run he hs ht]
  exact congrArg (fun b => some (b, s)) hk

lemma takes_bracedBody (depth : Nat) : Takes tokens stop (· = .openBrace) (bracedBody tokens depth) := by
  cases depth with
  | zero => exact fun _ _ _ _ _ _ h => by cases h
  | succ depth =>
    rw [bracedBody]
    exact takes_seen he (((consumes_bump he).takes_on (by decide)).bind fun _ => (nested he depth).openedBody)

lemma takes_subgraph (depth : Nat) : Takes tokens stop opensBody (subgraph tokens depth) := by
  cases depth with
  | zero => exact fun _ _ _ _ _ _ h => by cases h
  | succ depth =>
    intro s t a s' ht hp h hs
    rw [subgraph] at h
    by_cases hk : t.kind = .subgraphKeyword
    · have htakes : Takes tokens stop (· = .subgraphKeyword) (optional tokens (· = .subgraphKeyword)) :=
        takes_seen he (((consumes_leaf he).takes_on (by decide)).bind fun _ => .pure _)
      exact Takes.still_bind still_startAt (fun _ => htakes.bind fun _ => (within_subgraphName he).bind fun _ =>
        (nested he depth).bracedBody.bind fun _ => still_node.within) ht (decide_eq_true hk) h hs
    · have hbrace : t.kind = .openBrace := by simpa [opensBody, hk] using hp
      refine Takes.still_bind (p := (· = .openBrace)) still_startAt (fun _ => ?_) ht (decide_eq_true hbrace) h hs
      refine .run_bind (a := none) (fun s t hs ht hk => ?_) ?_
      · rw [optional, run_bind (sees_run he hs ht), of_decide_eq_true hk]
        rfl
      · exact .run_bind (fun _ _ _ _ _ => rfl) ((takes_bracedBody he depth).bind fun _ => still_node.within)

lemma takes_statement (depth : Nat) : Takes tokens stop startsStatement (statement tokens depth) := by
  cases depth with
  | zero => exact fun _ _ _ _ _ _ h => by cases h
  | succ depth =>
    rw [statement]
    refine takes_current he fun t ht => ?_
    have hne : t.kind ≠ .endOfFile := by
      intro hend
      rw [hend] at ht
      cases ht
    split
    · exact (consumes_attrStatement he).takes_on hne
    split
    · rename_i hopens
      refine ((takes_subgraph he depth).mono fun k hk => ?_).bind fun _ => still_sees.within.bind fun _ =>
        .ite ((nested he depth).edgeStatement _ _) (within_subgraphStatement he)
      rwa [of_decide_eq_true hk]
    · refine .still_bind still_secondKind fun k => ?_
      split
      · exact (consumes_equation he).takes_on hne
      · exact ((consumes_nodeId he).takes_on hne).bind fun _ => still_sees.within.bind fun _ =>
          .ite ((nested he depth).edgeStatement _ _) (within_nodeStatement he)

lemma stops_statements (depth : Nat) :
    Stops tokens stop (fun k => k = .closeBrace || k = .endOfFile) (statements tokens depth) := by
  induction depth with
  | zero => exact fun _ _ _ h => by cases h
  | succ depth ih =>
    intro s a s' h hs
    rw [statements] at h
    obtain ⟨t, ht⟩ := exists_next he hs
    rw [run_bind (current_run he hs ht)] at h
    split at h
    · rename_i hk
      obtain ⟨-, rfl⟩ := Prod.mk.inj (Option.some.inj h)
      exact ⟨t, ht, by simpa using hk⟩
    split at h
    · exact Stops.bind (consumes_bump he).within (fun _ => ih) h hs
    split at h
    · exact Stops.bind (nested he depth).statement (fun _ => ih.bind_still fun _ => .pure _) h hs
    · exact Stops.bind still_complain.within
        (fun _ => .bind (consumes_bump he).within fun _ => ih.bind_still fun _ => .pure _) h hs

def Settled (tokens : List Token) (s : State) : Prop := ∃ t, tokens[s.index]? = some t ∧ (t.kind = .endOfFile ∨
  ∃ d ∈ s.complaints, d.code = .trailingData ∧ d.span.start = t.span.start)

lemma settled_of_trailing {s s' : State} {r : Unit} (h : trailing tokens s = some (r, s')) (hs : s.index ≤ stop) :
    Settled tokens s' := by
  obtain ⟨t, ht⟩ := exists_next he hs
  rw [trailing, run_bind (current_run he hs ht)] at h
  split at h
  · rename_i hk
    obtain ⟨-, rfl⟩ := Prod.mk.inj (Option.some.inj h)
    exact ⟨t, ht, .inl hk⟩
  · obtain ⟨last, s₁, hlast, hrest⟩ := run_bind_eq_some h
    obtain ⟨span, s₂, hspan, hreport⟩ := run_bind_eq_some hrest
    obtain ⟨rfl, rfl⟩ := forward_run hspan
    obtain ⟨-, rfl⟩ := Prod.mk.inj (Option.some.inj hreport)
    rw [← still_lastToken hlast] at ht
    exact ⟨t, ht, .inr ⟨_, List.mem_concat_self, rfl, rfl⟩⟩

lemma settled_of_source {s s' : State} {g : Tree} {loose : Option Tree} (hs : s.index ≤ stop)
    (h : source tokens s = some ((some g, loose), s')) : Settled tokens s' := by
  obtain ⟨t, s₁, hcurrent, h⟩ := run_bind_eq_some h
  rw [← still_current hcurrent] at hs
  split at h
  · cases h
  obtain ⟨strict, s₂, hstrict, h⟩ := run_bind_eq_some h
  have hs := (within_optional he hstrict hs).2
  obtain ⟨b, s₃, hsees, h⟩ := run_bind_eq_some h
  rw [← still_sees hsees] at hs
  split at h
  · obtain ⟨_, _, h₁, h⟩ := run_bind_eq_some h
    obtain ⟨_, _, h₂, h⟩ := run_bind_eq_some h
    obtain ⟨_, _, h₃, h⟩ := run_bind_eq_some h
    obtain ⟨_, _, h₄, h⟩ := run_bind_eq_some h
    obtain ⟨_, _, h₅, h⟩ := run_bind_eq_some h
    have hs := ((consumes_leaf he).within h₁ hs).2
    have hs := (within_optionalIdentifier he h₂ hs).2
    have hs := ((nested he _).bracedBody h₃ hs).2
    have hs := (still_node.within h₄ hs).2
    obtain ⟨-, rfl⟩ := Prod.mk.inj (Option.some.inj h)
    exact settled_of_trailing he h₅ hs
  · obtain ⟨_, _, -, h⟩ := run_bind_eq_some h
    cases h

end Readers

structure Advancing (tokens : List Token) (stop : Nat) : Prop where
  statement : ∀ depth, Takes tokens stop startsStatement (statement tokens depth)
  subgraph : ∀ depth, Takes tokens stop opensBody (subgraph tokens depth)
  attrList : Takes tokens stop (· ≠ .endOfFile) (attrList tokens)
  attr : Takes tokens stop (· ≠ .endOfFile) (attr tokens)
  statements : ∀ depth, Within stop (statements tokens depth) ∧
    Stops tokens stop (fun k => k = .closeBrace || k = .endOfFile) (statements tokens depth)
  graph : ∀ s g loose s', s.index ≤ stop → source tokens s = some ((some g, loose), s') → Settled tokens s'

lemma advancing (he : EndsAt tokens stop) : Advancing tokens stop :=
  ⟨takes_statement he, takes_subgraph he, (consumes_attrList he).takes, (consumes_attr he).takes,
    fun depth => ⟨(nested he depth).statements, stops_statements he depth⟩,
    fun _ _ _ _ => settled_of_source he⟩

end DotMend.Parse.Guarded
