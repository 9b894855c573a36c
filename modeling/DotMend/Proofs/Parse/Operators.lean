import DotMend.Proofs.Tree.Operators

open DotMend.Tree

namespace DotMend

lemma Tree.IsInner.not_isEdgeOp {t : Tree} (h : t.IsInner) : t.kind.isEdgeOp = false := by
  cases t with
  | token | identifier => exact h.elim
  | _ => rfl

lemma Kind.not_isEdgeOp_of_isIdentifier {k : Kind} (h : k.isIdentifier) : k.isEdgeOp = false := by
  cases k <;> simp [isIdentifier, isEdgeOp, edgeOp?] at *

lemma Tree.operators_leaf (i : Info) (k : Kind) :
    (token i k).operators = if k.isEdgeOp then [.token i k] else [] := by
  rw [operators_eq, children_eq, List.flatMap_nil, List.append_nil]
  rfl

lemma Tree.operators_identifier {i : Info} {k : Kind} {text : String} (h : k.isIdentifier) :
    (identifier i k text).operators = [] := by
  rw [operators_eq, children_eq, List.flatMap_nil, List.append_nil, if_neg]
  simp [Tree.kind, Kind.not_isEdgeOp_of_isIdentifier h]

namespace Parse

def complaint (what : Expectation) (span : Span) : Diagnostic :=
  .error span .expectationFailed ("Expected " ++ what.text)

/-- The reader found the token at `span` where it can only be passed over. -/
def PassedOver (cs : List Diagnostic) (span : Span) : Prop :=
  ∃ what : Expectation, what.skips ∧ complaint what span ∈ cs

lemma passedOver_iff {cs : List Diagnostic} {span : Span} :
    PassedOver cs span ↔ complaint .statement span ∈ cs ∨ complaint .attrName span ∈ cs := by
  constructor
  · rintro ⟨what, hskips, hmem⟩
    cases what with
    | statement => exact .inl hmem
    | attrName => exact .inr hmem
    | _ => cases hskips
  · rintro (hmem | hmem)
    · exact ⟨_, rfl, hmem⟩
    · exact ⟨_, rfl, hmem⟩

instance (cs : List Diagnostic) (span : Span) : Decidable (PassedOver cs span) :=
  decidable_of_iff _ passedOver_iff.symm

lemma passedOver_append {cs cs' : List Diagnostic} {span : Span} :
    PassedOver (cs ++ cs') span ↔ PassedOver cs span ∨ PassedOver cs' span := by
  simp only [passedOver_iff, List.mem_append]
  tauto

lemma not_passedOver_nil {span : Span} : ¬ PassedOver [] span := by
  rintro ⟨what, -, hmem⟩
  cases hmem

lemma Expectation.skips_of_text_eq {what what' : Expectation} (h : what.skips) (he : what.text = what'.text) :
    what'.skips := by
  cases what' with
  | statement | attrName => rfl
  | _ =>
    cases what with
    | statement | attrName => exact absurd he (by decide)
    | _ => cases h

lemma passedOver_expected {eof : Span} {what : Expectation} {ts : List Token} {span : Span} :
    PassedOver [expected eof what ts] span ↔ what.skips ∧ span = placeOf eof ts := by
  constructor
  · rintro ⟨what', hskips, hmem⟩
    have he := List.mem_singleton.mp hmem
    simp only [complaint, expected, Diagnostic.error, Diagnostic.mk.injEq, true_and] at he
    obtain ⟨hspan, htext⟩ := he
    have htext : what'.text = what.text := by simpa using htext
    exact ⟨Expectation.skips_of_text_eq hskips htext, hspan⟩
  · rintro ⟨hskips, rfl⟩
    exact ⟨what, hskips, List.mem_singleton_self _⟩

lemma not_isEdgeOp_of_isBare {k : Kind} (h : isBare k) : k.isEdgeOp = false := by
  cases k <;> simp [isBare, Kind.isEdgeOp, Kind.edgeOp?] at *

lemma not_isEdgeOp_of_isPart {k : Kind} (h : isPart k) : k.isEdgeOp = false := by
  cases k <;> simp [isPart, Kind.isEdgeOp, Kind.edgeOp?] at *

lemma Ordered.span_ne {us vs : List Token} (h : Ordered (us ++ vs)) {u v : Token} (hu : u ∈ us) (hv : v ∈ vs) :
    u.span ≠ v.span := by
  intro he
  have hlt := h.nonempty u (List.mem_append_left vs hu)
  have hle := (List.pairwise_append.mp h.apart).2.2 u hu v hv
  rw [← he] at hle
  omega

def keptOperators (cs : List Diagnostic) (us : List Token) : List Token :=
  us.filter fun u => u.kind.isEdgeOp && !decide (PassedOver cs u.span)

lemma keptOperators_append (cs : List Diagnostic) (us vs : List Token) :
    keptOperators cs (us ++ vs) = keptOperators cs us ++ keptOperators cs vs :=
  List.filter_append ..

lemma keptOperators_eq_nil {cs : List Diagnostic} {us : List Token} (h : ∀ u ∈ us, u.kind.isEdgeOp = false) :
    keptOperators cs us = [] := by
  apply List.filter_eq_nil_iff.mpr
  intro u hu
  simp [h u hu]

lemma keptOperators_congr {cs cs' : List Diagnostic} {us : List Token}
    (h : ∀ u ∈ us, PassedOver cs u.span ↔ PassedOver cs' u.span) : keptOperators cs us = keptOperators cs' us := by
  apply List.filter_congr
  intro u hu
  simp only [h u hu]

structure Accounted (cs : List Diagnostic) (used : List Token) (kids : List Tree) : Prop where
  passed : ∀ s, PassedOver cs s → ∃ u ∈ used, u.span = s
  kept : (kids.flatMap Tree.operators).map (fun o => (o.span, o.kind)) =
    (keptOperators cs used).map fun u => (u.span, u.kind)

namespace Accounted

variable {eof : Span} {cs cs' : List Diagnostic} {used used' : List Token} {kids kids' : List Tree}

lemma of_no_operator (hcs : ∀ s, ¬ PassedOver cs s) (hused : ∀ u ∈ used, u.kind.isEdgeOp = false)
    (hkids : kids.flatMap Tree.operators = []) : Accounted cs used kids := by
  refine ⟨fun s hs => absurd hs (hcs s), ?_⟩
  rw [hkids, keptOperators_eq_nil hused]
  rfl

lemma stray {what : Expectation} (hw : what.skips) (t : Token) (ts : List Token) :
    Accounted [expected eof what (t :: ts)] [t] [] := by
  have hover : PassedOver [expected eof what (t :: ts)] t.span := passedOver_expected.mpr ⟨hw, rfl⟩
  refine ⟨fun s hs => ⟨t, List.mem_singleton_self t, (passedOver_expected.mp hs).2.symm⟩, ?_⟩
  simp [keptOperators, hover]

lemma leaf (m : Trail) (t : Token) : Accounted [] [t] [m.leaf t] := by
  refine ⟨fun s hs => absurd hs not_passedOver_nil, ?_⟩
  rw [List.flatMap_singleton, Trail.leaf, operators_leaf]
  by_cases hop : t.kind.isEdgeOp
  · simp [keptOperators, hop, not_passedOver_nil, Tree.span, Tree.info, Tree.kind]
  · simp [keptOperators, hop]

lemma node (h : Accounted cs used kids) {t : Tree} (ht : t.IsInner) (hchildren : t.children = kids) :
    Accounted cs used [t] := by
  refine ⟨h.passed, ?_⟩
  rw [List.flatMap_singleton, operators_eq, ht.not_isEdgeOp, hchildren, ← h.kept]
  rfl

-- A token is passed over where it is read: no complaint of one part is about a token of the other.
lemma append (h : Accounted cs used kids) (h' : Accounted cs' used' kids') (ho : Ordered (used ++ used')) :
    Accounted (cs ++ cs') (used ++ used') (kids ++ kids') := by
  have hleft : keptOperators (cs ++ cs') used = keptOperators cs used := by
    apply keptOperators_congr
    intro u hu
    rw [passedOver_append, or_iff_left]
    intro hover
    obtain ⟨v, hv, hspan⟩ := h'.passed _ hover
    exact ho.span_ne hu hv hspan.symm
  have hright : keptOperators (cs ++ cs') used' = keptOperators cs' used' := by
    apply keptOperators_congr
    intro u hu
    rw [passedOver_append, or_iff_right]
    intro hover
    obtain ⟨v, hv, hspan⟩ := h.passed _ hover
    exact ho.span_ne hv hu hspan
  refine ⟨fun s hover => ?_, ?_⟩
  · rcases passedOver_append.mp hover with hover | hover
    · obtain ⟨u, hu, hspan⟩ := h.passed s hover
      exact ⟨u, List.mem_append_left used' hu, hspan⟩
    · obtain ⟨u, hu, hspan⟩ := h'.passed s hover
      exact ⟨u, List.mem_append_right used hu, hspan⟩
  · rw [List.flatMap_append, List.map_append, h.kept, h'.kept, keptOperators_append, hleft, hright,
      List.map_append]

end Accounted

theorem Steps.operators {eof : Span} {ts ts' : List Token} {m m' : Trail} {kids : List Tree} {faults : Bool}
    {cs : List Diagnostic} (h : Steps eof ts m kids faults ts' m' cs) (ho : Ordered ts) :
    ∃ used, ts = used ++ ts' ∧ Accounted cs used kids := by
  induction h with
  | stay => exact ⟨[], rfl, .of_no_operator (fun _ => not_passedOver_nil) (by simp) rfl⟩
  | @pass t ts m hbare =>
    exact ⟨[t], rfl, .of_no_operator (fun _ => not_passedOver_nil)
      (List.forall_mem_singleton.mpr (not_isEdgeOp_of_isBare hbare)) rfl⟩
  | complain what hw =>
    refine ⟨[], rfl, .of_no_operator (fun s hs => ?_) (by simp) rfl⟩
    have := (passedOver_expected.mp hs).1
    rw [hw] at this
    contradiction
  | @stray t ts m what hw => exact ⟨[t], rfl, .stray hw t ts⟩
  | @leaf t ts m ht => exact ⟨[t], rfl, .leaf m t⟩
  | @identifier t part ts m text faults ht hpart =>
    refine ⟨t :: part, rfl, .of_no_operator (fun s hs => ?_) ?_ ?_⟩
    · cases faults with
      | false => exact not_passedOver_nil hs
      | true => cases (passedOver_expected.mp hs).1
    · exact List.forall_mem_cons.mpr
        ⟨Kind.not_isEdgeOp_of_isIdentifier ht, fun p hp => not_isEdgeOp_of_isPart (hpart p hp)⟩
    · rw [List.flatMap_singleton, operators_identifier ht]
  | @node t _ _ kids faults _ m' _ make _ _ hmake _ ih =>
    obtain ⟨used, hused, h⟩ := ih ho
    exact ⟨used, hused, h.node (hmake _).2.2.1 (hmake _).2.1⟩
  | @seq _ _ _ _ _ _ cs _ _ _ _ cs' hs _ ih ih' =>
    obtain ⟨used, rfl, h⟩ := ih ho
    obtain ⟨used', rfl, h'⟩ := ih' ho.right
    rw [← List.append_assoc] at ho
    exact ⟨used ++ used', by simp, h.append h' ho.left⟩

end Parse

end DotMend
