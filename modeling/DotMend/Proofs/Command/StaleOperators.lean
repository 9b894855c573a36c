import DotMend.Action.Offer
import DotMend.Command.Execute
import DotMend.Proofs.Source.Operators
import DotMend.Proofs.Token.OperatorText

/-! Changing operators in a text that they were not recorded in. Only the spelling at the recorded place is looked
at, so what is changed need not be an operator of the graph. -/

namespace DotMend

open Token

def Command.operators : Command → List (Span × EdgeOp)
  | changeOperator c => [(c.operation, c.current)]
  | fixGraph f => f.operations.map fun s => (s, f.wanted.allowedOp.opposite)
  | consolidate _ => []

def Command.keyword? : Command → Option Span
  | fixGraph f => some f.keyword
  | changeOperator _ | consolidate _ => none

section Edits

variable {t : Text} {source : Source}

lemma slice_of_verifyOperator {s : Span} {op : EdgeOp} (h : verifyOperator t s op = .ok ()) :
    t.slice? s = some op.text.toList := by
  unfold verifyOperator at h
  split at h
  · cases h
  · rename_i text hslice
    split at h
    · rename_i hop
      rw [hslice, EdgeOp.ofText?_eq_some_iff.mp hop]
    · cases h

lemma Command.slice_of_edits {c : Command} {edits : List Edit} (h : c.edits t source = .ok edits) :
    ∀ o ∈ c.operators, t.slice? o.1 = some o.2.text.toList ∧ ∃ e ∈ edits, e.span = o.1 := by
  cases c with
  | changeOperator c =>
    obtain ⟨_, hverify, h⟩ := bind_eq_ok_iff.mp h
    obtain rfl := Except.ok.inj h
    simp [Command.operators, slice_of_verifyOperator hverify]
  | fixGraph f =>
    obtain ⟨spelling, -, h⟩ := bind_eq_ok_iff.mp h
    obtain ⟨operators, hoperators, h⟩ := bind_eq_ok_iff.mp h
    obtain rfl := Except.ok.inj h
    intro o ho
    obtain ⟨s, hs, rfl⟩ := List.mem_map.mp ho
    obtain ⟨e, he, hedit⟩ := (exists_of_mapM_eq_ok hoperators).1 s hs
    obtain ⟨_, hverify, hedit⟩ := bind_eq_ok_iff.mp hedit
    obtain rfl := Except.ok.inj hedit
    exact ⟨slice_of_verifyOperator hverify, _, List.mem_append_left _ he, rfl⟩
  | consolidate => simp [Command.operators]

lemma GraphFix.of_verifyKeyword {f : GraphFix} {spelling : Text} (h : f.verifyKeyword t source = .ok spelling) :
    t.slice? f.keyword = some spelling ∧ GraphKind.ofText? spelling = some f.current ∧
      ∃ i strict keyword name body, source.graph = some (.graph i strict keyword name body) ∧
      keyword.span = f.keyword := by
  unfold verifyKeyword at h
  split at h
  · cases h
  · rename_i text hslice
    split at h
    · rename_i hkind
      split at h
      · rename_i i strict keyword name body hgraph
        split at h
        · obtain rfl := Except.ok.inj h
          exact ⟨hslice, hkind, i, strict, keyword, name, body, hgraph, ‹_›⟩
        · cases h
      · cases h
    · cases h

lemma Command.span_of_mem_edits {c : Command} {edits : List Edit} (h : c.edits t source = .ok edits)
    (hc : ∀ m, c ≠ .consolidate m) : ∀ e ∈ edits, (∃ o ∈ c.operators, e.span = o.1) ∨
      c.keyword? = some e.span ∧ ∃ i strict keyword name body,
        source.graph = some (.graph i strict keyword name body) ∧ keyword.span = e.span := by
  cases c with
  | changeOperator c =>
    obtain ⟨_, -, h⟩ := bind_eq_ok_iff.mp h
    obtain rfl := Except.ok.inj h
    simp [Command.operators]
  | fixGraph f =>
    obtain ⟨spelling, hkeyword, h⟩ := bind_eq_ok_iff.mp h
    obtain ⟨operators, hoperators, h⟩ := bind_eq_ok_iff.mp h
    obtain rfl := Except.ok.inj h
    intro e he
    rcases List.mem_append.mp he with he | he
    · obtain ⟨s, hs, hedit⟩ := (exists_of_mapM_eq_ok hoperators).2 e he
      obtain ⟨_, -, hedit⟩ := bind_eq_ok_iff.mp hedit
      obtain rfl := Except.ok.inj hedit
      exact .inl ⟨_, List.mem_map_of_mem hs, rfl⟩
    · obtain rfl := List.mem_singleton.mp he
      exact .inr ⟨rfl, (GraphFix.of_verifyKeyword hkeyword).2.2⟩
  | consolidate m => exact absurd rfl (hc m)

end Edits

namespace Source

/-- Why an operator's spelling in a text is not the operator of an edge: it is no operator at all, or the reader
passed over it, or it is not in front of the end of a graph. -/
inductive Detached (t : Text) (s : Span) : Prop
  | hidden : Hidden t s → Detached t s
  | passedOver : Parse.PassedOver (ofText t).diagnostics s → Detached t s
  | outside : (∀ g, (ofText t).graph = some g → g.span.stop < s.stop) → Detached t s

variable {t : Text} {g : Tree} {s : Span}

lemma mem_edgeOperations_iff (hg : (ofText t).graph = some g) :
    s ∈ g.edgeOperations.map Tree.span ↔
      ∃ u ∈ (scan t).tokens, u.kind.isEdgeOp ∧ u.span = s ∧ s.stop ≤ g.span.stop ∧
        ¬ Parse.PassedOver (ofText t).diagnostics s := by
  have hspans := congrArg (List.map Prod.fst) (edgeOperations_eq_kept hg)
  simp only [List.map_map, Function.comp_def] at hspans
  rw [hspans]
  simp only [List.mem_map, Parse.keptOperators, operatorTokens, List.mem_filter, Bool.and_eq_true,
    Bool.not_eq_true', decide_eq_true_eq, decide_eq_false_iff_not]
  constructor
  · rintro ⟨u, ⟨⟨hu, hop, hstop⟩, -, hkept⟩, rfl⟩
    exact ⟨u, hu, hop, rfl, hstop, hkept⟩
  · rintro ⟨u, hu, hop, rfl, hstop, hkept⟩
    exact ⟨u, ⟨⟨hu, hop, hstop⟩, hop, hkept⟩, rfl⟩

lemma exists_edgeOperation_iff {op : EdgeOp} (hs : t.slice? s = some op.text.toList) :
    (∃ g, (ofText t).graph = some g ∧ s ∈ g.edgeOperations.map Tree.span) ↔ ¬ Detached t s := by
  constructor
  · rintro ⟨g, hg, hmem⟩ hdetached
    obtain ⟨u, hu, hop, rfl, hstop, hkept⟩ := (mem_edgeOperations_iff hg).mp hmem
    cases hdetached with
    | hidden hhidden => exact not_hidden_of_operator hu hop hhidden
    | passedOver hpassed => exact hkept hpassed
    | outside hout =>
      have := hout g hg
      omega
  · intro hattached
    obtain ⟨g, hg, hstop⟩ : ∃ g, (ofText t).graph = some g ∧ s.stop ≤ g.span.stop := by
      by_contra hnone
      refine hattached (.outside fun g hg => ?_)
      by_contra hle
      exact hnone ⟨g, hg, Nat.le_of_not_lt hle⟩
    refine ⟨g, hg, (mem_edgeOperations_iff hg).mpr ?_⟩
    rcases operator_or_hidden hs with ⟨u, hu, hkind, hspan⟩ | hhidden
    · refine ⟨u, hu, ?_, hspan, hstop, fun hpassed => hattached (.passedOver hpassed)⟩
      rw [hkind, Kind.isEdgeOp, Kind.edgeOp?_kind]
      rfl
    · exact absurd (.hidden hhidden) hattached

end Source

/-- A command that is carried out changes the operators that it counts on and besides them only the keyword of the
graph. Each operator is spelt at its place, and it is that of an edge exactly if the spelling is not detached. -/
theorem Command.changes_edgeOperation_iff {t : Text} {c : Command} {edits : List Edit}
    (h : c.edits t (Source.ofText t) = .ok edits) :
    (∀ o ∈ c.operators, (t.slice? o.1 = some o.2.text.toList ∧ ∃ e ∈ edits, e.span = o.1) ∧
      ((∃ g, (Source.ofText t).graph = some g ∧ o.1 ∈ g.edgeOperations.map Tree.span) ↔ ¬ Source.Detached t o.1)) ∧
      ((∀ m, c ≠ .consolidate m) → ∀ e ∈ edits, (∃ o ∈ c.operators, e.span = o.1) ∨
        c.keyword? = some e.span ∧ ∃ i strict keyword name body,
          (Source.ofText t).graph = some (.graph i strict keyword name body) ∧ keyword.span = e.span) := by
  refine ⟨fun o ho => ?_, span_of_mem_edits h⟩
  have hslice := slice_of_edits h o ho
  exact ⟨hslice, Source.exists_edgeOperation_iff hslice.1⟩

theorem Command.changes_edgeOperation_iff_quoted :
    let t : Text := "digraph \x7b a -- b; \"c -- d\" \x7d".toList
    let c : Command := .fixGraph ⟨⟨0, 7⟩, .digraph, .digraph, [⟨12, 14⟩, ⟨21, 23⟩]⟩
    ∃ edits, c.edits t (Source.ofText t) = .ok edits ∧ (∃ e ∈ edits, e.span = ⟨12, 14⟩) ∧
      (∃ e ∈ edits, e.span = ⟨21, 23⟩) ∧ (∀ e ∈ edits, e.span ∈ [⟨12, 14⟩, ⟨21, 23⟩, (⟨0, 7⟩ : Span)]) ∧
      ¬ Source.Detached t ⟨12, 14⟩ ∧ Source.Detached t ⟨21, 23⟩ := by
  intro t c
  have hsome : (c.edits t (Source.ofText t)).toOption.isSome := by decide +kernel
  have hspans : (Source.ofText t).graph.map (fun g => g.edgeOperations.map Tree.span) = some [⟨12, 14⟩] := by
    decide +kernel
  obtain ⟨edits, hedits⟩ := Option.isSome_iff_exists.mp hsome
  replace hedits := eq_ok_of_toOption hedits
  obtain ⟨g, hg, hg'⟩ := Option.map_eq_some_iff.mp hspans
  obtain ⟨hoperators, hall⟩ := changes_edgeOperation_iff hedits
  obtain ⟨⟨-, hfirst⟩, hfirst'⟩ := hoperators (⟨12, 14⟩, .undirected) (by decide)
  obtain ⟨⟨-, hsecond⟩, hsecond'⟩ := hoperators (⟨21, 23⟩, .undirected) (by decide)
  refine ⟨edits, hedits, hfirst, hsecond, fun e he => ?_, hfirst'.mp ⟨g, hg, by simp [hg']⟩, ?_⟩
  · rcases hall nofun e he with ⟨o, ho, hspan⟩ | ⟨hkeyword, -⟩
    · have hplaces : ∀ o ∈ c.operators, o.1 ∈ [⟨12, 14⟩, ⟨21, 23⟩, (⟨0, 7⟩ : Span)] := by decide
      exact hspan ▸ hplaces o ho
    · rw [← Option.some.inj hkeyword]
      decide
  · by_contra hattached
    obtain ⟨g', hgraph, hmem⟩ := hsecond'.mpr hattached
    obtain rfl : g = g' := Option.some.inj (hg.symm.trans hgraph)
    simp [hg'] at hmem

/-- The change of an operator, carried out after the edge was put between quotes, rewrites the string. -/
theorem Command.changes_quoted_text :
    let t₀ : Text := "digraph \x7b  a -- b  \x7d".toList
    let t : Text := "digraph \x7b \"a -- b\" \x7d".toList
    let t' : Text := "digraph \x7b \"a -> b\" \x7d".toList
    let c : Command := .changeOperator ⟨⟨13, 15⟩, .undirected, .directed⟩
    c ∈ (Action.quickFixes (Source.ofText t₀) (.caret 13)).map Action.command ∧
      ∃ edits g, c.edits t (Source.ofText t) = .ok edits ∧ Edit.applyAll t edits = .ok t' ∧
        (Source.ofText t).graph = some g ∧ ∃ o ∈ c.operators, o.1 ∉ g.edgeOperations.map Tree.span := by
  intro t₀ t t' c
  let edits : List Edit := [⟨⟨13, 15⟩, "->", "Change \"--\" to \"->\""⟩]
  have hedits : (c.edits t (Source.ofText t)).toOption = some edits := by decide +kernel
  have hspans : (Source.ofText t).graph.map (fun g => g.edgeOperations.map Tree.span) = some [] := by
    decide +kernel
  have hfits : ∀ e ∈ edits, e.Fits t :=
    List.forall_mem_singleton.mpr ⟨"--".toList, by decide, by decide +kernel⟩
  have happly := Edit.applyAll_eq_rewritten hfits (List.pairwise_singleton _ _)
  have hwritten : Edit.rewritten edits 0 t = t' := by decide +kernel
  obtain ⟨g, hg, hg'⟩ := Option.map_eq_some_iff.mp hspans
  exact ⟨by decide +kernel, edits, g, eq_ok_of_toOption hedits, hwritten ▸ happly, hg, _, List.mem_cons_self,
    by simp [hg']⟩

end DotMend
