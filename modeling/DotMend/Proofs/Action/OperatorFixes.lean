import DotMend.Proofs.Command.OperatorReplay
import DotMend.Proofs.Source.Operators
import Mathlib.Data.List.Perm.Basic
import Mathlib.Data.List.Nodup

namespace DotMend

lemma flatMap_filter_of_eq_nil {α β : Type} {f : α → List β} {p : α → Bool} {l : List α}
    (h : ∀ a ∈ l, p a = false → f a = []) : (l.filter p).flatMap f = l.flatMap f := by
  induction l with
  | nil => rfl
  | cons a l ih =>
    have hl := ih fun b hb => h b (List.mem_cons_of_mem a hb)
    cases ha : p a with
    | true => rw [List.filter_cons_of_pos ha, List.flatMap_cons, List.flatMap_cons, hl]
    | false =>
      rw [List.filter_cons_of_neg (by simp [ha]), List.flatMap_cons, h a List.mem_cons_self ha, hl]
      rfl

namespace Source

variable {t : Text} {graph : Tree}

/-- The operators of a graph in two groups: `wrong` are those that its keyword does not allow and that are
reported, `right` those that the other keyword would not allow. -/
structure OperatorGroups (t : Text) (graph : Tree) (kind : GraphKind) (wrong right : List Span) : Prop where
  reported : ((ofText t).diagnostics.filter (·.code = .invalidEdgeOperation)).map Diagnostic.span = wrong
  disjoint : wrong.Disjoint right
  all : (wrong ++ right).Perm (graph.edgeOperations.map Tree.span)
  wrong_ordered : wrong.Pairwise fun a b => a.start < b.start ∧ a.stop ≤ b.start
  right_ordered : right.Pairwise fun a b => a.start < b.start ∧ a.stop ≤ b.start
  wrong_op : ∀ o ∈ graph.edgeOperations, o.span ∈ wrong → o.edgeOp? = some kind.allowedOp.opposite
  right_op : ∀ o ∈ graph.edgeOperations, o.span ∈ right → o.edgeOp? = some kind.allowedOp

lemma edgeOp?_ne_iff_opposite (hg : (ofText t).graph = some graph) {o : Tree} (ho : o ∈ graph.edgeOperations)
    (op : EdgeOp) : o.edgeOp? ≠ some op ↔ o.edgeOp? = some op.opposite := by
  obtain ⟨ps, used, h⟩ := exists_graphReading hg
  obtain ⟨op', hop, -⟩ := h.slice_operation ho
  rw [hop]
  cases op <;> cases op' <;> decide

lemma invalidOperations_opposite (hg : (ofText t).graph = some graph) (kind : GraphKind) :
    graph.invalidOperations kind.opposite = graph.edgeOperations.filter fun o =>
      !decide (o.edgeOp? ≠ some kind.allowedOp) := by
  apply List.filter_congr
  intro o ho
  have hop := edgeOp?_ne_iff_opposite hg ho kind.opposite.allowedOp
  rw [GraphKind.allowedOp_opposite, EdgeOp.opposite_opposite] at hop
  rw [GraphKind.allowedOp_opposite, decide_eq_decide.mpr hop, decide_not, Bool.not_not]

lemma nodup_edgeOperations (hg : (ofText t).graph = some graph) : (graph.edgeOperations.map Tree.span).Nodup := by
  refine List.pairwise_map.mpr ((edgeOperations_increasing hg).imp ?_)
  intro a b hlt hspan
  exact absurd hlt.1 (by rw [hspan]; exact lt_irrefl _)

lemma edgeOp?_of_span_mem (hg : (ofText t).graph = some graph) {kind : GraphKind} {o : Tree}
    (ho : o ∈ graph.edgeOperations)
    (hmem : o.span ∈ (graph.invalidOperations kind).map Tree.span) : o.edgeOp? = some kind.allowedOp.opposite := by
  obtain ⟨o', ho', hspan⟩ := List.mem_map.mp hmem
  obtain ⟨ho', hop⟩ := List.mem_filter.mp ho'
  obtain rfl := List.inj_on_of_nodup_map (nodup_edgeOperations hg) ho' ho hspan
  exact (edgeOp?_ne_iff_opposite hg ho _).mp (of_decide_eq_true hop)

theorem operatorGroups (hg : (ofText t).graph = some graph) {kind : GraphKind}
    (hkind : graph.graphKind? = some kind) :
    OperatorGroups t graph kind ((graph.invalidOperations kind).map Tree.span)
      ((graph.invalidOperations kind.opposite).map Tree.span) := by
  have hordered (wanted : GraphKind) : ((graph.invalidOperations wanted).map Tree.span).Pairwise fun a b =>
      a.start < b.start ∧ a.stop ≤ b.start :=
    List.pairwise_map.mpr ((edgeOperations_increasing hg).sublist List.filter_sublist)
  have hperm : ((graph.invalidOperations kind).map Tree.span ++
    (graph.invalidOperations kind.opposite).map Tree.span).Perm
      (graph.edgeOperations.map Tree.span) := by
    rw [invalidOperations_opposite hg, ← List.map_append]
    exact (List.filter_append_perm _ _).map _
  constructor
  · change (wrongOperators t).map Diagnostic.span = _
    rw [wrongOperators_eq_check hg, Tree.check, hkind, List.map_map]
    rfl
  · exact List.disjoint_of_nodup_append (hperm.nodup_iff.mpr (nodup_edgeOperations hg))
  · exact hperm
  · exact hordered kind
  · exact hordered kind.opposite
  · intro o ho
    exact edgeOp?_of_span_mem hg ho
  · intro o ho hmem
    have hop := edgeOp?_of_span_mem hg ho hmem
    rwa [GraphKind.allowedOp_opposite, EdgeOp.opposite_opposite] at hop

end Source

namespace Action

variable {t : Text} {graph : Tree}

def waysOut (keyword : Span) (kind : GraphKind) (wrong right : List Span) (place : Span) : List Action :=
  [{ changeOperator place kind.allowedOp.opposite kind.allowedOp with preferred := true },
    ⟨GraphFix.title kind kind, .quickFix, false, .fixGraph ⟨keyword, kind, kind, wrong⟩⟩,
    ⟨GraphFix.title kind kind.opposite, .quickFix, false, .fixGraph ⟨keyword, kind, kind.opposite, right⟩⟩]

lemma fixesFor_eq_nil {source : Source} {d : Diagnostic} (h : d.code ≠ .invalidEdgeOperation) :
    fixesFor source d = [] := by
  unfold fixesFor
  split
  · rename_i hcode _
    exact absurd hcode h
  · rfl

lemma fixesFor_eq_waysOut {i j : Tree.Info} {strict name : Option Tree} {statements : List Tree} {kind : GraphKind}
    (hg : (Source.ofText t).graph = some graph)
    (hgraph : graph = .graph i strict (.token j kind.kind) name statements)
    {d : Diagnostic} (hd : d ∈ wrongOperators t) :
    fixesFor (Source.ofText t) d = waysOut j.span kind ((graph.invalidOperations kind).map Tree.span)
      ((graph.invalidOperations kind.opposite).map Tree.span) d.span := by
  obtain ⟨graph', kind', f, ps, h⟩ := exists_mending (List.ne_nil_of_mem hd)
  obtain rfl : graph' = graph := Option.some.inj (h.parsed.symm.trans hg)
  have hkind : graph'.graphKind? = some kind := by
    rw [hgraph]
    cases kind <;> rfl
  obtain rfl : kind' = kind := Option.some.inj (h.graphKind.symm.trans hkind)
  have hcode : d.code = .invalidEdgeOperation := of_decide_eq_true (List.mem_filter.mp hd).2
  have hfixes : fixesFor (Source.ofText t) d = operatorFixes graph' d.span := by
    simp only [fixesFor, hcode, hg]
  have hopposite : kind'.allowedOp.opposite.graphKind = kind'.opposite := by cases kind' <;> rfl
  rw [hfixes, h.operatorFixes_eq hd, hopposite, GraphFix.fixGraph?_eq _ hgraph, GraphFix.fixGraph?_eq _ hgraph]
  rfl

lemma quickFixes_eq_flatMap (request : Span) : quickFixes (Source.ofText t) request =
    ((Source.ofText t).diagnostics.filter fun d => d.code = .invalidEdgeOperation && d.span.meets request).flatMap
      (fixesFor (Source.ofText t)) := by
  rw [quickFixes, ← flatMap_filter_of_eq_nil (p := fun d => d.code = .invalidEdgeOperation), List.filter_filter]
  intro d _ hcode
  exact fixesFor_eq_nil (of_decide_eq_false hcode)

/-- A place of a text is offered three fixes for every wrong operator there, in the order in which the operators
are reported, and nothing for what else is wrong. The operators that two of the fixes change are together all
operators of the graph, and none is changed by both. -/
theorem quickFixes_eq_waysOut (t : Text) (request : Span) :
    (∀ d ∈ (Source.ofText t).diagnostics, d.phase ≠ .check → fixesFor (Source.ofText t) d = []) ∧
      ((Source.ofText t).graph = none → quickFixes (Source.ofText t) request = [] ∧
        ∀ d ∈ (Source.ofText t).diagnostics, d.code ≠ .invalidEdgeOperation) ∧
      ∀ graph, (Source.ofText t).graph = some graph →
        ∃ i strict keyword name statements, ∃ (kind : GraphKind) (wrong right : List Span),
          graph = .graph i strict keyword name statements ∧ keyword.kind.graphKind? = some kind ∧
          Source.OperatorGroups t graph kind wrong right ∧
          quickFixes (Source.ofText t) request =
            ((Source.ofText t).diagnostics.filter fun d => d.code = .invalidEdgeOperation &&
            d.span.meets request).flatMap
              fun d => waysOut keyword.span kind wrong right d.span := by
  refine ⟨?_, ?_, ?_⟩
  · rintro d - hphase
    apply fixesFor_eq_nil
    intro hcode
    exact hphase (by rw [Diagnostic.phase, hcode]; rfl)
  · intro hnone
    have hcode : ∀ d ∈ (Source.ofText t).diagnostics, d.code ≠ .invalidEdgeOperation := by
      simpa [wrongOperators] using wrongOperators_eq_nil hnone
    refine ⟨?_, hcode⟩
    apply List.flatMap_eq_nil_iff.mpr
    intro d hd
    exact fixesFor_eq_nil (hcode d (List.mem_of_mem_filter hd))
  · intro graph hg
    obtain ⟨ps, used, h⟩ := Source.exists_graphReading hg
    obtain ⟨-, -, -, -, -, kind, i, strict, j, name, statements, hgraph, -⟩ := h.header
    have hk : kind.kind.graphKind? = some kind := by cases kind <;> rfl
    have hkind : graph.graphKind? = some kind := by
      rw [hgraph]
      exact hk
    refine ⟨i, strict, .token j kind.kind, name, statements, kind, _, _, hgraph, hk,
      Source.operatorGroups hg hkind, ?_⟩
    rw [quickFixes_eq_flatMap]
    apply List.flatMap_congr
    intro d hd
    obtain ⟨hd, hp⟩ := List.mem_filter.mp hd
    exact fixesFor_eq_waysOut hg hgraph (List.mem_filter.mpr ⟨hd, (Bool.and_eq_true_iff.mp hp).1⟩)

theorem quickFixes_eq_waysOut_touching :
    let t : Text := "graph \x7b a->->b--c \x7d".toList
    ∃ graph, (Source.ofText t).graph = some graph ∧
      ∃ i strict keyword name statements, ∃ (kind : GraphKind) (wrong right : List Span),
        graph = .graph i strict keyword name statements ∧ keyword.kind.graphKind? = some kind ∧
        Source.OperatorGroups t graph kind wrong right ∧ (quickFixes (Source.ofText t) (.caret 11)).length = 6 ∧
        quickFixes (Source.ofText t) (.caret 11) =
          ((Source.ofText t).diagnostics.filter fun d => d.code = .invalidEdgeOperation &&
            d.span.meets (.caret 11)).flatMap
            fun d => waysOut keyword.span kind wrong right d.span := by
  intro t
  have hsome : (Source.ofText t).graph.isSome := by decide +kernel
  obtain ⟨graph, hg⟩ := Option.isSome_iff_exists.mp hsome
  obtain ⟨i, strict, keyword, name, statements, kind, wrong, right, hgraph, hkind, hsorted, hfixes⟩ :=
    (quickFixes_eq_waysOut t (.caret 11)).2.2 graph hg
  exact ⟨graph, hg, i, strict, keyword, name, statements, kind, wrong, right, hgraph, hkind, hsorted,
    by decide +kernel, hfixes⟩

end Action

end DotMend
