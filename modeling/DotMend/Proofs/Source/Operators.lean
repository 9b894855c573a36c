import DotMend.Proofs.Parse.Operators
import DotMend.Proofs.Source.Marks

namespace DotMend.Source

open Token Parse

def operatorTokens (t : Text) (stop : Nat) : List Token :=
  (scan t).tokens.filter fun u => u.kind.isEdgeOp && decide (u.span.stop ≤ stop)

variable {t : Text} {g : Tree}

section GraphWay

variable {ps : List Piece} {rest : List Token} {m : Trail} {cs : List Diagnostic}

lemma GraphWay.operatorTokens_eq (h : GraphWay t g ps rest m cs) {used : List Token}
    (hused : tokensAt 0 ps = used ++ rest) : operatorTokens t g.span.stop = used.filter (·.kind.isEdgeOp) := by
  obtain ⟨used', hused', -, hin, hout⟩ := exists_graph_end h.steps h.stop h.ordered
  obtain rfl : used = used' := List.append_cancel_right (hused.symm.trans hused')
  have hscan : (scan t).tokens = used ++ rest ++ [endAt t.bytes] := by
    rw [← h.spelt, h.run.scan, hused]
  have hrest : rest.filter (fun u => u.kind.isEdgeOp && decide (u.span.stop ≤ g.span.stop)) = [] := by
    apply List.filter_eq_nil_iff.mpr
    intro u hu
    have hlt := h.ordered.nonempty u (by simp [hused, hu])
    have hle := hout u hu
    simp only [Bool.and_eq_true, decide_eq_true_eq, not_and]
    intro _
    omega
  have hfront : used.filter (fun u => u.kind.isEdgeOp && decide (u.span.stop ≤ g.span.stop)) =
      used.filter (·.kind.isEdgeOp) := by
    apply List.filter_congr
    intro u hu
    simp [hin u hu]
  rw [operatorTokens, hscan, List.filter_append, List.filter_append, hrest, hfront]
  simp [endAt, Kind.isEdgeOp, Kind.edgeOp?]

lemma GraphWay.passedOver_iff (h : GraphWay t g ps rest m cs) {s : Span} :
    PassedOver (ofText t).diagnostics s ↔ PassedOver cs s := by
  constructor
  · rintro ⟨what, hskips, hmem⟩
    rcases h.mem_diagnostics hmem with ⟨-, hphase⟩ | ⟨hmem, -⟩ | hcode | ⟨-, hcode⟩
    · cases hphase
    · exact ⟨what, hskips, hmem⟩
    · cases hcode
    · cases hcode
  · rintro ⟨what, hskips, hmem⟩
    refine ⟨what, hskips, ?_⟩
    rw [h.diagnostics, h.complaints]
    simp [hmem]

lemma GraphWay.complaints_eq_nil (h : GraphWay t g ps rest m cs) (hclear : g.flagged = false) : cs = [] := by
  obtain ⟨used, -, hmarks⟩ := h.steps.marks h.run.kind_of_faulty
  cases cs with
  | nil => rfl
  | cons => simp [hclear] at hmarks

lemma GraphWay.filter_check (h : GraphWay t g ps rest m cs) :
    (ofText t).diagnostics.filter (·.phase = .check) = g.check := by
  have hscan : (diagnosticsAt 0 ps).filter (·.phase = .check) = [] := by
    apply List.filter_eq_nil_iff.mpr
    intro d hd
    simp [phase_of_mem_diagnosticsAt d hd]
  have hread : (ofText t).parse.diagnostics.filter (·.phase = .check) = [] := by
    apply List.filter_eq_nil_iff.mpr
    intro d hd
    rw [h.complaints, List.mem_append] at hd
    rcases hd with hd | hd
    · simp [Diagnostic.phase, h.code_of_mem d hd, Code.phase]
    · simp [Diagnostic.phase, code_of_mem_trailing d hd, Code.phase]
  have hcheck : g.check.filter (·.phase = .check) = g.check := by
    apply List.filter_eq_self.mpr
    intro d hd
    simp [Diagnostic.phase, code_of_mem_check d hd, Code.phase]
  rw [h.diagnostics, List.filter_append, List.filter_append, hscan, hread, hcheck]
  rfl

end GraphWay

theorem edgeOperations_eq_kept (hg : (ofText t).graph = some g) :
    g.edgeOperations.map (fun o => (o.span, o.kind)) =
      (keptOperators (ofText t).diagnostics (operatorTokens t g.span.stop)).map fun u => (u.span, u.kind) := by
  obtain ⟨ps, rest, m, cs, h⟩ := exists_graphWay hg
  obtain ⟨_, _, hreading⟩ := exists_graphReading hg
  obtain ⟨used, hused, -, hops⟩ := h.steps.operators h.ordered
  have hkept : keptOperators cs used = keptOperators (ofText t).diagnostics (used.filter (·.kind.isEdgeOp)) := by
    rw [keptOperators, keptOperators, List.filter_filter]
    apply List.filter_congr
    intro u _
    cases u.kind.isEdgeOp with
    | false => simp
    | true => simp [h.passedOver_iff]
  rw [List.flatMap_singleton] at hops
  rw [hreading.edgeOperations_eq, hops, hkept, h.operatorTokens_eq hused]

lemma keptOperators_eq_self (hg : (ofText t).graph = some g) (hclear : g.flagged = false) :
    keptOperators (ofText t).diagnostics (operatorTokens t g.span.stop) = operatorTokens t g.span.stop := by
  obtain ⟨ps, rest, m, cs, h⟩ := exists_graphWay hg
  obtain rfl := h.complaints_eq_nil hclear
  apply List.filter_eq_self.mpr
  intro u hu
  have hop := (Bool.and_eq_true_iff.mp (List.mem_filter.mp hu).2).1
  have hkept : ¬ PassedOver (ofText t).diagnostics u.span := by
    rw [h.passedOver_iff]
    exact not_passedOver_nil
  simp [hop, hkept]

lemma edgeOperations_increasing (hg : (ofText t).graph = some g) :
    g.edgeOperations.Pairwise fun a b => a.span.start < b.span.start ∧ a.span.stop ≤ b.span.start := by
  obtain ⟨ps, used, h⟩ := exists_graphReading hg
  refine h.operations.1.imp_of_mem ?_
  intro a b ha _ hab
  obtain ⟨q, hq, -, -, -, hspan, -⟩ := h.operations.2 a ha
  have hpos := bytes_pos_of_mem_placed (fun p hp => h.run.ne_nil hp) hq
  rw [hspan, Piece.spanAt] at hab ⊢
  exact ⟨by simp only at hab ⊢; omega, hab⟩

lemma edgeOp?_ne_iff {k : Kind} (h : k.isEdgeOp) {op : EdgeOp} : k.edgeOp? ≠ some op ↔ k ≠ op.kind := by
  obtain ⟨op', hop⟩ := Option.isSome_iff_exists.mp h
  rw [hop, Kind.eq_of_edgeOp? hop]
  cases op <;> cases op' <;> decide

lemma span_check {kind : GraphKind} (hkind : g.graphKind? = some kind) {us : List Token}
    (hops : g.edgeOperations.map (fun o => (o.span, o.kind)) = us.map fun u => (u.span, u.kind))
    (hus : ∀ u ∈ us, u.kind.isEdgeOp) :
    g.check.map (·.span) = (us.filter (·.kind ≠ kind.allowedOp.kind)).map (·.span) := by
  let wrong (q : Span × Kind) : Bool := q.2.edgeOp? ≠ some kind.allowedOp
  calc g.check.map (·.span)
      = (g.invalidOperations kind).map (·.span) := by simp [Tree.check, hkind, Function.comp_def, Diagnostic.error]
    _ = ((g.edgeOperations.map fun o => (o.span, o.kind)).filter wrong).map Prod.fst := by
        rw [List.filter_map, List.map_map]
        rfl
    _ = ((us.map fun u => (u.span, u.kind)).filter wrong).map Prod.fst := by rw [hops]
    _ = (us.filter (·.kind ≠ kind.allowedOp.kind)).map (·.span) := by
        rw [List.filter_map, List.map_map]
        refine congrArg (List.map _) (List.filter_congr fun u hu => ?_)
        exact decide_eq_decide.mpr (edgeOp?_ne_iff (hus u hu))

/-- No edge operator is missed or invented: those of the graph stand in the order of the text and are operators of
the scanner, and all of them if nothing is marked, so that exactly those of the wrong kind are reported. -/
theorem edgeOperations_accounted (hg : (ofText t).graph = some g) :
    (g.edgeOperations.Pairwise fun a b => a.span.start < b.span.start ∧ a.span.stop ≤ b.span.start) ∧
      (g.edgeOperations.map fun o => (o.span, o.kind)).Sublist
        ((operatorTokens t g.span.stop).map fun u => (u.span, u.kind)) ∧
      (g.flagged = false →
        g.edgeOperations.map (fun o => (o.span, o.kind)) =
          (operatorTokens t g.span.stop).map (fun u => (u.span, u.kind)) ∧
        ∃ kind, g.graphKind? = some kind ∧
          ((ofText t).diagnostics.filter (·.phase = .check)).map (·.span) =
            ((operatorTokens t g.span.stop).filter (·.kind ≠ kind.allowedOp.kind)).map (·.span)) := by
  have hops := edgeOperations_eq_kept hg
  refine ⟨edgeOperations_increasing hg, ?_, fun hclear => ?_⟩
  · rw [hops]
    exact List.filter_sublist.map _
  · rw [keptOperators_eq_self hg hclear] at hops
    obtain ⟨_, _, _, _, h⟩ := exists_graphWay hg
    obtain ⟨_, _, hreading⟩ := exists_graphReading hg
    obtain ⟨kind, hkind⟩ := hreading.exists_graphKind
    refine ⟨hops, kind, hkind, ?_⟩
    rw [h.filter_check]
    apply span_check hkind hops
    intro u hu
    exact (Bool.and_eq_true_iff.mp (List.mem_filter.mp hu).2).1

theorem edgeOperations_accounted_nested :
    let t : Text := "graph \x7b a -- b -> c; \x7b d -> e \x7d -- \x7b f -- g \x7d \x7d -- x".toList
    let found : List (Span × Kind) := [(⟨10, 12⟩, .undirectedOp), (⟨15, 17⟩, .directedOp), (⟨25, 27⟩, .directedOp),
      (⟨32, 34⟩, .undirectedOp), (⟨39, 41⟩, .undirectedOp)]
    ∃ g, (ofText t).graph = some g ∧
      (g.edgeOperations.Pairwise fun a b => a.span.start < b.span.start ∧ a.span.stop ≤ b.span.start) ∧
      g.edgeOperations.map (fun o => (o.span, o.kind)) = found ∧
      ((ofText t).diagnostics.filter (·.phase = .check)).map (·.span) = [⟨15, 17⟩, ⟨25, 27⟩] := by
  intro t found
  have hread : (ofText t).graph.map (fun g => (g.flagged, g.span.stop, g.graphKind?)) =
      some (false, 47, some .graph) := by
    decide +kernel
  have htokens : (operatorTokens t 47).map (fun u => (u.span, u.kind)) = found := by decide +kernel
  have hwrong : ((operatorTokens t 47).filter (·.kind ≠ GraphKind.graph.allowedOp.kind)).map (·.span) =
      [⟨15, 17⟩, ⟨25, 27⟩] := by decide +kernel
  obtain ⟨g, hg, hvalues⟩ := Option.map_eq_some_iff.mp hread
  obtain ⟨hclear, hstop, hkind⟩ : g.flagged = false ∧ g.span.stop = 47 ∧ g.graphKind? = some .graph := by
    simpa using hvalues
  obtain ⟨hincreasing, -, hall⟩ := edgeOperations_accounted hg
  obtain ⟨hops, kind, hkind', hcheck⟩ := hall hclear
  obtain rfl : kind = .graph := Option.some.inj (hkind'.symm.trans hkind)
  rw [hstop] at hops hcheck
  exact ⟨g, hg, hincreasing, hops.trans htokens, hcheck.trans hwrong⟩

end DotMend.Source
