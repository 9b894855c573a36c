import DotMend.Proofs.Command.Mending

namespace DotMend

open Token

namespace GraphFix

def only (f : GraphFix) (done : List Span) : GraphFix := { f with operations := f.operations.filter (· ∈ done) }

variable {f : GraphFix} {ps : List Piece} {done : List Span}

lemma mem_only {s : Span} : s ∈ (f.only done).operations ↔ s ∈ f.operations ∧ s ∈ done := by
  simp [only]

lemma only_nil : (f.only []).operations = [] := by
  simp [only]

lemma only_eq_self (h : ∀ s ∈ f.operations, s ∈ done) : f.only done = f := by
  have hall : f.operations.filter (· ∈ done) = f.operations := by
    apply List.filter_eq_self.mpr
    intro s hs
    exact decide_eq_true (h s hs)
  rw [only, hall]

lemma Fits.only (h : f.Fits ps) (done : List Span) : (f.only done).Fits ps where
  keyword := h.keyword
  operations s hs := h.operations s (mem_only.mp hs).1
  apart := h.apart.sublist List.filter_sublist

lemma respell_of_mem (hr : Run true ps) (h : f.Fits ps) {q : Nat × Piece} (hq : q.2.spanAt q.1 ∈ f.operations) :
    f.respell q = operatorPiece f.wanted.allowedOp := by
  rw [respell, if_neg (operation_ne_keyword hr h hq), if_pos hq]

end GraphFix

def OperatorChange.IsOffered (t : Text) (d : Diagnostic) (c : OperatorChange) : Prop :=
  c.operation = d.span ∧ ∃ request, ∃ a ∈ Action.quickFixes (Source.ofText t) request,
    a.command = .changeOperator c

/-- Changes that are carried out one after the other, each on the text that the one before left and on what that
text is read as. Every one of them takes away what was said about its operator, and nothing else. -/
inductive OperatorChange.Replay : Text → List (Diagnostic × OperatorChange) → Text → Prop
  | done (t : Text) : Replay t [] t
  | step {t t' t'' : Text} {d : Diagnostic} {c : OperatorChange} {changes : List (Diagnostic × OperatorChange)}
      {edits : List Edit} :
      (Command.changeOperator c).apply t (Source.ofText t) = .ok (edits, t') →
      d ∈ (Source.ofText t).diagnostics →
      (Source.ofText t').diagnostics = (Source.ofText t).diagnostics.erase d →
      Replay t' changes t'' → Replay t ((d, c) :: changes) t''

namespace Mending

variable {t : Text} {graph : Tree} {kind : GraphKind} {f : GraphFix} {ps : List Piece} {done : List Span}

def change (kind : GraphKind) (d : Diagnostic) : OperatorChange :=
  ⟨d.span, kind.allowedOp.opposite, kind.allowedOp⟩

lemma span_mem (h : Mending t graph kind f ps) {d : Diagnostic} (hd : d ∈ wrongOperators t) :
    d.span ∈ f.operations := by
  rw [h.operations]
  exact List.mem_map_of_mem hd

section Offers

lemma operatorFixes_eq (h : Mending t graph kind f ps) {d : Diagnostic} (hd : d ∈ wrongOperators t) :
    Action.operatorFixes graph d.span =
      { Action.changeOperator d.span kind.allowedOp.opposite kind.allowedOp with preferred := true } ::
        (Action.fixGraph? graph kind).toList ++
        (Action.fixGraph? graph kind.allowedOp.opposite.graphKind).toList := by
  obtain ⟨used, hreading⟩ := h.offered.reading
  rw [wrongOperators_eq_check h.parsed] at hd
  obtain ⟨o, ho, hspan, -⟩ := exists_of_mem_check h.graphKind hd
  obtain ⟨o', hfind⟩ := Option.isSome_iff_exists.mp
    (List.find?_isSome.mpr ⟨o, ho, decide_eq_true hspan.symm⟩ :
      (graph.edgeOperations.find? (·.span = d.span)).isSome)
  have hspan' : o'.span = d.span := of_decide_eq_true (List.find?_some hfind :)
  obtain ⟨op, hop, hslice⟩ := hreading.slice_operation (List.mem_of_find?_eq_some hfind)
  have hwrong := (h.slices d (wrongOperators_eq_check h.parsed ▸ hd)).1
  obtain rfl : op = kind.allowedOp.opposite :=
    EdgeOp.text_inj (Option.some.inj (hslice.symm.trans (hspan' ▸ hwrong)))
  simp only [Action.operatorFixes, h.graphKind, hfind, Option.bind_some, hop]

lemma command_of_fixGraph? (h : Mending t graph kind f ps) {wanted : GraphKind} {a : Action}
    (ha : Action.fixGraph? graph wanted = some a) : ∃ f', a.command = .fixGraph f' := by
  obtain ⟨_, _, _, _, _, _, hgraph, -⟩ := h.offered.eq_ofGraph
  rw [GraphFix.fixGraph?_eq wanted hgraph] at ha
  obtain rfl := Option.some.inj ha
  exact ⟨_, rfl⟩

lemma isOffered_iff (h : Mending t graph kind f ps) {d : Diagnostic} (hd : d ∈ wrongOperators t)
    {c : OperatorChange} : c.IsOffered t d ↔ c = change kind d := by
  constructor
  · rintro ⟨hplace, request, a, ha, hcommand⟩
    obtain ⟨d', hd', ha⟩ := List.mem_flatMap.mp ha
    have hmem := List.mem_of_mem_filter hd'
    simp only [Action.fixesFor, h.parsed] at ha
    split at ha
    · rename_i hcode hgraph
      obtain rfl := Option.some.inj hgraph
      rw [h.operatorFixes_eq (List.mem_filter.mpr ⟨hmem, decide_eq_true hcode⟩)] at ha
      simp only [List.cons_append, List.mem_cons, List.mem_append, Option.mem_toList] at ha
      rcases ha with rfl | ha | ha
      · obtain rfl := Command.changeOperator.inj hcommand
        rw [change, ← hplace]
      · obtain ⟨f', hf'⟩ := h.command_of_fixGraph? ha
        rw [hf'] at hcommand
        cases hcommand
      · obtain ⟨f', hf'⟩ := h.command_of_fixGraph? ha
        rw [hf'] at hcommand
        cases hcommand
    · simp at ha
  · rintro rfl
    obtain ⟨hmem, hcode⟩ := List.mem_filter.mp hd
    have hfixes : Action.fixesFor (Source.ofText t) d = Action.operatorFixes graph d.span := by
      simp only [Action.fixesFor, of_decide_eq_true hcode, h.parsed]
    rw [h.operatorFixes_eq hd] at hfixes
    refine ⟨rfl, d.span, { Action.changeOperator d.span _ _ with preferred := true }, ?_, rfl⟩
    refine List.mem_flatMap.mpr ⟨d, List.mem_filter.mpr ⟨hmem, Span.meets_self d.span⟩, ?_⟩
    rw [hfixes]
    exact List.mem_cons_self

end Offers

section Partly

def partly (ps : List Piece) (f : GraphFix) (done : List Span) : Text :=
  spell ((placed 0 ps).map (f.only done).respell)

lemma respell_of_not_mem (h : Mending t graph kind f ps) {q : Nat × Piece}
    (hq : q.2.spanAt q.1 ∉ (f.only done).operations) : (f.only done).respell q = q.2 :=
  GraphFix.respell_eq_self (f := f.only done) h.same hq

lemma partly_nil (h : Mending t graph kind f ps) : partly ps f [] = t := by
  have hsame : ∀ q ∈ placed 0 ps, (f.only []).respell q = q.2 := by
    intro q _
    apply h.respell_of_not_mem
    simp [GraphFix.only_nil]
  rw [partly, List.map_congr_left hsame, map_snd_placed, h.spelt]

lemma partly_of_all (h : ∀ s ∈ f.operations, s ∈ done) :
    partly ps f done = spell ((placed 0 ps).map f.respell) := by
  rw [partly, GraphFix.only_eq_self h]

lemma span_mem_of_wrong (h : Mending t graph kind f ps) {o : Tree} (ho : o ∈ graph.edgeOperations)
    (hwrong : o.edgeOp? ≠ some kind.allowedOp) : o.span ∈ f.operations := by
  rw [h.operations, wrongOperators_eq_check h.parsed, Tree.check, h.graphKind, List.map_map]
  exact List.mem_map.mpr ⟨o, List.mem_filter.mpr ⟨ho, decide_eq_true hwrong⟩, rfl⟩

lemma operation_relocated (h : Mending t graph kind f ps) {o : Tree} (ho : o ∈ graph.edgeOperations) :
    ((f.only done).relocation.tree o).span = o.span ∧
      (((f.only done).relocation.tree o).edgeOp? ≠ some kind.allowedOp ↔
        o.edgeOp? ≠ some kind.allowedOp ∧ o.span ∉ done) := by
  obtain ⟨used, hreading⟩ := h.offered.reading
  have hfits := h.offered.fits.only done
  have hmem := h.span_mem_of_wrong ho
  have hne := GraphFix.edgeOperation_ne_keyword hreading h.offered.fits ho
  obtain ⟨q, hq, op, i, rfl, hspan, -⟩ := hreading.operations.2 o ho
  -- keyword and operators keep their widths, so no place moves
  have hplace : (f.only done).relocation.span i.span = i.span := by
    obtain ⟨hstart, hstop⟩ := hfits.clears_of_mem_placed hq
    rw [show i.span = q.2.spanAt q.1 from hspan]
    simp only [Relocation.span, GraphFix.relocation, Piece.spanAt,
      GraphFix.place_eq_self (f := f.only done) h.same hfits hstart,
      GraphFix.place_eq_self (f := f.only done) h.same hfits hstop]
  refine ⟨hplace, ?_⟩
  have hcolour : (f.only done).relocation.recolour i.span op.kind =
      if i.span ∈ (f.only done).operations then kind.allowedOp.kind else op.kind := by
    rw [← h.wanted]
    exact if_neg hne
  simp only [Relocation.tree_token, Tree.edgeOp?, Tree.kind, hcolour] at hmem ⊢
  split
  · rename_i hdone
    simp [Tree.span, Tree.info, (GraphFix.mem_only.mp hdone).2]
  · rename_i hdone
    constructor
    · intro hop
      exact ⟨hop, fun hmem' => hdone (GraphFix.mem_only.mpr ⟨hmem hop, hmem'⟩)⟩
    · exact And.left

lemma graphKind_relocated (h : Mending t graph kind f ps) :
    ((f.only done).relocation.tree graph).graphKind? = some kind := by
  obtain ⟨_, i, j, strict, name, statements, hgraph, -, hf⟩ := h.offered.eq_ofGraph
  have hkeyword : j.span = f.keyword := by rw [hf]; rfl
  have hcolour (k : Kind) : (f.only done).relocation.recolour j.span k = kind.kind := by
    rw [← h.wanted]
    exact if_pos hkeyword
  rw [hgraph]
  simp only [Relocation.tree_graph, Relocation.tree_token, Tree.graphKind?, Tree.kind, hcolour]
  cases kind <;> rfl

lemma check_relocated (h : Mending t graph kind f ps) :
    ((f.only done).relocation.tree graph).check = (wrongOperators t).filter (·.span ∉ done) := by
  rw [wrongOperators_eq_check h.parsed, Tree.check, h.graphKind_relocated, Tree.check, h.graphKind]
  simp only [Tree.invalidOperations, Relocation.edgeOperations_tree, List.filter_map, List.map_map,
    List.filter_filter]
  have hfilter : graph.edgeOperations.filter
      ((fun o => decide (o.edgeOp? ≠ some kind.allowedOp)) ∘ (f.only done).relocation.tree) =
      graph.edgeOperations.filter fun o => decide (o.span ∉ done) && decide (o.edgeOp? ≠ some kind.allowedOp) := by
    apply List.filter_congr
    intro o ho
    rw [Function.comp_apply, ← Bool.decide_and, decide_eq_decide, and_comm]
    exact (h.operation_relocated ho).2
  rw [hfilter]
  apply List.map_congr_left
  intro o ho
  rw [Function.comp_apply, (h.operation_relocated (List.mem_of_mem_filter ho)).1]

lemma diagnostics_partly (h : Mending t graph kind f ps) (done : List Span) :
    (Source.ofText (partly ps f done)).diagnostics =
      (Source.ofText t).diagnostics.filter (·.phase ≠ .check) ++ (wrongOperators t).filter (·.span ∉ done) := by
  obtain ⟨used, hreading⟩ := h.offered.reading
  have hfits := h.offered.fits.only done
  obtain ⟨lead, k, rest, htokens, hheader, hk⟩ := h.offered.header
  have hgraph : (Source.ofText (spell ps)).parse.graph = some graph := hreading.spelt.symm ▸ hreading.parsed
  obtain ⟨_, _, _, hway⟩ := Source.exists_graphWay_spell hreading.run hgraph
  have hkept := GraphFix.map_diagnostic_eq_self (f := f.only done) h.same hway hfits
  rw [partly, GraphFix.ofText_respell hreading.run hfits htokens hheader hk, ← Source.parse_spell hreading.run]
  simp only [hgraph, Option.map_some, Option.elim_some, h.check_relocated, hkept]
  rw [hreading.filter_diagnostics, hreading.spelt]

lemma nodup_span (h : Mending t graph kind f ps) : ((wrongOperators t).map Diagnostic.span).Nodup := by
  refine List.pairwise_map.mpr (h.ordered.imp_of_mem ?_)
  intro a b ha _ hab heq
  obtain ⟨q, -, hspan, hop⟩ := h.offered.fits.operations _ (h.span_mem ha)
  have hsize : q.2.text.bytes = 2 := by rw [hop, bytes_operatorPiece]
  rw [← heq, hspan, Piece.spanAt_start, Piece.spanAt_stop] at hab
  omega

lemma erase_partly (h : Mending t graph kind f ps) {d : Diagnostic} (hd : d ∈ wrongOperators t) :
    (Source.ofText (partly ps f (d.span :: done))).diagnostics =
      (Source.ofText (partly ps f done)).diagnostics.erase d := by
  have hcode := of_decide_eq_true (List.mem_filter.mp hd).2
  have hnot : d ∉ (Source.ofText t).diagnostics.filter (·.phase ≠ .check) := by
    intro hmem
    have hphase := of_decide_eq_true (List.mem_filter.mp hmem).2
    rw [Diagnostic.phase, hcode] at hphase
    exact hphase rfl
  rw [h.diagnostics_partly, h.diagnostics_partly, List.erase_append_right _ hnot,
    (h.nodup_span.of_map.filter _).erase_eq_filter, List.filter_filter]
  refine congrArg _ (List.filter_congr fun e he => ?_)
  have hsame : e.span = d.span ↔ e = d := ⟨List.inj_on_of_nodup_map h.nodup_span he hd, congrArg _⟩
  by_cases hed : e = d
  · simp [hed]
  · simp [hed, hsame]

lemma span_respell (h : Mending t graph kind f ps) (done : List Span) {q : Nat × Piece} (hq : q ∈ placed 0 ps) :
    ((f.only done).respell q).spanAt q.1 = q.2.spanAt q.1 := by
  rw [Piece.spanAt, Piece.spanAt,
    GraphFix.bytes_respell (f := f.only done) h.same h.run (h.offered.fits.only done) hq]

lemma placed_partly (h : Mending t graph kind f ps) :
    placed 0 ((placed 0 ps).map (f.only done).respell) = (placed 0 ps).map fun q =>
      (q.1, (f.only done).respell q) :=
  placed_map_of_bytes_eq fun _ hq =>
    GraphFix.bytes_respell (f := f.only done) h.same h.run (h.offered.fits.only done) hq

lemma run_partly (h : Mending t graph kind f ps) (done : List Span) :
    Run true ((placed 0 ps).map (f.only done).respell) :=
  h.run.respelt (GraphFix.moves_respell h.run (h.offered.fits.only done)).forall₂

lemma respell_cons (h : Mending t graph kind f ps) {s : Span} (hs : s ∈ f.operations) (q : Nat × Piece) :
    (f.only (s :: done)).respell q =
      if q.2.spanAt q.1 = s then operatorPiece kind.allowedOp else (f.only done).respell q := by
  have hchanged {done : List Span} (hq : q.2.spanAt q.1 ∈ (f.only done).operations) :
      (f.only done).respell q = operatorPiece kind.allowedOp := by
    rw [GraphFix.respell_of_mem h.run (h.offered.fits.only done) hq, ← h.wanted]
    rfl
  split
  · rename_i hq
    exact hchanged (GraphFix.mem_only.mpr ⟨hq ▸ hs, by simp [hq]⟩)
  · rename_i hne
    by_cases hmem : q.2.spanAt q.1 ∈ (f.only done).operations
    · rw [hchanged hmem]
      obtain ⟨hin, hdone⟩ := GraphFix.mem_only.mp hmem
      exact hchanged (GraphFix.mem_only.mpr ⟨hin, List.mem_cons_of_mem _ hdone⟩)
    · rw [h.respell_of_not_mem hmem]
      apply h.respell_of_not_mem
      simpa [GraphFix.mem_only, hne] using hmem

lemma exists_unchanged (h : Mending t graph kind f ps) {d : Diagnostic} (hd : d ∈ wrongOperators t)
    (hdone : d.span ∉ done) : ∃ q ∈ placed 0 ((placed 0 ps).map (f.only done).respell),
      d.span = q.2.spanAt q.1 ∧ q.2 = operatorPiece kind.allowedOp.opposite := by
  obtain ⟨q, hq, hspan, hop⟩ := h.offered.fits.operations _ (h.span_mem hd)
  have hstays : (f.only done).respell q = operatorPiece kind.allowedOp.opposite := by
    rw [h.respell_of_not_mem, hop, h.wanted]
    rw [← hspan]
    exact fun hmem => hdone (GraphFix.mem_only.mp hmem).2
  refine ⟨(q.1, (f.only done).respell q), ?_, hspan.trans (h.span_respell done hq).symm, hstays⟩
  rw [h.placed_partly]
  exact List.mem_map_of_mem hq

lemma edits_change (h : Mending t graph kind f ps) {d : Diagnostic} (hd : d ∈ wrongOperators t)
    (hdone : d.span ∉ done) :
    (Command.changeOperator (change kind d)).edits (partly ps f done) (Source.ofText (partly ps f done)) =
      .ok [⟨d.span, kind.allowedOp.text, OperatorChange.title kind.allowedOp.opposite kind.allowedOp⟩] := by
  obtain ⟨q, hq, hspan, hop⟩ := h.exists_unchanged hd hdone
  have hslice : (partly ps f done).slice? d.span = some kind.allowedOp.opposite.text.toList := by
    rw [hspan, partly, slice?_of_mem_placed hq, hop]
    rfl
  have htext := EdgeOp.ofText?_eq_some_iff.mpr (rfl : kind.allowedOp.opposite.text.toList = _)
  simp only [Command.edits, OperatorChange.edits, change, verifyOperator, hslice, htext, if_true]
  rfl

lemma apply_change (h : Mending t graph kind f ps) {d : Diagnostic} (hd : d ∈ wrongOperators t)
    (hdone : d.span ∉ done) :
    ∃ edits, (Command.changeOperator (change kind d)).apply (partly ps f done) (Source.ofText (partly ps f done)) =
      .ok (edits, partly ps f (d.span :: done)) := by
  obtain ⟨q, hq, hspan, -⟩ := h.exists_unchanged hd hdone
  refine ⟨_, Command.apply_eq (h.edits_change hd hdone) ?_⟩
  have happly := applyAll_pieces (h.run_partly done) (List.pairwise_singleton Edit.Apart
      ⟨d.span, kind.allowedOp.text, OperatorChange.title kind.allowedOp.opposite kind.allowedOp⟩)
    (g := fun r => if r.2.spanAt r.1 = d.span then operatorPiece kind.allowedOp else r.2) ?_ ?_ ?_
  · rw [partly, happly, h.placed_partly, List.map_map, partly]
    refine congrArg _ (congrArg _ (List.map_congr_left fun r hr => ?_))
    rw [h.respell_cons (h.span_mem hd), Function.comp_apply, h.span_respell done hr]
  · simp only [List.mem_singleton, forall_eq]
    exact ⟨q, hq, hspan⟩
  · intro r hr e he hr'
    obtain rfl := List.mem_singleton.mp he
    rw [if_pos hr'.symm]
    rfl
  · intro r hr hmiss
    exact if_neg fun hr' => hmiss _ List.mem_cons_self hr'.symm

end Partly

lemma replay (h : Mending t graph kind f ps) (done : List Span) {ds : List Diagnostic}
    (hds : ∀ d ∈ ds, d ∈ wrongOperators t)
    (hnodup : (ds.map Diagnostic.span).Nodup) (hdone : ∀ d ∈ ds, d.span ∉ done) :
    ∃ done', (∀ s ∈ done ++ ds.map Diagnostic.span, s ∈ done') ∧
      OperatorChange.Replay (partly ps f done) (ds.map fun d => (d, change kind d)) (partly ps f done') := by
  -- on the changes to come; the text so far depends only on which operators are done, not on their order
  induction ds generalizing done with
  | nil => exact ⟨done, by simp, .done _⟩
  | cons d ds ih =>
    obtain ⟨hd, hrest⟩ := List.forall_mem_cons.mp hds
    obtain ⟨hd', hrest'⟩ := List.nodup_cons.mp hnodup
    obtain ⟨hnew, hnewer⟩ := List.forall_mem_cons.mp hdone
    obtain ⟨edits, happly⟩ := h.apply_change hd hnew
    have hmem : d ∈ (Source.ofText (partly ps f done)).diagnostics := by
      rw [h.diagnostics_partly]
      exact List.mem_append_right _ (List.mem_filter.mpr ⟨hd, decide_eq_true hnew⟩)
    have hlater : ∀ e ∈ ds, e.span ∉ d.span :: done := by
      intro e he
      rw [List.mem_cons, not_or]
      exact ⟨fun heq => hd' (heq ▸ List.mem_map_of_mem he), hnewer e he⟩
    obtain ⟨done', hall, hreplay⟩ := ih (d.span :: done) hrest hrest' hlater
    refine ⟨done', ?_, .step happly hmem (h.erase_partly hd) hreplay⟩
    intro s hs
    apply hall
    simp only [List.map_cons, List.mem_append, List.mem_cons] at hs ⊢
    tauto

lemma forall₂_isOffered_iff (h : Mending t graph kind f ps) {ds : List Diagnostic}
    (hds : ∀ d ∈ ds, d ∈ wrongOperators t)
    {cs : List OperatorChange} : List.Forall₂ (OperatorChange.IsOffered t) ds cs ↔ cs = ds.map (change kind) := by
  induction ds generalizing cs with
  | nil => simp
  | cons d ds ih =>
    obtain ⟨hd, hrest⟩ := List.forall_mem_cons.mp hds
    cases cs with
    | nil => simp
    | cons c cs => rw [List.forall₂_cons, h.isOffered_iff hd, ih hrest, List.map_cons, List.cons.injEq]

end Mending

/-- For its wrong operators, in any order, a text is offered one change each. Every change succeeds on the text
that the ones before left and takes away its own diagnostic alone, and at the end the text is mended. -/
theorem replay_operator_changes (t : Text) {ds : List Diagnostic} (hds : ds.Perm (wrongOperators t)) :
    ∃ cs t', (∀ cs', List.Forall₂ (OperatorChange.IsOffered t) ds cs' ↔ cs' = cs) ∧
      OperatorChange.Replay t (ds.zip cs) t' ∧ (mend t).map (fun r => r.elim t Mended.text) = .ok t' := by
  by_cases hwrong : wrongOperators t = []
  · obtain rfl : ds = [] := by
      rw [hwrong] at hds
      exact hds.eq_nil
    refine ⟨[], t, by simp, .done t, ?_⟩
    rw [mend_eq_none hwrong]
    rfl
  · obtain ⟨graph, kind, f, ps, h⟩ := exists_mending hwrong
    have hmem : ∀ d ∈ ds, d ∈ wrongOperators t := fun d hd => hds.mem_iff.mp hd
    obtain ⟨done, hdone, hreplay⟩ := h.replay [] hmem ((hds.map _).nodup_iff.mpr h.nodup_span) (by simp)
    obtain ⟨reports, hmend, -⟩ := h.exists_mended
    rw [h.partly_nil, List.map_prod_left_eq_zip] at hreplay
    refine ⟨_, _, fun cs => h.forall₂_isOffered_iff hmem, hreplay, ?_⟩
    have hall : ∀ s ∈ f.operations, s ∈ done := by
      intro s hs
      rw [h.operations] at hs
      exact hdone s ((hds.map _).mem_iff.mpr hs)
    rw [Mending.partly_of_all hall, hmend]
    rfl

theorem replay_operator_changes_backwards :
    let t : Text := "GRAPH \x7b a -> b -- é -> /* -> */ \x7b c -> \"d -> e".toList
    let ds := (wrongOperators t).reverse
    ds.map Diagnostic.span = [⟨37, 39⟩, ⟨21, 23⟩, ⟨10, 12⟩] ∧
      ∃ cs t', (∀ cs', List.Forall₂ (OperatorChange.IsOffered t) ds cs' ↔ cs' = cs) ∧
        OperatorChange.Replay t (ds.zip cs) t' ∧ (mend t).map (fun r => r.elim t Mended.text) = .ok t' := by
  intro t ds
  have hspans : ds.map Diagnostic.span = [⟨37, 39⟩, ⟨21, 23⟩, ⟨10, 12⟩] := by decide +kernel
  exact ⟨hspans, replay_operator_changes t (List.reverse_perm _)⟩

end DotMend
