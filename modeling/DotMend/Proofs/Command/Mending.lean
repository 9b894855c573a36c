import DotMend.Mend
import DotMend.Proofs.Command.GraphFix
import DotMend.Proofs.Command.Wire
import DotMend.Proofs.Source.Nodes
import DotMend.Proofs.Text.Removal

namespace DotMend

namespace Token

variable {ps : List Piece} {g : Nat × Piece → Piece} {n : Nat}

lemma placed_map {place : Nat → Nat}
    (h : ∀ q ∈ placed n ps, place (q.1 + q.2.text.bytes) = place q.1 + (g q).text.bytes) :
    placed (place n) ((placed n ps).map g) = (placed n ps).map fun q => (place q.1, g q) := by
  induction ps generalizing n with
  | nil => rfl
  | cons p ps ih =>
    have hp : place (n + p.text.bytes) = place n + (g (n, p)).text.bytes := h (n, p) (by simp [placed])
    rw [placed, List.map_cons, placed, List.map_cons, ← hp, ih fun q hq => h q (by simp [placed, hq])]

lemma placed_map_of_bytes_eq (h : ∀ q ∈ placed n ps, (g q).text.bytes = q.2.text.bytes) :
    placed n ((placed n ps).map g) = (placed n ps).map fun q => (q.1, g q) := by
  refine @placed_map ps g n id fun q hq => ?_
  rw [h q hq]
  rfl

lemma bytes_spell_map (h : ∀ q ∈ placed n ps, (g q).text.bytes = q.2.text.bytes) :
    (spell ((placed n ps).map g)).bytes = (spell ps).bytes := by
  induction ps generalizing n with
  | nil => rfl
  | cons p ps ih =>
    rw [placed, List.map_cons, spell_cons, spell_cons, Text.bytes_append, Text.bytes_append,
      h (n, p) (by simp [placed]), ih fun q hq => h q (by simp [placed, hq])]

lemma utf8_spell_map (h : ∀ q ∈ placed n ps, (g q).text.bytes = q.2.text.bytes) {i : Nat}
    (hi : ∀ q ∈ placed n ps, q.1 ≤ n + i → n + i < q.1 + q.2.text.bytes → g q = q.2) :
    (spell ((placed n ps).map g)).utf8[i]? = (spell ps).utf8[i]? := by
  induction ps generalizing n i with
  | nil => rfl
  | cons p ps ih =>
    have hp : (g (n, p)).text.bytes = p.text.bytes := h (n, p) (by simp [placed])
    rw [placed, List.map_cons, spell_cons, spell_cons, Text.utf8_append, Text.utf8_append]
    by_cases hlt : i < p.text.bytes
    · have hsame : g (n, p) = p := hi (n, p) (by simp [placed]) (Nat.le_add_right n i) (by simp only; omega)
      rw [hsame, List.getElem?_append_left (by simpa using hlt), List.getElem?_append_left (by simpa using hlt)]
    · rw [List.getElem?_append_right (by simp only [Text.length_utf8]; omega),
        List.getElem?_append_right (by simp only [Text.length_utf8]; omega), Text.length_utf8, Text.length_utf8,
        hp]
      apply ih fun q hq => h q (by simp [placed, hq])
      intro q hq hle hlt'
      exact hi q (by simp [placed, hq]) (by omega) (by omega)

end Token

open Token

namespace GraphFix

variable {f : GraphFix} {ps : List Piece}

def Clears (f : GraphFix) (n : Nat) : Prop := n ≤ f.keyword.start ∨ f.keyword.stop ≤ n

namespace Fits

lemma lt (h : f.Fits ps) : f.keyword.start < f.keyword.stop := by
  obtain ⟨q, -, hspan, hkey⟩ := h.keyword
  have := Text.bytes_pos hkey.ne_nil
  rw [hspan, Piece.spanAt_start, Piece.spanAt_stop]
  omega

lemma clears_of_mem_placed (h : f.Fits ps) {q : Nat × Piece} (hq : q ∈ placed 0 ps) :
    f.Clears q.1 ∧ f.Clears (q.1 + q.2.text.bytes) := by
  obtain ⟨r, hr, hspan, -⟩ := h.keyword
  rw [Clears, Clears, hspan, Piece.spanAt_start, Piece.spanAt_stop]
  rcases eq_or_apart_of_mem_placed hq hr with rfl | hapart
  · omega
  · omega

lemma clears_of_mem_tokensAt (h : f.Fits ps) {u : Token} (hu : u ∈ tokensAt 0 ps) :
    f.Clears u.span.start ∧ f.Clears u.span.stop := by
  obtain ⟨q, hq, hqu⟩ := mem_tokensAt.mp hu
  obtain ⟨kv, -, rfl⟩ := Option.map_eq_some_iff.mp hqu
  exact h.clears_of_mem_placed hq

lemma clears_bytes (h : f.Fits ps) : f.Clears (spell ps).bytes := by
  obtain ⟨r, hr, hspan, -⟩ := h.keyword
  right
  have := (le_of_mem_placed hr).2
  rw [hspan, Piece.spanAt_stop]
  omega

lemma clears_limitOf (h : f.Fits ps) : f.Clears (Parse.limitOf (tokensAt 0 ps)) := by
  rw [Parse.limitOf]
  cases hlast : (tokensAt 0 ps).getLast? with
  | none => exact .inl (Nat.zero_le _)
  | some u => exact (h.clears_of_mem_tokensAt (List.mem_of_getLast? hlast)).2

lemma clears_placeOf (h : f.Fits ps) {us : List Token} (hus : us <:+ tokensAt 0 ps) :
    f.Clears (Parse.placeOf (.caret (spell ps).bytes) us).start ∧
      f.Clears (Parse.placeOf (.caret (spell ps).bytes) us).stop := by
  cases us with
  | nil => exact ⟨h.clears_bytes, h.clears_bytes⟩
  | cons u us => exact h.clears_of_mem_tokensAt (hus.subset (by simp))

end Fits

lemma clears_of_mem_diagnostics {g : Tree} {rest : List Token} {m : Parse.Trail} {cs : List Diagnostic}
    (h : Source.GraphWay (spell ps) g ps rest m cs) (hf : f.Fits ps) :
    ∀ d ∈ diagnosticsAt 0 ps ++ (Source.ofText (spell ps)).parse.diagnostics,
      f.Clears d.span.start ∧ f.Clears d.span.stop := by
  intro d hd
  rw [h.complaints, List.mem_append, List.mem_append] at hd
  rcases hd with hd | hd | hd
  · obtain ⟨q, hq, hqd⟩ := List.mem_filterMap.mp hd
    obtain ⟨fault, -, rfl⟩ := Option.map_eq_some_iff.mp hqd
    exact hf.clears_of_mem_placed hq
  · obtain ⟨what, us, hus, rfl⟩ := h.steps.exists_expected d hd
    exact hf.clears_placeOf hus
  · obtain ⟨used, hused⟩ := h.steps.exists_used
    cases rest with
    | nil => simp [Parse.trailing] at hd
    | cons u us =>
      obtain rfl := List.mem_singleton.mp hd
      exact ⟨(hf.clears_of_mem_tokensAt (by simp [hused])).1, hf.clears_limitOf⟩

section Same

variable (hsame : f.current = f.wanted)
include hsame

lemma place_eq_self (h : f.Fits ps) {n : Nat} (hn : f.Clears n) : f.place n = n := by
  rcases hn with hn | hn
  · exact place_of_le h.lt hn
  · have := h.lt
    rw [place_of_ge hn, keywordSize, if_pos hsame, Span.size]
    omega

lemma bytes_respell (hr : Run true ps) (h : f.Fits ps) {q : Nat × Piece} (hq : q ∈ placed 0 ps) :
    (f.respell q).text.bytes = q.2.text.bytes := by
  obtain ⟨hstart, hstop⟩ := h.clears_of_mem_placed hq
  have := place_respell hr h hq
  rw [place_eq_self hsame h hstart, place_eq_self hsame h hstop] at this
  omega

lemma respell_eq_self {q : Nat × Piece} (hq : q.2.spanAt q.1 ∉ f.operations) : f.respell q = q.2 := by
  rw [respell, if_pos hsame, if_neg hq]
  split <;> rfl

lemma diagnostic_eq_self (h : f.Fits ps) {d : Diagnostic} (hstart : f.Clears d.span.start)
    (hstop : f.Clears d.span.stop) : f.relocation.diagnostic d = d := by
  simp only [Relocation.diagnostic, Relocation.span, relocation, place_eq_self hsame h hstart,
    place_eq_self hsame h hstop]

lemma map_diagnostic_eq_self {g : Tree} {rest : List Token} {m : Parse.Trail} {cs : List Diagnostic}
    (hway : Source.GraphWay (spell ps) g ps rest m cs) (h : f.Fits ps) :
    (diagnosticsAt 0 ps ++ (Source.ofText (spell ps)).parse.diagnostics).map f.relocation.diagnostic =
      diagnosticsAt 0 ps ++ (Source.ofText (spell ps)).parse.diagnostics := by
  have hclears := clears_of_mem_diagnostics hway h
  conv_rhs => rw [← List.map_id (_ ++ _)]
  apply List.map_congr_left
  intro d hd
  exact diagnostic_eq_self hsame h (hclears d hd).1 (hclears d hd).2

end Same

section Offered

variable {t : Text} {graph : Tree} {wanted : GraphKind}

lemma Offered.diagnostics_eq (h : Offered t graph wanted f ps) :
    (Source.ofText (spell ((placed 0 ps).map f.respell))).diagnostics =
      ((Source.ofText t).diagnostics.filter (·.phase ≠ .check)).map f.relocation.diagnostic := by
  obtain ⟨used, hreading⟩ := h.reading
  obtain ⟨lead, k, rest, htokens, hheader, hk⟩ := h.header
  have hgraph : (Source.ofText (spell ps)).parse.graph = some graph := hreading.spelt.symm ▸ hreading.parsed
  rw [ofText_respell hreading.run h.fits htokens hheader hk, ← Source.parse_spell hreading.run]
  simp only [hgraph, Option.map_some, Option.elim_some, h.check, List.append_nil]
  rw [hreading.filter_diagnostics, hreading.spelt]

lemma Offered.eq_ofGraph (h : Offered t graph wanted f ps) :
    ∃ (kind : GraphKind) (i j : Tree.Info) (strict name : Option Tree) (statements : List Tree),
      graph = .graph i strict (.token j kind.kind) name statements ∧ graph.graphKind? = some kind ∧
        f = ofGraph graph (.token j kind.kind) kind wanted := by
  obtain ⟨used, hreading⟩ := h.reading
  obtain ⟨title, htitle⟩ := h.offered
  obtain ⟨-, -, -, -, -, kind, i, strict, j, name, statements, hgraph, -⟩ := hreading.header
  refine ⟨kind, i, j, strict, name, statements, hgraph, ?_, ?_⟩
  · rw [hgraph]
    cases kind <;> rfl
  · rw [fixGraph?_eq wanted hgraph] at htitle
    exact (Command.fixGraph.inj (Action.mk.inj (Option.some.inj htitle)).2.2.2).symm

lemma Offered.edits_eq (h : Offered t graph wanted f ps) :
    ∃ spelling, t.slice? f.keyword = some spelling ∧
      f.edits t (Source.ofText t) = .ok (f.operatorEdits ++ [f.keywordEdit spelling]) := by
  obtain ⟨used, hreading⟩ := h.reading
  obtain ⟨kind, i, j, strict, name, statements, hgraph, -, hf⟩ := h.eq_ofGraph
  obtain ⟨q, hq, hspan, -⟩ := h.fits.keyword
  have hslice : (spell ps).slice? f.keyword = some q.2.text := hspan ▸ slice?_of_mem_placed hq
  have hparsed := hreading.parsed
  rw [← hreading.spelt, hgraph] at hparsed
  have hedits := GraphFix.edits_eq h.fits hparsed (by rw [hf]; rfl) hslice
  rw [hreading.spelt] at hslice hedits
  exact ⟨_, hslice, hedits⟩

end Offered

end GraphFix

def wrongOperators (t : Text) : List Diagnostic :=
  (Source.ofText t).diagnostics.filter (·.code = .invalidEdgeOperation)

lemma Parse.code_of_graph_eq_none {eof : Span} {limit : Nat} {ts : List Token}
    (h : (source eof limit ts).graph = none) :
    ∀ d ∈ (source eof limit ts).diagnostics, d.code = .expectationFailed := by
  unfold source at h ⊢
  split
  · simp
  · dsimp only at h ⊢
    split
    · rename_i hrest
      simp only [hrest] at h
      split
      · rename_i hk
        rw [if_pos hk] at h
        cases h
      · exact List.forall_mem_singleton.mpr rfl
    · exact List.forall_mem_singleton.mpr rfl

section Wrong

variable {t : Text} {graph : Tree}

lemma code_ne_of_scan {d : Diagnostic} (h : d.phase = .scan) : d.code ≠ .invalidEdgeOperation := by
  intro hcode
  rw [Diagnostic.phase, hcode] at h
  cases h

lemma wrongOperators_eq_nil (h : (Source.ofText t).graph = none) : wrongOperators t = [] := by
  obtain ⟨ps, hrun, rfl⟩ := exists_run true t
  have hnone := h
  rw [Source.graph, Source.parse_spell hrun] at hnone
  rw [wrongOperators, List.filter_eq_nil_iff, Source.ofText_spell hrun]
  simp only [hnone, Option.elim_none, List.append_nil, List.mem_append, decide_eq_true_eq]
  rintro d (hd | hd)
  · exact code_ne_of_scan (Source.phase_of_mem_diagnosticsAt d hd)
  · rw [Parse.code_of_graph_eq_none hnone d hd]
    decide

lemma wrongOperators_eq_check (hg : (Source.ofText t).graph = some graph) : wrongOperators t = graph.check := by
  obtain ⟨ps, rest, m, cs, h⟩ := Source.exists_graphWay hg
  rw [wrongOperators, h.diagnostics, List.filter_append, List.filter_eq_nil_iff.mpr, List.nil_append,
    List.filter_eq_self]
  · intro d hd
    simpa using Source.code_of_mem_check d hd
  · intro d hd
    rw [h.complaints, List.mem_append, List.mem_append] at hd
    rcases hd with hd | hd | hd
    · simpa using code_ne_of_scan (Source.phase_of_mem_diagnosticsAt d hd)
    · simp [h.code_of_mem d hd]
    · simp [Source.code_of_mem_trailing d hd]

lemma exists_of_mem_check {kind : GraphKind} (hkind : graph.graphKind? = some kind) {d : Diagnostic}
    (hd : d ∈ graph.check) : ∃ o ∈ graph.edgeOperations, d.span = o.span ∧ d.code = .invalidEdgeOperation := by
  rw [Tree.check, hkind] at hd
  obtain ⟨o, ho, rfl⟩ := List.mem_map.mp hd
  exact ⟨o, List.mem_of_mem_filter ho, rfl, rfl⟩

lemma Span.meets_self (s : Span) : s.meets s := by
  rw [Span.meets]
  split
  · rename_i h
    simp_all [Span.touches, Span.isEmpty]
  · simp

lemma mem_quickFixes {kind : GraphKind} {action : Action} (hg : (Source.ofText t).graph = some graph)
    (hkind : graph.graphKind? = some kind) (ha : Action.fixGraph? graph kind = some action) {d : Diagnostic}
    (hd : d ∈ (Source.ofText t).diagnostics) (hcheck : d ∈ graph.check) :
    action ∈ Action.quickFixes (Source.ofText t) d.span := by
  obtain ⟨o, ho, hspan, hcode⟩ := exists_of_mem_check hkind hcheck
  refine List.mem_flatMap.mpr ⟨d, List.mem_filter.mpr ⟨hd, Span.meets_self d.span⟩, ?_⟩
  simp only [Action.fixesFor, hcode, hg, Action.operatorFixes, hkind]
  have hsome : (graph.edgeOperations.find? (·.span = d.span)).isSome :=
    List.find?_isSome.mpr ⟨o, ho, by simp [hspan]⟩
  obtain ⟨o', ho'⟩ := Option.isSome_iff_exists.mp hsome
  obtain ⟨ps, used, hreading⟩ := Source.exists_graphReading hg
  obtain ⟨op, hop, -⟩ := hreading.slice_operation (List.mem_of_find?_eq_some ho')
  simp [ho', hop, ha]

lemma fixGraph?_of_keepsKind {kind : GraphKind} {action : Action} {request : Span}
    (hg : (Source.ofText t).graph = some graph)
    (hkind : graph.graphKind? = some kind) (ha : action ∈ Action.quickFixes (Source.ofText t) request)
    (hkeeps : action.command.keepsKind) : Action.fixGraph? graph kind = some action := by
  have hfix {wanted : GraphKind} (h : Action.fixGraph? graph wanted = some action) :
      Action.fixGraph? graph kind = some action := by
    obtain ⟨ps, used, hreading⟩ := Source.exists_graphReading hg
    obtain ⟨-, -, -, -, -, current, i, strict, j, name, statements, hgraph, -⟩ := hreading.header
    rw [GraphFix.fixGraph?_eq wanted hgraph] at h
    obtain rfl := Option.some.inj h
    obtain rfl : current = wanted := of_decide_eq_true hkeeps
    obtain rfl : current = kind := by
      rw [hgraph] at hkind
      cases current <;> exact Option.some.inj hkind
    exact GraphFix.fixGraph?_eq current hgraph
  obtain ⟨d, -, ha⟩ := List.mem_flatMap.mp ha
  simp only [Action.fixesFor, hg] at ha
  split at ha
  · rename_i hgraph
    obtain rfl := Option.some.inj hgraph
    simp only [Action.operatorFixes, hkind] at ha
    split at ha
    · simp only [List.cons_append, List.mem_cons, List.mem_append, Option.mem_toList] at ha
      rcases ha with rfl | ha | ha
      · cases hkeeps
      · exact hfix ha
      · exact hfix ha
    · simp at ha
  · simp at ha

lemma mendCommand?_eq_none (h : wrongOperators t = []) : mendCommand? (Source.ofText t) = none := by
  have hfind : (Source.ofText t).diagnostics.find? (·.code = .invalidEdgeOperation) = none :=
    List.find?_eq_none.mpr (List.filter_eq_nil_iff.mp h)
  rw [mendCommand?, hfind]
  rfl

lemma mendCommand?_eq_some {kind : GraphKind} {action : Action} (hg : (Source.ofText t).graph = some graph)
    (hkind : graph.graphKind? = some kind) (ha : Action.fixGraph? graph kind = some action)
    (hkeeps : action.command.keepsKind) (hwrong : wrongOperators t ≠ []) :
    mendCommand? (Source.ofText t) = some action.command := by
  obtain ⟨w, hw⟩ := List.exists_mem_of_ne_nil _ hwrong
  obtain ⟨hw, hcode⟩ := List.mem_filter.mp hw
  have hsome : ((Source.ofText t).diagnostics.find? (·.code = .invalidEdgeOperation)).isSome :=
    List.find?_isSome.mpr ⟨w, hw, hcode⟩
  obtain ⟨d, hfind⟩ := Option.isSome_iff_exists.mp hsome
  have hd := List.mem_of_find?_eq_some hfind
  have hcheck : d ∈ graph.check := by
    rw [← wrongOperators_eq_check hg]
    have hcode := List.find?_some hfind
    exact List.mem_filter.mpr ⟨hd, hcode⟩
  have hmem := List.mem_map_of_mem (f := Action.command) (mem_quickFixes hg hkind ha hd hcheck)
  obtain ⟨c, hc⟩ := Option.isSome_iff_exists.mp (List.find?_isSome.mpr ⟨_, hmem, hkeeps⟩)
  obtain ⟨other, hother, rfl⟩ := List.mem_map.mp (List.mem_of_find?_eq_some hc)
  have hsame := fixGraph?_of_keepsKind hg hkind hother (List.find?_some hc)
  obtain rfl : action = other := Option.some.inj (ha.symm.trans hsame)
  simp only [mendCommand?, hfind, Option.bind_eq_bind, Option.bind_some, hc]

end Wrong

/-- `r` mends `t`: where `t` has a wrong operator it has the one that the keyword of the graph allows, with a
report of that change, and all else that is in `t` or wrong with `t` stays. -/
structure Mended.Mends (r : Mended) (t : Text) : Prop where
  bytes : r.text.bytes = t.bytes
  elsewhere : ∀ n, (∀ d ∈ wrongOperators t, n < d.span.start ∨ d.span.stop ≤ n) → r.text.utf8[n]? = t.utf8[n]?
  ordered : (wrongOperators t).Pairwise fun a b => a.span.stop ≤ b.span.start
  operators : ∃ graph kind, (Source.ofText t).graph = some graph ∧ graph.graphKind? = some kind ∧
    (∀ d ∈ wrongOperators t, t.slice? d.span = some kind.allowedOp.opposite.text.toList ∧
      r.text.slice? d.span = some kind.allowedOp.text.toList) ∧
    r.edits = (wrongOperators t).map fun d => ⟨GraphFix.id, (t.positionAt d.span.start).line + 1,
      (t.positionAt d.span.start).character + 1, OperatorChange.title kind.allowedOp.opposite kind.allowedOp⟩
  diagnostics : (Source.ofText r.text).diagnostics = (Source.ofText t).diagnostics.filter (·.phase ≠ .check)
  settled : mend r.text = .ok none
  sent : ∃ c, mendCommand? (Source.ofText t) = some c ∧ runCommand t c.id c.arguments = .ok r.text

structure Mending (t : Text) (graph : Tree) (kind : GraphKind) (f : GraphFix) (ps : List Piece) : Prop where
  parsed : (Source.ofText t).graph = some graph
  graphKind : graph.graphKind? = some kind
  offered : GraphFix.Offered t graph kind f ps
  current : f.current = kind
  wanted : f.wanted = kind
  operations : f.operations = (wrongOperators t).map Diagnostic.span
  command : mendCommand? (Source.ofText t) = some (.fixGraph f)

lemma exists_mending {t : Text} (h : wrongOperators t ≠ []) : ∃ graph kind f ps, Mending t graph kind f ps := by
  cases hg : (Source.ofText t).graph with
  | none => exact absurd (wrongOperators_eq_nil hg) h
  | some graph =>
    obtain ⟨ps, used, hreading⟩ := Source.exists_graphReading hg
    obtain ⟨kind, hkind⟩ := hreading.exists_graphKind
    obtain ⟨f, ps, hoffered⟩ := GraphFix.exists_offered hg kind
    obtain ⟨title, htitle⟩ := hoffered.offered
    obtain ⟨current, i, j, strict, name, statements, -, hcurrent, rfl⟩ := hoffered.eq_ofGraph
    obtain rfl : kind = current := Option.some.inj (hkind.symm.trans hcurrent)
    refine ⟨graph, kind, _, ps, hg, hkind, hoffered, rfl, rfl, ?_, ?_⟩
    · rw [wrongOperators_eq_check hg, Tree.check, hkind, List.map_map]
      rfl
    · exact mendCommand?_eq_some hg hkind htitle (decide_eq_true rfl) h

namespace Mending

variable {t : Text} {graph : Tree} {kind : GraphKind} {f : GraphFix} {ps : List Piece}

lemma same (h : Mending t graph kind f ps) : f.current = f.wanted := h.current.trans h.wanted.symm

lemma run (h : Mending t graph kind f ps) : Run true ps := by
  obtain ⟨used, hreading⟩ := h.offered.reading
  exact hreading.run

lemma spelt (h : Mending t graph kind f ps) : spell ps = t := by
  obtain ⟨used, hreading⟩ := h.offered.reading
  exact hreading.spelt

lemma bytes_respell (h : Mending t graph kind f ps) :
    ∀ q ∈ placed 0 ps, (f.respell q).text.bytes = q.2.text.bytes :=
  fun _ hq => GraphFix.bytes_respell h.same h.run h.offered.fits hq

lemma bytes_eq (h : Mending t graph kind f ps) : (spell ((placed 0 ps).map f.respell)).bytes = t.bytes := by
  rw [bytes_spell_map h.bytes_respell, h.spelt]

lemma utf8_eq (h : Mending t graph kind f ps) {n : Nat}
    (hn : ∀ d ∈ wrongOperators t, n < d.span.start ∨ d.span.stop ≤ n) :
    (spell ((placed 0 ps).map f.respell)).utf8[n]? = t.utf8[n]? := by
  conv_rhs => rw [← h.spelt]
  apply utf8_spell_map h.bytes_respell
  intro q hq hle hlt
  apply GraphFix.respell_eq_self h.same
  rw [h.operations]
  intro hmem
  obtain ⟨d, hd, hspan⟩ := List.mem_map.mp hmem
  have := hn d hd
  rw [hspan, Piece.spanAt_start, Piece.spanAt_stop] at this
  omega

lemma slices (h : Mending t graph kind f ps) : ∀ d ∈ wrongOperators t,
    t.slice? d.span = some kind.allowedOp.opposite.text.toList ∧
      (spell ((placed 0 ps).map f.respell)).slice? d.span = some kind.allowedOp.text.toList := by
  intro d hd
  have hmem : d.span ∈ f.operations := by
    rw [h.operations]
    exact List.mem_map_of_mem hd
  obtain ⟨q, hq, hspan, hop⟩ := h.offered.fits.operations _ hmem
  have hnew : (q.1, f.respell q) ∈ placed 0 ((placed 0 ps).map f.respell) := by
    rw [placed_map_of_bytes_eq h.bytes_respell]
    exact List.mem_map_of_mem hq
  have hrespell : f.respell q = operatorPiece kind.allowedOp := by
    rw [hspan] at hmem
    rw [GraphFix.respell, if_neg (GraphFix.operation_ne_keyword h.run h.offered.fits hmem), if_pos hmem, h.wanted]
  constructor
  · rw [← h.spelt, hspan, slice?_of_mem_placed hq, hop, h.wanted]
    rfl
  · have hspan' : (f.respell q).spanAt q.1 = d.span := by
      rw [hspan, Piece.spanAt, Piece.spanAt, h.bytes_respell q hq]
    rw [← hspan', slice?_of_mem_placed hnew, hrespell]
    rfl

lemma ordered (h : Mending t graph kind f ps) :
    (wrongOperators t).Pairwise fun a b => a.span.stop ≤ b.span.start := by
  have := h.offered.fits.apart
  rw [h.operations] at this
  exact List.pairwise_map.mp this

lemma diagnostics_eq (h : Mending t graph kind f ps) :
    (Source.ofText (spell ((placed 0 ps).map f.respell))).diagnostics =
      (Source.ofText t).diagnostics.filter (·.phase ≠ .check) := by
  obtain ⟨used, hreading⟩ := h.offered.reading
  obtain ⟨rest, m, cs, hway⟩ := Source.exists_graphWay_spell hreading.run (hreading.spelt.symm ▸ hreading.parsed)
  have hkept := GraphFix.map_diagnostic_eq_self h.same hway h.offered.fits
  rw [hreading.spelt, ← hreading.filter_diagnostics] at hkept
  rw [h.offered.diagnostics_eq, hkept]

lemma wrongOperators_eq_nil (h : Mending t graph kind f ps) :
    wrongOperators (spell ((placed 0 ps).map f.respell)) = [] := by
  rw [wrongOperators, h.diagnostics_eq, List.filter_eq_nil_iff]
  intro d hd hcode
  have hphase := of_decide_eq_true (List.mem_filter.mp hd).2
  rw [Diagnostic.phase, of_decide_eq_true hcode] at hphase
  exact hphase rfl

lemma ofEdits_eq (h : Mending t graph kind f ps) {spelling : Text} (hs : t.slice? f.keyword = some spelling) :
    EditReport.ofEdits t GraphFix.id (f.operatorEdits ++ [f.keywordEdit spelling]) =
      f.operatorEdits.map (EditReport.ofEdit t GraphFix.id) := by
  have hkeyword : [f.keywordEdit spelling].filter (fun e => t.sliceString? e.span ≠ some e.replacement) = [] := by
    simp [GraphFix.keywordEdit, Text.sliceString?, hs, h.same]
  have hoperators : f.operatorEdits.filter (fun e => t.sliceString? e.span ≠ some e.replacement) =
      f.operatorEdits := by
    apply List.filter_eq_self.mpr
    intro e he
    obtain ⟨s, hs, rfl⟩ := List.mem_map.mp he
    rw [h.operations] at hs
    obtain ⟨d, hd, rfl⟩ := List.mem_map.mp hs
    simp only [Text.sliceString?, (h.slices d hd).1, h.wanted]
    cases kind <;> decide
  rw [EditReport.ofEdits, List.filter_append, hkeyword, hoperators, List.append_nil]

end Mending

lemma mend_eq_none {t : Text} (h : wrongOperators t = []) : mend t = .ok none := by
  simp only [mend, mendCommand?_eq_none h]

section Apply

variable {t t' : Text} {c : Command} {edits : List Edit}

lemma Command.apply_eq (hedits : c.edits t (Source.ofText t) = .ok edits)
    (happly : Edit.applyAll t edits = .ok t') : c.apply t (Source.ofText t) = .ok (edits, t') := by
  simp only [Command.apply, hedits, Except.mapError, bind, Except.bind, happly]
  rfl

lemma runCommand_arguments (hedits : c.edits t (Source.ofText t) = .ok edits)
    (happly : Edit.applyAll t edits = .ok t') : runCommand t c.id c.arguments = .ok t' := by
  have hexecute : Command.executeList c.id t (Source.ofText t) [c.arguments] = .ok edits :=
    Command.execute_arguments hedits
  have hlist : runCommand t c.id c.arguments = runCommand t c.id (.array [c.arguments]) := by cases c <;> rfl
  rw [hlist]
  simp only [runCommand, hexecute, Except.mapError, bind, Except.bind, happly]

end Apply

lemma Mending.exists_mended {t : Text} {graph : Tree} {kind : GraphKind} {f : GraphFix} {ps : List Piece}
    (h : Mending t graph kind f ps) :
    ∃ reports, mend t = .ok (some ⟨reports, spell ((placed 0 ps).map f.respell)⟩) ∧
      reports = f.operatorEdits.map (EditReport.ofEdit t GraphFix.id) ∧
      runCommand t GraphFix.id (Command.fixGraph f).arguments = .ok (spell ((placed 0 ps).map f.respell)) := by
  obtain ⟨spelling, hs, hedits⟩ := h.offered.edits_eq
  obtain ⟨edits, hedits', happly⟩ := h.offered.applied
  obtain rfl : f.operatorEdits ++ [f.keywordEdit spelling] = edits := Except.ok.inj (hedits.symm.trans hedits')
  refine ⟨_, ?_, h.ofEdits_eq hs, runCommand_arguments (c := .fixGraph f) hedits happly⟩
  simp only [mend, h.command, Command.apply_eq (c := .fixGraph f) hedits happly]
  rfl

lemma Mending.mends {t : Text} {graph : Tree} {kind : GraphKind} {f : GraphFix} {ps : List Piece}
    (h : Mending t graph kind f ps) :
    ∃ r : Mended, mend t = .ok (some r) ∧ r.Mends t := by
  obtain ⟨reports, hmend, hreports, hsent⟩ := h.exists_mended
  refine ⟨_, hmend, h.bytes_eq, fun n hn => h.utf8_eq hn, h.ordered,
    ⟨graph, kind, h.parsed, h.graphKind, h.slices, ?_⟩, h.diagnostics_eq, mend_eq_none h.wrongOperators_eq_nil, _,
    h.command, hsent⟩
  rw [hreports, GraphFix.operatorEdits, h.operations, List.map_map, List.map_map, h.wanted]
  rfl

/-- Mending a text never fails. It leaves a text as it is exactly if no operator in it is wrong, and what it makes
of any other text differs from it in the wrong operators alone and need not be mended again. -/
theorem mend_exact (t : Text) :
    (∃ o, mend t = .ok o) ∧ (mend t = .ok none ↔ wrongOperators t = []) ∧ ∀ r, mend t = .ok (some r) →
      r.Mends t := by
  by_cases hwrong : wrongOperators t = []
  · have hnone := mend_eq_none hwrong
    refine ⟨⟨none, hnone⟩, ⟨fun _ => hwrong, fun _ => hnone⟩, fun r hr => ?_⟩
    rw [hnone] at hr
    cases hr
  · obtain ⟨graph, kind, f, ps, h⟩ := exists_mending hwrong
    obtain ⟨r, hr, hmends⟩ := h.mends
    refine ⟨⟨_, hr⟩, ⟨fun hnone => ?_, fun hnil => absurd hnil hwrong⟩, fun r' hr' => ?_⟩
    · rw [hr] at hnone
      cases hnone
    · obtain rfl : r = r' := Option.some.inj (Except.ok.inj (hr.symm.trans hr'))
      exact hmends

theorem mend_exact_faulty :
    ∃ r, mend "GRAPH \x7b a -> b -- é -> /* -> */ \x7b c -> \"d -> e".toList = .ok (some r) ∧
      r.Mends "GRAPH \x7b a -> b -- é -> /* -> */ \x7b c -> \"d -> e".toList := by
  obtain ⟨⟨o, ho⟩, hnone, hsome⟩ := mend_exact "GRAPH \x7b a -> b -- é -> /* -> */ \x7b c -> \"d -> e".toList
  cases o with
  | none =>
    have hlength : 0 < (wrongOperators "GRAPH \x7b a -> b -- é -> /* -> */ \x7b c -> \"d -> e".toList).length := by
      decide +kernel
    rw [hnone.mp ho] at hlength
    cases hlength
  | some r => exact ⟨r, ho, hsome r ho⟩

end DotMend
