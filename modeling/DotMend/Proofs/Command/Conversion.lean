import DotMend.Proofs.Command.Mending
import DotMend.Proofs.Token.Grafting

namespace DotMend

open Token

lemma GraphKind.opposite_ne (k : GraphKind) : k.opposite ≠ k := by cases k <;> simp [opposite]

lemma Relocation.containsErrors_tree (φ : Relocation) (t : Tree) :
    (φ.tree t).containsErrors = t.containsErrors := by
  induction t using Tree.induction_on_children with
  | h t ih =>
    have hkids : t.children.any (Tree.containsErrors ∘ φ.tree) = t.children.any Tree.containsErrors := by
      rw [Bool.eq_iff_iff, List.any_eq_true, List.any_eq_true]
      exact exists_congr fun c => and_congr_right fun hc => by rw [Function.comp, ih c hc]
    rw [Tree.containsErrors_eq, Tree.containsErrors_eq t, flagged_tree, children_tree, List.any_map, hkids]

namespace GraphFix

variable {f g : GraphFix} {ps : List Piece} {t : Text} {graph : Tree} {kind wanted : GraphKind}

lemma Offered.run (h : Offered t graph wanted f ps) : Run true ps := by
  obtain ⟨used, hreading⟩ := h.reading
  exact hreading.run

lemma exists_offered_of_run (hg : (Source.ofText t).graph = some graph) (wanted : GraphKind) (hrun : Run true ps)
    (hspelt : spell ps = t) : ∃ f, Offered t graph wanted f ps := by
  obtain ⟨f, ps', h⟩ := exists_offered hg wanted
  obtain ⟨used, hreading⟩ := h.reading
  obtain rfl : ps' = ps := hreading.run.unique hrun (hreading.spelt.trans hspelt.symm)
  exact ⟨f, h⟩

lemma Offered.keyword_eq {i : Tree.Info} {strict name : Option Tree} {keyword : Tree} {statements : List Tree}
    (h : Offered t (.graph i strict keyword name statements) wanted f ps) : f.keyword = keyword.span := by
  obtain ⟨_, _, _, _, _, _, hgraph, -, rfl⟩ := h.eq_ofGraph
  obtain ⟨-, -, rfl, -⟩ := Tree.graph.inj hgraph
  rfl

lemma Offered.current_eq (h : Offered t graph wanted f ps) : graph.graphKind? = some f.current := by
  obtain ⟨_, _, _, _, _, _, -, hkind, rfl⟩ := h.eq_ofGraph
  exact hkind

lemma Offered.wanted_eq (h : Offered t graph wanted f ps) : f.wanted = wanted := by
  obtain ⟨_, _, _, _, _, _, -, -, rfl⟩ := h.eq_ofGraph
  rfl

lemma Offered.operations_eq (h : Offered t graph wanted f ps) :
    f.operations = (graph.invalidOperations wanted).map Tree.span := by
  obtain ⟨_, _, _, _, _, _, -, -, rfl⟩ := h.eq_ofGraph
  rfl

lemma Offered.respell_operation (h : Offered t graph wanted f ps) {q : Nat × Piece} (hq : q ∈ placed 0 ps)
    {o : Tree} (ho : o ∈ graph.edgeOperations) (hspan : o.span = q.2.spanAt q.1) :
    f.respell q = operatorPiece wanted.allowedOp := by
  obtain ⟨used, hreading⟩ := h.reading
  obtain ⟨r, hr, op, i, rfl, hspan', hpiece⟩ := hreading.operations.2 o ho
  obtain rfl := eq_of_span_eq h.run hr hq (hspan'.symm.trans hspan)
  have hkeyword := edgeOperation_ne_keyword hreading h.fits ho
  rw [hspan] at hkeyword
  rw [respell, if_neg hkeyword, h.wanted_eq]
  by_cases hop : op = wanted.allowedOp
  · rw [hpiece, hop, ite_self]
  · rw [if_pos]
    rw [h.operations_eq, ← hspan]
    refine List.mem_map_of_mem (List.mem_filter.mpr ⟨ho, ?_⟩)
    simpa [Tree.edgeOp?, Tree.kind] using hop

lemma Offered.respell_other (h : Offered t graph wanted f ps) {q : Nat × Piece}
    (hkeyword : q.2.spanAt q.1 ≠ f.keyword)
    (hq : ∀ o ∈ graph.edgeOperations, o.span ≠ q.2.spanAt q.1) : f.respell q = q.2 := by
  rw [respell, if_neg hkeyword, if_neg]
  rw [h.operations_eq]
  intro hmem
  obtain ⟨o, ho, hspan⟩ := List.mem_map.mp hmem
  exact hq o (List.mem_of_mem_filter ho) hspan

lemma Offered.run_respell (h : Offered t graph wanted f ps) : Run true ((placed 0 ps).map f.respell) :=
  h.run.respelt (moves_respell h.run h.fits).forall₂

lemma Offered.graph_respell (h : Offered t graph wanted f ps) :
    (Source.ofText (spell ((placed 0 ps).map f.respell))).graph = some (f.relocation.tree graph) := by
  obtain ⟨used, hreading⟩ := h.reading
  obtain ⟨lead, k, rest, htokens, hheader, hk⟩ := h.header
  have hgraph : (Source.ofText (spell ps)).parse.graph = some graph := hreading.spelt.symm ▸ hreading.parsed
  rw [Source.graph, ofText_respell hreading.run h.fits htokens hheader hk, ← Source.parse_spell hreading.run]
  simp only [hgraph, Option.map_some]

lemma placed_respell (hr : Run true ps) (h : f.Fits ps) :
    placed 0 ((placed 0 ps).map f.respell) = (placed 0 ps).map fun q => (f.place q.1, f.respell q) := by
  have hplaced := @placed_map ps f.respell 0 f.place fun q hq => place_respell hr h hq
  rwa [place_zero h] at hplaced

lemma eq_of_place_eq (hr : Run true ps) (h : f.Fits ps) {q r : Nat × Piece} (hq : q ∈ placed 0 ps)
    (hr' : r ∈ placed 0 ps) (heq : f.place q.1 = f.place r.1) : q = r := by
  have hrun : Run true ((placed 0 ps).map f.respell) := hr.respelt (moves_respell hr h).forall₂
  have hlt {q r : Nat × Piece} (hq : q ∈ placed 0 ps) (hle : q.1 + q.2.text.bytes ≤ r.1) :
      f.place q.1 < f.place r.1 := by
    have hmono := f.place_mono hle
    have hpos := Text.bytes_pos (hrun.ne_nil (List.mem_map_of_mem hq))
    rw [place_respell hr h hq] at hmono
    omega
  rcases eq_or_apart_of_mem_placed hq hr' with he | hle | hle
  · exact he
  · have := hlt hq hle
    omega
  · have := hlt hr' hle
    omega

lemma span_respell_eq_iff (hr : Run true ps) (h : f.Fits ps) {q r : Nat × Piece} (hq : q ∈ placed 0 ps)
    (hr' : r ∈ placed 0 ps) :
    f.relocation.span (q.2.spanAt q.1) = f.relocation.span (r.2.spanAt r.1) ↔ q.2.spanAt q.1 = r.2.spanAt r.1 := by
  constructor
  · intro heq
    rw [eq_of_place_eq hr h hq hr' (congrArg Span.start heq :)]
  · exact congrArg f.relocation.span

lemma invalidOperations_converted (h : Offered t graph kind.opposite f ps) :
    (f.relocation.tree graph).invalidOperations kind = graph.edgeOperations.map f.relocation.tree := by
  rw [Tree.invalidOperations, Relocation.edgeOperations_tree, List.filter_eq_self]
  intro o ho
  have hcheck := h.check
  simp only [Tree.check, h.kind, List.map_eq_nil_iff, Tree.invalidOperations, Relocation.edgeOperations_tree,
    List.filter_eq_nil_iff] at hcheck
  have hop := hcheck o ho
  simp only [ne_eq, decide_eq_true_eq, not_not] at hop
  rw [hop, GraphKind.allowedOp_opposite]
  simpa using EdgeOp.opposite_ne _

structure Returns (f back : GraphFix) (graph : Tree) (kind : GraphKind) : Prop where
  keyword : back.keyword = f.relocation.span f.keyword
  current : back.current = kind.opposite
  wanted : back.wanted = kind
  operations : back.operations = graph.edgeOperations.map fun o => f.relocation.span o.span

lemma Offered.returns {t₁ : Text} {back : GraphFix} {ps₁ : List Piece} (h : Offered t graph kind.opposite f ps)
    (hback : Offered t₁ (f.relocation.tree graph) kind back ps₁) : Returns f back graph kind where
  keyword := by
    obtain ⟨_, _, _, _, _, _, rfl, -⟩ := h.eq_ofGraph
    rw [Relocation.tree_graph] at hback
    rw [h.keyword_eq, hback.keyword_eq, Relocation.span_tree]
  current := (Option.some.inj (h.kind.symm.trans hback.current_eq)).symm
  wanted := hback.wanted_eq
  operations := by
    rw [hback.operations_eq, invalidOperations_converted h, List.map_map]
    exact List.map_congr_left fun o _ => Relocation.span_tree _ o

lemma respell_respell {back : GraphFix} (h : Offered t graph kind.opposite f ps)
    (hback : Returns f back graph kind)
    (hkept : Offered t graph kind g ps) {q : Nat × Piece} (hq : q ∈ placed 0 ps) :
    back.respell (f.place q.1, f.respell q) =
      if q.2.spanAt q.1 = f.keyword then keywordPiece kind else g.respell q := by
  obtain ⟨used, hreading⟩ := h.reading
  obtain ⟨r, hr, hspan, -⟩ := h.fits.keyword
  have hkey : f.relocation.span (q.2.spanAt q.1) = back.keyword ↔ q.2.spanAt q.1 = f.keyword := by
    rw [hback.keyword, hspan]
    exact span_respell_eq_iff h.run h.fits hq hr
  have hops : f.relocation.span (q.2.spanAt q.1) ∈ back.operations ↔
      ∃ o ∈ graph.edgeOperations, o.span = q.2.spanAt q.1 := by
    rw [hback.operations, List.mem_map]
    refine exists_congr fun o => and_congr_right fun ho => ?_
    obtain ⟨s, hs, -, -, -, hspan, -⟩ := hreading.operations.2 o ho
    rw [hspan]
    exact span_respell_eq_iff h.run h.fits hs hq
  have hsame : g.keyword = f.keyword := by
    obtain ⟨_, _, _, _, _, _, rfl, -⟩ := h.eq_ofGraph
    rw [h.keyword_eq, hkept.keyword_eq]
  rw [respell, spanAt_respell h.run h.fits hq]
  by_cases hkeyword : q.2.spanAt q.1 = f.keyword
  · have hne : back.current ≠ back.wanted := by
      rw [hback.current, hback.wanted]
      exact kind.opposite_ne
    rw [if_pos (hkey.mpr hkeyword), if_pos hkeyword, if_neg hne, hback.wanted]
  · rw [if_neg (mt hkey.mp hkeyword), if_neg hkeyword, hback.wanted]
    by_cases hop : ∃ o ∈ graph.edgeOperations, o.span = q.2.spanAt q.1
    · rw [if_pos (hops.mpr hop)]
      obtain ⟨o, ho, hspan⟩ := hop
      rw [hkept.respell_operation hq ho hspan]
    · have hother : ∀ o ∈ graph.edgeOperations, o.span ≠ q.2.spanAt q.1 := fun o ho he => hop ⟨o, ho, he⟩
      rw [if_neg (mt hops.mp hop), h.respell_other hkeyword hother, hkept.respell_other (hsame ▸ hkeyword) hother]

lemma Fits.exists_split (h : f.Fits ps) :
    ∃ before p behind, ps = before ++ p :: behind ∧ IsKeyword f.current.kind p ∧
      f.keyword = p.spanAt (spell before).bytes ∧
      ∀ r ∈ placed 0 before ++ placed ((spell before).bytes + p.text.bytes) behind,
      r.2.spanAt r.1 ≠ f.keyword := by
  obtain ⟨q, hq, hspan, hkey⟩ := h.keyword
  obtain ⟨before, behind, hps, hn⟩ := exists_of_mem_placed hq
  rw [Nat.zero_add] at hn
  refine ⟨before, q.2, behind, hps, hkey, by rw [hspan, hn], ?_⟩
  have hpos := Text.bytes_pos hkey.ne_nil
  intro r hr' heq
  have hstart : r.1 = q.1 := by simpa using congrArg Span.start (heq.trans hspan)
  have hstop : r.1 + r.2.text.bytes = q.1 + q.2.text.bytes := by simpa using congrArg Span.stop (heq.trans hspan)
  rcases List.mem_append.mp hr' with hmem | hmem
  · have := (le_of_mem_placed hmem).2
    omega
  · have := (le_of_mem_placed hmem).1
    omega

lemma placed_cons_append {before behind : List Piece} {p : Piece} (hps : ps = before ++ p :: behind) :
    placed 0 ps =
      placed 0 before ++ ((spell before).bytes, p) :: placed ((spell before).bytes + p.text.bytes) behind := by
  rw [hps, placed_append, Nat.zero_add, placed]

lemma exists_kept {back : GraphFix} (h : Offered t graph kind.opposite f ps) (hback : Returns f back graph kind)
    (hkept : Offered t graph kind g ps) (hkind : g.current = kind) :
    ∃ a x b, t.slice? g.keyword = some x ∧ g.keyword = ⟨a.bytes, a.bytes + x.bytes⟩ ∧
      spell ((placed 0 ps).map g.respell) = a ++ x ++ b ∧
      spell ((placed 0 ((placed 0 ps).map f.respell)).map back.respell) = a ++ x.map Char.toLower ++ b := by
  have hsame : g.current = g.wanted := hkind.trans hkept.wanted_eq.symm
  have hkeyword : g.keyword = f.keyword := by
    obtain ⟨_, _, _, _, _, _, rfl, -⟩ := h.eq_ofGraph
    rw [h.keyword_eq, hkept.keyword_eq]
  obtain ⟨before, p, behind, hps, hkey, hspan, hother⟩ := hkept.fits.exists_split
  have hplaced := placed_cons_append hps
  have hback_eq : (placed 0 ((placed 0 ps).map f.respell)).map back.respell =
      (placed 0 ps).map fun q => if q.2.spanAt q.1 = f.keyword then keywordPiece kind else g.respell q := by
    rw [placed_respell h.run h.fits, List.map_map]
    exact List.map_congr_left fun q hq => respell_respell h hback hkept hq
  have hpart (rs : List (Nat × Piece)) (hrs : ∀ r ∈ rs, r.2.spanAt r.1 ≠ g.keyword) :
      (rs.map fun q => if q.2.spanAt q.1 = f.keyword then keywordPiece kind else g.respell q) = rs.map g.respell :=
    List.map_congr_left fun r hr => if_neg (hkeyword ▸ hrs r hr)
  have hbytes : (spell ((placed 0 before).map g.respell)).bytes = (spell before).bytes := by
    apply bytes_spell_map
    intro q hq
    exact bytes_respell hsame hkept.run hkept.fits (by rw [hplaced]; exact List.mem_append_left _ hq)
  have hslice : t.slice? g.keyword = some p.text := by
    obtain ⟨used, hreading⟩ := hkept.reading
    rw [← hreading.spelt, hspan]
    exact slice?_of_mem_placed (q := ((spell before).bytes, p)) (by rw [hplaced]; simp)
  refine ⟨spell ((placed 0 before).map g.respell), p.text,
    spell ((placed ((spell before).bytes + p.text.bytes) behind).map g.respell), hslice, ?_, ?_, ?_⟩
  · rw [hspan, hbytes]
    rfl
  · rw [hplaced, List.map_append, List.map_cons, spell_append, spell_cons, ← List.append_assoc]
    rw [show g.respell ((spell before).bytes, p) = p by rw [respell, if_pos hspan.symm, if_pos hsame]]
  · rw [hback_eq, hplaced, List.map_append, List.map_cons, spell_append, spell_cons, ← List.append_assoc,
      hpart _ fun r hr => hother r (List.mem_append_left _ hr),
      hpart _ fun r hr => hother r (List.mem_append_right _ hr), if_pos (hkeyword ▸ hspan.symm),
      map_toLower_keyword (hkind ▸ hkey)]
    rfl

lemma Offered.respell_eq_self (h : Offered t graph kind f ps) (hkind : f.current = kind)
    (hcheck : graph.check = []) : spell ((placed 0 ps).map f.respell) = t := by
  obtain ⟨used, hreading⟩ := h.reading
  have hsame : f.current = f.wanted := hkind.trans h.wanted_eq.symm
  have hnone : f.operations = [] := by
    rw [Tree.check, h.current_eq, hkind] at hcheck
    rw [h.operations_eq, List.map_eq_nil_iff.mp hcheck, List.map_nil]
  have hmap : (placed 0 ps).map f.respell = (placed 0 ps).map Prod.snd :=
    List.map_congr_left fun q _ => GraphFix.respell_eq_self hsame (by simp [hnone])
  rw [hmap, map_snd_placed, hreading.spelt]

end GraphFix

lemma check_eq_nil_of_phase {t : Text} {graph : Tree} (hg : (Source.ofText t).graph = some graph)
    (h : ∀ d ∈ (Source.ofText t).diagnostics, d.phase ≠ .check) : graph.check = [] := by
  rw [← wrongOperators_eq_check hg, wrongOperators, List.filter_eq_nil_iff]
  intro d hd hcode
  apply h d hd
  rw [Diagnostic.phase, of_decide_eq_true hcode]
  rfl

def Source.keyword? (source : Source) : Option Span :=
  match source.graph with
  | some (.graph _ _ keyword _ _) => some keyword.span
  | _ => none

lemma Source.keyword?_eq {t : Text} {graph : Tree} {wanted : GraphKind} {f : GraphFix} {ps : List Piece}
    (h : GraphFix.Offered t graph wanted f ps) : (ofText t).keyword? = some f.keyword := by
  obtain ⟨used, hreading⟩ := h.reading
  have hg := hreading.parsed
  obtain ⟨_, _, _, _, _, _, rfl, -⟩ := h.eq_ofGraph
  rw [h.keyword_eq, keyword?, hg]

lemma Action.convertGraph?_eq {t : Text} {graph : Tree} {kind : GraphKind} {f : GraphFix} {ps : List Piece}
    (h : GraphFix.Offered t graph kind.opposite f ps) (hkind : graph.graphKind? = some kind) (request : Span) :
    convertGraph? (Source.ofText t) request =
      if f.keyword.meets request && !graph.containsErrors then
        some ⟨GraphFix.title kind kind.opposite, .rewrite, false, .fixGraph f⟩
      else none := by
  obtain ⟨used, hreading⟩ := h.reading
  have hg := hreading.parsed
  obtain ⟨current, i, j, strict, name, statements, rfl, hcurrent, hf⟩ := h.eq_ofGraph
  obtain rfl : kind = current := Option.some.inj (hkind.symm.trans hcurrent)
  have hfix := GraphFix.fixGraph?_eq kind.opposite
    (rfl : Tree.graph i strict (.token j kind.kind) name statements = _)
  rw [h.keyword_eq, convertGraph?, hg]
  simp only [hkind, Option.bind_eq_bind, Option.bind_some, hfix, ← hf]
  rfl

namespace GraphFix

lemma Offered.run_fix {t : Text} {graph : Tree} {wanted : GraphKind} {f : GraphFix} {ps : List Piece}
    (h : Offered t graph wanted f ps) :
    runCommand t (Command.fixGraph f).id (Command.fixGraph f).arguments =
      .ok (spell ((placed 0 ps).map f.respell)) := by
  obtain ⟨edits, hedits, happly⟩ := h.applied
  exact runCommand_arguments (c := .fixGraph f) hedits happly

end GraphFix

/-- Converting a graph is undone by converting it again. The conversion is offered wherever the keyword of the
converted text is, and the two together do what the fix that keeps the keyword does, except that they leave the
keyword in lower case. -/
theorem convertGraph?_undone {t : Text} {request : Span} {action : Action}
    (h : Action.convertGraph? (Source.ofText t) request = some action) :
    ∃ graph kind keyword keep kept t₁ keyword₁ action₁ t₂,
      (Source.ofText t).graph = some graph ∧ graph.graphKind? = some kind ∧
      (Source.ofText t).keyword? = some keyword ∧
      Action.fixGraph? graph kind = some keep ∧ runCommand t keep.command.id keep.command.arguments = .ok kept ∧
      runCommand t action.command.id action.command.arguments = .ok t₁ ∧
      (Source.ofText t₁).keyword? = some keyword₁ ∧
      (∀ r, keyword₁.meets r → Action.convertGraph? (Source.ofText t₁) r = some action₁) ∧
      runCommand t₁ action₁.command.id action₁.command.arguments = .ok t₂ ∧
      ∃ a x b, t.slice? keyword = some x ∧ keyword = ⟨a.bytes, a.bytes + x.bytes⟩ ∧
        kept = a ++ x ++ b ∧ t₂ = a ++ x.map Char.toLower ++ b ∧
        ((∀ d ∈ (Source.ofText t).diagnostics, d.phase ≠ .check) → x.map Char.toLower = x → t₂ = t) := by
  cases hg : (Source.ofText t).graph with
  | none =>
    rw [Action.convertGraph?, hg] at h
    cases h
  | some graph =>
    obtain ⟨ps, used, hreading⟩ := Source.exists_graphReading hg
    obtain ⟨kind, hkind⟩ := hreading.exists_graphKind
    obtain ⟨f, hf⟩ := GraphFix.exists_offered_of_run hg kind.opposite hreading.run hreading.spelt
    obtain ⟨g, hkept⟩ := GraphFix.exists_offered_of_run hg kind hreading.run hreading.spelt
    obtain ⟨back, hback⟩ := GraphFix.exists_offered_of_run hf.graph_respell kind hf.run_respell rfl
    have hcurrent : g.current = kind := Option.some.inj (hkept.current_eq.symm.trans hkind)
    obtain ⟨title, hkeep⟩ := hkept.offered
    rw [Action.convertGraph?_eq hf hkind] at h
    split at h
    case isFalse => cases h
    case isTrue hoffer =>
      obtain rfl := Option.some.inj h
      have hsound : graph.containsErrors = false := by simpa using (Bool.and_eq_true_iff.mp hoffer).2
      obtain ⟨a, x, b, hslice, hspan, hkept_eq, hback_eq⟩ :=
        GraphFix.exists_kept hf (hf.returns hback) hkept hcurrent
      refine ⟨graph, kind, g.keyword, _, _, _, back.keyword,
        ⟨GraphFix.title kind.opposite kind, .rewrite, false, .fixGraph back⟩, _, rfl, hkind,
        Source.keyword?_eq hkept, hkeep, hkept.run_fix, hf.run_fix, Source.keyword?_eq hback, ?_, hback.run_fix, a,
        x, b, hslice, hspan, hkept_eq, hback_eq, ?_⟩
      · intro r hr
        rw [← kind.opposite_opposite] at hback
        rw [Action.convertGraph?_eq hback hf.kind, hr, Relocation.containsErrors_tree, hsound,
          kind.opposite_opposite]
        rfl
      · intro hphase hlower
        rw [hback_eq, hlower, ← hkept_eq]
        exact hkept.respell_eq_self hcurrent (check_eq_nil_of_phase hg hphase)

theorem convertGraph?_undone_digraph :
    let t : Text := "digraph \x7b a -> b -> \"c -- d\" \x7d".toList
    ∃ action t₁ keyword₁ action₁, Action.convertGraph? (Source.ofText t) (.caret 3) = some action ∧
      runCommand t action.command.id action.command.arguments = .ok t₁ ∧
      (Source.ofText t₁).keyword? = some keyword₁ ∧
      Action.convertGraph? (Source.ofText t₁) keyword₁ = some action₁ ∧
      runCommand t₁ action₁.command.id action₁.command.arguments = .ok t := by
  intro t
  obtain ⟨action, h⟩ : ∃ action, Action.convertGraph? (Source.ofText t) (.caret 3) = some action :=
    Option.isSome_iff_exists.mp (by decide +kernel)
  obtain ⟨_, _, keyword, _, _, t₁, keyword₁, action₁, t₂, -, -, hkeyword, -, -, hrun, hkeyword₁, hoffer, hrun₁, a,
    x, b, hslice, -, -, -, hsame⟩ := convertGraph?_undone h
  obtain rfl : keyword = ⟨0, 7⟩ := Option.some.inj (hkeyword.symm.trans (by decide +kernel))
  obtain rfl : x = "digraph".toList := Option.some.inj (hslice.symm.trans (by decide +kernel))
  obtain rfl : t₂ = t := hsame (by decide +kernel) (by decide)
  exact ⟨action, t₁, keyword₁, action₁, h, hrun, hkeyword₁, hoffer keyword₁ (Span.meets_self keyword₁), hrun₁⟩

end DotMend
