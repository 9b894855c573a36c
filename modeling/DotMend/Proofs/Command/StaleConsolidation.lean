import DotMend.Proofs.Action.Merge
import DotMend.Proofs.Command.Consolidation

namespace DotMend

def Candidate.Eligible (graph : Tree) (k : Candidate) : Prop :=
  ∃ s ∈ graph.preorder fun _ => true, ∃ name, Action.plainSource? s = some name ∧ Action.candidate? s name = some k

instance (graph : Tree) (k : Candidate) : Decidable (k.Eligible graph) :=
  decidable_of_iff
    (∃ s ∈ graph.preorder fun _ => true, (Action.plainSource? s).bind (Action.candidate? s) = some k)
    (by simp only [Candidate.Eligible, Option.bind_eq_some_iff])

section Reading

variable {t : Text} {ps : List Token.Piece} {used : List Token} {graph : Tree} {k : Candidate}

lemma SingleEdge.eligible_iff {e : SingleEdge} :
    (∃ name, Action.plainSource? e.tree = some name ∧ Action.candidate? e.tree name = some e.candidate) ↔
      e.attributes = [] ∧ e.tree.containsErrors = false := by
  constructor
  · rintro ⟨name, hname, -⟩
    unfold Action.plainSource? at hname
    split at hname
    · rename_i htree
      obtain ⟨-, -, -, hnil, -⟩ := Tree.edgeStatement.inj htree
      refine ⟨hnil, ?_⟩
      by_contra hfault
      rw [Bool.not_eq_false] at hfault
      rw [if_pos hfault] at hname
      cases hname
    · cases hname
  · rintro ⟨hnil, hfault⟩
    refine ⟨e.name, ?_, rfl⟩
    have htree : e.tree = .edgeStatement e.info (.nodeId e.sourceInfo e.name none)
        [.edgeRhs e.rhsInfo e.operation (some e.target)] [] e.terminator := by rw [tree, hnil]
    rw [htree] at hfault ⊢
    simp [Action.plainSource?, hfault]

lemma Candidate.eligible_iff (h : Source.GraphReading t ps used graph) {e : SingleEdge} (he : e.IsAt graph k) :
    k.Eligible graph ↔ e.attributes = [] ∧ e.tree.containsErrors = false := by
  rw [← SingleEdge.eligible_iff]
  constructor
  · rintro ⟨s, hs, name, hname, hk⟩
    obtain ⟨p, rfl, rfl, rfl, -⟩ := Action.exists_plainEdge hname hk
    have hp : p.single.IsAt graph p.candidate := ⟨hs, rfl⟩
    obtain rfl := he.unique h hp
    exact ⟨_, hname, hk⟩
  · rintro ⟨name, hname, hk⟩
    exact ⟨e.tree, he.1, name, hname, he.2 ▸ hk⟩

end Reading

namespace Consolidation

variable {t : Text} {source : Source} {graph : Tree}

lemma removal_encloses (bytes : List UInt8) (s : Span) : (removal bytes s).encloses s := by
  unfold removal
  rw [Span.encloses_iff]
  dsimp only
  split
  · simp only
    omega
  · simp only
    omega

structure FoundIn (t : Text) (graph : Tree) (c : Consolidation) : Prop where
  two : 2 ≤ c.candidates.length
  edges : ∀ k ∈ c.candidates, ∃! e, SingleEdge.IsAt graph k e
  sources : c.literal → ∀ k ∈ c.candidates, ∀ k' ∈ c.candidates, t.slice? k.source = t.slice? k'.source

lemma exists_graph {c : Consolidation} {edits : List Edit} (h : c.edits t source = .ok edits) :
    ∃ graph, source.graph = some graph := by
  obtain ⟨seed, rest, texts, -, -, htargets, -⟩ := edits_eq_ok_iff.mp h
  obtain ⟨x, y, others, hseed, -⟩ := targets_eq_ok_iff.mp htargets
  have hverify := (target_eq_ok_iff.mp hseed).1
  rw [Candidate.verify] at hverify
  cases hg : source.graph with
  | none =>
    rw [hg] at hverify
    cases hverify
  | some graph => exact ⟨graph, rfl⟩

section Reading

variable {ps : List Token.Piece} {used : List Token} (h : Source.GraphReading t ps used graph)
include h

lemma foundIn_of_edits {c : Consolidation} {edits : List Edit} (hedits : c.edits t (Source.ofText t) = .ok edits) :
    c.FoundIn t graph := by
  obtain ⟨seed, rest, texts, hcandidates, hne, htargets, -⟩ := edits_eq_ok_iff.mp hedits
  obtain ⟨x, y, others, hseed, hothers, -⟩ := targets_eq_ok_iff.mp htargets
  have hall : ∀ k ∈ c.candidates, (∃ e, SingleEdge.IsAt graph k e) ∧ (c.literal → t.slice? k.source = some x) := by
    rw [hcandidates]
    refine List.forall_mem_cons.mpr ⟨?_, fun k hk => ?_⟩
    · obtain ⟨he, hslice⟩ := (Candidate.verify_eq_ok_iff h).mp (target_eq_ok_iff.mp hseed).1
      exact ⟨he, fun _ => hslice⟩
    · obtain ⟨⟨x', y'⟩, -, hk⟩ := (exists_of_mapM_eq_ok hothers).1 k hk
      obtain ⟨hverify, hsame, -⟩ := target_eq_ok_iff.mp hk
      obtain ⟨he, hslice⟩ := (Candidate.verify_eq_ok_iff h).mp hverify
      refine ⟨he, fun hliteral => ?_⟩
      rw [hslice, hsame x (by simp [hliteral])]
  refine ⟨?_, fun k hk => ?_, fun hliteral k hk k' hk' => ?_⟩
  · have := List.length_pos_iff.mpr hne
    rw [hcandidates, List.length_cons]
    omega
  · obtain ⟨e, he⟩ := (hall k hk).1
    exact ⟨e, he, fun e' he' => he'.unique h he⟩
  · rw [(hall k hk).2 hliteral, (hall k' hk').2 hliteral]

lemma FoundIn.exists_edits {c : Consolidation} (hc : c.FoundIn t graph) :
    ∃ edits, c.edits t (Source.ofText t) = .ok edits := by
  obtain ⟨seed, rest, hcandidates⟩ : ∃ seed rest, c.candidates = seed :: rest :=
    List.exists_cons_of_ne_nil fun hnil => by simpa [hnil] using hc.two
  have hne : rest ≠ [] := by
    rintro rfl
    simpa [hcandidates] using hc.two
  let text (s : Span) : Text := (t.slice? s).getD []
  have htarget (seed : Option Text) {k : Candidate} (hk : k ∈ c.candidates)
    (hseed : ∀ s ∈ seed, text k.source = s) :
      target t (Source.ofText t) seed k = .ok (text k.source, text k.target) := by
    obtain ⟨e, he, -⟩ := hc.edges k hk
    obtain ⟨⟨x, hx⟩, y, hy⟩ := he.exists_slices h
    have hverify : k.verify t (Source.ofText t) = .ok (text k.source) := by
      rw [Candidate.verify_eq_ok_iff h]
      exact ⟨⟨e, he⟩, by simp [text, hx]⟩
    exact target_eq_ok_iff.mpr ⟨hverify, hseed, by simp [text, hy]⟩
  have hfirst := htarget none (hcandidates ▸ List.mem_cons_self) (by simp)
  have hothers : rest.mapM (target t (Source.ofText t) (if c.literal then some (text seed.source) else none)) =
      .ok (rest.map fun k => (text k.source, text k.target)) := by
    apply mapM_eq_ok
    intro k hk
    have hk' : k ∈ c.candidates := hcandidates ▸ List.mem_cons_of_mem _ hk
    apply htarget _ hk'
    intro s hs
    split at hs
    · rename_i hliteral
      obtain rfl := Option.some.inj hs
      simp only [text, hc.sources hliteral k hk' seed (hcandidates ▸ List.mem_cons_self)]
    · cases hs
  exact ⟨_, edits_eq_ok_iff.mpr
    ⟨seed, rest, _, hcandidates, hne, targets_eq_ok_iff.mpr ⟨_, _, _, hfirst, hothers, rfl⟩, rfl⟩⟩

end Reading

lemma exists_erasing {c : Consolidation} {edits : List Edit} (h : c.edits t source = .ok edits) :
    ∀ k ∈ c.candidates.tail, ∃ e ∈ edits, e.replacement = "" ∧ e.span.encloses k.statement := by
  obtain ⟨seed, rest, texts, hcandidates, -, -, rfl⟩ := edits_eq_ok_iff.mp h
  rw [hcandidates, List.tail_cons]
  intro k hk
  exact ⟨_, List.mem_cons_of_mem _ (List.mem_map_of_mem hk), rfl, removal_encloses _ _⟩

/-- A consolidation is carried out exactly if each candidate records the places of an edge statement with one
target and no port at its source, and the sources agree where they have to. Every statement but the first goes,
with its attributes; so all of them are statements that would be offered exactly if none has attributes or a
fault. -/
theorem consolidation_accepted_iff (t : Text) (c : Consolidation) :
    ((∃ edits, c.edits t (Source.ofText t) = .ok edits) ↔
        ∃ graph, (Source.ofText t).graph = some graph ∧ c.FoundIn t graph) ∧
      ∀ edits graph, c.edits t (Source.ofText t) = .ok edits → (Source.ofText t).graph = some graph →
        (∀ k ∈ c.candidates.tail, ∃ e ∈ edits, e.replacement = "" ∧ e.span.encloses k.statement) ∧
        ((∀ k ∈ c.candidates, k.Eligible graph) ↔
          ∀ k ∈ c.candidates, ∀ e, SingleEdge.IsAt graph k e → e.attributes = [] ∧
          e.tree.containsErrors = false) := by
  refine ⟨⟨?_, ?_⟩, ?_⟩
  · rintro ⟨edits, hedits⟩
    obtain ⟨graph, hg⟩ := exists_graph hedits
    obtain ⟨ps, used, h⟩ := Source.exists_graphReading hg
    exact ⟨graph, hg, foundIn_of_edits h hedits⟩
  · rintro ⟨graph, hg, hc⟩
    obtain ⟨ps, used, h⟩ := Source.exists_graphReading hg
    exact hc.exists_edits h
  · intro edits graph hedits hg
    obtain ⟨ps, used, h⟩ := Source.exists_graphReading hg
    have hfound := foundIn_of_edits h hedits
    refine ⟨exists_erasing hedits, forall₂_congr fun k hk => ?_⟩
    obtain ⟨e, he, hunique⟩ := hfound.edges k hk
    rw [Candidate.eligible_iff h he]
    constructor
    · intro hplain e' he'
      rwa [hunique e' he']
    · intro hplain
      exact hplain e he

theorem consolidation_accepted_iff_blocks :
    let t : Text := "graph \x7b a -- b; \x7b a /* -- */ -> \x7bc d\x7d \x7d \x7d".toList
    let c : Consolidation := ⟨true, [⟨⟨8, 15⟩, ⟨8, 9⟩, ⟨13, 14⟩⟩, ⟨⟨18, 37⟩, ⟨18, 19⟩, ⟨32, 37⟩⟩]⟩
    ∃ edits graph, c.edits t (Source.ofText t) = .ok edits ∧ (Source.ofText t).graph = some graph ∧
      c.FoundIn t graph ∧
      (∀ k ∈ c.candidates.tail, ∃ e ∈ edits, e.replacement = "" ∧ e.span.encloses k.statement) ∧
      ∀ k ∈ c.candidates, ∀ e, SingleEdge.IsAt graph k e → e.attributes = [] ∧ e.tree.containsErrors = false := by
  intro t c
  have hsome : (c.edits t (Source.ofText t)).toOption.isSome := by decide +kernel
  have heligible : (Source.ofText t).graph.map (fun graph => decide (∀ k ∈ c.candidates, k.Eligible graph)) =
      some true := by
    decide +kernel
  obtain ⟨edits, hedits⟩ := Option.isSome_iff_exists.mp hsome
  replace hedits := eq_ok_of_toOption hedits
  obtain ⟨haccepted, hplain⟩ := consolidation_accepted_iff t c
  obtain ⟨graph, hg, hfound⟩ := haccepted.mp ⟨edits, hedits⟩
  obtain ⟨herased, hiff⟩ := hplain edits graph hedits hg
  rw [hg] at heligible
  exact ⟨edits, graph, hedits, hg, hfound, herased, hiff.mp (of_decide_eq_true (Option.some.inj heligible))⟩

/-- A statement that has got attributes since it was recorded is merged, and its attributes go. -/
theorem consolidation_drops_attributes :
    let t₀ : Text := "graph \x7b a -- b; a -- c     ; \x7d".toList
    let t : Text := "graph \x7b a -- b; a -- c[x=y]; \x7d".toList
    let t' : Text := "graph \x7b a -- \x7b b c \x7d; \x7d".toList
    let c : Consolidation := ⟨true, [⟨⟨8, 15⟩, ⟨8, 9⟩, ⟨13, 14⟩⟩, ⟨⟨16, 28⟩, ⟨16, 17⟩, ⟨21, 22⟩⟩]⟩
    (Action.offers t₀ (Source.ofText t₀) (.caret 8)).map Action.command = [.consolidate c] ∧
      ∃ edits graph, (Source.ofText t).graph = some graph ∧ (Source.ofText t).diagnostics = [] ∧
        c.edits t (Source.ofText t) = .ok edits ∧ Edit.applyAll t edits = .ok t' ∧
        ¬ ∀ k ∈ c.candidates, k.Eligible graph := by
  intro t₀ t t' c
  let edits : List Edit :=
    [⟨⟨13, 14⟩, "\x7b b c \x7d", "Group edge targets"⟩, .delete ⟨16, 29⟩ "Remove consolidated edge statement"]
  have hedits : (c.edits t (Source.ofText t)).toOption = some edits := by decide +kernel
  have heligible : (Source.ofText t).graph.map (fun graph => decide (∀ k ∈ c.candidates, k.Eligible graph)) =
      some false := by
    decide +kernel
  have hfits : ∀ e ∈ edits, e.Fits t := by
    simp only [edits, List.forall_mem_cons, List.not_mem_nil, false_imp_iff, implies_true, and_true]
    exact ⟨⟨"b".toList, by decide, by decide +kernel⟩, "a -- c[x=y]; ".toList, by decide, by decide +kernel⟩
  have happly := Edit.applyAll_eq_rewritten hfits (by simp [edits, Edit.Apart, Edit.delete])
  have hwritten : Edit.rewritten edits 0 t = t' := by decide +kernel
  obtain ⟨graph, hg, hnot⟩ := Option.map_eq_some_iff.mp heligible
  exact ⟨by decide +kernel, edits, graph, hg, by decide +kernel, eq_ok_of_toOption hedits, hwritten ▸ happly,
    of_decide_eq_false hnot⟩

end Consolidation

end DotMend
