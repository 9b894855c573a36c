import DotMend.Proofs.Parse.Nodes
import DotMend.Proofs.Source.Graph
import Mathlib.Data.List.Nodup

namespace DotMend

namespace Parse

structure Rooted (p : Parse) (g : Tree) : Prop where
  root : p.nodes.getLast? = some (none, g)
  numbered : p.nodes.map (fun n => n.2.number) = List.range p.nodes.length
  walked : ((g.preorder fun _ => true).map Tree.number).Perm (List.range p.nodes.length)
  descending : ∀ n ∈ p.nodes, ∀ c ∈ n.2.children, c.number < n.2.number
  parent : ∀ n ∈ p.nodes, ∀ c, (some n.2.number, c) ∈ p.nodes ↔ c ∈ n.2.children
  placed : ∀ n ∈ p.nodes, n.2.Placed
  distinct : ∀ a ∈ p.nodes, ∀ b ∈ p.nodes, a.2.kind = b.2.kind → a.2.span = b.2.span → a.2 = b.2

variable {p : Parse} {g : Tree} {eof : Span} {ts rest : List Token} {m : Trail} {cs : List Diagnostic}

lemma Rooted.length_eq (h : p.Rooted g) : p.nodes.length = g.number + 1 := by
  have hlast := congrArg List.getLast? h.numbered
  rw [List.getLast?_map, h.root, Option.map_some, List.getLast?_range] at hlast
  split at hlast
  · cases hlast
  · have hnumber : g.number = p.nodes.length - 1 := Option.some.inj hlast
    omega

lemma Rooted.number_lt (h : p.Rooted g) {n : Tree} (hn : n ∈ g.preorder fun _ => true) :
    n.number < p.nodes.length :=
  List.mem_range.mp (h.walked.mem_iff.mp (List.mem_map_of_mem hn))

lemma nodes_eq (hg : p.graph = some g) (hl : p.loose = none) : p.nodes = g.postorder none := by
  simp [nodes, forest, hg, hl]

lemma sound_of_steps (hs : Steps eof ts .start [g] false rest m cs) (ho : Ordered ts) : g.Sound := by
  obtain ⟨used, rfl, hlaid, -⟩ := hs.laid
  exact ⟨hs.proper g (by simp), hlaid.placed ho.left g (by simp), hs.opened ho g (by simp)⟩

lemma mem_preorder_of_mem_nodes (hnodes : p.nodes = g.postorder none) {n : Option Nat × Tree} (hn : n ∈ p.nodes) :
    n.2 ∈ g.preorder fun _ => true := by
  rw [hnodes] at hn
  exact (g.postorder_perm none).mem_iff.mp (List.mem_map_of_mem hn)

lemma numbers_eq_range (hnodes : p.nodes = g.postorder none) (hs : Steps eof ts .start [g] false rest m cs) :
    p.nodes.map (fun n => n.2.number) = List.range p.nodes.length := by
  obtain ⟨n, -, hn⟩ := hs.numbers none
  rw [List.flatMap_singleton, ← hnodes] at hn
  have hlength := congrArg List.length hn
  rw [List.length_map, List.length_range'] at hlength
  rw [hn, hlength, List.range_eq_range']
  rfl

lemma walk_perm_range (hnodes : p.nodes = g.postorder none)
    (hnumbered : p.nodes.map (fun n => n.2.number) = List.range p.nodes.length) :
    ((g.preorder fun _ => true).map Tree.number).Perm (List.range p.nodes.length) := by
  rw [← hnumbered, hnodes]
  have hperm := (g.postorder_perm none).map Tree.number
  rw [List.map_map] at hperm
  exact hperm.symm

lemma parent_iff (hnodes : p.nodes = g.postorder none)
    (hwalked : ((g.preorder fun _ => true).map Tree.number).Perm (List.range p.nodes.length))
    {n : Option Nat × Tree} (hn : n ∈ p.nodes) (c : Tree) : (some n.2.number, c) ∈ p.nodes ↔ c ∈ n.2.children := by
  have hmem := mem_preorder_of_mem_nodes hnodes hn
  rw [hnodes, Tree.mem_postorder_iff]
  constructor
  · rintro (⟨h, -⟩ | ⟨s, hs, hc, h⟩)
    · cases h
    · have hnodup := hwalked.nodup_iff.mpr List.nodup_range
      rwa [List.inj_on_of_nodup_map hnodup hmem hs (Option.some.inj h)]
  · intro hc
    exact .inr ⟨n.2, hmem, hc, rfl⟩

lemma rooted_of_steps (hg : p.graph = some g) (hl : p.loose = none) (hs : Steps eof ts .start [g] false rest m cs)
    (ho : Ordered ts) : p.Rooted g := by
  have hnodes := nodes_eq hg hl
  have hsound := sound_of_steps hs ho
  have hmem {n : Option Nat × Tree} (hn : n ∈ p.nodes) := mem_preorder_of_mem_nodes hnodes hn
  have hnumbered := numbers_eq_range hnodes hs
  have hwalked := walk_perm_range hnodes hnumbered
  constructor
  · rw [hnodes, Tree.postorder_eq, List.getLast?_concat]
  · exact hnumbered
  · exact hwalked
  · intro n hn
    exact ((hs.descending ho g (by simp)).of_mem_preorder (hmem hn)).here
  · intro n hn
    exact parent_iff hnodes hwalked hn
  · intro n hn
    exact (hsound.placed.of_mem_preorder (hmem hn)).here
  · intro a ha b hb hk hspan
    exact hsound.eq_of_kind_of_span (hmem ha) (hmem hb) hk hspan

lemma exists_leaf_of_optional {wanted : Kind → Bool} {s : Tree} (h : (optional wanted ts m).value = some s) :
    ∃ t ∈ ts, s = m.leaf t := by
  cases ts with
  | nil => cases h
  | cons t ts =>
    simp only [optional] at h
    split at h
    · exact ⟨t, List.mem_cons_self, (Option.some.inj h).symm⟩
    · cases h

lemma exists_leaf_of_loose {limit : Nat} {s : Tree} (h : (source eof limit ts).loose = some s) :
    ∃ t ∈ ts, s = Trail.start.leaf t := by
  cases ts with
  | nil => cases h
  | cons t ts =>
    simp only [source] at h
    split at h
    · split at h
      · cases h
      · exact exists_leaf_of_optional h
    · exact exists_leaf_of_optional h

end Parse

namespace Source

open Token

structure GraphWay (t : Text) (g : Tree) (ps : List Piece) (rest : List Token) (m : Parse.Trail)
    (cs : List Diagnostic) : Prop where
  run : Run true ps
  spelt : spell ps = t
  parsed : (ofText t).graph = some g
  steps : Parse.Steps (.caret t.bytes) (tokensAt 0 ps) .start [g] false rest m cs
  stop : g.span.stop = m.lastEnd
  complaints : (ofText t).parse.diagnostics = cs ++ Parse.trailing (Parse.limitOf (tokensAt 0 ps)) rest
  diagnostics : (ofText t).diagnostics = diagnosticsAt 0 ps ++ (ofText t).parse.diagnostics ++ g.check
  loose : (ofText t).parse.loose = none

lemma exists_graphWay_spell {ps : List Piece} {g : Tree} (hrun : Run true ps)
    (h : (ofText (spell ps)).graph = some g) : ∃ rest m cs, GraphWay (spell ps) g ps rest m cs := by
  have ho := ordered_tokensAt (n := 0) fun p hp => hrun.ne_nil hp
  have hparse := parse_spell hrun
  have hgraph := h
  rw [Source.graph, hparse] at hgraph
  obtain ⟨rest, m, cs, hs, -, hstop, hdiag, hloose⟩ := Parse.source_traced ho hgraph
  refine ⟨rest, m, cs, hrun, rfl, h, hs, hstop, by rw [hparse, hdiag], ?_, by rw [hparse, hloose]⟩
  have hcheck : (ofText (spell ps)).parse.graph.elim [] Tree.check = g.check := by
    rw [show (ofText (spell ps)).parse.graph = some g from h]
    rfl
  rw [← hcheck, ofText_spell hrun]

lemma exists_graphWay {t : Text} {g : Tree} (h : (ofText t).graph = some g) :
    ∃ ps rest m cs, GraphWay t g ps rest m cs := by
  obtain ⟨ps, hrun, rfl⟩ := exists_run true t
  exact ⟨ps, exists_graphWay_spell hrun h⟩

section GraphWay

variable {t : Text} {g : Tree} {ps : List Piece} {rest : List Token} {m : Parse.Trail} {cs : List Diagnostic}

lemma GraphWay.ordered (h : GraphWay t g ps rest m cs) : Parse.Ordered (tokensAt 0 ps) :=
  ordered_tokensAt fun _ hp => h.run.ne_nil hp

lemma phase_of_mem_diagnosticsAt {n : Nat} : ∀ d ∈ diagnosticsAt n ps, d.phase = .scan := by
  intro d hd
  obtain ⟨q, -, hq⟩ := List.mem_filterMap.mp hd
  obtain ⟨fault, -, rfl⟩ := Option.map_eq_some_iff.mp hq
  cases fault <;> rfl

lemma GraphWay.code_of_mem (h : GraphWay t g ps rest m cs) : ∀ d ∈ cs, d.code = .expectationFailed := by
  intro d hd
  obtain ⟨what, us, -, rfl⟩ := h.steps.exists_expected d hd
  rfl

lemma code_of_mem_trailing {limit : Nat} : ∀ d ∈ Parse.trailing limit rest, d.code = .trailingData := by
  cases rest with
  | nil => simp [Parse.trailing]
  | cons => simp [Parse.trailing, Diagnostic.error]

lemma code_of_mem_check : ∀ d ∈ g.check, d.code = .invalidEdgeOperation := by
  intro d hd
  rw [Tree.check] at hd
  split at hd
  · simp at hd
  · obtain ⟨o, -, rfl⟩ := List.mem_map.mp hd
    rfl

lemma GraphWay.mem_diagnostics (h : GraphWay t g ps rest m cs) {d : Diagnostic} (hd : d ∈ (ofText t).diagnostics) :
    d ∈ diagnosticsAt 0 ps ∧ d.phase = .scan ∨ d ∈ cs ∧ d.code = .expectationFailed ∨ d.code = .trailingData ∨
      d ∈ g.check ∧ d.code = .invalidEdgeOperation := by
  rw [h.diagnostics, h.complaints, List.mem_append, List.mem_append, List.mem_append] at hd
  rcases hd with (hd | hd | hd) | hd
  · exact .inl ⟨hd, phase_of_mem_diagnosticsAt d hd⟩
  · exact .inr (.inl ⟨hd, h.code_of_mem d hd⟩)
  · exact .inr (.inr (.inl (code_of_mem_trailing d hd)))
  · exact .inr (.inr (.inr ⟨hd, code_of_mem_check d hd⟩))

end GraphWay

lemma exists_leaf_of_loose {t : Text} {s : Tree} (h : (ofText t).parse.loose = some s) :
    ∃ u, s = Parse.Trail.start.leaf u ∧ u.span.start < u.span.stop := by
  obtain ⟨ps, hrun, rfl⟩ := exists_run true t
  rw [parse_spell hrun] at h
  obtain ⟨u, hu, rfl⟩ := Parse.exists_leaf_of_loose h
  exact ⟨u, rfl, (ordered_tokensAt fun p hp => hrun.ne_nil hp).nonempty u hu⟩

lemma nodes_of_none {t : Text} (h : (ofText t).graph = none) :
    (ofText t).parse.nodes = (ofText t).parse.loose.toList.map (none, ·) := by
  rw [Source.graph] at h
  rw [Parse.nodes, Parse.forest, h, Option.toList_none, List.append_nil]
  cases hl : (ofText t).parse.loose with
  | none => rfl
  | some s =>
    obtain ⟨u, rfl, -⟩ := exists_leaf_of_loose hl
    simp [Tree.postorder_eq, Parse.Trail.leaf, Tree.children_eq]

lemma rooted_of_graph {t : Text} {g : Tree} (hg : (ofText t).graph = some g) : (ofText t).parse.Rooted g := by
  obtain ⟨ps, rest, m, cs, h⟩ := exists_graphWay hg
  exact Parse.rooted_of_steps hg h.loose h.steps h.ordered

end Source

end DotMend
