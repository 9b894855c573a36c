import DotMend.Proofs.Command.Consolidation
import DotMend.Proofs.Command.Wire
import DotMend.Proofs.Token.Cutting
import Mathlib.Data.Multiset.Basic

namespace DotMend

open Token

structure Edge where
  source : Text
  op : EdgeOp
  target : Text
  deriving DecidableEq

namespace Edge

def grouped (e : Edge) (targets : List Text) : Multiset Edge := targets.map fun target => { e with target }

lemma eq_grouped_iff {e : Edge} {es : List Edge} (hsource : ∀ d ∈ es, d.source = e.source) :
    ((e :: es : List Edge) : Multiset Edge) = e.grouped ((e :: es).map target) ↔ ∀ d ∈ es, d.op = e.op := by
  rw [grouped, Multiset.coe_eq_coe]
  constructor
  · intro hperm d hd
    -- Every edge of a group has the operator of the group.
    have hmem := hperm.subset (List.mem_cons_of_mem e hd)
    obtain ⟨target, -, rfl⟩ := List.mem_map.mp hmem
    rfl
  · intro hop
    apply List.Perm.of_eq
    rw [List.map_map]
    conv_lhs => rw [← List.map_id (e :: es)]
    apply List.map_congr_left
    intro d hd
    rcases List.mem_cons.mp hd with rfl | hd
    · rfl
    · obtain ⟨source, op, target⟩ := d
      obtain rfl : source = e.source := hsource _ hd
      obtain rfl : op = e.op := hop _ hd
      rfl

end Edge

def Candidate.edge? (t : Text) (graph : Tree) (c : Candidate) : Option Edge :=
  match graph.find? .edgeStatement c.statement with
  | some (.edgeStatement _ (.nodeId _ name none) [.edgeRhs _ operation (some target)] [] _) => do
    let source ← t.slice? name.span
    let op ← operation.edgeOp?
    let target ← t.slice? target.span
    pure ⟨source, op, target⟩
  | _ => none

def Text.without (removed : List Span) : (offset : Nat) → Text → Text
  | _, [] => []
  | n, c :: t => (if removed.any (·.holds n) then [] else [c]) ++ without removed (n + c.utf8Size) t

namespace Merge

variable {t : Text} {ps : List Piece} {used : List Token} {graph : Tree} (m : Merge t graph)

lemma rhs_mem {e : PlainEdge} (he : e ∈ m.edges) :
    .edgeRhs e.rhsInfo e.operation (some e.target) ∈ graph.preorder fun _ => true :=
  Tree.mem_preorder_trans (m.mem_preorder he) e.rhs_mem_preorder

lemma operation_mem {e : PlainEdge} (he : e ∈ m.edges) : e.operation ∈ graph.edgeOperations :=
  List.mem_filterMap.mpr ⟨_, m.rhs_mem he, rfl⟩

def op (e : PlainEdge) : EdgeOp := e.operation.edgeOp?.getD .undirected

lemma operation_spec (h : Source.GraphReading t ps used graph) {e : PlainEdge} (he : e ∈ m.edges) :
    e.operation.edgeOp? = some (op e) ∧ t.slice? e.operation.span = some (op e).text.toList := by
  obtain ⟨o, ho, hslice⟩ := h.slice_operation (m.operation_mem he)
  rw [op, ho]
  exact ⟨rfl, hslice⟩

def edge (e : PlainEdge) : Edge := ⟨m.text, op e, targetText t e⟩

lemma edge?_candidate (h : Source.GraphReading t ps used graph) {e : PlainEdge} (he : e ∈ m.edges) :
    e.candidate.edge? t graph = some (m.edge e) := by
  have hfind := Tree.find?_edgeStatement h.wellPlaced h.proper (m.mem_preorder he) rfl
  rw [Candidate.edge?, show e.candidate.statement = e.tree.span from rfl, hfind]
  simp only [PlainEdge.tree, m.slice_name e he, (m.operation_spec h he).1, m.slice_target h he]
  rfl

lemma op_eq_of_checked (h : Source.GraphReading t ps used graph)
    (hcheck : ∀ d ∈ (Source.ofText t).diagnostics, d.phase ≠ .check) :
    ∃ kind : GraphKind, ∀ e ∈ m.edges, op e = kind.allowedOp := by
  obtain ⟨_, _, _, -, -, kind, i, strict, j, name, statements, hgraph, -⟩ := h.header
  have hkind : graph.graphKind? = some kind := by
    rw [hgraph]
    cases kind <;> rfl
  refine ⟨kind, fun e he => ?_⟩
  by_contra hne
  -- Another operator would be reported, since every operator of the graph is looked at.
  have hinvalid : e.operation ∈ graph.invalidOperations kind := by
    rw [Tree.invalidOperations, List.mem_filter]
    exact ⟨m.operation_mem he, by simpa [(m.operation_spec h he).1] using hne⟩
  have hmem : Diagnostic.error e.operation.span .invalidEdgeOperation kind.invalidOperationMessage ∈
      (Source.ofText t).diagnostics := by
    have hgraph : (Token.scan t |>.tokens |> Parse.ofTokens).graph = some graph := h.parsed
    simp only [Source.ofText, hgraph, Option.elim_some, Tree.check, hkind]
    exact List.mem_append_right _ (List.mem_map_of_mem hinvalid)
  exact hcheck _ hmem rfl

lemma exists_statement (h : Source.GraphReading t ps used graph) {e : PlainEdge} (he : e ∈ m.edges) :
    ∃ a g g' b, t = a ++ (m.text ++ g ++ (op e).text.toList ++ g') ++ targetText t e ++ b ∧
      a.bytes = e.name.span.start ∧
      e.target.span = ⟨(a ++ (m.text ++ g ++ (op e).text.toList ++ g')).bytes,
        (a ++ (m.text ++ g ++ (op e).text.toList ++ g')).bytes + (targetText t e).bytes⟩ := by
  have hplaced := h.wellPlaced.of_mem_preorder (m.mem_preorder he)
  have hrhs := (h.wellPlaced.of_mem_preorder (m.rhs_mem he)).here
  have hname : e.name.span.stop ≤ e.operation.span.start := by
    have hsource : Tree.nodeId e.sourceInfo e.name none ∈ e.tree.preorder fun _ => true :=
      Tree.mem_preorder_of_mem_children (by simp [PlainEdge.tree, Tree.children_eq]) (Tree.mem_preorder_self _)
    have hin := ((hplaced.of_mem_preorder hsource).here.inside e.name (by simp [Tree.children_eq])).2
    have hop := (hrhs.inside e.operation (by simp [Tree.children_eq])).1
    have happ := hplaced.here.apart
    simp only [PlainEdge.tree, Tree.children_eq, List.cons_append, List.pairwise_cons] at happ
    exact hin.trans ((happ.1 _ List.mem_cons_self).trans hop)
  have htarget : e.operation.span.stop ≤ e.target.span.start := by
    have happ := hrhs.apart
    simp only [Tree.children_eq, Option.toList_some, List.pairwise_cons] at happ
    exact happ.1 _ List.mem_cons_self
  -- Three cuts of one text at growing offsets are one cut into all parts.
  obtain ⟨a, b₁, h₁, hs₁⟩ := Text.slice?_eq_some_iff.mp (m.slice_name e he)
  obtain ⟨a₂, b₂, h₂, hs₂⟩ := Text.slice?_eq_some_iff.mp (m.operation_spec h he).2
  obtain ⟨a₃, b, h₃, hs₃⟩ := Text.slice?_eq_some_iff.mp (m.slice_target h he)
  obtain ⟨g, rfl, -⟩ := Text.exists_append_of_bytes_le (h₁.symm.trans (h₂.trans (List.append_assoc _ _ _)))
    (by simpa [hs₁, hs₂] using hname)
  obtain ⟨g', rfl, -⟩ := Text.exists_append_of_bytes_le (h₂.symm.trans (h₃.trans (List.append_assoc _ _ _)))
    (by simpa [hs₂, hs₃, Nat.add_assoc] using htarget)
  exact ⟨a, g, g', b, by simpa using h₃, by rw [hs₁], by simpa using hs₃⟩

lemma rewritten_behind {n : Nat} (hn : m.seed.target.span.stop ≤ n) (b : Text) :
    Edit.rewritten m.edits n b = Text.without m.removals n b := by
  induction b generalizing n with
  | nil => rfl
  | cons c b ih =>
    have hgrouping : ¬ m.grouping.Covers n := fun hc => absurd hn (Nat.not_le.mpr hc.2)
    have hchar : Edit.atChar m.edits n c = if m.removals.any (·.holds n) then [] else [c] := by
      unfold Edit.atChar
      split
      · rename_i hnone
        have hany : m.removals.any (·.holds n) = false := by
          rw [List.any_eq_false]
          intro r hr hholds
          have hmem : Edit.delete r "Remove consolidated edge statement" ∈ m.edits :=
            List.mem_cons_of_mem _ (List.mem_map_of_mem hr)
          exact List.find?_eq_none.mp hnone _ hmem (decide_eq_true (Span.holds_iff.mp hholds))
        rw [hany]
        rfl
      · rename_i e hsome
        have hcovers : e.Covers n := by simpa using List.find?_some hsome
        rcases List.mem_cons.mp (List.mem_of_find?_eq_some hsome) with rfl | he
        · exact absurd hcovers hgrouping
        · obtain ⟨r, hr, rfl⟩ := List.mem_map.mp he
          rw [List.any_eq_true.mpr ⟨r, hr, Span.holds_iff.mpr hcovers⟩]
          exact ite_self _
    rw [Edit.rewritten, Text.without, hchar, ih (hn.trans (Nat.le_add_right _ _))]

end Merge

namespace Action

variable {t : Text} {request : Span} {action : Action}

/-- Joining the edge statements at a place of a text leaves one statement in their stead, from their source and
with the operator of the first one to all their targets. Its edges are those of the statements exactly if they all
have the same operator, as in every graph that passes its check. -/
theorem consolidated_edges_iff (ha : consolidate? t (Source.ofText t) request = some action) :
    ∃ graph seed rest edits t', ∃ (e : Edge) (es : List Edge),
      (Source.ofText t).graph = some graph ∧ action.command = .consolidate ⟨true, seed :: rest⟩ ∧
      (seed :: rest).map (·.edge? t graph) = (e :: es).map some ∧
      Command.execute action.command.id t (Source.ofText t) action.command.arguments = .ok edits ∧
      Edit.applyAll t edits = .ok t' ∧
      (∃ a g g' b, a.bytes = seed.source.start ∧
        t = a ++ (e.source ++ g ++ e.op.text.toList ++ g') ++ e.target ++ b ∧
        t' = a ++ (e.source ++ g ++ e.op.text.toList ++ g') ++
        (Consolidation.group ((e :: es).map Edge.target)).toList ++
          Text.without (rest.map fun c => Consolidation.removal t.utf8 c.statement) seed.target.stop b) ∧
      (((e :: es : List Edge) : Multiset Edge) = e.grouped ((e :: es).map Edge.target) ↔ ∀ d ∈ es, d.op = e.op) ∧
      ((∀ d ∈ (Source.ofText t).diagnostics, d.phase ≠ .check) → ∀ d ∈ es, d.op = e.op) := by
  obtain ⟨ps, used, graph, m, h, hcommand, hedits, happly⟩ := exists_merged ha
  have hseed : m.seed ∈ m.edges := List.mem_cons_self
  refine ⟨graph, m.seed.candidate, m.rest.map PlainEdge.candidate, m.edits, _, m.edge m.seed, m.rest.map m.edge,
    h.parsed, hcommand, ?_, Command.execute_arguments hedits, happly, ?_, ?_, ?_⟩
  · change (m.edges.map PlainEdge.candidate).map _ = (m.edges.map m.edge).map some
    rw [List.map_map, List.map_map]
    exact List.map_congr_left fun e he => m.edge?_candidate h he
  · obtain ⟨a, g, g', b, ht, hname, hspan⟩ := m.exists_statement h hseed
    have hstop := congrArg Span.stop hspan
    have hgroup : m.grouping.replacement = Consolidation.group ((m.edges.map m.edge).map Edge.target) := by
      rw [List.map_map]
      rfl
    refine ⟨a, g, g', b, hname, ht, (m.rewritten_edits_eq h ht hspan).trans ?_⟩
    rw [m.rewritten_behind hstop.le b, hgroup, ← hstop, m.removals_eq]
    rfl
  · exact Edge.eq_grouped_iff (List.forall_mem_map.mpr fun e _ => rfl)
  · intro hcheck
    obtain ⟨kind, hkind⟩ := m.op_eq_of_checked h hcheck
    refine List.forall_mem_map.mpr fun e he => ?_
    exact (hkind e (List.mem_cons_of_mem _ he)).trans (hkind m.seed hseed).symm

theorem consolidated_edges_iff_lines :
    let t : Text := "graph \x7b\n\ta -- \x7bb c\x7d // here\n\ta -> 1.5;\n\tx -- y a -- d\n\x7d".toList
    ∃ action, consolidate? t (Source.ofText t) (.caret 9) = some action ∧
    ∃ graph seed rest edits t', ∃ (e : Edge) (es : List Edge),
      (Source.ofText t).graph = some graph ∧ action.command = .consolidate ⟨true, seed :: rest⟩ ∧
      (seed :: rest).map (·.edge? t graph) = (e :: es).map some ∧
      Command.execute action.command.id t (Source.ofText t) action.command.arguments = .ok edits ∧
      Edit.applyAll t edits = .ok t' ∧
      (∃ a g g' b, a.bytes = seed.source.start ∧
        t = a ++ (e.source ++ g ++ e.op.text.toList ++ g') ++ e.target ++ b ∧
        t' = a ++ (e.source ++ g ++ e.op.text.toList ++ g') ++
          (Consolidation.group ((e :: es).map Edge.target)).toList ++
          Text.without (rest.map fun c => Consolidation.removal t.utf8 c.statement) seed.target.stop b) ∧
      (((e :: es : List Edge) : Multiset Edge) = e.grouped ((e :: es).map Edge.target) ↔ ∀ d ∈ es, d.op = e.op) ∧
      ((∀ d ∈ (Source.ofText t).diagnostics, d.phase ≠ .check) → ∀ d ∈ es, d.op = e.op) := by
  intro t
  have hsome : (consolidate? t (Source.ofText t) (.caret 9)).isSome := by decide +kernel
  obtain ⟨action, ha⟩ := Option.isSome_iff_exists.mp hsome
  exact ⟨action, ha, consolidated_edges_iff ha⟩

/-- The operator of the first statement takes the place of another one. -/
theorem consolidated_edges_other_operator :
    let t : Text := "graph \x7b a -- b; a -> c; \x7d".toList
    let t' : Text := "graph \x7b a -- \x7b b c \x7d; \x7d".toList
    let edge (op : EdgeOp) (target : Char) : Edge := ⟨['a'], op, [target]⟩
    ∃ action graph seed rest edits, consolidate? t (Source.ofText t) (.caret 8) = some action ∧
      (Source.ofText t).graph = some graph ∧ action.command = .consolidate ⟨true, seed :: rest⟩ ∧
      (seed :: rest).map (·.edge? t graph) = [some (edge .undirected 'b'), some (edge .directed 'c')] ∧
      Command.execute action.command.id t (Source.ofText t) action.command.arguments = .ok edits ∧
      Edit.applyAll t edits = .ok t' ∧
      (Source.ofText t').graph.map (fun g => g.edgeOperations.map Tree.edgeOp?) = some [some .undirected] ∧
      ([edge .undirected 'b', edge .directed 'c'] : Multiset Edge) ≠ (edge .undirected 'b').grouped
        [['b'], ['c']] := by
  intro t t' edge
  let seed : Candidate := ⟨⟨8, 15⟩, ⟨8, 9⟩, ⟨13, 14⟩⟩
  let other : Candidate := ⟨⟨16, 23⟩, ⟨16, 17⟩, ⟨21, 22⟩⟩
  let edits : List Edit :=
    [⟨⟨13, 14⟩, "\x7b b c \x7d", "Group edge targets"⟩, .delete ⟨16, 24⟩ "Remove consolidated edge statement"]
  obtain ⟨action, ha, hcommand, hedits, happly⟩ := @exists_consolidated t t' (.caret 8) ⟨true, [seed, other]⟩ edits
    (by decide +kernel) (by decide +kernel) (by decide +kernel)
  have hread : (Source.ofText t).graph.map (fun graph => [seed, other].map (·.edge? t graph)) =
      some [some (edge .undirected 'b'), some (edge .directed 'c')] := by decide +kernel
  obtain ⟨graph, hgraph, hedges⟩ := Option.map_eq_some_iff.mp hread
  exact ⟨action, graph, seed, [other], edits, ha, hgraph, hcommand, hedges, Command.execute_arguments hedits,
    happly, by decide +kernel, by decide +kernel⟩

end Action

end DotMend
