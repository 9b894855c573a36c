import DotMend.Proofs.Action.Candidates

namespace DotMend

open Token

structure Merge (t : Text) (graph : Tree) where
  holder : Tree
  front : List Tree
  seed : PlainEdge
  later : List Tree
  rest : List PlainEdge
  text : Text
  holder_mem : holder ∈ graph.preorder fun _ => true
  children_eq : holder.children = front ++ seed.tree :: later
  rest_sublist : (rest.map PlainEdge.tree).Sublist later
  rest_ne_nil : rest ≠ []
  faultless : ∀ e ∈ seed :: rest, e.tree.containsErrors = false
  slice_name : ∀ e ∈ seed :: rest, t.slice? e.name.span = some text

namespace Merge

variable {t : Text} {graph : Tree}

def edges (m : Merge t graph) : List PlainEdge := m.seed :: m.rest

def consolidation (m : Merge t graph) : Consolidation := ⟨true, m.edges.map PlainEdge.candidate⟩

end Merge

namespace Action

theorem exists_merge {t : Text} {ps : List Piece} {used : List Token} {graph : Tree} {request : Span}
    {action : Action}
    (h : Source.GraphReading t ps used graph) (ha : consolidate? t (Source.ofText t) request = some action) :
    ∃ m : Merge t graph, action.command = .consolidate m.consolidation := by
  obtain ⟨offset, rfl⟩ : ∃ offset, request = .caret offset := by
    unfold consolidate? at ha
    split at ha
    · rename_i hempty
      obtain ⟨start, stop⟩ := request
      obtain rfl : start = stop := beq_iff_eq.mp hempty
      exact ⟨start, rfl⟩
    · cases ha
  obtain ⟨graph', hg, j, hrest, rfl⟩ := exists_joining ha
  obtain rfl : graph' = graph := Option.some.inj (hg.symm.trans h.parsed)
  obtain ⟨head, hhead⟩ := j.exists_children_eq
  have hjoins : ∀ e ∈ j.seed :: j.rest, e.Joins t j.text := by
    refine List.forall_mem_cons.mpr ⟨j.joins, fun e he => ?_⟩
    have hmem := List.mem_map_of_mem (f := PlainEdge.tree) he
    obtain ⟨e', he', hjoins⟩ := (j.mem_rest_iff _ (j.rest_sublist.subset hmem)).mp hmem
    rwa [← PlainEdge.tree_injective he']
  exact ⟨⟨j.holder, head ++ j.front, j.seed, j.clear ++ j.behind, j.rest, j.text, j.holder_mem,
    by rw [hhead, List.append_assoc], j.rest_sublist.trans (List.sublist_append_left _ _), hrest,
    fun e he => (hjoins e he).faultless,
    fun e he => (hjoins e he).spelt⟩, rfl⟩

end Action

end DotMend
