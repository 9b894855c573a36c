import DotMend.Proofs.Parse.Guarded
import DotMend.Proofs.Source.Nodes

namespace DotMend

open Token

def Tree.check? (built : Nat) (g : Tree) : Option (List Diagnostic) :=
  if (g.preorder fun _ => true).all (·.number < built) then some g.check else none

namespace Source

def guarded (t : Text) : Option Source := do
  let scanned ← Token.Guarded.scan t
  let (parse, built) ← Parse.Guarded.ofTokens scanned.tokens
  let wrong ← parse.graph.elim (some []) (Tree.check? built)
  return ⟨parse, scanned.diagnostics ++ parse.diagnostics ++ wrong⟩

lemma guarded_ofTokens (t : Text) :
    Parse.Guarded.ofTokens (scan t).tokens = some ((ofText t).parse, (ofText t).parse.nodes.length) := by
  have hlength : (ofText t).parse.nodes.length =
      (ofText t).parse.graph.elim (ofText t).parse.loose.toList.length (·.number + 1) := by
    cases hg : (ofText t).parse.graph with
    | none => simp [nodes_of_none hg]
    | some g => exact (rooted_of_graph hg).length_eq
  rw [hlength]
  obtain ⟨ps, hrun, rfl⟩ := exists_run true t
  let i : Parse.Guarded.Input :=
    ⟨tokensAt 0 ps, .endAt (spell ps).bytes, ordered_tokensAt fun _ hp => hrun.ne_nil hp, hrun.kind_ne, rfl⟩
  have htokens : (scan (spell ps)).tokens = i.tokens := by
    rw [hrun.scan]
    rfl
  have hparse := i.ofTokens_eq
  rw [← htokens] at hparse
  exact hparse

theorem guarded_eq_ofText (t : Text) : guarded t = some (ofText t) := by
  have hcheck : (ofText t).parse.graph.elim (some []) (Tree.check? (ofText t).parse.nodes.length) =
      some ((ofText t).parse.graph.elim [] Tree.check) := by
    cases hg : (ofText t).parse.graph with
    | none => rfl
    | some g =>
      have hall : (g.preorder fun _ => true).all (·.number < (ofText t).parse.nodes.length) = true := by
        rw [List.all_eq_true]
        exact fun n hn => decide_eq_true ((rooted_of_graph hg).number_lt hn)
      exact if_pos hall
  rw [guarded, Token.Guarded.scan_eq]
  simp only [Option.bind_eq_bind, Option.bind_some, guarded_ofTokens, hcheck]
  rfl

/-- All nodes that are built belong to the graph, or there is no graph and at most one node. -/
theorem nodes_rooted (t : Text) :
    (∀ g, (ofText t).graph = some g → (ofText t).parse.Rooted g) ∧
      ((ofText t).graph = none → (ofText t).parse.nodes.length ≤ 1) ∧
      Parse.Guarded.ofTokens (scan t).tokens = some ((ofText t).parse, (ofText t).parse.nodes.length) := by
  refine ⟨fun g hg => rooted_of_graph hg, fun h => ?_, guarded_ofTokens t⟩
  rw [nodes_of_none h]
  cases (ofText t).parse.loose <;> simp

theorem nodes_rooted_faulty :
    (∃ g, (ofText "graph \x7b a : -> \x7b \x7b b [x=] ; -- \x7d subgraph c".toList).graph = some g ∧
      (ofText "graph \x7b a : -> \x7b \x7b b [x=] ; -- \x7d subgraph c".toList).parse.Rooted g) ∧
    (ofText "strict node".toList).graph = none ∧ (ofText "strict node".toList).parse.nodes.length ≤ 1 := by
  have hsome : (ofText "graph \x7b a : -> \x7b \x7b b [x=] ; -- \x7d subgraph c".toList).graph.isSome := by
    decide +kernel
  have hnone : (ofText "strict node".toList).graph = none := Option.isNone_iff_eq_none.mp (by decide +kernel)
  obtain ⟨g, hg⟩ := Option.isSome_iff_exists.mp hsome
  exact ⟨⟨g, hg, (nodes_rooted _).1 g hg⟩, hnone, (nodes_rooted _).2.1 hnone⟩

end Source

end DotMend
