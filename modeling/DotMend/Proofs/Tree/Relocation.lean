import DotMend.Diagnostic
import DotMend.Proofs.Tree.Map
import DotMend.Token.Basic
import Mathlib.Order.Monotone.Basic
import Mathlib.Order.Nat

namespace DotMend

structure Relocation where
  place : Nat → Nat
  mono : Monotone place
  recolour : Span → Kind → Kind

namespace Relocation

variable (φ : Relocation)

def span (s : Span) : Span := ⟨φ.place s.start, φ.place s.stop⟩

def info (i : Tree.Info) : Tree.Info := ⟨i.number, φ.span i.span, i.flagged⟩

def token (t : Token) : Token := ⟨φ.recolour t.span t.kind, φ.span t.span, t.value, t.faulty⟩

def diagnostic (d : Diagnostic) : Diagnostic := { d with span := φ.span d.span }

/-- The same tree elsewhere: all its slots, numbers, texts and flags stay, and so do all kinds but those of
tokens. -/
def tree : Tree → Tree := Tree.map φ.info fun i => φ.recolour i.span

def option : Option Tree → Option Tree := Tree.mapOption φ.info fun i => φ.recolour i.span

def list : List Tree → List Tree := Tree.mapList φ.info fun i => φ.recolour i.span

@[simp] lemma option_eq (o : Option Tree) : φ.option o = o.map φ.tree := Tree.mapOption_eq o

@[simp] lemma list_eq (ts : List Tree) : φ.list ts = ts.map φ.tree := Tree.mapList_eq ts

lemma tree_token (i : Tree.Info) (k : Kind) :
    φ.tree (.token i k) = .token (φ.info i) (φ.recolour i.span k) := rfl

lemma tree_graph (i : Tree.Info) (strict name : Option Tree) (keyword : Tree) (statements : List Tree) :
    φ.tree (.graph i strict keyword name statements) =
      .graph (φ.info i) (strict.map φ.tree) (φ.tree keyword) (name.map φ.tree) (statements.map φ.tree) :=
  Tree.map_graph

@[simp] lemma info_tree (t : Tree) : (φ.tree t).info = φ.info t.info := t.info_map

@[simp] lemma span_tree (t : Tree) : (φ.tree t).span = φ.span t.span := by
  rw [Tree.span, info_tree]
  rfl

@[simp] lemma flagged_tree (t : Tree) : (φ.tree t).flagged = t.flagged := by
  rw [Tree.flagged, info_tree]
  rfl

@[simp] lemma children_tree (t : Tree) : (φ.tree t).children = t.children.map φ.tree := t.children_map

lemma operation?_tree (t : Tree) : (φ.tree t).operation? = t.operation?.map φ.tree := t.operation?_map

lemma edgeOperations_tree (t : Tree) : (φ.tree t).edgeOperations = t.edgeOperations.map φ.tree := by
  induction t using Tree.induction_on_children with
  | h t ih =>
    rw [Tree.edgeOperations_eq, Tree.edgeOperations_eq t, operation?_tree, children_tree, List.map_append,
      List.map_flatMap, List.flatMap_map, ← Option.toList_map]
    exact congrArg _ (List.flatMap_congr ih)

end Relocation

end DotMend
