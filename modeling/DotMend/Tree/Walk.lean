import DotMend.Tree.Basic

/-!
Walks over trees. A visit hands out children one by one, or repeated parts as whole lists, until a visitor with a
state of its own has found what it wants; the orders list whole trees.
-/

namespace DotMend

def firstSome (f : α → StateM σ (Option β)) : List α → StateM σ (Option β)
  | [] => pure none
  | a :: rest => do
    match ← f a with
    | some b => pure (some b)
    | none => firstSome f rest

namespace Tree

def visitChildren (f : Tree → StateM σ (Option β)) (t : Tree) : StateM σ (Option β) := firstSome f t.children

def Slot.visit (one : Tree → StateM σ (Option β)) (many : List Tree → StateM σ (Option β)) :
    Slot → StateM σ (Option β)
  | .one t => one t
  | .many ts => many ts

/-- Like `visitChildren`, but repeated parts go to `many` as a whole. -/
def visitSlots (one : Tree → StateM σ (Option β)) (many : List Tree → StateM σ (Option β)) (t : Tree) :
    StateM σ (Option β) :=
  firstSome (Slot.visit one many) t.slots

/-- Nodes before their children, without what lies below nodes that are not to be entered. -/
def preorder (enter : Tree → Bool) (t : Tree) : List Tree :=
  t :: if enter t then t.children.attach.flatMap fun ⟨c, _⟩ => preorder enter c else []
  termination_by sizeOf t
  decreasing_by exact sizeOf_lt_of_mem_children ‹_›

/-- Nodes behind their children, which is the order in which they were built, each with the number of its
parent. -/
def postorder (parent : Option Nat) (t : Tree) : List (Option Nat × Tree) :=
  (t.children.attach.flatMap fun ⟨c, _⟩ => postorder (some t.number) c) ++ [(parent, t)]
  termination_by sizeOf t
  decreasing_by exact sizeOf_lt_of_mem_children ‹_›

end Tree

end DotMend
