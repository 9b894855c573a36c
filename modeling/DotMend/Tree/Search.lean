import DotMend.Tree.Walk

namespace DotMend.Tree

def deepest (offset : Nat) (t : Tree) : Tree :=
  match _h : t.children.find? (·.span.touches offset) with
  | none => t
  | some c => deepest offset c
  termination_by sizeOf t
  decreasing_by exact sizeOf_lt_of_mem_children (List.mem_of_find?_eq_some _h)

def atOffset? (t : Tree) (offset : Nat) : Option Tree :=
  if t.span.touches offset then some (deepest offset t) else none

def containsErrors (t : Tree) : Bool := t.flagged || t.children.attach.any fun ⟨c, _⟩ => containsErrors c
  termination_by sizeOf t
  decreasing_by exact sizeOf_lt_of_mem_children ‹_›

def find? (kind : Kind) (span : Span) (t : Tree) : Option Tree :=
  if t.kind = kind ∧ t.span = span then some t
  else if t.span.encloses span then t.children.attach.findSome? fun ⟨c, _⟩ => find? kind span c
  else none
  termination_by sizeOf t
  decreasing_by exact sizeOf_lt_of_mem_children ‹_›

def pathTo? (number : Nat) (t : Tree) : Option (List Tree) :=
  if t.number = number then some [t]
  else (t.children.attach.findSome? fun ⟨c, _⟩ => pathTo? number c).map (· ++ [t])
  termination_by sizeOf t
  decreasing_by exact sizeOf_lt_of_mem_children ‹_›

def operation? : Tree → Option Tree
  | edgeRhs _ operation _ => some operation
  | _ => none

def edgeOperations (t : Tree) : List Tree := (t.preorder fun _ => true).filterMap operation?

end DotMend.Tree
