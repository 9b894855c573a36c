import DotMend.Diagnostic
import DotMend.Tree.Search

namespace DotMend

namespace GraphKind

def flavour : GraphKind → String
  | graph => "undirected"
  | digraph => "directed"

def invalidOperationMessage (k : GraphKind) : String :=
  s!"Invalid edge operation, use \"{k.allowedOp.text}\" in {k.flavour} graphs"

end GraphKind

namespace Tree

def invalidOperations (kind : GraphKind) (t : Tree) : List Tree :=
  t.edgeOperations.filter (·.edgeOp? ≠ some kind.allowedOp)

def check (t : Tree) : List Diagnostic :=
  match t.graphKind? with
  | none => []
  | some kind =>
    (t.invalidOperations kind).map fun op => .error op.span .invalidEdgeOperation kind.invalidOperationMessage

end Tree

end DotMend
