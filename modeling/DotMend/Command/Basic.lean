import DotMend.Kind
import DotMend.Text.Span

namespace DotMend

structure OperatorChange where
  operation : Span
  current : EdgeOp
  wanted : EdgeOp
  deriving DecidableEq, Repr

structure GraphFix where
  keyword : Span
  current : GraphKind
  wanted : GraphKind
  operations : List Span
  deriving DecidableEq, Repr

structure Candidate where
  statement : Span
  source : Span
  target : Span
  deriving DecidableEq, Repr

structure Consolidation where
  literal : Bool
  candidates : List Candidate
  deriving DecidableEq, Repr

inductive Command where
  | changeOperator (c : OperatorChange)
  | fixGraph (f : GraphFix)
  | consolidate (c : Consolidation)
  deriving DecidableEq, Repr

namespace OperatorChange

def id : String := "DOT.changeEdgeOp"

def title (current wanted : EdgeOp) : String := s!"Change \"{current.text}\" to \"{wanted.text}\""

end OperatorChange

namespace GraphFix

def id : String := "DOT.changeAllOtherEdgeOpsAndFixGraph"

def title (current wanted : GraphKind) : String :=
  if current = wanted then s!"Change all other edge operations to \"{wanted.allowedOp.text}\""
  else s!"Convert to \"{wanted.keyword}\""

end GraphFix

namespace Consolidation

def id : String := "DOT.consolidateDescendants"

def title (count : Nat) (source : String) : String := s!"Consolidate {count} edges from \"{source}\""

end Consolidation

namespace Command

def id : Command → String
  | changeOperator _ => OperatorChange.id
  | fixGraph _ => GraphFix.id
  | consolidate _ => Consolidation.id

def ids : List String := [OperatorChange.id, GraphFix.id, Consolidation.id]

def isKnown (id : String) : Bool := ids.contains id

end Command

end DotMend
