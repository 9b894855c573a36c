import DotMend.Command.Basic
import DotMend.Tree.Search

namespace DotMend

inductive ActionKind where
  | quickFix
  | rewrite
  deriving DecidableEq, Repr

structure Action where
  title : String
  kind : ActionKind
  preferred : Bool
  command : Command
  deriving DecidableEq, Repr

namespace ActionKind

def name : ActionKind → String
  | quickFix => "quickfix"
  | rewrite => "refactor.rewrite"

end ActionKind

/-- A request meets a target if it is a caret on it, or a selection of exactly it. -/
def Span.meets (target request : Span) : Bool :=
  if request.isEmpty then target.touches request.start else target = request

namespace Action

def changeOperator (operation : Span) (current wanted : EdgeOp) : Action :=
  ⟨OperatorChange.title current wanted, .quickFix, false, .changeOperator ⟨operation, current, wanted⟩⟩

def fixGraph? (graph : Tree) (wanted : GraphKind) : Option Action :=
  match graph with
  | .graph _ _ keyword _ _ => do
    let current ← graph.graphKind?
    let operations := (graph.edgeOperations.filter (·.edgeOp? ≠ some wanted.allowedOp)).map Tree.span
    pure ⟨GraphFix.title current wanted, .quickFix, false, .fixGraph ⟨keyword.span, current, wanted, operations⟩⟩
  | _ => none

def consolidate (source : String) (candidates : List Candidate) : Action :=
  ⟨Consolidation.title candidates.length source, .rewrite, false, .consolidate ⟨true, candidates⟩⟩

end Action

end DotMend
