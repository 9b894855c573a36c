import DotMend.Action.Basic
import DotMend.Source

namespace DotMend.Action

def operatorFixes (graph : Tree) (place : Span) : List Action :=
  match graph.graphKind?, (graph.edgeOperations.find? (·.span = place)).bind Tree.edgeOp? with
  | some current, some offending =>
    { changeOperator place offending current.allowedOp with preferred := true } ::
      (fixGraph? graph current).toList ++ (fixGraph? graph offending.graphKind).toList
  | _, _ => []

def fixesFor (source : Source) (d : Diagnostic) : List Action :=
  match d.code, source.graph with
  | .invalidEdgeOperation, some graph => operatorFixes graph d.span
  | _, _ => []

def quickFixes (source : Source) (request : Span) : List Action :=
  (source.diagnostics.filter (·.span.meets request)).flatMap (fixesFor source)

def convertGraph? (source : Source) (request : Span) : Option Action :=
  match source.graph with
  | some graph =>
    match graph with
    | .graph _ _ keyword _ _ => do
      if keyword.span.meets request && !graph.containsErrors then
        let kind ← graph.graphKind?
        let action ← fixGraph? graph kind.opposite
        pure { action with kind := .rewrite }
      else none
    | _ => none
  | none => none

/-- The name from which a faultless edge starts that has one target, no attributes and no port at its source. -/
def plainSource? (statement : Tree) : Option Tree :=
  match statement with
  | .edgeStatement _ (.nodeId _ name none) [_] [] _ => if statement.containsErrors then none else some name
  | _ => none

def candidate? (statement name : Tree) : Option Candidate :=
  match statement with
  | .edgeStatement _ _ (.edgeRhs _ _ (some target) :: _) _ _ => some ⟨statement.span, name.span, target.span⟩
  | _ => none

/-- Statements behind which nothing may be moved. -/
def bars (statement : Tree) : Bool := statement.kind = .attrStatement || statement.containsErrors

def matching? (document text : Text) (statement : Tree) : Option Candidate := do
  let name ← plainSource? statement
  if document.slice? name.span = some text then candidate? statement name else none

def followers (document text : Text) (seed : Tree) (body : List Tree) : List Candidate :=
  let later := (body.dropWhile (·.number ≠ seed.number)).drop 1
  (later.takeWhile (!bars ·)).filterMap (matching? document text)

def seedAt? (source : Source) (offset : Nat) : Option (Tree × Tree) := do
  let graph ← source.graph
  let node ← graph.atOffset? offset
  let path := source.parse.path node
  match if node.kind.isIdentifier then path.drop 1 else path with
  | _ :: seed :: holder :: _ => if seed.kind = .edgeStatement then some (seed, holder) else none
  | _ => none

def consolidate? (document : Text) (source : Source) (request : Span) : Option Action := do
  if request.isEmpty then
    let (seed, holder) ← seedAt? source request.start
    let name ← plainSource? seed
    let text ← document.slice? name.span
    let body ← holder.statements?
    let first ← candidate? seed name
    let others := followers document text seed body
    if others.isEmpty then none else some (consolidate (String.ofList text) (first :: others))
  else none

def refactorings (document : Text) (source : Source) (request : Span) : List Action :=
  (convertGraph? source request).toList ++ (consolidate? document source request).toList

def offers (document : Text) (source : Source) (request : Span) : List Action :=
  quickFixes source request ++ refactorings document source request

end DotMend.Action
