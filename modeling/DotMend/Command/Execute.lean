import DotMend.Command.Wire
import DotMend.Source
import DotMend.Text.Edit

/-!
Carrying out commands. A command is checked against the text it is applied to, since that may have changed after
the command was made; what passes the check becomes a batch of edits.
-/

namespace DotMend

inductive Stale where
  | outside (span : Span)
  | found (expected : String) (span : Span) (text : String)
  | keywordMoved
  | noCandidates
  | nothingToJoin
  | noGraph
  | noEdge (c : Candidate)
  | sourceChanged (text : String) (span : Span) (seed : String)
  | targetOutside (span : Span)
  deriving DecidableEq, Repr

inductive ExecuteError where
  | unknownCommand (id : String)
  | invalidArguments (id : String) (m : Json.Mismatch)
  | stale (s : Stale)
  deriving Repr

namespace Stale

def message : Stale → String
  | outside span => s!"range {span.render} is outside the document"
  | found expected span text => s!"expected \"{expected}\" at {span.render}, found \"{text}\""
  | keywordMoved => "graph keyword moved"
  | noCandidates => "no consolidation candidates"
  | nothingToJoin => "nothing to consolidate with"
  | noGraph => "document has no graph"
  | noEdge c => s!"no edge statement at {c.statement.render} from {c.source.render} to {c.target.render}"
  | sourceChanged text span seed => s!"source \"{text}\" at {span.render} no longer matches \"{seed}\""
  | targetOutside span => s!"target {span.render} is outside the document"

end Stale

namespace ExecuteError

def message : ExecuteError → String
  | unknownCommand id => s!"Unknown command: {id}"
  | invalidArguments id m => s!"Invalid arguments for {id}: {m.message}"
  | stale s => s!"Document changed since the command was created: {s.message}"

end ExecuteError

def verifyOperator (document : Text) (span : Span) (expected : EdgeOp) : Except Stale Unit :=
  match document.slice? span with
  | none => .error (.outside span)
  | some text =>
    if EdgeOp.ofText? text = some expected then .ok ()
    else .error (.found expected.text span (String.ofList text))

namespace OperatorChange

def edits (document : Text) (c : OperatorChange) : Except Stale (List Edit) := do
  verifyOperator document c.operation c.current
  pure [⟨c.operation, c.wanted.text, title c.current c.wanted⟩]

end OperatorChange

namespace GraphFix

def verifyKeyword (document : Text) (source : Source) (f : GraphFix) : Except Stale Text :=
  match document.slice? f.keyword with
  | none => .error (.outside f.keyword)
  | some text =>
    if GraphKind.ofText? text = some f.current then
      match source.graph with
      | some (.graph _ _ keyword _ _) => if keyword.span = f.keyword then .ok text else .error .keywordMoved
      | _ => .error .keywordMoved
    else .error (.found f.current.keyword f.keyword (String.ofList text))

def operatorEdit (document : Text) (allowed : EdgeOp) (span : Span) : Except Stale Edit := do
  verifyOperator document span allowed.opposite
  pure ⟨span, allowed.text, OperatorChange.title allowed.opposite allowed⟩

def keywordEdit (f : GraphFix) (spelling : Text) : Edit :=
  ⟨f.keyword, if f.current = f.wanted then String.ofList spelling else f.wanted.keyword,
    s!"Set graph keyword to \"{f.wanted.keyword}\""⟩

def edits (document : Text) (source : Source) (f : GraphFix) : Except Stale (List Edit) := do
  let spelling ← verifyKeyword document source f
  let operators ← f.operations.mapM (operatorEdit document f.wanted.allowedOp)
  pure (operators ++ [keywordEdit f spelling])

end GraphFix

namespace Candidate

def isIn (graph : Tree) (c : Candidate) : Bool :=
  match graph.find? .edgeStatement c.statement with
  | some (.edgeStatement _ (.nodeId _ name none) [.edgeRhs _ _ (some target)] _ _) =>
    name.span = c.source && target.span = c.target
  | _ => false

def verify (document : Text) (source : Source) (c : Candidate) : Except Stale Text :=
  match source.graph with
  | none => .error .noGraph
  | some graph =>
    if c.isIn graph then (document.slice? c.source).elim (.error (.noEdge c)) .ok else .error (.noEdge c)

end Candidate

namespace Consolidation

def isBlank (b : UInt8) : Bool := b = 0x20 || b = 0x09

def lineBreak? : List UInt8 → Option Nat
  | 0x0d :: 0x0a :: _ => some 2
  | 0x0a :: _ => some 1
  | _ => none

/-- What goes with a removed statement: the blanks behind it, or the whole line if nothing else is on it. -/
def removal (bytes : List UInt8) (statement : Span) : Span :=
  let before := (bytes.take statement.start).reverse
  let behind := bytes.drop statement.stop
  let lead := (before.takeWhile isBlank).length
  let trail := (behind.takeWhile isBlank).length
  let startsLine := (before.drop lead).head?.all (· = 0x0a)
  match startsLine, lineBreak? (behind.drop trail) with
  | true, some n => ⟨statement.start - lead, statement.stop + trail + n⟩
  | _, _ => ⟨statement.start, statement.stop + trail⟩

def target (document : Text) (source : Source) (seed : Option Text) (c : Candidate) :
    Except Stale (Text × Text) := do
  let text ← c.verify document source
  match seed with
  | some s =>
    if text ≠ s then throw (.sourceChanged (String.ofList text) c.source (String.ofList s))
  | none => pure ()
  match document.slice? c.target with
  | none => throw (.targetOutside c.target)
  | some target => pure (text, target)

def targets (document : Text) (source : Source) (c : Consolidation) (seed : Candidate) (rest : List Candidate) :
    Except Stale (List Text) := do
  let (text, first) ← target document source none seed
  let others ← rest.mapM (target document source (if c.literal then some text else none))
  pure (first :: others.map Prod.snd)

def group (targets : List Text) : String :=
  String.ofList (['\x7b', ' '] ++ List.intercalate [' '] targets ++ [' ', '\x7d'])

def edits (document : Text) (source : Source) (c : Consolidation) : Except Stale (List Edit) :=
  match c.candidates with
  | [] => .error .noCandidates
  | [_] => .error .nothingToJoin
  | seed :: rest => do
    let targets ← targets document source c seed rest
    let bytes := document.utf8
    pure (⟨seed.target, group targets, "Group edge targets"⟩ ::
      rest.map fun r => .delete (removal bytes r.statement) "Remove consolidated edge statement")

end Consolidation

namespace Command

def edits (document : Text) (source : Source) : Command → Except Stale (List Edit)
  | changeOperator c => c.edits document
  | fixGraph f => f.edits document source
  | consolidate c => c.edits document source

def decode (id : String) (arguments : Json) : Except ExecuteError Command :=
  match payloads.find? (·.1 == id) with
  | none => .error (.unknownCommand id)
  | some (_, payload) => (payload .direct arguments).mapError (.invalidArguments id)

def execute (id : String) (document : Text) (source : Source) (arguments : Json) :
    Except ExecuteError (List Edit) := do
  let command ← decode id arguments
  (command.edits document source).mapError .stale

/-- A command as an editor sends it back: only the first of its arguments counts. -/
def executeList (id : String) (document : Text) (source : Source) (arguments : List Json) :
    Except ExecuteError (List Edit) :=
  execute id document source (arguments.head?.getD .null)

end Command

end DotMend
