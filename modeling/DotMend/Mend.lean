import DotMend.Action.Offer
import DotMend.Command.Execute
import DotMend.Editor.Shape

namespace DotMend

inductive MendError where
  | execute (e : ExecuteError)
  | edit (e : EditError)
  deriving Repr

namespace MendError

def message : MendError → String
  | execute e => e.message
  | edit e => e.message

end MendError

structure EditReport where
  command : String
  line : Nat
  column : Nat
  message : String
  deriving DecidableEq, Repr

structure Mended where
  edits : List EditReport
  text : Text
  deriving Repr

namespace EditReport

def ofEdit (document : Text) (command : String) (e : Edit) : EditReport :=
  let p := document.positionAt e.span.start
  ⟨command, p.line + 1, p.character + 1, e.message⟩

/-- Edits that leave the text as it is are not reported. -/
def ofEdits (document : Text) (command : String) (edits : List Edit) : List EditReport :=
  (edits.filter fun e => document.sliceString? e.span ≠ some e.replacement).map (ofEdit document command)

end EditReport

def problems (t : Text) : List Editor.Diagnostic :=
  (Source.ofText t).diagnostics.map (Editor.Diagnostic.ofDiagnostic t)

def Command.keepsKind : Command → Bool
  | fixGraph f => f.current = f.wanted
  | _ => false

def mendCommand? (source : Source) : Option Command := do
  let d ← source.diagnostics.find? (·.code = .invalidEdgeOperation)
  ((Action.quickFixes source d.span).map Action.command).find? Command.keepsKind

def Command.apply (document : Text) (source : Source) (c : Command) : Except MendError (List Edit × Text) := do
  let edits ← (c.edits document source).mapError (.execute ∘ .stale)
  let text ← (Edit.applyAll document edits).mapError .edit
  pure (edits, text)

def mend (t : Text) : Except MendError (Option Mended) :=
  let source := Source.ofText t
  match mendCommand? source with
  | none => .ok none
  | some command => do
    let (edits, text) ← command.apply t source
    pure (some ⟨EditReport.ofEdits t command.id edits, text⟩)

/-- Carries out a command by name. The arguments are its payload, or a list whose first item is the payload. -/
def runCommand (t : Text) (id : String) (arguments : Json) : Except MendError Text := do
  let items :=
    match arguments with
    | .array items => items
    | payload => [payload]
  let edits ← (Command.executeList id t (Source.ofText t) items).mapError .execute
  (Edit.applyAll t edits).mapError .edit

end DotMend
