import DotMend.Action.Basic
import DotMend.Command.Wire
import DotMend.Text.Edit
import DotMend.Text.Position

namespace DotMend

namespace Position

def toJson (p : Position) : Json := .object [("line", .nat p.line), ("character", .nat p.character)]

end Position

namespace Region

def toJson (r : Region) : Json := .object [("start", r.start.toJson), ("end", r.stop.toJson)]

end Region

namespace Severity

def level : Severity → Nat
  | error => 1
  | warning => 2
  | message => 3
  | suggestion => 4

end Severity

namespace Editor

structure Diagnostic where
  region : Region
  severity : Severity
  code : String
  message : String
  deriving DecidableEq, Repr

structure TextEdit where
  region : Region
  newText : String
  deriving DecidableEq, Repr

namespace Diagnostic

def ofDiagnostic (t : Text) (d : DotMend.Diagnostic) : Diagnostic :=
  ⟨t.regionOf d.span, d.severity, d.code.text, d.message⟩

def toJson (d : Diagnostic) : Json :=
  .object [("range", d.region.toJson), ("severity", .nat d.severity.level), ("code", .string d.code),
    ("source", .string "dot"), ("message", .string d.message)]

end Diagnostic

namespace TextEdit

def ofEdit (t : Text) (e : Edit) : TextEdit := ⟨t.regionOf e.span, e.replacement⟩

def toJson (e : TextEdit) : Json := .object [("range", e.region.toJson), ("newText", .string e.newText)]

end TextEdit

end Editor

namespace Command

def toEditorJson (title : String) (c : Command) : Json :=
  .object [("title", .string title), ("command", .string c.id), ("arguments", .array [c.arguments])]

end Command

namespace Action

def toEditorJson (a : Action) : Json :=
  .object [("title", .string a.title), ("kind", .string a.kind.name), ("command", a.command.toEditorJson a.title),
    ("isPreferred", .bool a.preferred)]

end Action

end DotMend
