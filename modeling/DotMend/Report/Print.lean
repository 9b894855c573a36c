import DotMend.Diff.Longest
import DotMend.Diff.Patch
import DotMend.Report.Format
import DotMend.Report.Style
import DotMend.Report.Summary

namespace DotMend

structure Console where
  out : String := ""
  err : String := ""
  deriving DecidableEq, Repr

structure Printing where
  format : Format
  verbose : Bool
  coloured : Bool
  deriving DecidableEq, Repr

namespace Console

def append (a b : Console) : Console := ⟨a.out ++ b.out, a.err ++ b.err⟩

instance : Append Console := ⟨append⟩

def lines (ls : List String) : String := String.join (ls.map (· ++ "\n"))

def outLines (ls : List String) : Console := { out := lines ls }

def errLines (ls : List String) : Console := { err := lines ls }

end Console

namespace Severity

def label (coloured : Bool) : Severity → String
  | error => Style.boldRed.paint coloured "error"
  | warning => Style.boldYellow.paint coloured "warning"
  | message => Style.blue.paint coloured "info"
  | suggestion => Style.dim.paint coloured "hint"

end Severity

namespace Editor.Diagnostic

def line (coloured : Bool) (d : Diagnostic) : String :=
  let place := s!"  {d.region.start.line + 1}:{d.region.start.character + 1}"
  "  ".intercalate [place, d.severity.label coloured, Style.dim.paint coloured d.code, d.message]

end Editor.Diagnostic

def warning (coloured : Bool) (message : String) : String :=
  Style.yellow.paint coloured "Warning" ++ ": " ++ message

namespace Diff.Change

def line? (coloured : Bool) : Change Text → Option String
  | keep _ => none
  | remove l => some ("  " ++ Style.red.paint coloured ("- " ++ String.ofList l))
  | add l => some ("  " ++ Style.green.paint coloured ("+ " ++ String.ofList l))

end Diff.Change

namespace Printing

def remark (p : Printing) (path remark : String) : Console :=
  if p.verbose ∧ p.format = .text then .outLines [path ++ ": " ++ remark] else {}

def problems (p : Printing) (path : String) (ds : List Editor.Diagnostic) : Console :=
  if ds.isEmpty then p.remark path "No problems found"
  else if p.format = .json then {}
  else .outLines ([Style.bold.paint p.coloured path] ++ ds.map (Editor.Diagnostic.line p.coloured) ++ [""])

def changes (p : Printing) (applied : Bool) (path : String) (edits : List EditReport) (old new : Text) : Console :=
  if edits.isEmpty then p.remark path "No changes needed"
  else
    match p.format with
    | .json => {}
    | .diff => { out := String.ofList (Diff.patch path old new) }
    | .text =>
      let title := Style.bold.paint p.coloured path
      if applied then
        .outLines [title, "  " ++ Style.green.paint p.coloured "OK" ++ s!" Applied {edits.length} change(s)", ""]
      else
        .outLines ([title] ++ (Diff.lineChanges old new).filterMap (Diff.Change.line? p.coloured) ++ [""] ++
          edits.map (fun e => "  " ++ Style.green.paint p.coloured "->" ++ " " ++ e.message) ++ [""])

def failure (p : Printing) (path message : String) : Console :=
  if p.format = .text then .errLines [warning p.coloured (path ++ " - " ++ message)] else {}

def file (p : Printing) (applied : Bool) (f : FileReport) : Console :=
  match f.result with
  | .checked ds => p.problems f.path ds
  | .mended edits old new => p.changes applied f.path edits old new
  | .failed message => p.failure f.path message

def summaryLines (coloured : Bool) (s : Summary) : List String :=
  [Style.title.paint coloured "Summary", s!"  Files processed: {s.files}"] ++
    (if 0 < s.problems then [s!"  Files with problems: {s.faultyFiles}", s!"  Total problems: {s.problems}"]
      else []) ++
    (if 0 < s.edits then [s!"  Files with changes: {s.changedFiles}", s!"  Total edits: {s.edits}"] else []) ++
    if 0 < s.failures then [s!"  Errors: {s.failures}"] else []

def version : String := "0.1.0"

def finish (p : Printing) (pending : Bool) (files : List FileReport) : Console :=
  let s := Summary.ofResults (files.map FileReport.result)
  match p.format with
  | .text =>
    let hint := Style.yellow.paint p.coloured "Run without --dry-run to apply changes"
    .outLines (summaryLines p.coloured s ++ if pending ∧ 0 < s.edits then ["", hint] else [])
  | .json =>
    .outLines [(Json.object [("version", .string version), ("summary", s.toJson),
      ("files", .array (files.map FileReport.toJson))]).pretty]
  | .diff => {}

end Printing

end DotMend
