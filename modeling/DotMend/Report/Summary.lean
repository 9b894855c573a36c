import DotMend.Mend

namespace DotMend

inductive FileResult where
  | checked (problems : List Editor.Diagnostic)
  | mended (edits : List EditReport) (old new : Text)
  | failed (message : String)
  deriving Repr

structure FileReport where
  path : String
  result : FileResult
  deriving Repr

structure Summary where
  files : Nat := 0
  faultyFiles : Nat := 0
  problems : Nat := 0
  errors : Nat := 0
  changedFiles : Nat := 0
  edits : Nat := 0
  failures : Nat := 0
  deriving DecidableEq, Repr

namespace FileResult

def problems : FileResult → List Editor.Diagnostic
  | checked ps => ps
  | _ => []

def edits : FileResult → List EditReport
  | mended es _ _ => es
  | _ => []

def failure? : FileResult → Option String
  | failed m => some m
  | _ => none

def hasChanges (r : FileResult) : Bool := !r.edits.isEmpty

def hasFailed (r : FileResult) : Bool := r.failure?.isSome

end FileResult

namespace EditReport

def toJson (e : EditReport) : Json :=
  .object [("command", .string e.command), ("line", .nat e.line), ("column", .nat e.column),
    ("message", .string e.message)]

end EditReport

namespace FileReport

def toJson (f : FileReport) : Json :=
  let list (key : String) (items : List Json) : List (String × Json) :=
    if items.isEmpty then [] else [(key, .array items)]
  .object ([("path", .string f.path)] ++ list "diagnostics" (f.result.problems.map Editor.Diagnostic.toJson) ++
    list "edits" (f.result.edits.map EditReport.toJson) ++
    (f.result.failure?.map fun m => ("error", Json.string m)).toList)

end FileReport

namespace Summary

def count (n : Nat) : Nat := if n = 0 then 0 else 1

def add (s : Summary) (r : FileResult) : Summary where
  files := s.files + 1
  faultyFiles := s.faultyFiles + count r.problems.length
  problems := s.problems + r.problems.length
  errors := s.errors + (r.problems.filter (·.severity = .error)).length
  changedFiles := s.changedFiles + count r.edits.length
  edits := s.edits + r.edits.length
  failures := s.failures + count r.failure?.toList.length

def ofResults (rs : List FileResult) : Summary := rs.foldl add {}

def toJson (s : Summary) : Json :=
  .object [("files_processed", .nat s.files), ("files_with_diagnostics", .nat s.faultyFiles),
    ("total_diagnostics", .nat s.problems), ("error_diagnostics", .nat s.errors),
    ("files_with_changes", .nat s.changedFiles), ("total_edits", .nat s.edits), ("errors", .nat s.failures)]

end Summary

end DotMend
