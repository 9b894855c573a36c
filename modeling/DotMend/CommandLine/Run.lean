import DotMend.CommandLine.Arguments
import DotMend.Config
import DotMend.Files.Basic
import DotMend.Json.Read
import DotMend.Report.Print

/-!
The tasks of the command line, on any file system. A task writes to a console and ends with an exit code, or else
with a failure that is written last.
-/

namespace DotMend

inductive ConfigError where
  | unreadable (path : String) (e : FileError)
  | malformed (path : String)
  deriving DecidableEq, Repr

namespace ConfigError

def message : ConfigError → String
  | unreadable path e => s!"Failed to read {path}: {e.message}"
  | malformed path => s!"Failed to parse {path}"

end ConfigError

namespace MendError

def account : MendError → String
  | execute (.invalidArguments id m) => (ExecuteError.invalidArguments id m).message ++ ": " ++ m.message
  | e => e.message

end MendError

namespace CommandLine

inductive Failure where
  | config (e : ConfigError)
  | format (name : String)
  | read (path : String) (e : FileError)
  | write (path : String) (e : FileError)
  | range (start stop : Nat) (path : String) (size : Nat)
  | noSelection
  | malformedArguments
  | execute (command path : String) (e : MendError)
  deriving Repr

structure Outcome where
  exit : Nat
  console : Console
  deriving DecidableEq, Repr

namespace Failure

def text : Failure → String
  | config (.malformed path) => (ConfigError.malformed path).message ++ ": "
  | config e => e.message ++ "\n"
  | format name => s!"Invalid output format '{name}'. Valid options: text, json, diff\n"
  | read path e => s!"Failed to read file: {path}: {e.message}\n"
  | write path e => s!"Failed to write file: {path}: {e.message}\n"
  | range start stop path size => s!"Invalid range {start}..{stop} for {path} ({size} bytes)\n"
  | noSelection => "Either --offset or --line and --character is required\n"
  | malformedArguments => "Failed to parse --arguments as JSON: "
  | execute command path e => s!"Failed to execute {command} on {path}: {e.account}\n"

end Failure

variable {m : Type → Type} [Monad m]

abbrev Job (m : Type → Type) := ExceptT Failure (StateT Console m)

def print (c : Console) : Job m Unit := modify (· ++ c)

def perform (x : m α) : Job m α := ExceptT.lift (StateT.lift x)

def orFail (failure : ε → Failure) (x : m (Except ε α)) : Job m α := do
  match ← perform x with
  | .ok a => pure a
  | .error e => throw (failure e)

def readFile (fs : FileSystem m) (path : String) : Job m Text := orFail (.read path) (fs.read path)

def readConfig (fs : FileSystem m) (path : String) : Job m Config := do
  let t ← orFail (.config ∘ .unreadable path) (fs.read path)
  match Config.ofText? t with
  | some c => pure c
  | none => throw (.config (.malformed path))

def findConfig? (fs : FileSystem m) : Job m (Option String) := do
  let dir ← perform fs.currentDir
  perform (fs.firstExisting? ((Path.ancestors dir).map (Path.join · Config.fileName)))

def loadConfig (fs : FileSystem m) (coloured : Bool) (s : Shared) : Job m Config :=
  if s.noConfig then pure {}
  else do
    let path? ← match s.config with
      | some path => pure (some path)
      | none => findConfig? fs
    match path? with
    | none => pure {}
    | some path => do
      let c ← readConfig fs path
      if s.verbose then print (.errLines [Style.bold.paint coloured "Using config" ++ ": " ++ path])
      pure c

def searchDepth : Nat := 4096

def expand (fs : FileSystem m) (c : Config) (path : String) : m (Option (List String)) := do
  match ← fs.kind? path with
  | some .file => pure (some [path])
  | some .directory => do
    let found ← fs.filesBelow searchDepth path
    pure (some (found.filter fun p => c.hasExtension p && !c.excludes p))
  | _ => pure none

def collect (fs : FileSystem m) (c : Config) (p : Printing) (paths : List String) : Job m (List String) := do
  let found ← perform (paths.mapM fun path => do pure (path, ← expand fs c path))
  let missing := found.filterMap fun (path, files) => if files.isNone then some path else none
  if p.format = .text then
    print (.errLines (missing.map fun path => warning p.coloured ("Path does not exist: " ++ path)))
  pure (Path.arrange (found.flatMap fun (_, files) => files.getD []))

def checkFile (fs : FileSystem m) (path : String) : m FileReport := do
  match ← fs.read path with
  | .ok t => pure ⟨path, .checked (problems t)⟩
  | .error e => pure ⟨path, .failed s!"Failed to read file: {path}: {e.message}"⟩

def mendFile (fs : FileSystem m) (path : String) : m FileReport := do
  match ← fs.read path with
  | .error e => pure ⟨path, .failed s!"Failed to read file: {path}: {e.message}"⟩
  | .ok t =>
    match mend t with
    | .error e => pure ⟨path, .failed s!"Failed to fix {path}: {e.account}"⟩
    | .ok none => pure ⟨path, .mended [] t t⟩
    | .ok (some r) => pure ⟨path, .mended r.edits t r.text⟩

def check (fs : FileSystem m) (c : Config) (p : Printing) (paths : List String) : Job m Nat := do
  let files ← collect fs c p paths
  let reports ← perform (files.mapM (checkFile fs))
  reports.forM fun r => print (p.file false r)
  print (p.finish false reports)
  let s := Summary.ofResults (reports.map FileReport.result)
  pure (if 0 < s.failures ∨ 0 < s.errors then 1 else 0)

def writeBack (fs : FileSystem m) (r : FileReport) : Job m Unit :=
  match r.result with
  | .mended _ old new => if old = new then pure () else orFail (.write r.path) (fs.write r.path new)
  | _ => pure ()

def fix (fs : FileSystem m) (c : Config) (p : Printing) (paths : List String) (dryRun : Bool) : Job m Nat := do
  let files ← collect fs c p paths
  let reports ← perform (files.mapM (mendFile fs))
  reports.forM fun r => do
    if !dryRun then writeBack fs r
    print (p.file (!dryRun) r)
  print (p.finish dryRun reports)
  let s := Summary.ofResults (reports.map FileReport.result)
  pure (if 0 < s.failures then 1 else if dryRun ∧ 0 < s.changedFiles then 2 else 0)

def spanOf (path : String) (t : Text) : Option Selection → Except Failure Span
  | some (.offsets start stop) =>
    let stop := stop.getD start
    if stop < start ∨ t.bytes < stop then .error (.range start stop path t.bytes) else .ok ⟨start, stop⟩
  | some (.position p) => .ok (.caret (t.offsetAt p))
  | none => .error .noSelection

def actions (fs : FileSystem m) (c : Config) (path : String) (selection : Option Selection) : Job m Nat := do
  let t ← readFile fs path
  let span ← liftExcept (spanOf path t selection)
  let offers := c.offers t span
  let answer := if offers.isEmpty then Json.null else .array (offers.map Action.toEditorJson)
  print (.outLines [answer.pretty])
  pure 0
where
  liftExcept (x : Except Failure Span) : Job m Span :=
    match x with
    | .ok s => pure s
    | .error e => throw e

def exec (fs : FileSystem m) (p : Printing) (path command arguments : String) (write : Bool) : Job m Nat := do
  let some payload := Json.read? arguments.toList | throw .malformedArguments
  let t ← readFile fs path
  match runCommand t command payload with
  | .error e => throw (.execute command path e)
  | .ok edited =>
    if write then do
      orFail (.write path) (fs.write path edited)
      if p.format = .text then print (.outLines [Style.green.paint p.coloured "OK" ++ " " ++ path])
    else print { out := String.ofList edited }
    pure 0

def commands (p : Printing) : Console :=
  if p.format = .json then .outLines [(Json.strings Command.ids).pretty]
  else
    .outLines (Style.bold.paint p.coloured "Available commands:" ::
      Command.ids.map fun id => "  " ++ Style.green.paint p.coloured id)

def task (fs : FileSystem m) (coloured : Bool) (s : Shared) (t : Task) : Job m Nat := do
  let c ← loadConfig fs coloured s
  let name := (s.format.or c.format).getD Format.text.name
  let some format := Format.ofName? name | throw (.format name)
  let p : Printing := ⟨format, s.verbose, coloured⟩
  print (.errLines (c.unknownDisabled.map fun id =>
    warning coloured s!"Unknown command '{id}' in [actions] disabled"))
  match t with
  | .check paths => check fs c p paths
  | .fix paths dryRun => fix fs c p paths dryRun
  | .actions path selection => actions fs c path selection
  | .exec path command arguments write => exec fs p path command arguments write
  | .commands => do
    print (commands p)
    pure 0

def finish (coloured : Bool) (result : Except Failure Nat × Console) : Outcome :=
  match result with
  | (.ok exit, console) => ⟨exit, console⟩
  | (.error f, console) => ⟨1, console ++ { err := Style.red.paint coloured "Error" ++ ": " ++ f.text }⟩

def helpText : String :=
  Console.lines ["Usage: dotfix [OPTIONS] <COMMAND>", "", "Commands:", "  check <PATHS>...",
    "  fix <PATHS>... [--dry-run]",
    "  actions <FILE> [--offset <N> [--end <N>] | --line <N> --character <N>]",
    "  exec <FILE> --command <ID> [--arguments <JSON>] [--write]", "  commands", "", "Options:", "  -v, --verbose",
    "  --format <FORMAT>", "  --config <PATH>", "  --no-config"]

def run (fs : FileSystem m) (coloured : Bool) (args : List String) : m (Option Outcome) :=
  match read? args with
  | none => pure none
  | some .version => pure (some ⟨0, .outLines ["dotfix " ++ Printing.version]⟩)
  | some .help => pure (some ⟨0, { out := helpText }⟩)
  | some (.run s t) => do pure (some (finish coloured (← ((task fs coloured s t).run.run {}))))

end CommandLine

end DotMend
