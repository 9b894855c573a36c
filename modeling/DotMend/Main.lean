import DotMend.CommandLine.Run

namespace DotMend

def wantsColour (force never enabled : Option String) (terminal : Bool) : Bool :=
  if force.any (· ≠ "0") then true
  else if never.isSome then false
  else (enabled.getD "1" ≠ "0") && terminal

def errorNumber (code : UInt32) : Nat := min code.toNat (-code).toNat

def FileError.ofError : IO.Error → FileError
  | .noFileOrDirectory .. => .notFound
  | .inappropriateType _ code _ => if errorNumber code = 20 then .notDirectory else .isDirectory
  | .invalidArgument name code details =>
    if errorNumber code = 36 then .nameTooLong else .other (toString (IO.Error.invalidArgument name code details))
  | e => .other (toString e)

def FileKind.ofType : IO.FS.FileType → FileKind
  | .dir => .directory
  | .file => .file
  | .symlink | .other => .other

def catching (action : IO α) : IO (Except FileError α) := do
  match ← action.toBaseIO with
  | .ok a => pure (.ok a)
  | .error e => pure (.error (FileError.ofError e))

def kindOf (path : String) : IO FileKind := do
  pure (.ofType (← (← IO.FS.realPath path).metadata).type)

def entriesOf (path : String) : IO (List (String × FileKind)) := do
  let found ← (← IO.FS.realPath path).readDir
  found.toList.mapM fun e => do pure (e.fileName, .ofType (← e.path.symlinkMetadata).type)

def machineFiles : FileSystem IO where
  currentDir := do pure (toString (← IO.currentDir))
  kind? path := do pure (← catching (kindOf path)).toOption
  entries path := do pure ((← catching (entriesOf path)).toOption.getD [])
  read path := do
    if (← catching (kindOf path)).toOption = some .directory then return .error .isDirectory
    match ← catching (IO.FS.readBinFile path) with
    | .error e => pure (.error e)
    | .ok bytes => pure ((String.fromUTF8? bytes).elim (.error .notText) fun t => .ok t.toList)
  write path t := catching (IO.FS.writeFile path (String.ofList t))

end DotMend

open DotMend in
def main (args : List String) : IO UInt32 := do
  let terminal ← (← IO.getStdout).isTty
  let coloured :=
    wantsColour (← IO.getEnv "CLICOLOR_FORCE") (← IO.getEnv "NO_COLOR") (← IO.getEnv "CLICOLOR") terminal
  match ← CommandLine.run machineFiles coloured args with
  | some outcome => do
    IO.print outcome.console.out
    IO.eprint outcome.console.err
    pure outcome.exit.toUInt32
  | none => do
    IO.eprint CommandLine.helpText
    pure 2
