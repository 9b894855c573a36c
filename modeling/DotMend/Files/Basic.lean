import DotMend.Path
import DotMend.Text.Slice

namespace DotMend

inductive FileError where
  | notFound
  | notDirectory
  | isDirectory
  | nameTooLong
  | notText
  | other (message : String)
  deriving DecidableEq, Repr

inductive FileKind where
  | file
  | directory
  | other
  deriving DecidableEq, Repr

structure FileSystem (m : Type → Type) where
  currentDir : m String
  kind? : String → m (Option FileKind)
  entries : String → m (List (String × FileKind))
  read : String → m (Except FileError Text)
  write : String → Text → m (Except FileError Unit)

namespace FileError

def message : FileError → String
  | notFound => "No such file or directory (os error 2)"
  | notDirectory => "Not a directory (os error 20)"
  | isDirectory => "Is a directory (os error 21)"
  | nameTooLong => "File name too long (os error 36)"
  | notText => "stream did not contain valid UTF-8"
  | other m => m

end FileError

namespace FileSystem

variable {m : Type → Type} [Monad m]

def filesBelow (fs : FileSystem m) : Nat → String → m (List String)
  | 0, _ => pure []
  | depth + 1, dir => do
    let found ← (← fs.entries dir).mapM fun (name, kind) =>
      match kind with
      | .file => pure [Path.join dir name]
      | .directory => fs.filesBelow depth (Path.join dir name)
      | .other => pure []
    pure found.flatten

def firstExisting? (fs : FileSystem m) : List String → m (Option String)
  | [] => pure none
  | path :: rest => do
    match ← fs.kind? path with
    | some _ => pure (some path)
    | none => fs.firstExisting? rest

end FileSystem

end DotMend
