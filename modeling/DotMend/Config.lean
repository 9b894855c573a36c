import DotMend.Action.Offer
import DotMend.Glob
import DotMend.Path
import DotMend.Report.Format
import DotMend.Toml.Read

namespace DotMend

structure Config where
  exclude : List String := []
  extensions : Option (List String) := none
  disabled : List String := []
  format : Option String := none
  deriving DecidableEq, Repr

namespace Toml

def string? : Toml → Option String
  | string s => some s
  | _ => none

def strings? : Toml → Option (List String)
  | array items => items.mapM string?
  | _ => none

def fields? (names : List String) : Option Toml → Option (List (Option Toml))
  | none | some (moment _) => some (names.map fun _ => none)
  | some (table _ es) => some (names.map fun n => get? n es)
  | some (array items) => some ((List.range names.length).map fun i => items[i]?)
  | some (tables items) => some ((List.range names.length).map fun i => items[i]?.map (table .header))
  | some _ => none

def field (read? : Toml → Option α) : Option Toml → Option (Option α)
  | none => some none
  | some v => (read? v).map some

end Toml

namespace Config

def fileName : String := ".dotfix.toml"

def ofEntries? (es : Toml.Entries) : Option Config := do
  let paths ← Toml.fields? ["exclude", "extensions"] (Toml.get? "paths" es)
  let actions ← Toml.fields? ["disabled"] (Toml.get? "actions" es)
  let output ← Toml.fields? ["format"] (Toml.get? "output" es)
  let exclude ← Toml.field Toml.strings? paths[0]?.join
  let extensions ← Toml.field Toml.strings? paths[1]?.join
  let disabled ← Toml.field Toml.strings? actions[0]?.join
  let format ← Toml.field Toml.string? output[0]?.join
  pure ⟨exclude.getD [], extensions, disabled.getD [], format⟩

def ofText? (t : Text) : Option Config := Toml.read? t >>= ofEntries?

def defaultExtensions : List String := ["dot", "gv"]

def hasExtension (c : Config) (path : String) : Bool :=
  match Path.extension? path with
  | none => false
  | some e => (c.extensions.getD defaultExtensions).any fun x => x.map Char.toLower = e.map Char.toLower

def occursIn (needle : Text) : Text → Bool
  | [] => needle.isEmpty
  | c :: rest => needle.isPrefixOf (c :: rest) || occursIn needle rest

/-- A pattern applies to the path and to the name of the file. -/
def matchesPattern (pattern path : String) : Bool :=
  match Glob.ofText? pattern.toList with
  | none => false
  | some g => (path :: (Path.fileName? path).toList).any fun p => g.matchesText p.toList

/-- A pattern that ends in a slash names a directory, also one inside the path. -/
def matchesDirectory (pattern path : String) : Bool :=
  let dir := (pattern.toList.reverse.dropWhile (· = '/')).reverse
  pattern.toList.getLast? = some '/' &&
    (occursIn ('/' :: dir ++ ['/']) path.toList || (dir ++ ['/']).isPrefixOf path.toList)

def excludes (c : Config) (path : String) : Bool :=
  c.exclude.any fun p => matchesPattern p path || matchesDirectory p path

def enables (c : Config) (id : String) : Bool := !c.disabled.contains id

def unknownDisabled (c : Config) : List String := c.disabled.filter fun id => !Command.isKnown id

def offers (c : Config) (t : Text) (s : Span) : List Action :=
  (Action.offers t (Source.ofText t) s).filter fun a => c.enables a.command.id

end Config

end DotMend
