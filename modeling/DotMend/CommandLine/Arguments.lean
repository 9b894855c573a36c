import DotMend.Text.Position

/-!
What is asked for on the command line. Switches that hold for all tasks may stand before or behind the task's name;
the later ones win.
-/

namespace DotMend.CommandLine

structure Shared where
  verbose : Bool := false
  format : Option String := none
  config : Option String := none
  noConfig : Bool := false
  deriving DecidableEq, Repr

inductive Selection where
  | offsets (start : Nat) (stop : Option Nat)
  | position (p : Position)
  deriving DecidableEq, Repr

inductive Task where
  | check (paths : List String)
  | fix (paths : List String) (dryRun : Bool)
  | actions (file : String) (selection : Option Selection)
  | exec (file command arguments : String) (write : Bool)
  | commands
  deriving DecidableEq, Repr

inductive Request where
  | run (shared : Shared) (task : Task)
  | version
  | help
  deriving DecidableEq, Repr

structure Switch where
  long : String
  short : Option Char := none
  takesValue : Bool := false
  deriving DecidableEq, Repr

structure Given where
  flags : List String := []
  values : List (String × String) := []
  words : List String := []
  deriving DecidableEq, Repr

namespace Given

def has (g : Given) (name : String) : Bool := g.flags.contains name

def value? (g : Given) (name : String) : Option String := (g.values.find? (·.1 = name)).map Prod.snd

def addFlag (g : Given) (name : String) : Option Given :=
  if g.has name then none else some { g with flags := name :: g.flags }

def addValue (g : Given) (name value : String) : Option Given :=
  if (g.value? name).isSome || name = "config" && value.isEmpty then none
  else some { g with values := (name, value) :: g.values }

def isFinal (g : Given) : Bool := g.has "version" || g.has "help"

end Given

def addLetters (switches : List Switch) (g : Given) : List Char → Option Given
  | [] => some g
  | c :: rest => do
    let s ← switches.find? (·.short = some c)
    let g ← g.addFlag s.long
    if g.isFinal then some g else addLetters switches g rest

def splitSwitch (t : Text) : String × Option String :=
  let name := t.takeWhile (· ≠ '=')
  match t.drop name.length with
  | [] => (String.ofList name, none)
  | _ :: value => (String.ofList name, some (String.ofList value))

def isSwitch (arg : String) : Bool := arg.startsWith "-" && 1 < arg.length

/-- Reads one level, up to the first word if `untilWord`. Behind `--` all are words. -/
def readLevel (switches : List Switch) (untilWord : Bool) (g : Given) : List String → Option (Given × List String)
  | [] => some (g, [])
  | arg :: rest =>
    if g.isFinal then some (g, arg :: rest)
    else
      match arg.toList with
      | ['-', '-'] => if untilWord then none else some ({ g with words := g.words ++ rest }, [])
      | '-' :: '-' :: text => do
        let (name, value) := splitSwitch text
        let s ← switches.find? (·.long = name)
        match s.takesValue, value with
        | false, none => do readLevel switches untilWord (← g.addFlag name) rest
        | false, some _ => none
        | true, some value => do readLevel switches untilWord (← g.addValue name value) rest
        | true, none =>
          match rest with
          | [] => none
          | value :: rest =>
            if isSwitch value then none else do readLevel switches untilWord (← g.addValue name value) rest
      | '-' :: c :: letters => do readLevel switches untilWord (← addLetters switches g (c :: letters)) rest
      | _ =>
        if untilWord then some (g, arg :: rest)
        else readLevel switches untilWord { g with words := g.words ++ [arg] } rest

def sharedSwitches : List Switch :=
  [⟨"verbose", some 'v', false⟩, ⟨"format", none, true⟩, ⟨"config", none, true⟩, ⟨"no-config", none, false⟩,
    ⟨"help", some 'h', false⟩]

def taskSwitches? : String → Option (List Switch)
  | "check" | "commands" => some []
  | "fix" => some [⟨"dry-run", some 'n', false⟩]
  | "actions" => some (["offset", "end", "line", "character"].map fun name => ⟨name, none, true⟩)
  | "exec" => some [⟨"command", none, true⟩, ⟨"arguments", none, true⟩, ⟨"write", none, false⟩]
  | _ => none

def digits? (t : Text) : Option Nat :=
  if t.isEmpty || !t.all Char.isDigit then none else some (t.foldl (fun n c => 10 * n + (c.toNat - 48)) 0)

def offset? (s : String) : Option Nat := do
  let n ← match s.toList with
    | '+' :: t => digits? t
    | t => digits? t
  if n < Nat.pow 2 64 then some n else none

def coordinate? (s : String) : Option Nat := do
  let n ← match s.toList with
    | '-' :: t => (digits? t).bind fun n => if n = 0 then some 0 else none
    | '+' :: t => digits? t
    | t => digits? t
  if n < Nat.pow 2 32 then some n else none

def optional (read? : String → Option α) : Option String → Option (Option α)
  | none => some none
  | some s => (read? s).map some

/-- Two offsets or a position. An end says nothing beside a position and is not allowed alone. -/
def selection? (g : Given) : Option (Option Selection) := do
  let start ← optional offset? (g.value? "offset")
  let stop ← optional offset? (g.value? "end")
  let line ← optional coordinate? (g.value? "line")
  let character ← optional coordinate? (g.value? "character")
  match start, stop, line, character with
  | none, none, none, none => some none
  | some start, stop, none, none => some (some (.offsets start stop))
  | none, _, some line, some character => some (some (.position ⟨line, character⟩))
  | _, _, _, _ => none

def file? (g : Given) : Option String :=
  match g.words with
  | [file] => some file
  | _ => none

def paths? (g : Given) : Option (List String) := if g.words.isEmpty then none else some g.words

def task? (name : String) (g : Given) : Option Task :=
  if g.words.contains "" then none
  else
    match name with
    | "check" => do pure (.check (← paths? g))
    | "fix" => do pure (.fix (← paths? g) (g.has "dry-run"))
    | "actions" => do pure (.actions (← file? g) (← selection? g))
    | "exec" => do
      pure (.exec (← file? g) (← g.value? "command") ((g.value? "arguments").getD "\x7b\x7d") (g.has "write"))
    | "commands" => if g.words.isEmpty then some .commands else none
    | _ => none

def shared (outer inner : Given) : Shared where
  verbose := outer.has "verbose" || inner.has "verbose"
  format := (inner.value? "format").or (outer.value? "format")
  config := (inner.value? "config").or (outer.value? "config")
  noConfig := outer.has "no-config" || inner.has "no-config"

def read? (args : List String) : Option Request := do
  let (outer, rest) ← readLevel (⟨"version", some 'V', false⟩ :: sharedSwitches) true {} args
  if outer.has "version" then pure .version
  else if outer.has "help" then pure .help
  else
    match rest with
    | [] => none
    | name :: rest => do
      let switches ← taskSwitches? name
      let (inner, _) ← readLevel (switches ++ sharedSwitches) false {} rest
      if inner.has "help" then pure .help
      else pure (.run (shared outer inner) (← task? name inner))

end DotMend.CommandLine
