import DotMend.Json.Basic
import DotMend.Text.Quoted

/-!
Decoding JSON values into domain values, with an exact account of what did not fit.

Objects are read in ascending order of their keys and the first member that does not fit is reported; only then is
a missing member, in the order in which the record declares them. Unknown members are ignored. A record may also be
written as the array of its members.
-/

namespace DotMend.Json

inductive Mismatch where
  | type (found : Json) (expected : String)
  | value (found : Json) (expected : String)
  | length (found : Nat) (expected : String)
  | missing (field : String)
  | unknownVariant (name : String) (known : List String)
  deriving Repr

namespace Mismatch

def describe : Json → String
  | .null => "null"
  | .bool b => s!"boolean `{b}`"
  | .number (.integer n) => s!"integer `{n}`"
  | .number (.floating text) => s!"floating point `{text}`"
  | .string s => "string " ++ Text.quoted s
  | .array _ => "sequence"
  | .object _ => "map"

def choices : List String → String
  | [] => "there are no variants"
  | [a] => s!"expected `{a}`"
  | [a, b] => s!"expected `{a}` or `{b}`"
  | names => "expected one of " ++ ", ".intercalate (names.map fun n => s!"`{n}`")

def message : Mismatch → String
  | type found expected => s!"invalid type: {describe found}, expected {expected}"
  | value found expected => s!"invalid value: {describe found}, expected {expected}"
  | length found expected => s!"invalid length {found}, expected {expected}"
  | missing field => s!"missing field `{field}`"
  | unknownVariant name known => s!"unknown variant `{name}`, {choices known}"

end Mismatch

inductive Reading where
  | direct
  | held
  deriving DecidableEq, Repr

abbrev Decoder (α : Type) := Reading → Json → Except Mismatch α

namespace Decoder

def natural : Decoder Nat
  | _, .number (.integer n) =>
    if 0 ≤ n then .ok n.toNat else .error (.value (.number (.integer n)) "usize")
  | _, v => .error (.type v "usize")

def boolean : Decoder Bool
  | _, .bool b => .ok b
  | _, v => .error (.type v "a boolean")

def text : Decoder String
  | _, .string s => .ok s
  | _, v => .error (.type v "a string")

def sequence (item : Decoder α) : Decoder (List α)
  | r, .array items => items.mapM (item r)
  | _, v => .error (.type v "a sequence")

def nothing : Decoder Unit
  | _, .null => .ok ()
  | .held, .object [] => .ok ()
  | _, v => .error (.type v "unit")

def named (known : List (String × α)) (name : String) : Except Mismatch α :=
  match known.find? (·.1 == name) with
  | some entry => .ok entry.2
  | none => .error (.unknownVariant name (known.map Prod.fst))

def variant (known : List (String × α)) : Decoder α
  | _, .string name => named known name
  | r, .object [(name, v)] => do
    let a ← named known name
    nothing r v
    pure a
  | _, .object members => .error (.value (.object members) "map with a single key")
  | _, v => .error (.type v "string or map")

def bareVariant (known : List (String × α)) : Decoder α
  | _, .string name => named known name
  | _, v => .error (.type v "variant identifier")

/-- The members of a record in the order of their declaration. Reading yields the record or the names of all
members that are absent or do not fit. -/
structure Fields (α : Type) where
  names : List String
  read : Reading → (String → Option Json) → Except (List (String × Option Mismatch)) α

namespace Fields

def field (name : String) (d : Decoder α) : Fields α where
  names := [name]
  read r get :=
    match get name with
    | none => .error [(name, none)]
    | some v =>
      match d r v with
      | .ok a => .ok a
      | .error m => .error [(name, some m)]

def all (a : α) : Fields α := ⟨[], fun _ _ => .ok a⟩

def and (f : Fields (α → β)) (name : String) (d : Decoder α) : Fields β where
  names := f.names ++ [name]
  read r get :=
    match f.read r get, (field name d).read r get with
    | .ok g, .ok a => .ok (g a)
    | .ok _, .error e => .error e
    | .error e, .ok _ => .error e
    | .error e, .error e' => .error (e ++ e')

/-- What to report of an object: the least key that does not fit, or else the first absent one. -/
def worst (members : List (String × Json)) (failures : List (String × Option Mismatch)) : Mismatch :=
  let wrong := members.findSome? fun m => (failures.find? (·.1 == m.1)).bind Prod.snd
  wrong.getD (.missing ((failures.head?.map Prod.fst).getD ""))

end Fields

def record (name : String) (fields : Fields α) : Decoder α
  | r, .object members =>
    match fields.read r fun key => (members.find? (·.1 == key)).map Prod.snd with
    | .ok a => .ok a
    | .error failures => .error (Fields.worst members failures)
  | r, .array items =>
    match fields.read r fun key => items[fields.names.idxOf key]? with
    | .ok a =>
      let size := fields.names.length
      if items.length ≤ size then .ok a
      else
        match r with
        | .direct => .error (.length items.length "fewer elements in array")
        | .held => .error (.length items.length s!"{size} elements in sequence")
    | .error ((_, some m) :: _) => .error m
    | .error _ => .error (.length items.length s!"struct {name} with {fields.names.length} elements")
  | _, v => .error (.type v s!"struct {name}")

/-- A variant whose tag and content are two members of an object, or the two items of an array. A content that
comes before its tag is held back. In an array the tag is a bare name. -/
def tagged (name tag content : String) (known : List (String × Decoder α)) : Decoder α
  | r, .object members =>
    let get (key : String) := (members.find? (·.1 == key)).map Prod.snd
    match get tag, get content with
    | none, _ => .error (.missing tag)
    | some t, none => do
      let _ ← variant known r t
      .error (.missing content)
    | some t, some c => do
      let d ← variant known r t
      d (if content < tag then .held else r) c
  | _, .array [] => .error (.length 0 s!"adjacently tagged enum {name}")
  | r, .array (t :: rest) => do
    let d ← bareVariant known r t
    match rest with
    | [] => .error (.length 1 s!"adjacently tagged enum {name}")
    | c :: more =>
      let a ← d r c
      if more.isEmpty then pure a else .error (.length (more.length + 2) "fewer elements in array")
  | _, v => .error (.type v s!"adjacently tagged enum {name}")

end Decoder

end DotMend.Json
