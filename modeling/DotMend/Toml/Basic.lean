/-!
TOML values, and tables that grow while a document is read. A table remembers how it came about, because that
decides what may still be added to it.
-/

namespace DotMend

inductive Toml.Origin where
  | header
  | implied
  | dotted
  | inline
  deriving DecidableEq, Repr

inductive Toml where
  | string (s : String)
  | boolean (b : Bool)
  | number (text : String)
  | moment (text : String)
  | array (items : List Toml)
  | table (origin : Toml.Origin) (entries : List (String × Toml))
  | tables (items : List (List (String × Toml)))
  deriving Repr

namespace Toml

abbrev Entries := List (String × Toml)

def get? (key : String) (es : Entries) : Option Toml := (es.find? (·.1 = key)).map Prod.snd

def put (key : String) (v : Toml) (es : Entries) : Entries :=
  if es.any (·.1 = key) then es.map fun e => if e.1 = key then (key, v) else e else es ++ [(key, v)]

def updateLast (f : Entries → Option Entries) (items : List Entries) : Option (List Entries) := do
  let last ← items.getLast?
  pure (items.dropLast ++ [← f last])

def under (key : String) (f : Entries → Option Entries) (es : Entries) : Option Entries :=
  match get? key es with
  | none => do pure (put key (.table .implied (← f [])) es)
  | some (.table .inline _) => none
  | some (.table origin sub) => do pure (put key (.table origin (← f sub)) es)
  | some (.tables items) => do pure (put key (.tables (← updateLast f items)) es)
  | some _ => none

def openTable : List String → Entries → Option Entries
  | [], _ => none
  | [key], es =>
    match get? key es with
    | none => some (put key (.table .header []) es)
    | some (.table .implied sub) => some (put key (.table .header sub) es)
    | some _ => none
  | key :: path, es => under key (openTable path) es

def openNext : List String → Entries → Option Entries
  | [], _ => none
  | [key], es =>
    match get? key es with
    | none => some (put key (.tables [[]]) es)
    | some (.tables items) => some (put key (.tables (items ++ [[]])) es)
    | some _ => none
  | key :: path, es => under key (openNext path) es

def within (f : Entries → Option Entries) : List String → Entries → Option Entries
  | [], es => f es
  | key :: path, es => under key (within f path) es

/-- Adds a value. A dotted key ends in a table that only dotted keys have made. -/
def insert (value : Toml) (key : String) : List String → Entries → Option Entries
  | [], es => if (get? key es).isSome then none else some (put key value es)
  | k :: path, es =>
    match get? k es with
    | none => do pure (put k (.table .dotted (← insert value key path [])) es)
    | some (.table .dotted sub) => do pure (put k (.table .dotted (← insert value key path sub)) es)
    | some (.table .implied sub) =>
      if path.isEmpty then none else do pure (put k (.table .implied (← insert value key path sub)) es)
    | some (.tables items) =>
      if path.isEmpty then none else do pure (put k (.tables (← updateLast (insert value key path) items)) es)
    | some _ => none

end Toml

end DotMend
