namespace DotMend

/-- A number is an integer of at most 64 bits, or else the decimal text of a floating-point number. -/
inductive Json.Number where
  | integer (n : Int)
  | floating (text : String)
  deriving DecidableEq, Repr

inductive Json where
  | null
  | bool (b : Bool)
  | number (n : Json.Number)
  | string (s : String)
  | array (items : List Json)
  | object (fields : List (String × Json))
  deriving Repr

namespace Json

def nat (n : Nat) : Json := .number (.integer n)

def strings (items : List String) : Json := .array (items.map .string)

def ofOption (f : α → Json) : Option α → Json
  | none => .null
  | some a => f a

def insertField (key : String) (value : Json) : List (String × Json) → List (String × Json)
  | [] => [(key, value)]
  | (k, v) :: rest =>
    if key < k then (key, value) :: (k, v) :: rest
    else if key = k then (key, value) :: rest
    else (k, v) :: insertField key value rest

def sorted (fields : List (String × Json)) : List (String × Json) :=
  fields.foldl (fun acc f => insertField f.1 f.2 acc) []

def field? (key : String) : Json → Option Json
  | .object fields => (fields.find? (·.1 == key)).map Prod.snd
  | _ => none

def Number.text : Number → String
  | .integer n => toString n
  | .floating text => text

def hexDigit (n : Nat) : Char := ("0123456789abcdef".toList.drop n).headD '0'

def escapeChar (c : Char) : List Char :=
  match c with
  | '"' => ['\\', '"']
  | '\\' => ['\\', '\\']
  | '\x08' => ['\\', 'b']
  | '\x0c' => ['\\', 'f']
  | '\n' => ['\\', 'n']
  | '\r' => ['\\', 'r']
  | '\t' => ['\\', 't']
  | c =>
    if c.toNat < 0x20 then ['\\', 'u', '0', '0', hexDigit (c.toNat / 16), hexDigit (c.toNat % 16)] else [c]

def quote (s : String) : String := String.ofList ('"' :: s.toList.flatMap escapeChar ++ ['"'])

mutual

def compact : Json → String
  | .null => "null"
  | .bool b => if b then "true" else "false"
  | .number n => n.text
  | .string s => quote s
  | .array items => "[" ++ ",".intercalate (compactItems items) ++ "]"
  | .object fields => "\x7b" ++ ",".intercalate (compactFields fields) ++ "\x7d"

def compactItems : List Json → List String
  | [] => []
  | v :: rest => compact v :: compactItems rest

def compactFields : List (String × Json) → List String
  | [] => []
  | (k, v) :: rest => (quote k ++ ":" ++ compact v) :: compactFields rest

end

def newline (depth : Nat) : String := String.ofList ('\n' :: List.replicate (2 * depth) ' ')

mutual

def indented (depth : Nat) : Json → String
  | .null => "null"
  | .bool b => if b then "true" else "false"
  | .number n => n.text
  | .string s => quote s
  | .array [] => "[]"
  | .array items =>
    "[" ++ ",".intercalate (indentedItems (depth + 1) items) ++ newline depth ++ "]"
  | .object [] => "\x7b\x7d"
  | .object fields =>
    "\x7b" ++ ",".intercalate (indentedFields (depth + 1) fields) ++ newline depth ++ "\x7d"

def indentedItems (depth : Nat) : List Json → List String
  | [] => []
  | v :: rest => (newline depth ++ indented depth v) :: indentedItems depth rest

def indentedFields (depth : Nat) : List (String × Json) → List String
  | [] => []
  | (k, v) :: rest => (newline depth ++ quote k ++ ": " ++ indented depth v) :: indentedFields depth rest

end

def pretty (v : Json) : String := indented 0 v

end Json

end DotMend
