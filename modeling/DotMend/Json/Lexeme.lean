import DotMend.Decimal.Shortest
import DotMend.Json.Basic

namespace DotMend.Json

inductive Lexeme where
  | openArray
  | closeArray
  | openObject
  | closeObject
  | comma
  | colon
  | scalar (v : Json)

namespace Lexeme

def isBlank (c : Char) : Bool := c = ' ' || c = '\n' || c = '\t' || c = '\r'

def hexValue? (c : Char) : Option Nat :=
  if c.isDigit then some (c.toNat - 48)
  else if 'a' ≤ c && c ≤ 'f' then some (c.toNat - 87)
  else if 'A' ≤ c && c ≤ 'F' then some (c.toNat - 55)
  else none

def hex4? (a b c d : Char) : Option Nat := do
  let a ← hexValue? a
  let b ← hexValue? b
  let c ← hexValue? c
  let d ← hexValue? d
  pure (((a * 16 + b) * 16 + c) * 16 + d)

def simpleEscape? : Char → Option Char
  | '"' => some '"'
  | '\\' => some '\\'
  | '/' => some '/'
  | 'b' => some '\x08'
  | 'f' => some '\x0c'
  | 'n' => some '\n'
  | 'r' => some '\r'
  | 't' => some '\t'
  | _ => none

def isLead (n : Nat) : Bool := 0xd800 ≤ n && n < 0xdc00

def isTrail (n : Nat) : Bool := 0xdc00 ≤ n && n < 0xe000

def stringRest? : List Char → Option (List Char × List Char)
  | [] => none
  | '"' :: t => some ([], t)
  | '\\' :: 'u' :: a :: b :: c :: d :: '\\' :: 'u' :: e :: f :: g :: h :: t => do
    let first ← hex4? a b c d
    if isLead first then
      let second ← hex4? e f g h
      if isTrail second then
        let (s, rest) ← stringRest? t
        pure (Char.ofNat (0x10000 + (first - 0xd800) * 0x400 + (second - 0xdc00)) :: s, rest)
      else none
    else if isTrail first then none
    else
      let (s, rest) ← stringRest? ('\\' :: 'u' :: e :: f :: g :: h :: t)
      pure (Char.ofNat first :: s, rest)
  | '\\' :: 'u' :: a :: b :: c :: d :: t => do
    let n ← hex4? a b c d
    if isLead n || isTrail n then none
    else
      let (s, rest) ← stringRest? t
      pure (Char.ofNat n :: s, rest)
  | '\\' :: c :: t => do
    let c ← simpleEscape? c
    let (s, rest) ← stringRest? t
    pure (c :: s, rest)
  | c :: t =>
    if c.toNat < 0x20 || c = '\\' then none
    else do
      let (s, rest) ← stringRest? t
      pure (c :: s, rest)

def maxInteger : Nat := Nat.pow 2 64 - 1

def digitValue (c : Char) : Nat := c.toNat - 48

def wholeDigits : Nat → List Char → Nat × Nat
  | n, [] => (n, 0)
  | n, c :: rest =>
    if n * 10 + digitValue c ≤ maxInteger then wholeDigits (n * 10 + digitValue c) rest else (n, rest.length + 1)

def moreDigits : Nat → List Char → Nat × Nat
  | n, [] => (n, 0)
  | n, c :: rest =>
    if n * 10 + digitValue c ≤ maxInteger then
      let (m, k) := moreDigits (n * 10 + digitValue c) rest
      (m, k + 1)
    else (n, 0)

def powerOfTen (k : Nat) : Float := Float.ofScientific 1 false k

def scaleDown (x : Float) (k : Nat) : Float :=
  if k ≤ 308 then x / powerOfTen k
  else if x == 0 then x
  else scaleDown (x / powerOfTen 308) (k - 308)
  termination_by k

def floating? (negative : Bool) (significand : Nat) (exponent : Int) : Option Number :=
  let x := significand.toUInt64.toFloat
  let scaled :=
    if exponent < 0 then some (scaleDown x exponent.natAbs)
    else if 308 < exponent then if significand = 0 then some x else none
    else
      let y := x * powerOfTen exponent.toNat
      if y.isInf then none else some y
  scaled.map fun y => .floating (Decimal.render (if negative then -y else y))

def exponentRest? (t : List Char) : Option (Int × List Char) :=
  let (negative, t) :=
    match t with
    | '-' :: t => (true, t)
    | '+' :: t => (false, t)
    | t => (false, t)
  let digits := t.takeWhile Char.isDigit
  if digits.isEmpty then none
  else
    let n : Nat := digits.foldl (fun n c => n * 10 + digitValue c) 0
    some (if negative then -n else n, t.dropWhile Char.isDigit)

def numberRest? (negative : Bool) (t : List Char) : Option (Number × List Char) :=
  let whole := t.takeWhile Char.isDigit
  let t := t.dropWhile Char.isDigit
  if whole.isEmpty || (1 < whole.length && whole.head? == some '0') then none
  else
    let (n, dropped) := wholeDigits 0 whole
    let (part, t, pointed) :=
      match t with
      | '.' :: u => (u.takeWhile Char.isDigit, u.dropWhile Char.isDigit, true)
      | t => ([], t, false)
    if pointed && part.isEmpty then none
    else
      let (significand, places) := moreDigits n part
      let base : Int := dropped - places
      match t with
      | 'e' :: u | 'E' :: u => do
        let (e, rest) ← exponentRest? u
        let number ← floating? negative significand (base + e)
        pure (number, rest)
      | t =>
        if pointed || 0 < dropped || (negative && (n = 0 || Nat.pow 2 63 < n)) then
          (floating? negative significand base).map (·, t)
        else some (.integer (if negative then -(n : Int) else n), t)

def front? (c : Char) (t : List Char) : Option (Lexeme × List Char) :=
  match c, t with
  | '[', t => some (.openArray, t)
  | ']', t => some (.closeArray, t)
  | '\x7b', t => some (.openObject, t)
  | '\x7d', t => some (.closeObject, t)
  | ',', t => some (.comma, t)
  | ':', t => some (.colon, t)
  | 'n', 'u' :: 'l' :: 'l' :: t => some (.scalar .null, t)
  | 't', 'r' :: 'u' :: 'e' :: t => some (.scalar (.bool true), t)
  | 'f', 'a' :: 'l' :: 's' :: 'e' :: t => some (.scalar (.bool false), t)
  | '"', t => (stringRest? t).map fun (s, rest) => (.scalar (.string (String.ofList s)), rest)
  | '-', t => (numberRest? true t).map fun (n, rest) => (.scalar (.number n), rest)
  | c, t => (numberRest? false (c :: t)).map fun (n, rest) => (.scalar (.number n), rest)

def all? : (steps : Nat) → List Char → Option (List Lexeme)
  | _, [] => some []
  | 0, _ :: _ => none
  | steps + 1, c :: t =>
    if isBlank c then all? steps t
    else do
      let (l, rest) ← front? c t
      let ls ← all? steps rest
      pure (l :: ls)

end Lexeme

end DotMend.Json
