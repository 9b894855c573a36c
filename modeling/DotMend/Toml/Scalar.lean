import DotMend.Decimal.Finite
import DotMend.Toml.Basic
import DotMend.Toml.Lexeme

namespace DotMend.Toml

def areDigits (isDigit : Char → Bool) : Text → Bool
  | [] => false
  | [c] => isDigit c
  | c :: '_' :: rest => isDigit c && areDigits isDigit rest
  | c :: rest => isDigit c && areDigits isDigit rest

def unsigned : Text → Text
  | '+' :: rest | '-' :: rest => rest
  | t => t

def areDecimal : Text → Bool
  | ['0'] => true
  | '0' :: _ => false
  | t => areDigits Char.isDigit t

def valueOf (base : Nat) (t : Text) : Nat := t.foldl (fun n c => ((hexValue? c).map (base * n + ·)).getD n) 0

def isBelow (base : Nat) (c : Char) : Bool := (hexValue? c).any (· < base)

def isInteger (t : Text) : Bool :=
  match t with
  | '0' :: 'x' :: digits => areDigits (isBelow 16) digits && valueOf 16 digits < Nat.pow 2 63
  | '0' :: 'o' :: digits => areDigits (isBelow 8) digits && valueOf 8 digits < Nat.pow 2 63
  | '0' :: 'b' :: digits => areDigits (isBelow 2) digits && valueOf 2 digits < Nat.pow 2 63
  | '-' :: digits => areDecimal digits && valueOf 10 digits ≤ Nat.pow 2 63
  | t => areDecimal (unsigned t) && valueOf 10 (unsigned t) < Nat.pow 2 63

def exponent? : Text → Option Int
  | 'e' :: rest | 'E' :: rest =>
    let n : Int := valueOf 10 (unsigned rest)
    if areDigits Char.isDigit (unsigned rest) then some (if rest.head? = some '-' then -n else n) else none
  | _ => none

def magnitude? (t : Text) : Option Decimal.Digits :=
  let isPart (c : Char) : Bool := c.isDigit || c = '_'
  let whole := t.takeWhile isPart
  if areDecimal whole then
    match t.drop whole.length with
    | '.' :: rest => do
      let fraction := rest.takeWhile isPart
      let tail := rest.drop fraction.length
      let exponent ← if tail.isEmpty then some 0 else exponent? tail
      if areDigits Char.isDigit fraction then
        some ⟨valueOf 10 (whole ++ fraction), exponent - (fraction.filter Char.isDigit).length⟩
      else none
    | rest => (exponent? rest).map fun exponent => ⟨valueOf 10 whole, exponent⟩
  else none

/-- Infinity has to be named: a positive number must not round to it. -/
def isFloating (t : Text) : Bool :=
  let body := unsigned t
  body = "inf".toList || body = "nan".toList ||
    (magnitude? body).any fun d => t.head? = some '-' || d.isFinite

def field? (size low high : Nat) (t : Text) : Option (Nat × Text) :=
  let digits := t.take size
  let n := valueOf 10 digits
  if digits.length = size ∧ digits.all Char.isDigit ∧ low ≤ n ∧ n ≤ high then some (n, t.drop size) else none

def sign? (c : Char) : Text → Option Text
  | d :: rest => if c = d then some rest else none
  | [] => none

def daysIn (year month : Nat) : Nat :=
  if month = 2 then if year % 4 = 0 ∧ (year % 100 ≠ 0 ∨ year % 400 = 0) then 29 else 28
  else if month ∈ [4, 6, 9, 11] then 30
  else 31

def date? (t : Text) : Option Text := do
  let (year, t) ← field? 4 0 9999 t
  let (month, t) ← field? 2 1 12 (← sign? '-' t)
  let (_, t) ← field? 2 1 (daysIn year month) (← sign? '-' t)
  pure t

def time? (t : Text) : Option Text := do
  let (_, t) ← field? 2 0 23 t
  let (_, t) ← field? 2 0 59 (← sign? ':' t)
  let (_, t) ← field? 2 0 60 (← sign? ':' t)
  match t with
  | '.' :: rest =>
    let digits := rest.takeWhile Char.isDigit
    if digits.isEmpty then none else some (rest.drop digits.length)
  | t => pure t

def isZone : Text → Bool
  | [] | ['Z'] | ['z'] => true
  | c :: rest =>
    let place := do
      let (_, t) ← field? 2 0 23 rest
      let (_, t) ← field? 2 0 59 (← sign? ':' t)
      pure t
    (c = '+' || c = '-') && place = some []

def isMoment (t : Text) : Bool :=
  match date? t with
  | some [] => true
  | some (c :: rest) => (c = 'T' || c = 't' || c = ' ') && (time? rest).any isZone
  | none => time? t = some []

def isWordChar (c : Char) : Bool := c.isAlphanum || c ∈ ['+', '-', '.', '_', ':']

def scalarOf? (word : Text) : Option Toml :=
  if word = "true".toList then some (.boolean true)
  else if word = "false".toList then some (.boolean false)
  else if isInteger word || isFloating word then some (.number (String.ofList word))
  else if isMoment word then some (.moment (String.ofList word))
  else none

def scalar? (t : Text) : Option (Toml × Text) :=
  let word := t.takeWhile isWordChar
  let rest := t.drop word.length
  let long :=
    match rest with
    | ' ' :: more => word ++ ' ' :: more.takeWhile isWordChar
    | _ => word
  if long.length ≠ word.length && isMoment long then some (.moment (String.ofList long), t.drop long.length)
  else (scalarOf? word).map (·, rest)

end DotMend.Toml
