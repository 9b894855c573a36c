/-!
Decimal text of a binary floating-point number: the fewest digits that read back as the same number, and of those
the nearest to it.
-/

namespace DotMend.Decimal

structure Binary where
  mantissa : Nat
  exponent : Int
  deriving Repr

structure Digits where
  digits : Nat
  exponent : Int
  deriving Repr

namespace Binary

def ofFloat (x : Float) : Binary :=
  let bits := x.toBits.toNat
  let fraction : Nat := bits % Nat.pow 2 52
  let field : Nat := bits / Nat.pow 2 52 % Nat.pow 2 11
  if field = 0 then ⟨fraction, -1074⟩ else ⟨Nat.pow 2 52 + fraction, (field : Int) - 1075⟩

def isNarrowBelow (b : Binary) : Bool := b.mantissa == Nat.pow 2 52 && -1074 < b.exponent

end Binary

def scaled (n : Nat) (e k : Int) : Nat × Nat :=
  (n * Nat.pow 2 e.toNat * Nat.pow 10 (-k).toNat, Nat.pow 2 (-e).toNat * Nat.pow 10 k.toNat)

/-- Whether `d * 10 ^ k` reads back as `b`: it lies between the halfway points to the neighbours of `b`. -/
def readsAs (b : Binary) (d : Nat) (k : Int) : Bool :=
  let quarter := b.exponent - 2
  let (value, unit) := scaled 1 quarter k
  let low := (4 * b.mantissa - if b.isNarrowBelow then 1 else 2) * value
  let high := (4 * b.mantissa + 2) * value
  let point := d * unit
  if b.mantissa % 2 = 0 then low ≤ point && point ≤ high else low < point && point < high

def onGrid (b : Binary) (k : Int) : Option Digits :=
  let (num, den) := scaled b.mantissa b.exponent k
  let below := num / den
  let nearBelow := 2 * (num % den) < den || (2 * (num % den) == den && below % 2 == 0)
  let order := if nearBelow then [below, below + 1] else [below + 1, below]
  (order.find? (readsAs b · k)).map fun d => ⟨d, k⟩

def coarsest (b : Binary) : Nat → Int → Digits
  | 0, k => ⟨b.mantissa, k⟩
  | steps + 1, k => (onGrid b k).getD (coarsest b steps (k - 1))

def zeros (n : Int) : List Char := List.replicate n.toNat '0'

/-- Positional from `10 ^ -5` up to `10 ^ 16`, always with a point; outside with an exponent and its sign. -/
def layout (d : Digits) : List Char :=
  let text := Nat.toDigits 10 d.digits
  let point : Int := text.length + d.exponent
  if 0 ≤ d.exponent ∧ point ≤ 16 then text ++ zeros d.exponent ++ ['.', '0']
  else if 0 < point ∧ point ≤ 16 then text.take point.toNat ++ '.' :: text.drop point.toNat
  else if -5 < point ∧ point ≤ 0 then '0' :: '.' :: zeros (-point) ++ text
  else
    let mantissa :=
      match text with
      | first :: second :: rest => first :: '.' :: second :: rest
      | text => text
    let sign := if 0 < point then '+' else '-'
    mantissa ++ 'e' :: sign :: Nat.toDigits 10 (point - 1).natAbs

def render (x : Float) : String :=
  let b := Binary.ofFloat x
  let magnitude := if b.mantissa = 0 then ['0', '.', '0'] else layout (coarsest b 660 310)
  String.ofList (if x.toBits.toNat / Nat.pow 2 63 = 1 then '-' :: magnitude else magnitude)

end DotMend.Decimal
