import DotMend.Text.Slice

/-!
Positions as editors count them: lines from zero, columns from zero in UTF-16 code units. Every offset has a
position and every position an offset; what lies outside a text or a line is clamped to it.
-/

namespace DotMend

structure Position where
  line : Nat
  character : Nat
  deriving DecidableEq, Repr

structure Region where
  start : Position
  stop : Position
  deriving DecidableEq, Repr

namespace Position

def units (c : Char) : Nat := if c.val ≤ 0xffff then 1 else 2

def advance (p : Position) (c : Char) : Position :=
  if c = '\n' then ⟨p.line + 1, 0⟩ else ⟨p.line, p.character + units c⟩

end Position

namespace Text

/-- The position of byte offset `n` in a text that begins at `p`; inside a character it is the character's own. -/
def positionFrom (p : Position) : Nat → Text → Position
  | _, [] => p
  | n, c :: t => if c.utf8Size ≤ n then positionFrom (p.advance c) (n - c.utf8Size) t else p

def positionAt (t : Text) (offset : Nat) : Position := positionFrom ⟨0, 0⟩ offset t

def withoutReturn (line : Text) : Text := if line.getLast? = some '\r' then line.dropLast else line

def columnOffset : Nat → Text → Nat
  | _, [] => 0
  | 0, _ :: _ => 0
  | n + 1, c :: line => c.utf8Size + columnOffset (n + 1 - Position.units c) line

def lineOffset : (line : Nat) → (column : Nat) → Text → Nat
  | 0, column, t => columnOffset column (withoutReturn (t.takeWhile (· ≠ '\n')))
  | line + 1, column, t =>
    match t.dropWhile (· ≠ '\n') with
    | [] => bytes t
    | _ :: rest => bytes (t.takeWhile (· ≠ '\n')) + 1 + lineOffset line column rest

def offsetAt (t : Text) (p : Position) : Nat := lineOffset p.line p.character t

def regionOf (t : Text) (s : Span) : Region := ⟨t.positionAt s.start, t.positionAt s.stop⟩

/-- A reversed region becomes the empty span at its start. -/
def spanOf (t : Text) (r : Region) : Span :=
  ⟨t.offsetAt r.start, max (t.offsetAt r.stop) (t.offsetAt r.start)⟩

end Text

end DotMend
