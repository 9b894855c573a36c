import DotMend.Token.Basic
import DotMend.Text.Slice

/-!
The lexeme at the front of a text: a blank, a comment, or the spelling of one token. A lexeme is never empty, so it
is given by its first character and by how many characters follow it.
-/

namespace DotMend.Token

/-- What stands at the front of a text: `more` characters behind the first, the token they spell unless they are a
blank or a comment, and what is wrong with them. -/
structure Lexeme where
  more : Nat
  token : Option (Kind × Text)
  fault : Option Fault
  deriving Repr

namespace Lexeme

def isBlank (c : Char) : Bool := c = ' ' || c = '\t' || c = '\r' || c = '\n' || c = '\x0c'

def startsWord (c : Char) : Bool := c.isAlpha || c = '_' || 0x80 ≤ c.val

def continuesWord (c : Char) : Bool := startsWord c || c.isDigit

def closeComment? : Text → Option Nat
  | '*' :: '/' :: _ => some 2
  | _ :: t => (closeComment? t).map (· + 1)
  | [] => none

def digits (t : Text) : Nat := (t.takeWhile Char.isDigit).length

def unsignedNumeral? (t : Text) : Option Nat :=
  let whole := digits t
  match t.drop whole with
  | '.' :: t =>
    let part := digits t
    if whole = 0 ∧ part = 0 then none else some (whole + 1 + part)
  | _ => if whole = 0 then none else some whole

def numeral? : Text → Option Nat
  | '-' :: t => (unsignedNumeral? t).map (· + 1)
  | t => unsignedNumeral? t

structure QuotedRest where
  length : Nat
  value : Text
  closed : Bool
  deriving Repr

/-- An escaped quote stands for a quote, an escaped line break for nothing; any other backslash is kept. -/
def quotedRest : Text → QuotedRest
  | [] => ⟨0, [], false⟩
  | '"' :: _ => ⟨1, [], true⟩
  | '\\' :: '"' :: t => let r := quotedRest t; ⟨r.length + 2, '"' :: r.value, r.closed⟩
  | '\\' :: '\n' :: t => let r := quotedRest t; ⟨r.length + 2, r.value, r.closed⟩
  | '\\' :: '\r' :: '\n' :: t => let r := quotedRest t; ⟨r.length + 3, r.value, r.closed⟩
  | c :: t => let r := quotedRest t; ⟨r.length + 1, c :: r.value, r.closed⟩

def closeAngle? : (depth : Nat) → Text → Option Nat
  | _, [] => none
  | depth, '<' :: t => (closeAngle? (depth + 1) t).map (· + 1)
  | 0, '>' :: _ => some 1
  | depth + 1, '>' :: t => (closeAngle? depth t).map (· + 1)
  | depth, _ :: t => (closeAngle? depth t).map (· + 1)

def trivia (more : Nat) : Lexeme := ⟨more, none, none⟩

def punctuation (kind : Kind) (more : Nat) : Lexeme := ⟨more, some (kind, []), none⟩

def lineComment (t : Text) : Lexeme := trivia (t.takeWhile (· ≠ '\n')).length

def blockComment (t : Text) : Lexeme :=
  match closeComment? t with
  | some n => trivia (n + 1)
  | none => ⟨t.length + 1, none, some .openComment⟩

def quotedString (t : Text) : Lexeme :=
  let r := quotedRest t
  ⟨r.length, some (.quoted, r.value), if r.closed then none else some .openString⟩

def htmlString (t : Text) : Lexeme :=
  match closeAngle? 0 t with
  | some n => ⟨n, some (.html, t.take (n - 1)), none⟩
  | none => ⟨t.length, some (.html, t), some .openHtml⟩

def word (c : Char) (t : Text) : Lexeme :=
  let more := t.takeWhile continuesWord
  match Kind.ofKeyword? (c :: more) with
  | some keyword => ⟨more.length, some (keyword, []), none⟩
  | none => ⟨more.length, some (.word, c :: more), none⟩

def other (c : Char) (t : Text) : Lexeme :=
  match numeral? (c :: t) with
  | some n => ⟨n - 1, some (.numeral, (c :: t).take n), none⟩
  | none => if startsWord c then word c t else ⟨0, some (.unknown, []), some (.unexpected c)⟩

/-- The lexeme that `c` begins and `t` follows. A `#` comments out its line only in the first column. -/
def front (lineStart : Bool) (c : Char) (t : Text) : Lexeme :=
  if isBlank c then trivia 0
  else if c = '#' && lineStart then lineComment t
  else
    match c, t with
    | '/', '/' :: _ => lineComment t
    | '/', '*' :: t => blockComment t
    | '{', _ => punctuation .openBrace 0
    | '}', _ => punctuation .closeBrace 0
    | '[', _ => punctuation .openBracket 0
    | ']', _ => punctuation .closeBracket 0
    | ':', _ => punctuation .colon 0
    | ';', _ => punctuation .semicolon 0
    | ',', _ => punctuation .comma 0
    | '=', _ => punctuation .equals 0
    | '+', _ => punctuation .plus 0
    | '-', '>' :: _ => punctuation .directedOp 1
    | '-', '-' :: _ => punctuation .undirectedOp 1
    | '"', _ => quotedString t
    | '<', _ => htmlString t
    | _, _ => other c t

end Lexeme

end DotMend.Token
