import DotMend.Token.Basic
import DotMend.Tree.Basic

/-!
What reading a piece of a token list yields: a value, the tokens left over, the trail of the reader, and the
complaints. A result carries a bound on how many tokens are left, so that reading on from it ends.
-/

namespace DotMend.Parse

inductive Expectation where
  | graphKeyword
  | openBrace
  | closeBrace
  | statement
  | openBracket
  | closeBracket
  | identifier
  | endpoint
  | portName
  | compass
  | quotedPart
  | attrName
  | attrValue
  | equals
  deriving DecidableEq, Repr

def Expectation.text : Expectation → String
  | graphKeyword => "'graph' or 'digraph'"
  | openBrace => "'\x7b'"
  | closeBrace => "'\x7d'"
  | statement => "a statement"
  | openBracket => "'['"
  | closeBracket => "']'"
  | identifier => "an identifier"
  | endpoint => "a node or subgraph"
  | portName => "a port name"
  | compass => "a compass point"
  | quotedPart => "a quoted string after '+'"
  | attrName => "an attribute"
  | attrValue => "an attribute value"
  | equals => "'='"

/-- What the reader leaves behind: how many nodes it has built, and where the last token it passed ends. -/
structure Trail where
  built : Nat
  lastEnd : Nat
  deriving DecidableEq, Repr

namespace Trail

def start : Trail := ⟨0, 0⟩

def pass (m : Trail) (t : Token) : Trail := { m with lastEnd := t.span.stop }

def grown (m : Trail) : Trail := { m with built := m.built + 1 }

def leaf (m : Trail) (t : Token) : Tree := .token ⟨m.built, t.span, t.faulty⟩ t.kind

/-- An inner node from `start` up to the last token passed. It is flagged if it is at fault itself or has a flagged
child. -/
def node (m : Trail) (start : Nat) (faulty : Bool) (make : Tree.Info → Tree) : Tree :=
  let span : Span := ⟨start, m.lastEnd⟩
  make ⟨m.built, span, faulty || (make ⟨m.built, span, faulty⟩).children.any Tree.flagged⟩

end Trail

structure Parsed (bound : Nat) (α : Type) where
  value : α
  rest : List Token
  trail : Trail
  complaints : List Diagnostic
  fits : rest.length ≤ bound

def placeOf (eof : Span) : List Token → Span
  | [] => eof
  | t :: _ => t.span

def nextIs (p : Kind → Bool) : List Token → Bool
  | [] => false
  | t :: _ => p t.kind

def expected (eof : Span) (what : Expectation) (ts : List Token) : Diagnostic :=
  .error (placeOf eof ts) .expectationFailed ("Expected " ++ what.text)

def skip (value : α) (ts : List Token) (m : Trail) : Parsed ts.length α := ⟨value, ts, m, [], Nat.le_refl _⟩

def miss (eof : Span) (what : Expectation) (value : α) (ts : List Token) (m : Trail) : Parsed ts.length α :=
  ⟨value, ts, m, [expected eof what ts], Nat.le_refl _⟩

def optional (wanted : Kind → Bool) (ts : List Token) (m : Trail) : Parsed ts.length (Option Tree) :=
  match ts with
  | t :: rest =>
    if wanted t.kind then ⟨some (m.leaf t), rest, (m.pass t).grown, [], Nat.le_succ _⟩ else skip none (t :: rest) m
  | [] => skip none [] m

end DotMend.Parse
