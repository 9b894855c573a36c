import DotMend.Parse.Statement

namespace DotMend

/-- The graph of a token list if it has one, the `strict` that no graph follows, and the complaints. -/
structure Parse where
  graph : Option Tree
  loose : Option Tree
  diagnostics : List Diagnostic
  deriving Repr

namespace Parse

def forest (p : Parse) : List Tree := p.loose.toList ++ p.graph.toList

def isGraphKeyword (k : Kind) : Bool := k = .graphKeyword || k = .digraphKeyword

def trailing (limit : Nat) : List Token → List Diagnostic
  | [] => []
  | t :: _ => [.error ⟨t.span.start, limit⟩ .trailingData "Content after the end of the graph"]

def graphFrom (eof : Span) (limit start : Nat) (strict : Option Tree) (k : Token) (ts : List Token) (m : Trail) :
    Parse :=
  let name := optionalIdentifier eof ts (m.pass k).grown
  let body := bracedBody eof name.rest name.trail
  ⟨some (body.trail.node start body.value.2 (.graph · strict (m.leaf k) name.value body.value.1)), none,
    name.complaints ++ body.complaints ++ trailing limit body.rest⟩

def source (eof : Span) (limit : Nat) (ts : List Token) : Parse :=
  match ts with
  | [] => ⟨none, none, []⟩
  | t :: _ =>
    let strict := optional (· = .strictKeyword) ts .start
    match strict.rest with
    | k :: rest =>
      if isGraphKeyword k.kind then graphFrom eof limit t.span.start strict.value k rest strict.trail
      else ⟨none, strict.value, [expected eof .graphKeyword (k :: rest)]⟩
    | [] => ⟨none, strict.value, [expected eof .graphKeyword []]⟩

def endsFile (t : Token) : Bool := t.kind = .endOfFile

def closed (tokens : List Token) : List Token :=
  match tokens.getLast? with
  | none => [.endAt 0]
  | some t => if endsFile t then tokens else tokens ++ [.endAt t.span.stop]

def ofTokens (tokens : List Token) : Parse :=
  let tokens := closed tokens
  let eof := (tokens.find? endsFile).elim (.caret 0) Token.span
  let limit := tokens.dropLast.getLast?.elim 0 (·.span.stop)
  source eof limit (tokens.takeWhile (!endsFile ·))

end Parse

end DotMend
