import DotMend.Token.Lexeme

namespace DotMend.Token

structure Scanned where
  tokens : List Token
  diagnostics : List Diagnostic
  deriving Repr

namespace Lexeme

def token? (l : Lexeme) (span : Span) : Option Token :=
  l.token.map fun (kind, value) => ⟨kind, span, String.ofList value, l.fault.isSome⟩

def diagnostic? (l : Lexeme) (span : Span) : Option Diagnostic := l.fault.map (·.diagnostic span)

end Lexeme

def scanFrom (offset : Nat) (lineStart : Bool) : Text → Scanned
  | [] => ⟨[endAt offset], []⟩
  | c :: t =>
    let lexeme := Lexeme.front lineStart c t
    let text : Text := c :: t.take lexeme.more
    let stop := offset + text.bytes
    let rest := scanFrom stop (text.getLast? == some '\n') (t.drop lexeme.more)
    let span : Span := ⟨offset, stop⟩
    ⟨(lexeme.token? span).toList ++ rest.tokens, (lexeme.diagnostic? span).toList ++ rest.diagnostics⟩
  termination_by t => t.length
  decreasing_by simp only [List.length_drop, List.length_cons]; omega

def scan (t : Text) : Scanned := scanFrom 0 true t

end DotMend.Token
