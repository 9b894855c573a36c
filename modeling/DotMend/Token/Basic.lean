import DotMend.Kind
import DotMend.Diagnostic

namespace DotMend

structure Token where
  kind : Kind
  span : Span
  value : String
  faulty : Bool
  deriving DecidableEq, Repr

namespace Token

def endAt (offset : Nat) : Token := ⟨.endOfFile, .caret offset, "", false⟩

inductive Fault where
  | openComment
  | openString
  | openHtml
  | unexpected (c : Char)
  deriving DecidableEq, Repr

namespace Fault

def code : Fault → Code
  | unexpected _ => .unexpectedCharacter
  | _ => .unterminated

def message : Fault → String
  | openComment => "Unterminated comment"
  | openString => "Unterminated string"
  | openHtml => "Unterminated HTML string"
  | unexpected c => s!"Unexpected character '{c}'"

def diagnostic (f : Fault) (span : Span) : Diagnostic := .error span f.code f.message

end Fault

end Token

end DotMend
