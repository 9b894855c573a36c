import DotMend.Text.Span

namespace DotMend

inductive Severity where
  | error
  | warning
  | message
  | suggestion
  deriving DecidableEq, Repr

inductive Phase where
  | scan
  | parse
  | check
  deriving DecidableEq, Repr

inductive Code where
  | unterminated
  | unexpectedCharacter
  | expectationFailed
  | trailingData
  | invalidEdgeOperation
  deriving DecidableEq, Repr

structure Diagnostic where
  span : Span
  severity : Severity
  code : Code
  message : String
  deriving DecidableEq, Repr

namespace Phase

def number : Phase → Nat
  | scan => 1
  | parse => 2
  | check => 3

end Phase

namespace Code

def phase : Code → Phase
  | unterminated | unexpectedCharacter => .scan
  | expectationFailed | trailingData => .parse
  | invalidEdgeOperation => .check

def number : Code → Nat
  | unterminated => 1
  | unexpectedCharacter => 2
  | expectationFailed => 1
  | trailingData => 2
  | invalidEdgeOperation => 1

def text (c : Code) : String := s!"DOT{c.phase.number}00{c.number}"

end Code

namespace Diagnostic

def error (span : Span) (code : Code) (message : String) : Diagnostic := ⟨span, .error, code, message⟩

def phase (d : Diagnostic) : Phase := d.code.phase

end Diagnostic

end DotMend
