import DotMend.Command.Basic
import DotMend.Diagnostic
import DotMend.Json.Decode

namespace DotMend

open Json.Decoder

namespace Span

def toJson (s : Span) : Json := .object [("end", .nat s.stop), ("start", .nat s.start)]

def decoder : Json.Decoder Span :=
  record "TextRange" (((Fields.all Span.mk).and "start" natural).and "end" natural)

end Span

namespace EdgeOp

def names : List (String × EdgeOp) := [("directed", .directed), ("undirected", .undirected)]

def name : EdgeOp → String
  | directed => "directed"
  | undirected => "undirected"

end EdgeOp

namespace GraphKind

def names : List (String × GraphKind) := [("graph", .graph), ("digraph", .digraph)]

end GraphKind

namespace OperatorChange

def toJson (c : OperatorChange) : Json :=
  .object [("from", .string c.current.name), ("operation", c.operation.toJson), ("to", .string c.wanted.name)]

def decoder : Json.Decoder OperatorChange :=
  record "ChangeEdgeOpArgs" ((((Fields.all OperatorChange.mk).and "operation" Span.decoder).and "from"
    (variant EdgeOp.names)).and "to" (variant EdgeOp.names))

end OperatorChange

namespace GraphFix

def toJson (f : GraphFix) : Json :=
  .object [("from", .string f.current.keyword), ("keyword", f.keyword.toJson),
    ("operations", .array (f.operations.map Span.toJson)), ("to", .string f.wanted.keyword)]

def decoder : Json.Decoder GraphFix :=
  record "FixGraphArgs" (((((Fields.all GraphFix.mk).and "keyword" Span.decoder).and "from"
    (variant GraphKind.names)).and "to" (variant GraphKind.names)).and "operations" (sequence Span.decoder))

end GraphFix

namespace Candidate

def toJson (c : Candidate) : Json :=
  .object [("source", c.source.toJson), ("statement", c.statement.toJson), ("target", c.target.toJson)]

def decoder : Json.Decoder Candidate :=
  record "ConsolidationCandidate" ((((Fields.all Candidate.mk).and "statement" Span.decoder).and "source"
    Span.decoder).and "target" Span.decoder)

end Candidate

namespace Consolidation

def toJson (c : Consolidation) : Json :=
  .object [("candidates", .array (c.candidates.map Candidate.toJson)), ("literal", .bool c.literal)]

def decoder : Json.Decoder Consolidation :=
  record "ConsolidateArgs" (((Fields.all Consolidation.mk).and "literal" boolean).and "candidates"
    (sequence Candidate.decoder))

end Consolidation

namespace Command

def arguments : Command → Json
  | changeOperator c => c.toJson
  | fixGraph f => f.toJson
  | consolidate c => c.toJson

/-- The name that is written beside the payload. It is spelt out a second time, apart from the names that are
looked up. -/
def tag : Command → String
  | changeOperator _ => "DOT.changeEdgeOp"
  | fixGraph _ => "DOT.changeAllOtherEdgeOpsAndFixGraph"
  | consolidate _ => "DOT.consolidateDescendants"

theorem tag_eq_id (c : Command) : c.tag = c.id := by
  cases c <;> rfl

def toJson (c : Command) : Json := .object [("arguments", c.arguments), ("command", .string c.tag)]

def decoders (names : List String) : List (String × Json.Decoder Command) :=
  names.zip [fun r v => (OperatorChange.decoder r v).map changeOperator,
    fun r v => (GraphFix.decoder r v).map fixGraph, fun r v => (Consolidation.decoder r v).map consolidate]

def variants : List (String × Json.Decoder Command) :=
  decoders ["DOT.changeEdgeOp", "DOT.changeAllOtherEdgeOpsAndFixGraph", "DOT.consolidateDescendants"]

def payloads : List (String × Json.Decoder Command) := decoders ids

theorem variants_eq_payloads : variants = payloads := rfl

def decoder : Json.Decoder Command := tagged "Command" "command" "arguments" variants

end Command

namespace Severity

def names : List (String × Severity) :=
  [("error", .error), ("warning", .warning), ("message", .message), ("suggestion", .suggestion)]

def name : Severity → String
  | error => "error"
  | warning => "warning"
  | message => "message"
  | suggestion => "suggestion"

end Severity

namespace Phase

def name : Phase → String
  | scan => "scan"
  | parse => "parse"
  | check => "check"

end Phase

namespace Code

def name : Code → String
  | unterminated => "unterminated"
  | unexpectedCharacter => "unexpectedCharacter"
  | expectationFailed => "expectationFailed"
  | trailingData => "trailingData"
  | invalidEdgeOperation => "invalidEdgeOperation"

def toJson (c : Code) : Json := .object [("code", .string c.name), ("phase", .string c.phase.name)]

def decoder : Json.Decoder Code :=
  tagged "DiagnosticCode" "phase" "code"
    [(Phase.scan.name,
      variant [(unterminated.name, unterminated), (unexpectedCharacter.name, unexpectedCharacter)]),
      (Phase.parse.name, variant [(expectationFailed.name, expectationFailed), (trailingData.name, trailingData)]),
      (Phase.check.name, variant [(invalidEdgeOperation.name, invalidEdgeOperation)])]

end Code

namespace Diagnostic

def toJson (d : Diagnostic) : Json :=
  .object [("category", .string d.severity.name), ("code", d.code.toJson), ("message", .string d.message),
    ("range", d.span.toJson)]

def decoder : Json.Decoder Diagnostic :=
  record "Diagnostic" (((((Fields.all Diagnostic.mk).and "range" Span.decoder).and "category"
    (variant Severity.names)).and "code" Code.decoder).and "message" text)

end Diagnostic

end DotMend
