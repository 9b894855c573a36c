namespace DotMend

inductive EdgeOp where
  | directed
  | undirected
  deriving DecidableEq, Repr

inductive GraphKind where
  | graph
  | digraph
  deriving DecidableEq, Repr

inductive Kind where
  | unknown
  | endOfFile
  | openBrace
  | closeBrace
  | openBracket
  | closeBracket
  | colon
  | semicolon
  | comma
  | equals
  | plus
  | directedOp
  | undirectedOp
  | strictKeyword
  | graphKeyword
  | digraphKeyword
  | nodeKeyword
  | edgeKeyword
  | subgraphKeyword
  | word
  | quoted
  | html
  | numeral
  | graph
  | attrStatement
  | edgeStatement
  | nodeStatement
  | equation
  | subgraphStatement
  | subgraph
  | nodeId
  | port
  | edgeRhs
  | attrList
  | attr
  deriving DecidableEq, Repr

def sameWord (a b : List Char) : Bool := a.map Char.toLower == b.map Char.toLower

namespace EdgeOp

def text : EdgeOp → String
  | directed => "->"
  | undirected => "--"

def ofText? (t : List Char) : Option EdgeOp :=
  if t = ['-', '>'] then some directed else if t = ['-', '-'] then some undirected else none

def opposite : EdgeOp → EdgeOp
  | directed => undirected
  | undirected => directed

def graphKind : EdgeOp → GraphKind
  | directed => .digraph
  | undirected => .graph

def kind : EdgeOp → Kind
  | directed => .directedOp
  | undirected => .undirectedOp

@[simp] theorem opposite_opposite (op : EdgeOp) : op.opposite.opposite = op := by cases op <;> rfl

theorem opposite_ne (op : EdgeOp) : op.opposite ≠ op := by cases op <;> simp [opposite]

theorem ofText?_eq_some_iff {t : List Char} {op : EdgeOp} : ofText? t = some op ↔ t = op.text.toList := by
  constructor
  · intro h
    unfold ofText? at h
    split at h
    · obtain rfl := Option.some.inj h
      assumption
    · split at h
      · obtain rfl := Option.some.inj h
        assumption
      · cases h
  · rintro rfl
    cases op <;> decide

theorem text_inj {op op' : EdgeOp} (h : op.text.toList = op'.text.toList) : op = op' :=
  Option.some.inj ((ofText?_eq_some_iff.mpr rfl).symm.trans (ofText?_eq_some_iff.mpr h))

end EdgeOp

namespace GraphKind

def keyword : GraphKind → String
  | graph => "graph"
  | digraph => "digraph"

def ofText? (t : List Char) : Option GraphKind :=
  if sameWord t "graph".toList then some graph
  else if sameWord t "digraph".toList then some digraph
  else none

def opposite : GraphKind → GraphKind
  | graph => digraph
  | digraph => graph

def allowedOp : GraphKind → EdgeOp
  | graph => .undirected
  | digraph => .directed

@[simp] theorem opposite_opposite (k : GraphKind) : k.opposite.opposite = k := by cases k <;> rfl

@[simp] theorem allowedOp_opposite (k : GraphKind) : k.opposite.allowedOp = k.allowedOp.opposite := by
  cases k <;> rfl

@[simp] theorem graphKind_allowedOp (k : GraphKind) : k.allowedOp.graphKind = k := by cases k <;> rfl

end GraphKind

namespace Kind

def isIdentifier : Kind → Bool
  | word | quoted | html | numeral => true
  | _ => false

def edgeOp? : Kind → Option EdgeOp
  | directedOp => some .directed
  | undirectedOp => some .undirected
  | _ => none

def isEdgeOp (k : Kind) : Bool := k.edgeOp?.isSome

def graphKind? : Kind → Option GraphKind
  | graphKeyword => some .graph
  | digraphKeyword => some .digraph
  | _ => none

/-- Tokens that carry no text of their own; identifiers are not among them. -/
def isToken : Kind → Bool
  | word | quoted | html | numeral | graph | attrStatement | edgeStatement | nodeStatement | equation
  | subgraphStatement | subgraph | nodeId | port | edgeRhs | attrList | attr => false
  | _ => true

def keywords : List (String × Kind) :=
  [("strict", strictKeyword), ("graph", graphKeyword), ("digraph", digraphKeyword), ("node", nodeKeyword),
    ("edge", edgeKeyword), ("subgraph", subgraphKeyword)]

def ofKeyword? (word : List Char) : Option Kind :=
  (keywords.find? fun k => sameWord k.1.toList word).map Prod.snd

@[simp] theorem edgeOp?_kind (op : EdgeOp) : op.kind.edgeOp? = some op := by cases op <;> rfl

end Kind

end DotMend
