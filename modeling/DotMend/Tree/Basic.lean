import DotMend.Kind
import DotMend.Text.Span

/-!
Syntax trees. A node has named slots for its parts; tokens and identifiers are leaves. `slots` gives the filled
slots in grammar order and `children` their trees, which is all that walks and searches look at.
-/

namespace DotMend

namespace Tree

/-- What every node has: a number in the order in which nodes were built, its place, and whether it or a node below
it was found to be at fault. -/
structure Info where
  number : Nat
  span : Span
  flagged : Bool
  deriving DecidableEq, Repr

end Tree

inductive Tree where
  | token (info : Tree.Info) (kind : Kind)
  | identifier (info : Tree.Info) (kind : Kind) (text : String)
  | graph (info : Tree.Info) (strict : Option Tree) (keyword : Tree) (name : Option Tree) (statements : List Tree)
  | attrStatement (info : Tree.Info) (subject : Tree) (attributes : List Tree) (terminator : Option Tree)
  | edgeStatement (info : Tree.Info) (source : Tree) (rhs attributes : List Tree) (terminator : Option Tree)
  | nodeStatement (info : Tree.Info) (node : Tree) (attributes : List Tree) (terminator : Option Tree)
  | equation (info : Tree.Info) (left : Tree) (right terminator : Option Tree)
  | subgraphStatement (info : Tree.Info) (body : Tree) (terminator : Option Tree)
  | subgraph (info : Tree.Info) (keyword name : Option Tree) (statements : List Tree)
  | nodeId (info : Tree.Info) (name : Tree) (place : Option Tree)
  | port (info : Tree.Info) (name compass : Option Tree)
  | edgeRhs (info : Tree.Info) (operation : Tree) (target : Option Tree)
  | attrList (info : Tree.Info) (attributes : List Tree)
  | attr (info : Tree.Info) (left : Tree) (right terminator : Option Tree)
  deriving Repr

namespace Tree

def info : Tree → Info
  | token i .. | identifier i .. | graph i .. | attrStatement i .. | edgeStatement i .. | nodeStatement i ..
  | equation i .. | subgraphStatement i .. | subgraph i .. | nodeId i .. | port i .. | edgeRhs i .. | attrList i ..
  | attr i .. => i

def number (t : Tree) : Nat := t.info.number

def span (t : Tree) : Span := t.info.span

def flagged (t : Tree) : Bool := t.info.flagged

def kind : Tree → Kind
  | token _ k => k
  | identifier _ k _ => k
  | graph .. => .graph
  | attrStatement .. => .attrStatement
  | edgeStatement .. => .edgeStatement
  | nodeStatement .. => .nodeStatement
  | equation .. => .equation
  | subgraphStatement .. => .subgraphStatement
  | subgraph .. => .subgraph
  | nodeId .. => .nodeId
  | port .. => .port
  | edgeRhs .. => .edgeRhs
  | attrList .. => .attrList
  | attr .. => .attr

/-- A filled slot: one tree, or the non-empty list of a repeated part. -/
inductive Slot where
  | one (t : Tree)
  | many (ts : List Tree)
  deriving Repr

namespace Slot

def trees : Slot → List Tree
  | one t => [t]
  | many ts => ts

def ofOption (t : Option Tree) : List Slot := (t.map one).toList

def ofList : List Tree → List Slot
  | [] => []
  | t :: ts => [many (t :: ts)]

end Slot

def slots : Tree → List Slot
  | token .. | identifier .. => []
  | graph _ strict keyword name statements =>
    Slot.ofOption strict ++ .one keyword :: Slot.ofOption name ++ Slot.ofList statements
  | attrStatement _ subject attributes terminator =>
    .one subject :: Slot.ofList attributes ++ Slot.ofOption terminator
  | edgeStatement _ source rhs attributes terminator =>
    .one source :: Slot.ofList rhs ++ Slot.ofList attributes ++ Slot.ofOption terminator
  | nodeStatement _ node attributes terminator => .one node :: Slot.ofList attributes ++ Slot.ofOption terminator
  | equation _ left right terminator => .one left :: Slot.ofOption right ++ Slot.ofOption terminator
  | subgraphStatement _ body terminator => .one body :: Slot.ofOption terminator
  | subgraph _ keyword name statements => Slot.ofOption keyword ++ Slot.ofOption name ++ Slot.ofList statements
  | nodeId _ name place => .one name :: Slot.ofOption place
  | port _ name compass => Slot.ofOption name ++ Slot.ofOption compass
  | edgeRhs _ operation target => .one operation :: Slot.ofOption target
  | attrList _ attributes => Slot.ofList attributes
  | attr _ left right terminator => .one left :: Slot.ofOption right ++ Slot.ofOption terminator

def children (t : Tree) : List Tree := t.slots.flatMap Slot.trees

@[simp] theorem Slot.trees_ofOption (t : Option Tree) : (Slot.ofOption t).flatMap Slot.trees = t.toList := by
  cases t <;> rfl

@[simp] theorem Slot.trees_ofList (ts : List Tree) : (Slot.ofList ts).flatMap Slot.trees = ts := by
  cases ts <;> simp [Slot.ofList, Slot.trees]

theorem sizeOf_lt_of_mem_toList {c : Tree} {o : Option Tree} (h : c ∈ o.toList) : sizeOf c < sizeOf o := by
  cases o with
  | none => simp at h
  | some t =>
    obtain rfl : c = t := by simpa using h
    simp

theorem sizeOf_lt_of_mem_children {c t : Tree} (h : c ∈ t.children) : sizeOf c < sizeOf t := by
  have one {o : Option Tree} (h : c ∈ o.toList) : sizeOf c < sizeOf o := sizeOf_lt_of_mem_toList h
  have many {ts : List Tree} (h : c ∈ ts) : sizeOf c < sizeOf ts := List.sizeOf_lt_of_mem h
  cases t <;> simp [children, slots, Slot.trees] at h <;> simp <;> grind

def graphKind? : Tree → Option GraphKind
  | graph _ _ keyword _ _ => keyword.kind.graphKind?
  | _ => none

def edgeOp? (t : Tree) : Option EdgeOp := t.kind.edgeOp?

def identifierText? : Tree → Option String
  | identifier _ _ text => some text
  | _ => none

def statements? : Tree → Option (List Tree)
  | graph _ _ _ _ statements => some statements
  | subgraph _ _ _ statements => some statements
  | _ => none

end Tree

end DotMend
