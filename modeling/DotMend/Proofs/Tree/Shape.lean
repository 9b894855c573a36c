import DotMend.Parse.Statement
import DotMend.Tree.Search
import Mathlib.Data.List.Basic
import Mathlib.Tactic.Common

namespace DotMend

namespace Kind

def isStatement : Kind → Bool
  | attrStatement | edgeStatement | nodeStatement | equation | subgraphStatement => true
  | _ => false

def isEndpoint (k : Kind) : Bool := k = nodeId || k = subgraph

end Kind

namespace Tree

lemma children_eq : ∀ t : Tree, t.children = match t with
    | token .. | identifier .. => []
    | graph _ strict keyword name statements => strict.toList ++ keyword :: name.toList ++ statements
    | attrStatement _ subject attributes terminator => subject :: attributes ++ terminator.toList
    | edgeStatement _ source rhs attributes terminator => source :: rhs ++ attributes ++ terminator.toList
    | nodeStatement _ node attributes terminator => node :: attributes ++ terminator.toList
    | equation _ left right terminator => left :: right.toList ++ terminator.toList
    | subgraphStatement _ body terminator => body :: terminator.toList
    | subgraph _ keyword name statements => keyword.toList ++ name.toList ++ statements
    | nodeId _ name place => name :: place.toList
    | port _ name compass => name.toList ++ compass.toList
    | edgeRhs _ operation target => operation :: target.toList
    | attrList _ attributes => attributes
    | attr _ left right terminator => left :: right.toList ++ terminator.toList := by
  intro t
  cases t <;> simp [children, slots, Slot.trees]

def IsInner : Tree → Prop
  | token .. | identifier .. => False
  | _ => True

/-- The slots of a tree hold what the grammar has there, as far as the kinds of their roots tell. -/
def Proper : Tree → Prop
  | token _ k => k.isToken
  | identifier _ k _ => k.isIdentifier
  | graph _ strict keyword name statements =>
    (∀ s ∈ strict, s.kind = .strictKeyword) ∧ keyword.kind.graphKind?.isSome ∧ (∀ n ∈ name, n.kind.isIdentifier) ∧
      ∀ s ∈ statements, s.kind.isStatement
  | attrStatement _ subject attributes terminator =>
    Parse.isSubject subject.kind ∧ (∀ a ∈ attributes, a.kind = .attrList) ∧ ∀ e ∈ terminator, e.kind = .semicolon
  | edgeStatement _ source rhs attributes terminator =>
    source.kind.isEndpoint ∧ rhs ≠ [] ∧ (∀ r ∈ rhs, r.kind = .edgeRhs) ∧ (∀ a ∈ attributes, a.kind = .attrList) ∧
      ∀ e ∈ terminator, e.kind = .semicolon
  | nodeStatement _ node attributes terminator =>
    node.kind = .nodeId ∧ (∀ a ∈ attributes, a.kind = .attrList) ∧ ∀ e ∈ terminator, e.kind = .semicolon
  | equation _ left right terminator =>
    left.kind.isIdentifier ∧ (∀ r ∈ right, r.kind.isIdentifier) ∧ ∀ e ∈ terminator, e.kind = .semicolon
  | subgraphStatement _ body terminator => body.kind = .subgraph ∧ ∀ e ∈ terminator, e.kind = .semicolon
  | subgraph _ keyword name statements =>
    (∀ k ∈ keyword, k.kind = .subgraphKeyword) ∧ (∀ n ∈ name, n.kind.isIdentifier) ∧
      ∀ s ∈ statements, s.kind.isStatement
  | nodeId _ name place => name.kind.isIdentifier ∧ ∀ p ∈ place, p.kind = .port
  | port _ name compass => (∀ n ∈ name, n.kind.isIdentifier) ∧ ∀ c ∈ compass, c.kind.isIdentifier
  | edgeRhs _ operation target => operation.kind.isEdgeOp ∧ ∀ e ∈ target, e.kind.isEndpoint
  | attrList _ attributes => ∀ a ∈ attributes, a.kind = .attr
  | attr _ left right terminator =>
    left.kind.isIdentifier ∧ (∀ r ∈ right, r.kind.isIdentifier) ∧ ∀ e ∈ terminator, Parse.endsAttr e.kind

structure Placed (t : Tree) : Prop where
  nonempty : t.span.start < t.span.stop
  inside : ∀ c ∈ t.children, t.span.start ≤ c.span.start ∧ c.span.stop ≤ t.span.stop
  apart : t.children.Pairwise fun a b => a.span.stop ≤ b.span.start

def Numbered (t : Tree) : Prop := t.children.Pairwise fun a b => a.number < b.number

theorem induction_on_children {P : Tree → Prop} (h : ∀ t, (∀ c ∈ t.children, P c) → P t) (t : Tree) : P t :=
  h t fun c _ => induction_on_children h c
  termination_by t
  decreasing_by exact sizeOf_lt_of_mem_children ‹_›

lemma preorder_eq (t : Tree) :
    t.preorder (fun _ => true) = t :: t.children.flatMap fun c => c.preorder fun _ => true := by
  rw [preorder]
  simp

lemma edgeOperations_eq (t : Tree) :
    t.edgeOperations = t.operation?.toList ++ t.children.flatMap edgeOperations := by
  rw [edgeOperations, preorder_eq, List.filterMap_cons, List.filterMap_flatMap]
  cases t.operation? <;> rfl

inductive Everywhere (P : Tree → Prop) : Tree → Prop
  | intro {t : Tree} : P t → (∀ c ∈ t.children, Everywhere P c) → Everywhere P t

namespace Everywhere

variable {P Q : Tree → Prop} {t c : Tree}

lemma here (h : Everywhere P t) : P t := by cases h; assumption

lemma child (h : Everywhere P t) (hc : c ∈ t.children) : Everywhere P c := by
  cases h with
  | intro _ hs => exact hs c hc

lemma of_mem_preorder (h : Everywhere P t) (hc : c ∈ t.preorder fun _ => true) : Everywhere P c := by
  induction t using induction_on_children with
  | h t ih =>
    rw [preorder_eq] at hc
    rcases List.mem_cons.mp hc with rfl | hc
    · exact h
    · obtain ⟨d, hd, hc⟩ := List.mem_flatMap.mp hc
      exact ih d hd (h.child hd) hc

lemma imp (h : Everywhere P t) (hPQ : ∀ s, P s → Q s) : Everywhere Q t := by
  induction h with
  | intro here _ ih => exact .intro (hPQ _ here) ih

end Everywhere

end Tree

end DotMend
