import DotMend.Proofs.Parse.Trace
import DotMend.Proofs.Tree.Search
import Mathlib.Data.List.Pairwise
import Mathlib.Data.List.Perm.Basic

namespace DotMend

namespace Kind

/-- A tree is of a lower level than the trees around it, up to the next brace. -/
def level : Kind → Nat
  | graph => 5
  | attrStatement | edgeStatement | nodeStatement | equation | subgraphStatement => 4
  | edgeRhs | attrList => 3
  | subgraph | nodeId | attr => 2
  | port => 1
  | _ => 0

variable {k : Kind}

lemma level_of_isToken (h : k.isToken) : k.level = 0 := by
  cases k <;> simp [isToken, level] at *

lemma level_of_isIdentifier (h : k.isIdentifier) : k.level = 0 := by
  cases k <;> simp [isIdentifier, level] at *

lemma level_of_isEndpoint (h : k.isEndpoint) : k.level = 2 := by
  cases k <;> simp [isEndpoint, level] at *

end Kind

namespace Tree

variable {t s c : Tree} {parent q : Option Nat}

lemma postorder_eq (parent : Option Nat) (t : Tree) :
    t.postorder parent = t.children.flatMap (postorder (some t.number)) ++ [(parent, t)] := by
  rw [postorder]
  simp

lemma postorder_perm (parent : Option Nat) (t : Tree) :
    ((t.postorder parent).map Prod.snd).Perm (t.preorder fun _ => true) := by
  induction t using induction_on_children generalizing parent with
  | h t ih =>
    rw [postorder_eq, preorder_eq, List.map_append, List.map_flatMap]
    apply (List.perm_append_singleton _ _).trans
    apply List.Perm.cons
    exact List.Perm.flatMap_left _ fun c hc => ih c hc _

lemma mem_postorder_iff : (q, c) ∈ t.postorder parent ↔
    q = parent ∧ c = t ∨ ∃ s ∈ t.preorder (fun _ => true), c ∈ s.children ∧ q = some s.number := by
  induction t using induction_on_children generalizing parent with
  | h t ih =>
    rw [postorder_eq, List.mem_append, List.mem_singleton, Prod.mk.injEq, List.mem_flatMap, or_comm]
    apply or_congr_right
    constructor
    · rintro ⟨d, hd, hc⟩
      rcases (ih d hd).mp hc with ⟨rfl, rfl⟩ | ⟨s, hs, hcs, rfl⟩
      · exact ⟨t, mem_preorder_self t, hd, rfl⟩
      · exact ⟨s, mem_preorder_of_mem_children hd hs, hcs, rfl⟩
    · rintro ⟨s, hs, hc, rfl⟩
      rcases mem_preorder_iff.mp hs with rfl | ⟨d, hd, hs⟩
      · exact ⟨c, hc, (ih c hc).mpr (.inl ⟨rfl, rfl⟩)⟩
      · exact ⟨d, hd, (ih d hd).mpr (.inr ⟨s, hs, hc, rfl⟩)⟩

def Opened (t : Tree) : Prop := ∀ body ∈ t.statements?, ∀ s ∈ body, t.span.start < s.span.start

lemma level_lt_of_mem_children (hp : t.Proper) (ho : t.Opened) (hc : c ∈ t.children) :
    c.kind.level < t.kind.level ∨ t.span.start < c.span.start := by
  rw [children_eq] at hc
  cases t with
  | token | identifier => simp at hc
  | graph | subgraph =>
    simp only [Opened, statements?, Option.mem_def, Option.some.injEq, forall_eq'] at ho
    simp only [Proper, List.mem_append, List.mem_cons, Option.mem_toList, Option.mem_def] at hp hc
    grind [kind, Kind.level, Kind.level_of_isToken, Kind.level_of_isIdentifier, Parse.isToken_of_graphKind?]
  | _ =>
    left
    simp only [Proper, List.mem_append, List.mem_cons, Option.mem_toList, Option.mem_def] at hp hc
    grind [kind, Kind.level, Kind.level_of_isToken, Kind.level_of_isIdentifier, Kind.level_of_isEndpoint,
      Parse.isToken_of_isSubject, Parse.isToken_of_endsAttr, Parse.isToken_of_isEdgeOp]

structure Sound (t : Tree) : Prop where
  proper : t.Everywhere Proper
  placed : t.Everywhere Placed
  opened : t.Everywhere Opened

lemma Sound.child (h : t.Sound) (hc : c ∈ t.children) : c.Sound :=
  ⟨h.proper.child hc, h.placed.child hc, h.opened.child hc⟩

lemma Sound.level_lt (h : t.Sound) (hs : s ∈ t.preorder fun _ => true) :
    s = t ∨ s.kind.level < t.kind.level ∨ t.span.start < s.span.start := by
  induction t using induction_on_children with
  | h t ih =>
    rcases mem_preorder_iff.mp hs with rfl | ⟨c, hc, hs⟩
    · exact .inl rfl
    · right
      have hlevel := level_lt_of_mem_children h.proper.here h.opened.here hc
      have hinside := h.placed.here.inside c hc
      have hbelow := (h.placed.child hc).inside hs
      rcases ih c hc (h.child hc) hs with rfl | hlt
      · exact hlevel
      · omega

lemma Sound.eq_root (h : t.Sound) (hs : s ∈ t.preorder fun _ => true) (hlevel : s.kind.level = t.kind.level)
    (hstart : s.span.start = t.span.start) : s = t := by
  rcases h.level_lt hs with rfl | hlt | hlt
  · rfl
  · exact absurd hlt hlevel.not_lt
  · exact absurd hlt hstart.not_gt

def Apart (a b : Tree) : Prop := a.span.stop ≤ b.span.start ∨ b.span.stop ≤ a.span.start

instance : Std.Symm Apart := ⟨fun _ _ => Or.symm⟩

/-- Of the nodes that start at one place, each has a level of its own. -/
theorem Sound.eq_of_level_of_start {a b : Tree} (h : t.Sound) (ha : a ∈ t.preorder fun _ => true)
    (hb : b ∈ t.preorder fun _ => true) (hlevel : a.kind.level = b.kind.level)
    (hstart : a.span.start = b.span.start) : a = b := by
  induction t using induction_on_children with
  | h t ih =>
    rcases mem_preorder_iff.mp ha with rfl | ⟨c, hc, ha'⟩
    · exact (h.eq_root hb hlevel.symm hstart.symm).symm
    rcases mem_preorder_iff.mp hb with rfl | ⟨d, hd, hb'⟩
    · exact h.eq_root ha hlevel hstart
    by_cases hcd : c = d
    · subst hcd
      exact ih c hc (h.child hc) ha' hb'
    · have hpair : t.children.Pairwise Apart := h.placed.here.apart.imp .inl
      have hapart : c.Apart d := hpair.forall hc hd hcd
      have hina := (h.placed.child hc).inside ha'
      have hinb := (h.placed.child hd).inside hb'
      unfold Apart at hapart
      omega

theorem Sound.eq_of_kind_of_span {a b : Tree} (h : t.Sound) (ha : a ∈ t.preorder fun _ => true)
    (hb : b ∈ t.preorder fun _ => true) (hk : a.kind = b.kind) (hs : a.span = b.span) : a = b :=
  h.eq_of_level_of_start ha hb (by rw [hk]) (by rw [hs])

end Tree

end DotMend
