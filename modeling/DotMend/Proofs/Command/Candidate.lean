import DotMend.Command.Execute
import DotMend.Proofs.Source.Blocks
import DotMend.Proofs.Text.Replacement

/-! What carrying out a consolidation looks for in the text: where the statements of its candidates, their sources
and their targets are. Attributes and marks are not looked at. -/

namespace DotMend

structure SingleEdge where
  info : Tree.Info
  sourceInfo : Tree.Info
  name : Tree
  rhsInfo : Tree.Info
  operation : Tree
  target : Tree
  attributes : List Tree
  terminator : Option Tree

namespace SingleEdge

def tree (e : SingleEdge) : Tree :=
  .edgeStatement e.info (.nodeId e.sourceInfo e.name none) [.edgeRhs e.rhsInfo e.operation (some e.target)]
    e.attributes e.terminator

def candidate (e : SingleEdge) : Candidate := ⟨e.info.span, e.name.span, e.target.span⟩

def IsAt (graph : Tree) (k : Candidate) (e : SingleEdge) : Prop :=
  (e.tree ∈ graph.preorder fun _ => true) ∧ e.candidate = k

lemma eq_of_tree_eq {e e' : SingleEdge} (h : e.tree = e'.tree) : e = e' := by
  cases e
  cases e'
  simp only [tree, Tree.edgeStatement.injEq, Tree.nodeId.injEq, List.cons.injEq, Tree.edgeRhs.injEq,
    Option.some.injEq] at h
  simp [h]

lemma name_mem (e : SingleEdge) : e.name ∈ e.tree.preorder fun _ => true := by
  have hsource : .nodeId e.sourceInfo e.name none ∈ e.tree.preorder fun _ => true :=
    Tree.mem_preorder_of_mem_children (by simp [tree, Tree.children_eq]) (Tree.mem_preorder_self _)
  exact Tree.mem_preorder_trans hsource
    (Tree.mem_preorder_of_mem_children (by simp [Tree.children_eq]) (Tree.mem_preorder_self _))

lemma rhs_mem (e : SingleEdge) : .edgeRhs e.rhsInfo e.operation (some e.target) ∈ e.tree.preorder fun _ => true :=
  Tree.mem_preorder_of_mem_children (by simp [tree, Tree.children_eq]) (Tree.mem_preorder_self _)

lemma target_mem (e : SingleEdge) : e.target ∈ e.tree.preorder fun _ => true :=
  Tree.mem_preorder_trans e.rhs_mem
    (Tree.mem_preorder_of_mem_children (by simp [Tree.children_eq]) (Tree.mem_preorder_self _))

end SingleEdge

section Reading

variable {t : Text} {ps : List Token.Piece} {used : List Token} {graph : Tree} {k : Candidate}

lemma SingleEdge.IsAt.unique (h : Source.GraphReading t ps used graph) {e e' : SingleEdge} (he : e.IsAt graph k)
    (he' : e'.IsAt graph k) : e = e' := by
  have hfind := Tree.find?_edgeStatement h.wellPlaced h.proper he.1 rfl
  have hfind' := Tree.find?_edgeStatement h.wellPlaced h.proper he'.1 rfl
  have hspan : e.tree.span = e'.tree.span := congrArg Candidate.statement (he.2.trans he'.2.symm)
  rw [hspan, hfind'] at hfind
  exact (eq_of_tree_eq (Option.some.inj hfind)).symm

lemma Candidate.isIn_iff (h : Source.GraphReading t ps used graph) :
    k.isIn graph ↔ ∃ e, SingleEdge.IsAt graph k e := by
  constructor
  · intro hin
    unfold isIn at hin
    split at hin
    · rename_i i j name r op target attributes terminator hfind
      obtain ⟨hmem, -, hspan⟩ := Tree.mem_of_find? hfind
      obtain ⟨hsource, htarget⟩ := Bool.and_eq_true_iff.mp hin
      refine ⟨⟨i, j, name, r, op, target, attributes, terminator⟩, hmem, ?_⟩
      rw [SingleEdge.candidate, of_decide_eq_true hsource, of_decide_eq_true htarget,
        show i.span = k.statement from hspan]
    · cases hin
  · rintro ⟨e, hmem, rfl⟩
    have hfind := Tree.find?_edgeStatement h.wellPlaced h.proper hmem rfl
    rw [isIn, show e.candidate.statement = e.tree.span from rfl, hfind]
    simp [SingleEdge.tree, SingleEdge.candidate]

lemma SingleEdge.IsAt.exists_slices (h : Source.GraphReading t ps used graph) {e : SingleEdge}
    (he : e.IsAt graph k) : (∃ x, t.slice? k.source = some x) ∧ ∃ y, t.slice? k.target = some y := by
  obtain ⟨hmem, rfl⟩ := he
  obtain ⟨x, -, hx⟩ := h.exists_slice (Tree.mem_preorder_trans hmem e.name_mem)
  obtain ⟨y, -, hy⟩ := h.exists_slice (Tree.mem_preorder_trans hmem e.target_mem)
  exact ⟨⟨x, hx⟩, y, hy⟩

lemma Candidate.verify_eq_ok_iff (h : Source.GraphReading t ps used graph) {x : Text} :
    k.verify t (Source.ofText t) = .ok x ↔ (∃ e, SingleEdge.IsAt graph k e) ∧ t.slice? k.source = some x := by
  rw [verify, h.parsed, ← k.isIn_iff h]
  cases hin : k.isIn graph with
  | false => simp [hin]
  | true => cases t.slice? k.source <;> simp [hin]

end Reading

namespace Consolidation

variable {t : Text} {source : Source}

lemma target_eq_ok_iff {seed : Option Text} {k : Candidate} {x y : Text} :
    target t source seed k = .ok (x, y) ↔
      k.verify t source = .ok x ∧ (∀ s ∈ seed, x = s) ∧ t.slice? k.target = some y := by
  rw [target, bind_eq_ok_iff]
  dsimp only
  constructor
  · rintro ⟨text, hverify, h⟩
    have hseed : ∀ s ∈ seed, text = s := by
      rintro s rfl
      by_contra hs
      simp only [hs, ne_eq, not_false_eq_true, if_true] at h
      cases h
    cases hslice : t.slice? k.target with
    | none => cases seed <;> simp_all [throw, throwThe, MonadExceptOf.throw]
    | some z =>
      obtain ⟨rfl, rfl⟩ : text = x ∧ z = y := by cases seed <;> simp_all [pure, Except.pure]
      exact ⟨hverify, hseed, rfl⟩
  · rintro ⟨hverify, hseed, hslice⟩
    refine ⟨x, hverify, ?_⟩
    rw [hslice]
    cases seed with
    | none => rfl
    | some s =>
      simp only [hseed s rfl, ne_eq, not_true_eq_false, if_false]
      rfl

lemma targets_eq_ok_iff {c : Consolidation} {seed : Candidate} {rest : List Candidate} {texts : List Text} :
    c.targets t source seed rest = .ok texts ↔
      ∃ x y others, target t source none seed = .ok (x, y) ∧
        rest.mapM (target t source (if c.literal then some x else none)) = .ok others ∧
        texts = y :: others.map Prod.snd := by
  rw [targets, bind_eq_ok_iff]
  constructor
  · rintro ⟨⟨x, y⟩, hseed, h⟩
    obtain ⟨others, hothers, h⟩ := bind_eq_ok_iff.mp h
    exact ⟨x, y, others, hseed, hothers, (Except.ok.inj h).symm⟩
  · rintro ⟨x, y, others, hseed, hothers, rfl⟩
    exact ⟨(x, y), hseed, bind_eq_ok_iff.mpr ⟨others, hothers, rfl⟩⟩

lemma edits_eq_ok_iff {c : Consolidation} {edits : List Edit} :
    c.edits t source = .ok edits ↔
      ∃ seed rest texts, c.candidates = seed :: rest ∧ rest ≠ [] ∧ c.targets t source seed rest = .ok texts ∧
        edits = ⟨seed.target, group texts, "Group edge targets"⟩ ::
          rest.map fun r => .delete (removal t.utf8 r.statement) "Remove consolidated edge statement" := by
  obtain ⟨literal, candidates⟩ := c
  rcases candidates with _ | ⟨seed, _ | ⟨k, rest⟩⟩
  · simp [Consolidation.edits]
  · simp [Consolidation.edits]
  · rw [Consolidation.edits, bind_eq_ok_iff]
    constructor
    · rintro ⟨texts, htargets, h⟩
      exact ⟨seed, k :: rest, texts, rfl, by simp, htargets, (Except.ok.inj h).symm⟩
    · rintro ⟨seed', rest', texts, hcandidates, -, htargets, rfl⟩
      obtain ⟨rfl, rfl⟩ := List.cons.inj hcandidates
      exact ⟨texts, htargets, rfl⟩

end Consolidation

end DotMend
