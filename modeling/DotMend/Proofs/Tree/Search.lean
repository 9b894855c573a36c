import DotMend.Proofs.Tree.Shape
import Mathlib.Data.List.Chain

namespace DotMend.Tree

variable {t s c : Tree} {span : Span} {kind : Kind} {n : Nat}

lemma find?_eq (kind : Kind) (span : Span) (t : Tree) :
    t.find? kind span = if t.kind = kind ∧ t.span = span then some t
      else if t.span.encloses span then t.children.findSome? (find? kind span) else none := by
  rw [find?]
  simp

lemma pathTo?_eq (n : Nat) (t : Tree) :
    t.pathTo? n = if t.number = n then some [t] else (t.children.findSome? (pathTo? n)).map (· ++ [t]) := by
  rw [pathTo?]
  simp

lemma mem_preorder_self (t : Tree) : t ∈ t.preorder fun _ => true := by
  rw [preorder_eq]
  exact List.mem_cons_self

lemma mem_preorder_of_mem_children (hc : c ∈ t.children) (hs : s ∈ c.preorder fun _ => true) :
    s ∈ t.preorder fun _ => true := by
  rw [preorder_eq]
  exact List.mem_cons_of_mem _ (List.mem_flatMap.mpr ⟨c, hc, hs⟩)

lemma mem_preorder_iff : (s ∈ t.preorder fun _ => true) ↔ s = t ∨
    ∃ c ∈ t.children, s ∈ c.preorder fun _ => true := by
  rw [preorder_eq, List.mem_cons, List.mem_flatMap]

lemma mem_preorder_trans (hc : c ∈ t.preorder fun _ => true) (hs : s ∈ c.preorder fun _ => true) :
    s ∈ t.preorder fun _ => true := by
  induction t using induction_on_children with
  | h t ih =>
    rcases mem_preorder_iff.mp hc with rfl | ⟨d, hd, hc⟩
    · exact hs
    · apply mem_preorder_of_mem_children hd
      exact ih d hd hc

lemma mem_preorder_child (hs : s ∈ t.preorder fun _ => true) (hc : c ∈ s.children) :
    c ∈ t.preorder fun _ => true :=
  mem_preorder_trans hs (mem_preorder_of_mem_children hc (mem_preorder_self c))

lemma Everywhere.inside (hp : Everywhere Placed t) (hs : s ∈ t.preorder fun _ => true) :
    t.span.start ≤ s.span.start ∧ s.span.stop ≤ t.span.stop ∧ s.span.start < s.span.stop := by
  induction t using induction_on_children with
  | h t ih =>
    rcases mem_preorder_iff.mp hs with rfl | ⟨c, hc, hs⟩
    · exact ⟨le_rfl, le_rfl, hp.here.nonempty⟩
    · have hin := hp.here.inside c hc
      have hrec := ih c hc (hp.child hc) hs
      omega

lemma mem_of_find? (h : t.find? kind span = some s) :
    s ∈ t.preorder (fun _ => true) ∧ s.kind = kind ∧ s.span = span := by
  induction t using induction_on_children with
  | h t ih =>
    rw [find?_eq] at h
    split at h
    · rename_i ht
      obtain rfl := Option.some.inj h
      exact ⟨mem_preorder_self t, ht⟩
    · split at h
      · obtain ⟨c, hc, h⟩ := List.exists_of_findSome?_eq_some h
        obtain ⟨hmem, hs⟩ := ih c hc h
        exact ⟨mem_preorder_of_mem_children hc hmem, hs⟩
      · simp at h

lemma ne_span_of_mem_children (hp : t.Placed) (hr : t.Proper) (hk : t.kind = .edgeStatement)
    (hall : ∀ c ∈ t.children, Placed c) (hc : c ∈ t.children) : c.span ≠ t.span := by
  cases t with
  | edgeStatement i source rhs attributes terminator =>
    obtain ⟨-, hne, -⟩ := hr
    obtain ⟨r, rhs, rfl⟩ := List.exists_cons_of_ne_nil hne
    have hapart := hp.apart
    have hsource := hp.inside source (by simp [children_eq])
    have hrhs := hp.inside r (by simp [children_eq])
    have hlt := (hall source (by simp [children_eq])).nonempty
    have hlt' := (hall r (by simp [children_eq])).nonempty
    have hcin := hp.inside c hc
    rw [children_eq] at hapart hc
    simp only [List.cons_append] at hapart hc
    have hsr := (List.pairwise_cons.mp hapart).1 r (by simp)
    intro he
    rcases List.mem_cons.mp hc with rfl | hc
    · rw [he] at hsr
      omega
    · have := (List.pairwise_cons.mp hapart).1 c hc
      rw [he] at this
      omega
  | token _ k =>
    obtain rfl : k = .edgeStatement := hk
    simp [Proper, Kind.isToken] at hr
  | identifier _ k _ =>
    obtain rfl : k = .edgeStatement := hk
    simp [Proper, Kind.isIdentifier] at hr
  | _ => cases hk

theorem find?_edgeStatement (hp : Everywhere Placed t) (hr : Everywhere Proper t)
    (hs : s ∈ t.preorder fun _ => true)
    (hk : s.kind = .edgeStatement) : t.find? .edgeStatement s.span = some s := by
  induction t using induction_on_children with
  | h t ih =>
    have hin := hp.inside hs
    rw [find?_eq]
    rcases mem_preorder_iff.mp hs with rfl | ⟨c, hc, hs⟩
    · simp [hk]
    · have hcin := (hp.child hc).inside hs
      have hcp := hp.here.inside c hc
      rw [if_neg, if_pos (by rw [Span.encloses_iff]; omega)]
      · obtain ⟨front, behind, hsplit⟩ := List.append_of_mem hc
        have hapart := hp.here.apart
        rw [hsplit] at hapart ⊢
        rw [List.findSome?_append, List.findSome?_cons, ih c hc (hp.child hc) (hr.child hc) hs]
        -- Nothing before the child is in the same place.
        have hnone : front.findSome? (find? .edgeStatement s.span) = none := by
          rw [List.findSome?_eq_none_iff]
          intro d hd
          by_contra hsome
          obtain ⟨r, hr'⟩ := Option.ne_none_iff_exists'.mp hsome
          obtain ⟨hmem, -, hspan⟩ := mem_of_find? hr'
          have hd' : d ∈ t.children := by simp [hsplit, hd]
          have hdin := (hp.child hd').inside hmem
          have := (List.pairwise_append.mp hapart).2.2 d hd c (by simp)
          rw [hspan] at hdin
          omega
        rw [hnone]
        rfl
      · rintro ⟨htk, hspan⟩
        apply ne_span_of_mem_children hp.here hr.here htk (fun d hd => (hp.child hd).here) hc
        cases hct : c.span
        cases htt : t.span
        rw [hct] at hcin hcp
        rw [htt] at hcp hspan
        rw [← hspan] at hcin
        simp only [Span.mk.injEq] at *
        omega

theorem pathTo?_spec {path : List Tree} (h : t.pathTo? n = some path) :
    path.IsChain (fun a b => a ∈ b.children) ∧ path.getLast? = some t ∧
      ∀ s ∈ path, s ∈ t.preorder fun _ => true := by
  induction t using induction_on_children generalizing path with
  | h t ih =>
    rw [pathTo?_eq] at h
    split at h
    · obtain rfl := Option.some.inj h
      refine ⟨.singleton t, rfl, fun s hs => ?_⟩
      rw [List.mem_singleton.mp hs]
      exact mem_preorder_self t
    · obtain ⟨inner, hinner, rfl⟩ := Option.map_eq_some_iff.mp h
      obtain ⟨c, hc, hpath⟩ := List.exists_of_findSome?_eq_some hinner
      obtain ⟨hchain, hlast, hmem⟩ := ih c hc hpath
      refine ⟨?_, by simp, fun s hs => ?_⟩
      · rw [List.isChain_append]
        refine ⟨hchain, .singleton t, fun a ha b hb => ?_⟩
        rw [hlast] at ha
        obtain rfl := Option.some.inj ha
        obtain rfl := Option.some.inj hb
        exact hc
      · rcases List.mem_append.mp hs with hs | hs
        · exact mem_preorder_of_mem_children hc (hmem s hs)
        · rw [List.mem_singleton.mp hs]
          exact mem_preorder_self t

end DotMend.Tree
