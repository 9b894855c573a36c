import DotMend.Proofs.Source.Nodes

namespace DotMend

namespace Tree

def Distinct (t : Tree) : Prop := ((t.preorder fun _ => true).map number).Nodup

variable {t s b c d : Tree} {n : Nat}

lemma Distinct.number_ne (h : t.Distinct) (hc : c ∈ t.children) (hs : s ∈ c.preorder fun _ => true) :
    t.number ≠ s.number := by
  rw [Distinct, preorder_eq, List.map_cons, List.nodup_cons] at h
  intro he
  apply h.1
  rw [he]
  exact List.mem_map_of_mem (List.mem_flatMap.mpr ⟨c, hc, hs⟩)

lemma Distinct.below
    (h : t.Distinct) : (t.children.flatMap fun c => (c.preorder fun _ => true).map number).Nodup := by
  rw [Distinct, preorder_eq, List.map_cons, List.nodup_cons, List.map_flatMap] at h
  exact h.2

lemma Distinct.child (h : t.Distinct) (hc : c ∈ t.children) : c.Distinct := (List.nodup_flatMap.mp h.below).1 c hc

lemma Distinct.eq_child (h : t.Distinct) (hc : c ∈ t.children) (hd : d ∈ t.children)
    (hs : s ∈ c.preorder fun _ => true)
    (hb : b ∈ d.preorder fun _ => true) (hn : s.number = b.number) : c = d := by
  by_contra hne
  have : Std.Symm (Function.onFun List.Disjoint fun c : Tree => (c.preorder fun _ => true).map number) :=
    ⟨fun _ _ h _ ha hb => h hb ha⟩
  apply (List.nodup_flatMap.mp h.below).2.forall hc hd hne (List.mem_map_of_mem hs)
  rw [hn]
  exact List.mem_map_of_mem hb

lemma pathTo?_eq_none_iff : t.pathTo? n = none ↔ ∀ s ∈ t.preorder fun _ => true, s.number ≠ n := by
  induction t using induction_on_children with
  | h t ih =>
    rw [pathTo?_eq, preorder_eq, List.forall_mem_cons]
    split
    · simp_all
    · rename_i hn
      rw [Option.map_eq_none_iff, List.findSome?_eq_none_iff]
      simp only [List.mem_flatMap, forall_exists_index, and_imp]
      constructor
      · intro hnone
        refine ⟨hn, fun s c hc hs => ?_⟩
        exact (ih c hc).mp (hnone c hc) s hs
      · intro hall c hc
        exact (ih c hc).mpr fun s hs => hall.2 s c hc hs

lemma Distinct.findSome?_pathTo? (h : t.Distinct) (hc : c ∈ t.children) (hs : s ∈ c.preorder fun _ => true) :
    t.children.findSome? (pathTo? s.number) = c.pathTo? s.number := by
  cases hfound : t.children.findSome? (pathTo? s.number) with
  | none => exact (List.findSome?_eq_none_iff.mp hfound c hc).symm
  | some path =>
    obtain ⟨d, hd, hpath⟩ := List.exists_of_findSome?_eq_some hfound
    have hsome : d.pathTo? s.number ≠ none := by simp [hpath]
    rw [Ne, pathTo?_eq_none_iff] at hsome
    push Not at hsome
    obtain ⟨b, hb, hn⟩ := hsome
    rw [h.eq_child hc hd hs hb hn.symm, hpath]

theorem Distinct.pathTo?_child (h : t.Distinct) (hb : b ∈ t.preorder fun _ => true) (hc : c ∈ b.children) :
    t.pathTo? c.number = (t.pathTo? b.number).map (c :: ·) := by
  induction t using induction_on_children with
  | h t ih =>
    rcases mem_preorder_iff.mp hb with rfl | ⟨d, hd, hb⟩
    · rw [pathTo?_eq, if_neg (h.number_ne hc (mem_preorder_self c)), h.findSome?_pathTo? hc (mem_preorder_self c),
        pathTo?_eq c.number, if_pos rfl, pathTo?_eq _ b, if_pos rfl]
      rfl
    · have hcd := mem_preorder_child hb hc
      rw [pathTo?_eq c.number, if_neg (h.number_ne hd hcd), h.findSome?_pathTo? hd hcd, ih d hd (h.child hd) hb,
        pathTo?_eq b.number t, if_neg (h.number_ne hd hb), h.findSome?_pathTo? hd hb, Option.map_map,
        Option.map_map]
      rfl

lemma eq_or_exists_parent (hs : s ∈ t.preorder fun _ => true) :
    s = t ∨ ∃ b ∈ t.preorder fun _ => true, s ∈ b.children := by
  induction t using induction_on_children with
  | h t ih =>
    rcases mem_preorder_iff.mp hs with rfl | ⟨c, hc, hs⟩
    · exact .inl rfl
    · right
      rcases ih c hc hs with rfl | ⟨b, hb, hsb⟩
      · exact ⟨t, mem_preorder_self t, hc⟩
      · exact ⟨b, mem_preorder_of_mem_children hc hb, hsb⟩

end Tree

namespace Source

variable {t : Text} {g b c s : Tree}

lemma distinct (hg : (ofText t).graph = some g) : g.Distinct := by
  obtain ⟨ps, rest, m, cs, h⟩ := exists_graphWay hg
  have hwalked := (Parse.rooted_of_steps hg h.loose h.steps h.ordered).walked
  exact hwalked.nodup_iff.mpr List.nodup_range

lemma eq_of_number (hg : (ofText t).graph = some g) (hs : s ∈ g.preorder fun _ => true)
    (hb : b ∈ g.preorder fun _ => true) (hn : s.number = b.number) : s = b :=
  List.inj_on_of_nodup_map (distinct hg) hs hb hn

lemma path_eq (hg : (ofText t).graph = some g) (s : Tree) :
    (ofText t).parse.path s = (g.pathTo? s.number).getD [] := by
  obtain ⟨ps, rest, m, cs, h⟩ := exists_graphWay hg
  have hforest : (ofText t).parse.forest = [g] := by
    rw [Source.graph] at hg
    simp [Parse.forest, h.loose, hg]
  rw [Parse.path, hforest, List.findSome?_singleton]

lemma path_root (hg : (ofText t).graph = some g) : (ofText t).parse.path g = [g] := by
  rw [path_eq hg, Tree.pathTo?_eq, if_pos rfl]
  rfl

theorem path_child (hg : (ofText t).graph = some g) (hb : b ∈ g.preorder fun _ => true) (hc : c ∈ b.children) :
    (ofText t).parse.path c = c :: (ofText t).parse.path b := by
  rw [path_eq hg, path_eq hg, (distinct hg).pathTo?_child hb hc]
  cases hpath : g.pathTo? b.number with
  | none => exact absurd rfl (Tree.pathTo?_eq_none_iff.mp hpath b hb)
  | some path => rfl

lemma parent_of_path {a : Tree} {l : List Tree} (hg : (ofText t).graph = some g)
    (hs : s ∈ g.preorder fun _ => true) (h : (ofText t).parse.path s = a :: l) :
    a = s ∧ (l = [] ∨ ∃ b ∈ g.preorder fun _ => true, s ∈ b.children ∧ (ofText t).parse.path b = l) := by
  rcases Tree.eq_or_exists_parent hs with rfl | ⟨b, hb, hsb⟩
  · rw [path_root hg] at h
    obtain ⟨rfl, rfl⟩ := List.cons.inj h
    exact ⟨rfl, .inl rfl⟩
  · rw [path_child hg hb hsb] at h
    obtain ⟨rfl, rfl⟩ := List.cons.inj h
    exact ⟨rfl, .inr ⟨b, hb, hsb, rfl⟩⟩

lemma exists_path_iff (hg : (ofText t).graph = some g) {part seed holder : Tree} :
    (part ∈ g.preorder (fun _ => true) ∧ ∃ a l, (ofText t).parse.path part = a :: seed :: holder :: l) ↔
      part ∈ seed.children ∧ seed ∈ holder.children ∧ holder ∈ g.preorder fun _ => true := by
  constructor
  · rintro ⟨hpart, a, l, hpath⟩
    obtain ⟨rfl, hnil | ⟨b, hb, hab, hpath⟩⟩ := parent_of_path hg hpart hpath
    · cases hnil
    obtain ⟨rfl, hnil | ⟨c, hc, hbc, hpath⟩⟩ := parent_of_path hg hb hpath
    · cases hnil
    obtain ⟨rfl, -⟩ := parent_of_path hg hc hpath
    exact ⟨hab, hbc, hc⟩
  · rintro ⟨hpart, hseed, hholder⟩
    have hmem := Tree.mem_preorder_child hholder hseed
    refine ⟨Tree.mem_preorder_child hmem hpart, part, ?_⟩
    rw [path_child hg hmem hpart, path_child hg hholder hseed]
    rcases Tree.eq_or_exists_parent hholder with rfl | ⟨b, hb, hsb⟩
    · exact ⟨[], by rw [path_root hg]⟩
    · exact ⟨_, by rw [path_child hg hb hsb]⟩

end Source

end DotMend
