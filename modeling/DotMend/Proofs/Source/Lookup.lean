import DotMend.Proofs.Source.Paths

/-! Looking for a node by its place, or by a caret on it. Nodes lie inside each other and in order, so that a
search which enters only what is around its goal misses nothing, and one which goes on through the first child that
the caret touches arrives at the first node where it can end. -/

namespace DotMend

namespace Tree

variable {t s : Tree} {offset : Nat}

def isLowest (offset : Nat) (t : Tree) : Bool :=
  t.span.touches offset && t.children.all fun c => !c.span.touches offset

lemma Everywhere.find?_eq_first (h : t.Everywhere Placed) (kind : Kind) (span : Span) :
    t.find? kind span = (t.preorder fun _ => true).find? fun s => s.kind = kind ∧ s.span = span := by
  induction t using induction_on_children with
  | h t ih =>
    rw [find?_eq, preorder_eq, List.find?_cons]
    by_cases hhere : t.kind = kind ∧ t.span = span
    · simp [hhere]
    · rw [if_neg hhere, decide_eq_false hhere, List.find?_flatMap]
      by_cases hin : t.span.encloses span
      · rw [if_pos hin]
        calc t.children.findSome? (find? kind span)
            = (t.children.map (find? kind span)).findSome? id := by rw [List.findSome?_map, Function.id_comp]
          _ = (t.children.map fun c => (c.preorder fun _ => true).find? fun s => s.kind = kind ∧
            s.span = span).findSome?
              id := by rw [List.map_congr_left fun c hc => ih c hc (h.child hc)]
          _ = t.children.findSome? _ := by rw [List.findSome?_map, Function.id_comp]
      · -- whatever lies below the node lies inside it
        rw [if_neg hin]
        symm
        rw [List.findSome?_eq_none_iff]
        intro c hc
        rw [List.find?_eq_none]
        intro s hs hat
        obtain ⟨-, rfl⟩ := of_decide_eq_true hat
        have hinside := h.inside (mem_preorder_of_mem_children hc hs)
        apply hin
        rw [Span.encloses_iff]
        exact ⟨hinside.1, hinside.2.1⟩

lemma deepest_of_forall (h : ∀ c ∈ t.children, ¬ c.span.touches offset) : t.deepest offset = t := by
  have hnone : t.children.find? (·.span.touches offset) = none := List.find?_eq_none.mpr h
  rw [deepest]
  split
  · rfl
  · rename_i hfind
    rw [hnone] at hfind
    cases hfind

lemma deepest_of_find? {c : Tree} (h : t.children.find? (·.span.touches offset) = some c) :
    t.deepest offset = c.deepest offset := by
  rw [deepest]
  split
  · simp_all
  · simp_all

lemma Everywhere.touches (h : t.Everywhere Placed) (hs : s ∈ t.preorder fun _ => true)
    (ho : s.span.touches offset) : t.span.touches offset := by
  have hinside := h.inside hs
  rw [Span.touches_iff] at ho ⊢
  omega

lemma touched_cases (t : Tree) (offset : Nat) :
    (∀ c ∈ t.children, ¬ c.span.touches offset) ∨
      ∃ front c behind, t.children = front ++ c :: behind ∧ c.span.touches offset ∧
        (∀ d ∈ front, ¬ d.span.touches offset) ∧ t.deepest offset = c.deepest offset := by
  cases hfind : t.children.find? (·.span.touches offset) with
  | none => exact .inl (List.find?_eq_none.mp hfind)
  | some c =>
    obtain ⟨hc, front, behind, hsplit, hfront⟩ := List.find?_eq_some_iff_append.mp hfind
    refine .inr ⟨front, c, behind, hsplit, hc, fun d hd => ?_, deepest_of_find? hfind⟩
    simpa using hfront d hd

lemma not_isLowest {c : Tree} (hc : c ∈ t.children) (ho : c.span.touches offset) : t.isLowest offset = false := by
  rw [isLowest, Bool.and_eq_false_iff]
  right
  rw [List.all_eq_false]
  exact ⟨c, hc, by simp [ho]⟩

lemma Everywhere.find?_isLowest (h : t.Everywhere Placed) (ho : t.span.touches offset) :
    (t.preorder fun _ => true).find? (isLowest offset) = some (t.deepest offset) := by
  induction t using induction_on_children with
  | h t ih =>
    rw [preorder_eq]
    rcases touched_cases t offset with hnone | ⟨front, c, behind, hsplit, hoc, hfront, hdeepest⟩
    · have hhere : t.isLowest offset = true := by simpa [isLowest, ho] using hnone
      rw [List.find?_cons_of_pos hhere, deepest_of_forall hnone]
    · have hc : c ∈ t.children := by simp [hsplit]
      have hskip : (front.flatMap fun d => d.preorder fun _ => true).find? (isLowest offset) = none := by
        rw [List.find?_eq_none]
        intro s hs hlow
        obtain ⟨d, hd, hsd⟩ := List.mem_flatMap.mp hs
        have hd' : d ∈ t.children := by simp [hsplit, hd]
        exact hfront d hd ((h.child hd').touches hsd (Bool.and_eq_true_iff.mp hlow).1)
      rw [List.find?_cons_of_neg (by simp [not_isLowest hc hoc]), hsplit, List.flatMap_append, List.find?_append,
        hskip, List.flatMap_cons, List.find?_append, ih c hc (h.child hc) hoc, hdeepest]
      rfl

lemma Everywhere.deepest_touches (h : t.Everywhere Placed) (ho : t.span.touches offset) :
    (t.deepest offset ∈ t.preorder fun _ => true) ∧ (t.deepest offset).span.touches offset := by
  have hfind := h.find?_isLowest ho
  have hlow : (t.deepest offset).isLowest offset = true := List.find?_some hfind
  exact ⟨List.mem_of_find?_eq_some hfind, (Bool.and_eq_true_iff.mp hlow).1⟩

lemma Everywhere.start_deepest_le (h : t.Everywhere Placed) (ho : t.span.touches offset)
    (hs : s ∈ t.preorder fun _ => true) (hlow : s.isLowest offset) :
    (t.deepest offset).span.start ≤ s.span.start := by
  induction t using induction_on_children with
  | h t ih =>
    rcases touched_cases t offset with hnone | ⟨front, c, behind, hsplit, hoc, hfront, hdeepest⟩
    · rw [deepest_of_forall hnone]
      exact (h.inside hs).1
    · have hc : c ∈ t.children := by simp [hsplit]
      have hos := (Bool.and_eq_true_iff.mp hlow).1
      rw [hdeepest]
      rcases mem_preorder_iff.mp hs with rfl | ⟨d, hd, hsd⟩
      · rw [not_isLowest hc hoc] at hlow
        contradiction
      · have hod := (h.child hd).touches hsd hos
        rw [hsplit, List.mem_append, List.mem_cons] at hd
        rcases hd with hd | rfl | hd
        · exact absurd hod (hfront d hd)
        · exact ih d hc (h.child hc) hoc hsd
        · -- the child stands behind the one that was entered
          have hapart := h.here.apart
          rw [hsplit] at hapart
          have hcd := (List.pairwise_cons.mp (List.pairwise_append.mp hapart).2.1).1 d hd
          have hd' : d ∈ t.children := by simp [hsplit, hd]
          obtain ⟨hmem, htouch⟩ := (h.child hc).deepest_touches hoc
          have hinc := (h.child hc).inside hmem
          have hins := (h.child hd').inside hsd
          omega

lemma Distinct.of_mem_preorder (h : t.Distinct) (hs : s ∈ t.preorder fun _ => true) : s.Distinct := by
  induction t using induction_on_children with
  | h t ih =>
    rcases mem_preorder_iff.mp hs with rfl | ⟨c, hc, hs⟩
    · exact h
    · exact ih c hc (h.child hc) hs

lemma Distinct.exists_path_deepest (h : t.Distinct) (hp : t.Everywhere Placed) (ho : t.span.touches offset) :
    ∃ path, t.pathTo? (t.deepest offset).number = some path ∧ path.head? = some (t.deepest offset) ∧
      ∀ b ∈ path, b.span.touches offset := by
  induction t using induction_on_children with
  | h t ih =>
    rcases touched_cases t offset with hnone | ⟨front, c, behind, hsplit, hoc, -, hdeepest⟩
    · rw [deepest_of_forall hnone, pathTo?_eq, if_pos rfl]
      exact ⟨[t], rfl, rfl, List.forall_mem_singleton.mpr ho⟩
    · have hc : c ∈ t.children := by simp [hsplit]
      have hmem := ((hp.child hc).deepest_touches hoc).1
      obtain ⟨path, hpath, hhead, hall⟩ := ih c hc (h.child hc) (hp.child hc) hoc
      rw [hdeepest, pathTo?_eq, if_neg (h.number_ne hc hmem), h.findSome?_pathTo? hc hmem, hpath]
      refine ⟨path ++ [t], rfl, ?_, List.forall_mem_append.mpr ⟨hall, List.forall_mem_singleton.mpr ho⟩⟩
      rw [List.head?_append, hhead]
      rfl

/-- The node that a caret finds below `root`: the first one where the search can end, with the caret on all nodes
on the way from it up to `root`, and the leftmost such one. -/
structure Caught (root : Tree) (offset : Nat) (s : Tree) : Prop where
  first : (root.preorder fun _ => true).find? (isLowest offset) = some s
  path : ∃ path, root.pathTo? s.number = some path ∧ path.head? = some s ∧ path.getLast? = some root ∧
    path.IsChain (fun a b => a ∈ b.children) ∧ ∀ b ∈ path, b.span.touches offset
  leftmost : ∀ b ∈ root.preorder fun _ => true, b.isLowest offset → s.span.start ≤ b.span.start

lemma atOffset?_eq_none_iff : t.atOffset? offset = none ↔ offset < t.span.start ∨ t.span.stop < offset := by
  have htouch := @Span.touches_iff t.span offset
  rw [atOffset?]
  by_cases ho : t.span.touches offset
  · simp [ho, htouch.mp ho]
  · rw [htouch] at ho
    simp [htouch]
    omega

lemma caught_of_atOffset? (hp : t.Everywhere Placed) (hd : t.Distinct) (h : t.atOffset? offset = some s) :
    t.Caught offset s := by
  rw [atOffset?] at h
  split at h
  · rename_i ho
    obtain rfl := Option.some.inj h
    obtain ⟨path, hpath, hhead, hall⟩ := hd.exists_path_deepest hp ho
    obtain ⟨hchain, hlast, -⟩ := pathTo?_spec hpath
    exact ⟨hp.find?_isLowest ho, ⟨path, hpath, hhead, hlast, hchain, hall⟩,
      fun b hb hlow => hp.start_deepest_le ho hb hlow⟩
  · cases h

end Tree

namespace Source

variable {t : Text} {number : Nat} {root : Tree}

lemma placed_of_mem_forest : ∀ c ∈ (ofText t).parse.forest, c.Everywhere Tree.Placed ∧ c.Distinct := by
  intro c hc
  rcases List.mem_append.mp hc with hc | hc
  · obtain ⟨u, rfl, hlt⟩ := exists_leaf_of_loose (Option.mem_toList.mp hc)
    have hleaf : (Parse.Trail.start.leaf u).children = [] := by simp [Parse.Trail.leaf, Tree.children_eq]
    refine ⟨.intro ⟨hlt, by simp [hleaf], by simp [hleaf]⟩ (by simp [hleaf]), ?_⟩
    rw [Tree.Distinct, Tree.preorder_eq, hleaf]
    exact List.nodup_singleton _
  · have hg : (ofText t).graph = some c := Option.mem_toList.mp hc
    obtain ⟨ps, used, h⟩ := exists_graphReading hg
    exact ⟨h.wellPlaced, distinct hg⟩

lemma placed_of_node? (h : (ofText t).parse.node? number = some root) :
    root.Everywhere Tree.Placed ∧ root.Distinct := by
  obtain ⟨n, hn, rfl⟩ := List.mem_map.mp (List.mem_of_getElem? h)
  obtain ⟨c, hc, hn⟩ := List.mem_flatMap.mp hn
  have hmem := (c.postorder_perm none).mem_iff.mp (List.mem_map_of_mem hn)
  obtain ⟨hplaced, hdistinct⟩ := placed_of_mem_forest c hc
  exact ⟨hplaced.of_mem_preorder hmem, hdistinct.of_mem_preorder hmem⟩

/-- From every node of a text, the search for a kind and a place finds the first node that has them, and fails only
if there is none. -/
theorem find?_misses_nothing (h : (ofText t).parse.node? number = some root) (kind : Kind) (span : Span) :
    root.find? kind span = (root.preorder fun _ => true).find? (fun s => s.kind = kind ∧ s.span = span) ∧
      (root.find? kind span = none ↔ ∀ s ∈ root.preorder fun _ => true, ¬ (s.kind = kind ∧ s.span = span)) := by
  have hfirst := (placed_of_node? h).1.find?_eq_first kind span
  refine ⟨hfirst, ?_⟩
  rw [hfirst, List.find?_eq_none]
  simp

theorem find?_misses_nothing_faulty :
    ∃ root, (ofText "graph \x7b a : -> \x7b b [x=] ; -- \x7d c".toList).parse.node? 14 = some root ∧
      (root.find? .attr ⟨20, 22⟩).map Tree.number = some 8 ∧ root.find? .attr ⟨22, 20⟩ = none ∧
      root.find? .attr ⟨20, 22⟩ =
      (root.preorder fun _ => true).find? (fun s => s.kind = .attr ∧ s.span = ⟨20, 22⟩) ∧
      ∀ s ∈ root.preorder fun _ => true, ¬ (s.kind = .attr ∧ s.span = ⟨22, 20⟩) := by
  have hfound : (((ofText "graph \x7b a : -> \x7b b [x=] ; -- \x7d c".toList).parse.node? 14).bind fun root =>
      (root.find? .attr ⟨20, 22⟩).map Tree.number) = some 8 := by decide +kernel
  have hnone : (((ofText "graph \x7b a : -> \x7b b [x=] ; -- \x7d c".toList).parse.node? 14).bind fun root =>
      root.find? .attr ⟨22, 20⟩).isNone := by decide +kernel
  obtain ⟨root, hroot, hnumber⟩ := Option.bind_eq_some_iff.mp hfound
  rw [hroot, Option.bind_some, Option.isNone_iff_eq_none] at hnone
  exact ⟨root, hroot, hnumber, hnone, (find?_misses_nothing hroot _ _).1,
    (find?_misses_nothing hroot _ _).2.mp hnone⟩

/-- From every node of a text, a caret finds nothing exactly if it is outside of the node. -/
theorem atOffset?_caught (h : (ofText t).parse.node? number = some root) (offset : Nat) :
    (root.atOffset? offset = none ↔ offset < root.span.start ∨ root.span.stop < offset) ∧
      ∀ s, root.atOffset? offset = some s → root.Caught offset s := by
  obtain ⟨hplaced, hdistinct⟩ := placed_of_node? h
  exact ⟨Tree.atOffset?_eq_none_iff, fun s hs => Tree.caught_of_atOffset? hplaced hdistinct hs⟩

theorem atOffset?_caught_boundary :
    ∃ root s, (ofText "graph\x7ba--b[x=]--".toList).parse.node? 10 = some root ∧ root.atOffset? 10 = some s ∧
      s.number = 4 ∧ s.span = ⟨9, 10⟩ ∧ root.Caught 10 s ∧
      (root.atOffset? 5 = none ↔ 5 < root.span.start ∨ root.span.stop < 5) := by
  have hfound : (((ofText "graph\x7ba--b[x=]--".toList).parse.node? 10).bind fun root =>
      (root.atOffset? 10).map fun s => (s.number, s.span)) = some (4, ⟨9, 10⟩) := by decide +kernel
  obtain ⟨root, hroot, hfound⟩ := Option.bind_eq_some_iff.mp hfound
  obtain ⟨s, hs, hplace⟩ := Option.map_eq_some_iff.mp hfound
  obtain ⟨hnumber, hspan⟩ := Prod.mk.inj hplace
  exact ⟨root, s, hroot, hs, hnumber, hspan, (atOffset?_caught hroot 10).2 s hs, (atOffset?_caught hroot 5).1⟩

end Source

end DotMend
