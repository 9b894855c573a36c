import DotMend.Proofs.Parse.Layout
import DotMend.Proofs.Tree.Walk

/-! Numbers and marks of the trees along a reader's way. Numbers count the trees in the order in which they are
finished; a tree is marked exactly if something went wrong where it was read. -/

namespace DotMend

namespace Tree

lemma containsErrors_eq (t : Tree) : t.containsErrors = (t.flagged || t.children.any containsErrors) := by
  rw [containsErrors]
  simp

lemma flagged_of_mem_preorder {t s : Tree} (h : t.containsErrors = false) (hs : s ∈ t.preorder fun _ => true) :
    s.flagged = false := by
  induction t using induction_on_children with
  | h t ih =>
    rw [containsErrors_eq, Bool.or_eq_false_iff, List.any_eq_false] at h
    rcases mem_preorder_iff.mp hs with rfl | ⟨c, hc, hs⟩
    · exact h.1
    · exact ih c hc (by simpa using h.2 c hc) hs

def PassesOn (t : Tree) : Prop := t.children.any flagged → t.flagged

theorem Everywhere.flagged_eq {t : Tree} (h : t.Everywhere PassesOn) : t.flagged = t.containsErrors := by
  induction t using induction_on_children with
  | h t ih =>
    have hkids : t.children.any containsErrors = t.children.any flagged := by
      rw [Bool.eq_iff_iff, List.any_eq_true, List.any_eq_true]
      refine exists_congr fun c => and_congr_right fun hc => ?_
      rw [ih c hc (h.child hc)]
    rw [containsErrors_eq, hkids]
    have hpass := h.here
    cases hany : t.children.any flagged with
    | false => rw [Bool.or_false]
    | true => rw [hpass hany, Bool.true_or]

end Tree

namespace Parse

structure Trail.Finished (m : Trail) (t : Token) (kids : List Tree) (faults : Bool) (n : Tree) : Prop where
  number : n.number = m.built
  start : n.span.start = t.span.start
  children : n.children = kids
  flagged : n.flagged = (faults || kids.any Tree.flagged)
  body : ∀ body ∈ n.statements?, ∀ s ∈ body, t.span.stop ≤ s.span.start

lemma Trail.finished_node {m : Trail} {t : Token} {kids : List Tree} {faults : Bool} {make : Tree.Info → Tree}
    (h : ∀ i, (make i).info = i ∧ (make i).children = kids ∧ (make i).IsInner ∧ (make i).Proper)
    (hb : ∀ i, ∀ body ∈ (make i).statements?, ∀ s ∈ body, t.span.stop ≤ s.span.start) :
    m.Finished t kids faults (m.node t.span.start faults make) := by
  constructor
  · rw [Trail.node, Tree.number, (h _).1]
  · rw [Trail.node, Tree.span, (h _).1]
  · rw [Trail.node, (h _).2.1]
  · rw [Trail.node, Tree.flagged, (h _).1, (h _).2.1]
  · exact hb _

namespace Steps

variable {eof : Span} {ts ts' : List Token} {m m' : Trail} {kids : List Tree} {faults : Bool}
  {cs : List Diagnostic}

theorem everywhere {P : Tree → Prop} (h : Steps eof ts m kids faults ts' m' cs) (ho : Ordered ts)
    (hleaf : ∀ c : Tree, ¬ c.IsInner → P c)
    (hnode : ∀ {t ts m kids faults ts' m' cs n}, Steps eof (t :: ts) m kids faults ts' m' cs → Ordered (t :: ts) →
      m'.Finished t kids faults n → P n) : ∀ c ∈ kids, c.Everywhere P := by
  induction h with
  | stay | pass | complain | stray => simp
  | leaf =>
    refine List.forall_mem_singleton.mpr (.intro (hleaf _ id) ?_)
    simp [Trail.leaf, Tree.children_eq]
  | identifier =>
    refine List.forall_mem_singleton.mpr (.intro (hleaf _ id) ?_)
    simp [Tree.children_eq]
  | @node t _ _ _ faults _ m' _ make hs _ hmake hb ih =>
    have hn := @Trail.finished_node m' t _ faults make hmake hb
    refine List.forall_mem_singleton.mpr (.intro (hnode hs ho hn) ?_)
    rw [hn.children]
    exact ih ho
  | seq hs _ ih ih' => exact List.forall_mem_append.mpr ⟨ih ho, ih' (hs.ordered ho)⟩

lemma opened (h : Steps eof ts m kids faults ts' m' cs) (ho : Ordered ts) :
    ∀ c ∈ kids, c.Everywhere Tree.Opened := by
  apply h.everywhere ho
  · intro c hc
    cases c with
    | token | identifier => exact nofun
    | _ => exact absurd trivial hc
  · intro t ts m kids faults ts' m' cs n _ ho hn body hbody s hs
    have ht := ho.nonempty t (by simp)
    have := hn.body body hbody s hs
    rw [hn.start]
    omega

lemma descending (h : Steps eof ts m kids faults ts' m' cs) (ho : Ordered ts) :
    ∀ c ∈ kids, c.Everywhere fun t => ∀ d ∈ t.children, d.number < t.number := by
  apply h.everywhere ho
  · intro c hc
    cases c with
    | token | identifier => simp [Tree.children_eq]
    | _ => exact absurd trivial hc
  · intro t ts m kids faults ts' m' cs n hs _ hn d hd
    rw [hn.children] at hd
    rw [hn.number]
    exact (hs.numbered.2.1 d hd).2

lemma passesOn (h : Steps eof ts m kids faults ts' m' cs) (ho : Ordered ts) :
    ∀ c ∈ kids, c.Everywhere Tree.PassesOn := by
  apply h.everywhere ho
  · intro c hc
    cases c with
    | token | identifier => simp [Tree.PassesOn, Tree.children_eq]
    | _ => exact absurd trivial hc
  · intro t ts m kids faults ts' m' cs n _ _ hn hany
    rw [hn.children] at hany
    rw [hn.flagged, hany, Bool.or_true]

theorem numbers (h : Steps eof ts m kids faults ts' m' cs) (parent : Option Nat) :
    ∃ n, m'.built = m.built + n ∧
      (kids.flatMap (Tree.postorder parent)).map (fun q => q.2.number) = List.range' m.built n := by
  induction h generalizing parent with
  | stay | pass | complain | stray => exact ⟨0, rfl, rfl⟩
  | leaf =>
    refine ⟨1, rfl, ?_⟩
    simp [Tree.postorder_eq, Trail.leaf, Tree.children_eq, Tree.number, Tree.info]
  | identifier =>
    refine ⟨1, rfl, ?_⟩
    simp [Tree.postorder_eq, Tree.children_eq, Tree.number, Tree.info]
  | @node t _ m kids faults _ m' _ make _ _ hmake hb ih =>
    have hn := @Trail.finished_node m' t _ faults make hmake hb
    obtain ⟨n, hbuilt, hrange⟩ := ih (some m'.built)
    refine ⟨n + 1, by rw [Trail.grown, hbuilt, Nat.add_assoc], ?_⟩
    rw [List.flatMap_singleton, Tree.postorder_eq, hn.children, hn.number, List.map_append, hrange,
      List.range'_1_concat, ← hbuilt, List.map_singleton, hn.number]
  | seq _ _ ih ih' =>
    obtain ⟨n, hbuilt, hrange⟩ := ih parent
    obtain ⟨n', hbuilt', hrange'⟩ := ih' parent
    refine ⟨n + n', by rw [hbuilt', hbuilt, Nat.add_assoc], ?_⟩
    rw [List.flatMap_append, List.map_append, hrange, hrange', hbuilt, List.range'_append_1]

lemma exists_expected (h : Steps eof ts m kids faults ts' m' cs) :
    ∀ d ∈ cs, ∃ what us, us <:+ ts ∧ d = expected eof what us := by
  induction h with
  | stay | pass | leaf => simp
  | @complain ts _ what => exact List.forall_mem_singleton.mpr ⟨what, ts, List.suffix_rfl, rfl⟩
  | @stray t ts _ what => exact List.forall_mem_singleton.mpr ⟨what, t :: ts, List.suffix_rfl, rfl⟩
  | @identifier t part ts _ _ faults =>
    cases faults with
    | false => simp
    | true => exact List.forall_mem_singleton.mpr ⟨.quotedPart, ts, List.suffix_append _ _, rfl⟩
  | node _ _ _ _ _ ih => exact ih
  | seq hs _ ih ih' =>
    obtain ⟨used, rfl⟩ := hs.exists_used
    refine List.forall_mem_append.mpr ⟨ih, fun d hd => ?_⟩
    obtain ⟨what, us, hus, rfl⟩ := ih' d hd
    exact ⟨what, us, hus.trans (List.suffix_append _ _), rfl⟩

/-- Something was complained about or a faulty token was used, exactly if the way or a tree on it is marked. -/
theorem marks (h : Steps eof ts m kids faults ts' m' cs)
    (hf : ∀ t ∈ ts, t.faulty → isBare t.kind = false ∧ t.kind ≠ .plus) :
    ∃ used, ts = used ++ ts' ∧ (faults || kids.any Tree.flagged) = (!cs.isEmpty || used.any Token.faulty) := by
  induction h with
  | stay => exact ⟨[], rfl, rfl⟩
  | complain => exact ⟨[], rfl, rfl⟩
  | @pass t ts m hbare =>
    refine ⟨[t], rfl, ?_⟩
    cases hfaulty : t.faulty with
    | false => simp [hfaulty]
    | true =>
      have := (hf t (by simp) hfaulty).1
      rw [hbare] at this
      contradiction
  | @stray t => exact ⟨[t], rfl, rfl⟩
  | @leaf t => exact ⟨[t], rfl, by simp [Trail.leaf, Tree.flagged, Tree.info]⟩
  | @identifier t part ts m text faults _ hpart =>
    refine ⟨t :: part, rfl, ?_⟩
    have hany : (part.any fun p => p.kind = .quoted && p.faulty) = part.any Token.faulty := by
      rw [Bool.eq_iff_iff, List.any_eq_true, List.any_eq_true]
      refine exists_congr fun p => and_congr_right fun hp => ?_
      rw [Bool.and_eq_true, decide_eq_true_eq, and_iff_right_iff_imp]
      intro hfaulty
      have hplus := (hf p (by simp [hp]) hfaulty).2
      simpa [isPart, hplus] using hpart p hp
    cases faults <;> simp [Tree.flagged, Tree.info, hany]
  | @node t _ _ _ faults _ m' _ make _ _ hmake hb ih =>
    have hn := @Trail.finished_node m' t _ faults make hmake hb
    obtain ⟨used, hused, hmarks⟩ := ih hf
    refine ⟨used, hused, ?_⟩
    rw [← hmarks, List.any_cons, hn.flagged]
    simp
  | @seq _ _ kids faults _ _ cs kids' faults' _ _ cs' _ _ ih ih' =>
    obtain ⟨used, rfl, hmarks⟩ := ih hf
    obtain ⟨used', rfl, hmarks'⟩ := ih' fun t ht => hf t (by simp [ht])
    have hempty : (cs ++ cs').isEmpty = (cs.isEmpty && cs'.isEmpty) := by cases cs <;> rfl
    refine ⟨used ++ used', by simp, ?_⟩
    calc (faults || faults' || (kids ++ kids').any Tree.flagged)
        = ((faults || kids.any Tree.flagged) || (faults' || kids'.any Tree.flagged)) := by
          rw [List.any_append]; ac_rfl
      _ = ((!cs.isEmpty || used.any Token.faulty) || (!cs'.isEmpty || used'.any Token.faulty)) := by
        rw [hmarks, hmarks']
      _ = (!(cs ++ cs').isEmpty || (used ++ used').any Token.faulty) := by
        rw [hempty, Bool.not_and, List.any_append]
        ac_rfl

end Steps

end Parse

end DotMend
