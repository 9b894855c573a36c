import DotMend.Proofs.Parse.Trace

namespace DotMend

namespace Parse

def LeafOf (t : Token) (block : List Token) : Tree → Prop
  | .token i k => i.span = t.span ∧ k = t.kind ∧ block = []
  | .identifier _ k _ => k = t.kind ∧ k.isIdentifier
  | _ => True

lemma leafOf_of_isInner {t : Token} {block : List Token} {c : Tree} (h : c.IsInner) : LeafOf t block c := by
  cases c <;> first | exact h.elim | trivial

/-- Trees stand over blocks of tokens in order; tokens may be left out between them. -/
inductive Laid : List Tree → List Token → Prop
  | nil : Laid [] []
  | gap {t f us} : Laid f us → Laid f (t :: us)
  | tree {c t block f us} : c.span = hull t block → LeafOf t block c → Laid c.children (t :: block) → Laid f us →
      Laid (c :: f) (t :: block ++ us)

namespace Laid

variable {f g : List Tree} {us vs : List Token} {c : Tree} {t : Token}

lemma gaps : ∀ us : List Token, Laid [] us
  | [] => .nil
  | _ :: us => .gap (gaps us)

lemma append (hf : Laid f us) (hg : Laid g vs) : Laid (f ++ g) (us ++ vs) := by
  induction hf with
  | nil => exact hg
  | gap _ ih => exact .gap ih
  | tree hs hl hc _ _ ih =>
    rw [List.append_assoc]
    exact .tree hs hl hc ih

lemma split (h : Laid (f ++ c :: g) us) :
    ∃ before t block behind, us = before ++ (t :: block) ++ behind ∧ c.span = hull t block ∧ LeafOf t block c ∧
      Laid c.children (t :: block) ∧ Laid f before ∧ Laid g behind := by
  generalize he : f ++ c :: g = trees at h
  induction h generalizing f with
  | nil => simp at he
  | @gap t trees us _ ih =>
    obtain ⟨before, u, block, behind, rfl, hs, hl, hc, hf, hg⟩ := ih he
    exact ⟨t :: before, u, block, behind, rfl, hs, hl, hc, .gap hf, hg⟩
  | @tree d t block trees us hs hl hc hrest _ ih =>
    cases f with
    | nil =>
      obtain ⟨rfl, rfl⟩ := List.cons.inj he
      exact ⟨[], t, block, us, rfl, hs, hl, hc, .nil, hrest⟩
    | cons e f =>
      obtain ⟨rfl, he'⟩ := List.cons.inj he
      obtain ⟨before, u, block', behind, rfl, hs', hl', hc', hf, hg⟩ := ih he'
      exact ⟨t :: block ++ before, u, block', behind, by simp, hs', hl', hc', .tree hs hl hc hf, hg⟩

lemma split_mem (h : Laid f us) (hc : c ∈ f) :
    ∃ before t block behind, us = before ++ (t :: block) ++ behind ∧ c.span = hull t block ∧ LeafOf t block c ∧
      Laid c.children (t :: block) := by
  obtain ⟨f, g, rfl⟩ := List.append_of_mem hc
  obtain ⟨before, t, block, behind, he, hs, hl, hk, -⟩ := h.split
  exact ⟨before, t, block, behind, he, hs, hl, hk⟩

end Laid

def endOf (m : Trail) (used : List Token) : Nat := (used.getLast?.map (·.span.stop)).getD m.lastEnd

lemma endOf_append (m m' : Trail) (used used' : List Token) (h : m'.lastEnd = endOf m used) :
    endOf m (used ++ used') = endOf m' used' := by
  cases used' using List.reverseRecOn with
  | nil => simpa [endOf] using h.symm
  | append_singleton us t => simp [endOf, ← List.append_assoc]

lemma endOf_cons (m : Trail) (t : Token) (ts : List Token) : endOf m (t :: ts) = (hull t ts).stop := by
  simp [endOf, hull, List.getLast?_eq_some_getLast]

theorem Steps.laid {eof : Span} {ts ts' : List Token} {m m' : Trail} {kids : List Tree} {faults : Bool}
    {cs : List Diagnostic} (h : Steps eof ts m kids faults ts' m' cs) :
    ∃ used, ts = used ++ ts' ∧ Laid kids used ∧ m'.lastEnd = endOf m used := by
  induction h with
  | stay | complain => exact ⟨[], rfl, .nil, rfl⟩
  | @pass t | @stray t => exact ⟨[t], rfl, .gaps _, rfl⟩
  | @leaf t _ m =>
    exact ⟨[t], rfl, @Laid.tree _ t [] [] [] rfl ⟨rfl, rfl, rfl⟩ (Tree.children_eq _ ▸ .gaps _) .nil, rfl⟩
  | @identifier t part ts m text faults ht =>
    refine ⟨t :: part, rfl, ?_, (endOf_cons m t part).symm⟩
    simpa using @Laid.tree (.identifier ⟨m.built, hull t part, _⟩ t.kind text) t part [] [] rfl ⟨rfl, ht⟩
      (Tree.children_eq _ ▸ .gaps _) .nil
  | @node t ts m kids faults ts' m' cs make hs hl hmake _ ih =>
    obtain ⟨used, he, hlaid, hend⟩ := ih
    cases used with
    | nil =>
      have := congrArg List.length he
      simp at this
      omega
    | cons u used =>
      obtain ⟨rfl, rfl⟩ := List.cons.inj he
      rw [endOf_cons] at hend
      have hspan (i : Tree.Info) : (make i).span = i.span := congrArg Tree.Info.span (hmake i).1
      refine ⟨t :: used, rfl, ?_, by rw [endOf_cons]; exact hend⟩
      have : Laid [m'.node t.span.start faults make] (t :: used ++ []) := by
        refine .tree ?_ ?_ ?_ .nil
        · rw [Trail.node, hspan, hend]
          rfl
        · exact leafOf_of_isInner (hmake _).2.2.1
        · rw [Trail.node, (hmake _).2.1]
          exact hlaid
      simpa using this
  | seq _ _ ih ih' =>
    obtain ⟨used, rfl, hlaid, hend⟩ := ih
    obtain ⟨used', rfl, hlaid', hend'⟩ := ih'
    exact ⟨used ++ used', by simp, hlaid.append hlaid', by rw [hend', endOf_append _ _ _ _ hend]⟩

lemma hull_bounds {t u : Token} {ts : List Token} (ho : Ordered (t :: ts)) (hu : u ∈ t :: ts) :
    (hull t ts).start ≤ u.span.start ∧ u.span.stop ≤ (hull t ts).stop := by
  constructor
  · rcases List.mem_cons.mp hu with rfl | hu
    · exact le_rfl
    · have := List.rel_of_pairwise_cons ho.apart hu
      have := ho.nonempty t (by simp)
      change t.span.start ≤ _
      omega
  · induction ts using List.reverseRecOn generalizing u with
    | nil =>
      obtain rfl := List.mem_singleton.mp hu
      exact le_rfl
    | append_singleton ts p _ =>
      rw [hull_append]
      rcases List.mem_append.mp (show u ∈ (t :: ts) ++ [p] from hu) with hu | hu
      · have := (List.pairwise_append.mp (show ((t :: ts) ++ [p]).Pairwise _ from ho.apart)).2.2 u hu p (by simp)
        have := ho.nonempty p (by simp)
        simp only
        omega
      · obtain rfl := List.mem_singleton.mp hu
        exact le_rfl

namespace Laid

variable {f : List Tree} {us : List Token} {c : Tree}

lemma exists_ends (h : Laid f us) (hc : c ∈ f) : ∃ u ∈ us, ∃ v ∈ us, c.span = ⟨u.span.start, v.span.stop⟩ := by
  obtain ⟨before, t, block, behind, rfl, hs, -⟩ := h.split_mem hc
  have hlast : (t :: block).getLast (by simp) ∈ t :: block := List.getLast_mem _
  exact ⟨t, by simp, _, List.mem_append_left _ (List.mem_append_right _ hlast), hs⟩

lemma apart (h : Laid f us) (ho : Ordered us) : f.Pairwise fun a b => a.span.stop ≤ b.span.start := by
  induction h with
  | nil => exact .nil
  | gap _ ih => exact ih ho.tail
  | @tree c t block f us hs _ _ hf _ ih =>
    refine List.pairwise_cons.mpr ⟨fun d hd => ?_, ih ho.right⟩
    obtain ⟨u, hu, v, -, hspan⟩ := hf.exists_ends hd
    rw [hs, hspan]
    exact (List.pairwise_append.mp ho.apart).2.2 _ (List.getLast_mem _) u hu

theorem placed (h : Laid f us) (ho : Ordered us) : ∀ c ∈ f, c.Everywhere Tree.Placed := by
  induction h with
  | nil => simp
  | gap _ ih => exact ih ho.tail
  | @tree c t block f us hs _ hc _ ihc ih =>
    refine List.forall_mem_cons.mpr ⟨.intro ⟨?_, fun d hd => ?_, hc.apart ho.left⟩ (ihc ho.left), ih ho.right⟩
    · rw [hs]
      exact hull_lt ho.left
    · obtain ⟨u, hu, v, hv, hspan⟩ := hc.exists_ends hd
      rw [hs, hspan]
      exact ⟨(hull_bounds ho.left hu).1, (hull_bounds ho.left hv).2⟩

end Laid

namespace Steps

variable {eof : Span} {ts ts' : List Token} {m m' : Trail} {kids : List Tree} {faults : Bool}
  {cs : List Diagnostic}

theorem proper (h : Steps eof ts m kids faults ts' m' cs) : ∀ c ∈ kids, c.Everywhere Tree.Proper := by
  induction h with
  | stay | pass | complain | stray => simp
  | leaf ht => exact List.forall_mem_singleton.mpr (.intro ht (by simp [Trail.leaf, Tree.children_eq]))
  | identifier _ _ ht => exact List.forall_mem_singleton.mpr (.intro ht (by simp [Tree.children_eq]))
  | node _ _ _ hmake _ ih =>
    refine List.forall_mem_singleton.mpr (.intro (hmake _).2.2.2 ?_)
    rw [Trail.node, (hmake _).2.1]
    exact ih
  | seq _ _ ih ih' => exact List.forall_mem_append.mpr ⟨ih, ih'⟩

lemma phase_eq (h : Steps eof ts m kids faults ts' m' cs) : ∀ d ∈ cs, d.phase = .parse := by
  induction h with
  | stay | pass | leaf => simp
  | complain | stray => simp [expected, Diagnostic.phase, Diagnostic.error, Code.phase]
  | identifier _ faults => cases faults <;> simp [expected, Diagnostic.phase, Diagnostic.error, Code.phase]
  | node _ _ _ _ _ ih => exact ih
  | seq _ _ ih ih' => exact List.forall_mem_append.mpr ⟨ih, ih'⟩

theorem numbered (h : Steps eof ts m kids faults ts' m' cs) :
    m.built ≤ m'.built ∧ (∀ c ∈ kids, m.built ≤ c.number ∧ c.number < m'.built) ∧
      (kids.Pairwise fun a b => a.number < b.number) ∧ ∀ c ∈ kids, c.Everywhere Tree.Numbered := by
  induction h with
  | stay | complain => simp
  | pass | stray => simp [Trail.pass]
  | leaf =>
    refine ⟨by simp [Trail.pass, Trail.grown], ?_, by simp, List.forall_mem_singleton.mpr (.intro ?_ ?_)⟩
    · simp [Trail.leaf, Tree.number, Tree.info, Trail.grown, Trail.pass]
    · simp [Trail.leaf, Tree.Numbered, Tree.children_eq]
    · simp [Trail.leaf, Tree.children_eq]
  | identifier =>
    refine ⟨by simp, by simp [Tree.number, Tree.info], by simp, List.forall_mem_singleton.mpr (.intro ?_ ?_)⟩
    · simp [Tree.Numbered, Tree.children_eq]
    · simp [Tree.children_eq]
  | @node t _ m kids faults ts' m' cs make _ _ hmake _ ih =>
    obtain ⟨hle, hbounds, hpair, hkids⟩ := ih
    have hnumber : (m'.node t.span.start faults make).number = m'.built := by
      rw [Trail.node, Tree.number, (hmake _).1]
    have hchildren : (m'.node t.span.start faults make).children = kids := by rw [Trail.node, (hmake _).2.1]
    refine ⟨Nat.le_succ_of_le hle, List.forall_mem_singleton.mpr ?_, by simp,
      List.forall_mem_singleton.mpr (.intro ?_ ?_)⟩
    · rw [hnumber]
      exact ⟨hle, Nat.lt_succ_self _⟩
    · rwa [Tree.Numbered, hchildren]
    · rwa [hchildren]
  | seq _ _ ih ih' =>
    obtain ⟨hle, hbounds, hpair, hkids⟩ := ih
    obtain ⟨hle', hbounds', hpair', hkids'⟩ := ih'
    refine ⟨hle.trans hle', ?_, ?_, List.forall_mem_append.mpr ⟨hkids, hkids'⟩⟩
    · intro c hc
      rcases List.mem_append.mp hc with hc | hc
      · exact ⟨(hbounds c hc).1, (hbounds c hc).2.trans_le hle'⟩
      · exact ⟨hle.trans (hbounds' c hc).1, (hbounds' c hc).2⟩
    · exact List.pairwise_append.mpr
        ⟨hpair, hpair', fun a ha b hb => (hbounds a ha).2.trans_le (hbounds' b hb).1⟩

end Steps

end Parse

end DotMend
