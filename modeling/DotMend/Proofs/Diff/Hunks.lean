import DotMend.Diff.Patch
import DotMend.Proofs.Diff.Route

namespace DotMend.Diff

variable {α : Type} {olds news : List α} {p o o' q : Nat × Nat}

/-- What a block does. Where nothing is removed its place in the old list does not matter, and where nothing is
added its place in the new one. -/
inductive Block.Leads (olds news : List α) : Block → Nat × Nat → Nat × Nat → Prop
  | keep {i j n : Nat} (hn : 0 < n) (h : part olds i n = part news j n) (hi : i + n ≤ olds.length)
      (hj : j + n ≤ news.length) : Leads olds news (.keep i j n) (i, j) (i + n, j + n)
  | change {i i' j j' n m : Nat} (hnm : 0 < n + m) (hn : 0 < n → i' = i) (hm : 0 < m → j' = j)
      (hi : i + n ≤ olds.length) (hj : j + m ≤ news.length) :
      Leads olds news (.change i' n j' m) (i, j) (i + n, j + m)

def Waits (place : Run → Nat) (waiting : Option Run) (i i' : Nat) : Prop :=
  (∀ r ∈ waiting, place r = i ∧ 0 < r.size) ∧ i' = i + waiting.elim 0 Run.size

lemma Waits.none {place : Run → Nat} (i : Nat) : Waits place none i i := ⟨by simp, rfl⟩

lemma Waits.join {place : Run → Nat} (hplace : ∀ (r : Run) (n : Nat), place { r with size := n } = place r)
    {waiting : Option Run} {i : Nat} {r : Run} (h : Waits place waiting i (place r)) (hr : 0 < r.size) :
    Waits place (Run.join waiting r) i (place r + r.size) := by
  obtain ⟨hwaiting, hstop⟩ := h
  cases waiting with
  | none => simpa [Waits, Run.join, hr] using hstop
  | some f =>
    obtain ⟨hf, hpos⟩ := hwaiting f rfl
    rw [hstop]
    simp [Waits, Run.join, hplace, hf, Nat.add_assoc]
    omega

lemma ofRuns_route {removed added : Option Run} {i i' j j' : Nat} (hr : Waits Run.old removed i i')
    (ha : Waits Run.new added j j') (hi : i' ≤ olds.length) (hj : j' ≤ news.length) :
    Route (Block.Leads olds news) (Block.ofRuns removed added) (i, j) (i', j') := by
  obtain ⟨hr, rfl⟩ := hr
  obtain ⟨ha, rfl⟩ := ha
  cases removed with
  | none =>
    cases added with
    | none => exact .nil
    | some a =>
      obtain ⟨ha, hpos⟩ := ha a rfl
      exact .single (.change (by omega) (fun h => absurd h (Nat.lt_irrefl 0)) (fun _ => ha) hi hj)
  | some r =>
    obtain ⟨hr, hpos⟩ := hr r rfl
    cases added with
    | none => exact .single (.change (by omega) (fun _ => hr) (fun h => absurd h (Nat.lt_irrefl 0)) hi hj)
    | some a => exact .single (.change (by omega) (fun _ => hr) (fun _ => (ha a rfl).1) hi hj)

lemma ofKept_route {kept : Option Run} (htag : ∀ k ∈ kept, k.tag = .keep)
    (h : Route (Run.Leads olds news) kept.toList p q) : Route (Block.Leads olds news) (Block.ofKept kept) p q := by
  cases kept with
  | none =>
    cases h
    exact .nil
  | some k =>
    have hk := htag k rfl
    replace h := h.of_single
    cases h with
    | keep hn h hi hj => exact .single (.keep hn h hi hj)
    | remove => cases hk
    | add => cases hk

lemma join_kept_route {kept : Option Run} {r : Run} (htag : ∀ k ∈ kept, k.tag = .keep) (hr : r.tag = .keep)
    (hk : Route (Run.Leads olds news) kept.toList p o) (h : r.Leads olds news o q) :
    (∀ k ∈ Run.join kept r, k.tag = .keep) ∧ Route (Run.Leads olds news) (Run.join kept r).toList p q := by
  cases kept with
  | none =>
    cases hk
    exact ⟨by simpa [Run.join] using hr, .single h⟩
  | some k =>
    have hk' := htag k rfl
    exact ⟨by simpa [Run.join] using hk', (hk.append (.single h)).merge (hk'.trans hr.symm)⟩

lemma blocksFrom_route {runs : List Run} {kept removed added : Option Run} {i i' j j' : Nat}
    (hr : Waits Run.old removed i i') (ha : Waits Run.new added j j') (hi : i' ≤ olds.length)
    (hj : j' ≤ news.length)
    (htag : ∀ k ∈ kept, k.tag = .keep) (hk : Route (Run.Leads olds news) kept.toList (i', j') o)
    (hone : kept = none ∨ removed = none ∧ added = none) (h : Route (Run.Leads olds news) runs o q) :
    Route (Block.Leads olds news) (blocksFrom kept removed added runs) (i, j) q := by
  induction runs generalizing kept removed added i i' j j' o with
  | nil =>
    cases h
    exact (ofRuns_route hr ha hi hj).append (ofKept_route htag hk)
  | cons r runs ih =>
    cases h with
    | cons h hs =>
      have hkept := ofKept_route htag hk
      cases h with
      | keep hn hsame hi' hj' =>
        obtain ⟨htag', hjoined⟩ := join_kept_route htag rfl hk (.keep hn hsame hi' hj')
        exact (ofRuns_route hr ha hi hj).append (ih (.none i') (.none j') hi hj htag' hjoined (.inr ⟨rfl, rfl⟩) hs)
      | remove hn hi' hj' =>
        -- Either equal items wait or changes do, never both.
        rcases hone with rfl | ⟨rfl, rfl⟩
        · cases hk
          exact ih (hr.join (fun _ _ => rfl) hn) ha hi' hj (by simp) .nil (.inl rfl) hs
        · obtain rfl : i' = i := hr.2
          obtain rfl : j' = j := ha.2
          exact hkept.append
            (ih ((Waits.none _).join (fun _ _ => rfl) hn) (.none _) hi' hj' (by simp) .nil (.inl rfl) hs)
      | add hn hi' hj' =>
        rcases hone with rfl | ⟨rfl, rfl⟩
        · cases hk
          exact ih hr (ha.join (fun _ _ => rfl) hn) hi hj' (by simp) .nil (.inl rfl) hs
        · obtain rfl : i' = i := hr.2
          obtain rfl : j' = j := ha.2
          exact hkept.append
            (ih (.none _) ((Waits.none _).join (fun _ _ => rfl) hn) hi' hj' (by simp) .nil (.inl rfl) hs)

theorem blocks_route {runs : List Run} (h : Route (Run.Leads olds news) runs (0, 0) q) :
    Route (Block.Leads olds news) (blocks runs) (0, 0) q :=
  blocksFrom_route (.none 0) (.none 0) (Nat.zero_le _) (Nat.zero_le _) (by simp) .nil (.inl rfl) h

def KeptFirst : List Block → Prop
  | .keep _ _ _ :: _ => True
  | _ => False

/-- Groups that lead from a point to the ends of both lists. What is left out in front of them and behind them is
equal. A group that does not begin with equal items begins at the start of both lists. -/
inductive Spread (olds news : List α) : Nat → Nat → List (List Block) → Prop
  | done {i j : Nat} (h : olds.drop i = news.drop j) : Spread olds news i j []
  | group {i j k i' j' : Nat} {g : List Block} {gs : List (List Block)} (hsame : part olds i k = part news j k)
      (hfirst : (i = 0 ∧ j = 0 ∧ k = 0) ∨ KeptFirst g) (hne : g ≠ [])
      (hg : Route (Block.Leads olds news) g (i + k, j + k) (i', j')) (hgs : Spread olds news i' j' gs) :
      Spread olds news i j (g :: gs)

lemma drop_eq_part_append (as : List α) (i n : Nat) : as.drop i = part as i n ++ as.drop (i + n) := by
  rw [part, ← List.drop_drop, List.take_append_drop]

lemma drop_eq_of_part {i j n : Nat} (hsame : part olds i n = part news j n)
    (h : olds.drop (i + n) = news.drop (j + n)) : olds.drop i = news.drop j := by
  rw [drop_eq_part_append olds i n, drop_eq_part_append news j n, hsame, h]

lemma shortenBefore_leads {i j n : Nat} (hn : 0 < n) (hsame : part olds i n = part news j n)
    (hi : i + n ≤ olds.length) (hj : j + n ≤ news.length) :
    (Block.keep i j n).shortenBefore.Leads olds news (i + (n - radius), j + (n - radius)) (i + n, j + n) := by
  have hsize : 0 < n - (n - radius) := by
    simp only [radius]
    omega
  have hstop : i + n = i + (n - radius) + (n - (n - radius)) ∧ j + n = j + (n - radius) + (n - (n - radius)) := by
    omega
  rw [hstop.1, hstop.2]
  exact .keep hsize (part_eq_drop _ hsame) (by omega) (by omega)

lemma shortenFirst_route {bs : List Block} {i j : Nat} (h : Route (Block.Leads olds news) bs (i, j) q) :
    ∃ k, part olds i k = part news j k ∧ (k = 0 ∨ KeptFirst (shortenFirst bs)) ∧
      Route (Block.Leads olds news) (shortenFirst bs) (i + k, j + k) q := by
  cases h with
  | nil => exact ⟨0, by simp [part], .inl rfl, .nil⟩
  | cons hb hbs =>
    cases hb with
    | @keep i j n hn hsame hi hj =>
      exact ⟨n - radius, part_eq_of_le hsame (by omega), .inr trivial,
        .cons (shortenBefore_leads hn hsame hi hj) hbs⟩
    | change hnm hn hm hi hj => exact ⟨0, by simp [part], .inl rfl, .cons (.change hnm hn hm hi hj) hbs⟩

lemma shortenAfter_leads {b : Block} {i j : Nat} (h : b.Leads olds news p (i, j))
    (hend : olds.drop i = news.drop j) :
    ∃ i' j', b.shortenAfter.Leads olds news p (i', j') ∧ olds.drop i' = news.drop j' := by
  cases h with
  | @keep i j n hn hsame hi hj =>
    have hk : 0 < min n radius ∧ min n radius ≤ n := by simp only [radius]; omega
    refine ⟨_, _, .keep hk.1 (part_eq_of_le hsame hk.2) (by omega) (by omega),
      drop_eq_of_part (part_eq_drop _ hsame) ?_⟩
    rwa [show i + min n radius + (n - min n radius) = i + n by omega,
      show j + min n radius + (n - min n radius) = j + n by omega]
  | change hnm hn hm hi hj => exact ⟨_, _, .change hnm hn hm hi hj, hend⟩

lemma shortenLast_concat (bs : List Block) (b : Block) : shortenLast (bs ++ [b]) = bs ++ [b.shortenAfter] := by
  simp [shortenLast]

lemma shortenLast_route {bs : List Block} {i j : Nat} (h : Route (Block.Leads olds news) bs p (i, j))
    (hend : olds.drop i = news.drop j) :
    ∃ i' j', Route (Block.Leads olds news) (shortenLast bs) p (i', j') ∧ olds.drop i' = news.drop j' := by
  rcases List.eq_nil_or_concat bs with rfl | ⟨bs, b, rfl⟩
  · exact ⟨i, j, h, hend⟩
  · rw [List.concat_eq_append] at h ⊢
    obtain ⟨o, hbs, hb⟩ := h.exists_of_append
    obtain ⟨i', j', hb, hend⟩ := shortenAfter_leads hb.of_single hend
    rw [shortenLast_concat]
    exact ⟨i', j', hbs.append (.single hb), hend⟩

lemma keptFirst_congr {front back back' : List Block} {b b' : Block} (h : KeptFirst (front ++ b :: back))
    (hb : KeptFirst [b] → KeptFirst [b']) : KeptFirst (front ++ b' :: back') := by
  cases front with
  | nil =>
    cases b with
    | keep =>
      cases b' with
      | keep => trivial
      | change => cases hb trivial
    | change => cases h
  | cons c _ =>
    cases c with
    | keep => trivial
    | change => cases h

lemma keptFirst_shortenLast {bs : List Block} (h : KeptFirst bs) : KeptFirst (shortenLast bs) := by
  rcases List.eq_nil_or_concat bs with rfl | ⟨bs, b, rfl⟩
  · exact h
  · rw [List.concat_eq_append] at h ⊢
    rw [shortenLast_concat]
    exact keptFirst_congr h (by cases b <;> exact id)

lemma groupsFrom_spread {pending bs : List Block} {i j k i' j' : Nat} (hsame : part olds i k = part news j k)
    (hfirst : (i = 0 ∧ j = 0 ∧ k = 0) ∨ KeptFirst (pending ++ bs))
    (hp : Route (Block.Leads olds news) pending (i + k, j + k) o)
    (hb : Route (Block.Leads olds news) bs o (i', j'))
    (hend : olds.drop i' = news.drop j') : Spread olds news i j (groupsFrom pending bs) := by
  fun_induction groupsFrom pending bs generalizing i j k o with
  | case1 =>
    cases hb
    cases hp
    exact .done (drop_eq_of_part hsame hend)
  | case2 =>
    cases hb
    have hkeep := hp.of_single
    cases hkeep with
    | keep _ hsame' _ _ => exact .done (drop_eq_of_part hsame (drop_eq_of_part hsame' hend))
  | case3 pending hnil hkeep =>
    cases hb
    rw [List.append_nil] at hfirst
    exact .group hsame hfirst hnil hp (.done hend)
  | case4 pending old new size rest hsize ih =>
    -- The equal lines are cut in three: what ends this group, what is left out, and what begins the next group.
    cases hb with
    | cons hkeep hrest =>
      cases hkeep with
      | keep hpos hsame' hi hj =>
        have hradius : 0 < min size radius ∧ min size radius ≤ size - radius := by
          simp only [radius] at hsize ⊢
          omega
        refine .group hsame (hfirst.imp_right fun h => keptFirst_congr h fun _ => trivial) (by simp)
          (hp.append (.single (.keep hradius.1 (part_eq_of_le hsame' (by omega)) (by omega) (by omega)))) ?_
        refine ih (k := size - radius - min size radius) (part_eq_of_le (part_eq_drop _ hsame') (by omega))
          (.inr trivial)
          ?_ hrest
        rw [show old + min size radius + (size - radius - min size radius) = old + (size - radius) by omega,
          show new + min size radius + (size - radius - min size radius) = new + (size - radius) by omega]
        exact .single (shortenBefore_leads hpos hsame' hi hj)
  | case5 pending old new size rest _ ih =>
    cases hb with
    | cons hkeep hrest =>
      rw [List.append_cons] at hfirst
      exact ih hsame hfirst (hp.append (.single hkeep)) hrest
  | case6 pending b rest _ ih =>
    cases hb with
    | cons hb hrest =>
      rw [List.append_cons] at hfirst
      exact ih hsame hfirst (hp.append (.single hb)) hrest

theorem groups_spread {bs : List Block} (h : Route (Block.Leads olds news) bs (0, 0) (olds.length, news.length)) :
    Spread olds news 0 0 (groups bs) := by
  obtain ⟨k, hsame, hfirst, h⟩ := shortenFirst_route h
  obtain ⟨i', j', h, hend⟩ := shortenLast_route h (by simp)
  exact groupsFrom_spread hsame (hfirst.imp (⟨rfl, rfl, ·⟩) keptFirst_shortenLast) .nil h hend

end DotMend.Diff
