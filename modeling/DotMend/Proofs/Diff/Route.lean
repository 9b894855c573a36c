import DotMend.Diff.Slide
import Mathlib.Data.List.TakeDrop

/-!
A script leads from one list to another. Its runs are steps between points, which count the items of both lists
that lie behind; sliding a run keeps where a script leads. The place of a removal in the new list and that of an
addition in the old one do not matter for this, and sliding does not always keep them right.
-/

namespace DotMend.Diff

variable {α σ : Type}

lemma drop_part (as : List α) (i n k : Nat) : (part as i n).drop k = part as (i + k) (n - k) := by
  rw [part, List.drop_take, List.drop_drop, part]

lemma take_part {k n : Nat} (as : List α) (i : Nat) (h : k ≤ n) : (part as i n).take k = part as i k := by
  rw [part, List.take_take, Nat.min_eq_left h, part]

lemma part_append (as : List α) (i n m : Nat) : part as i n ++ part as (i + n) m = part as i (n + m) := by
  rw [part, part, part, ← List.drop_drop, ← List.take_add]

lemma length_part {as : List α} {i n : Nat} (h : i + n ≤ as.length) : (part as i n).length = n := by
  simp only [part, List.length_take, List.length_drop]
  omega

lemma part_eq_of_le {as bs : List α} {i j n k : Nat} (h : part as i n = part bs j n) (hk : k ≤ n) :
    part as i k = part bs j k := by
  rw [← take_part as i hk, h, take_part bs j hk]

lemma part_eq_drop {as bs : List α} {i j n : Nat} (k : Nat) (h : part as i n = part bs j n) :
    part as (i + k) (n - k) = part bs (j + k) (n - k) := by
  rw [← drop_part, h, drop_part]

def StandsAt (olds : List α) (i : Nat) (as : List α) : Prop :=
  i + as.length ≤ olds.length ∧ part olds i as.length = as

lemma StandsAt.left {olds as bs : List α} {i : Nat} (h : StandsAt olds i (as ++ bs)) : StandsAt olds i as := by
  obtain ⟨hle, h⟩ := h
  rw [List.length_append] at hle h
  refine ⟨by omega, ?_⟩
  rw [← take_part olds i (Nat.le_add_right as.length bs.length), h, List.take_left]

lemma StandsAt.right {olds as bs : List α} {i : Nat} (h : StandsAt olds i (as ++ bs)) :
    StandsAt olds (i + as.length) bs := by
  obtain ⟨hle, h⟩ := h
  rw [List.length_append] at hle h
  refine ⟨by omega, ?_⟩
  have := drop_part olds i (as.length + bs.length) as.length
  rw [h, List.drop_left, Nat.add_sub_cancel_left] at this
  exact this.symm

inductive Route (leads : σ → Nat × Nat → Nat × Nat → Prop) : List σ → Nat × Nat → Nat × Nat → Prop
  | nil {p : Nat × Nat} : Route leads [] p p
  | cons {s : σ} {ss : List σ} {p o q : Nat × Nat} (h : leads s p o) (hs : Route leads ss o q) :
      Route leads (s :: ss) p q

namespace Route

variable {leads : σ → Nat × Nat → Nat × Nat → Prop} {p o q : Nat × Nat} {ss ts us : List σ}

lemma single {s : σ} (h : leads s p q) : Route leads [s] p q := .cons h .nil

lemma append (h : Route leads ss p o) (h' : Route leads ts o q) : Route leads (ss ++ ts) p q := by
  induction h with
  | nil => exact h'
  | cons h _ ih => exact .cons h (ih h')

lemma exists_of_append (h : Route leads (ss ++ ts) p q) : ∃ o, Route leads ss p o ∧ Route leads ts o q := by
  induction ss generalizing p with
  | nil => exact ⟨p, .nil, h⟩
  | cons s ss ih =>
    cases h with
    | cons h hs =>
      obtain ⟨o, hss, hts⟩ := ih hs
      exact ⟨o, .cons h hss, hts⟩

lemma of_single {s : σ} (h : Route leads [s] p q) : leads s p q := by
  cases h with
  | cons h hs =>
    cases hs
    exact h

lemma of_pair {s t : σ} (h : Route leads [s, t] p q) : ∃ o, leads s p o ∧ leads t o q := by
  cases h with
  | cons h hs => exact ⟨_, h, hs.of_single⟩

lemma replace (hts : ∀ {p q}, Route leads ts p q → Route leads us p q) {front back : List σ}
    (h : Route leads (front ++ (ts ++ back)) p q) : Route leads (front ++ (us ++ back)) p q := by
  obtain ⟨o, hfront, h⟩ := h.exists_of_append
  obtain ⟨o', h, hback⟩ := h.exists_of_append
  exact hfront.append ((hts h).append hback)

end Route

/-- What a run does: equal items are passed in both lists, removed ones in the old list and added ones in the new
one. -/
inductive Run.Leads (olds news : List α) : Run → Nat × Nat → Nat × Nat → Prop
  | keep {i j n : Nat} (hn : 0 < n) (h : part olds i n = part news j n) (hi : i + n ≤ olds.length)
      (hj : j + n ≤ news.length) : Leads olds news ⟨.keep, i, j, n⟩ (i, j) (i + n, j + n)
  | remove {i j j' n : Nat} (hn : 0 < n) (hi : i + n ≤ olds.length) (hj : j ≤ news.length) :
      Leads olds news ⟨.remove, i, j', n⟩ (i, j) (i + n, j)
  | add {i i' j n : Nat} (hn : 0 < n) (hi : i ≤ olds.length) (hj : j + n ≤ news.length) :
      Leads olds news ⟨.add, i', j, n⟩ (i, j) (i, j + n)

variable {olds news : List α} {p q : Nat × Nat}

lemma Run.Leads.size_pos {r : Run} (h : r.Leads olds news p q) : 0 < r.size := by
  cases h <;> assumption

lemma keeping_route {i j : Nat} {as : List α} (hi : StandsAt olds i as) (hj : StandsAt news j as) :
    Route (Run.Leads olds news) (keeping i j as.length) (i, j) (i + as.length, j + as.length) := by
  unfold keeping
  split
  · rename_i h
    rw [h]
    exact .nil
  · exact .single (.keep (by omega) (hi.2.trans hj.2.symm) hi.1 hj.1)

lemma whole_route {i j : Nat} {as bs : List α} (hi : StandsAt olds i as) (hj : StandsAt news j bs)
    (has : as.length ≠ 0) (hbs : bs.length ≠ 0) :
    Route (Run.Leads olds news) [⟨.remove, i, j, as.length⟩, ⟨.add, i, j, bs.length⟩] (i, j)
      (i + as.length, j + bs.length) :=
  .cons (.remove (by omega) hi.1 (by have := hj.1; omega)) (.single (.add (by omega) hi.1 hj.1))

namespace Route

lemma size_pos {front back : List Run} {r : Run} (h : Route (Run.Leads olds news) (front ++ r :: back) p q) :
    0 < r.size := by
  obtain ⟨o, -, h⟩ := h.exists_of_append
  cases h with
  | cons h _ => exact h.size_pos

lemma swap {r s : Run} (hr : r.tag ≠ .keep) (hs : s.tag ≠ .keep) (hne : r.tag ≠ s.tag)
    (h : Route (Run.Leads olds news) [r, s] p q) : Route (Run.Leads olds news) [s, r] p q := by
  obtain ⟨o, h, h'⟩ := h.of_pair
  cases h with
  | keep => exact absurd rfl hr
  | remove hn hi hj =>
    cases h' with
    | keep => exact absurd rfl hs
    | remove => exact absurd rfl hne
    | add hm _ hj' => exact .cons (.add hm (by omega) hj') (.single (.remove hn hi hj'))
  | add hn hi hj =>
    cases h' with
    | keep => exact absurd rfl hs
    | remove hm hi' _ => exact .cons (.remove hm hi' (by omega)) (.single (.add hn hi' hj))
    | add => exact absurd rfl hne

lemma merge {r s : Run} (htag : r.tag = s.tag) (h : Route (Run.Leads olds news) [r, s] p q) :
    Route (Run.Leads olds news) [{ r with size := r.size + s.size }] p q := by
  obtain ⟨o, h, h'⟩ := h.of_pair
  cases h with
  | keep hn hsame hi hj =>
    cases h' with
    | keep hm hsame' hi' hj' =>
      rw [Nat.add_assoc] at hi' hj'
      simp only [Nat.add_assoc]
      exact .single (.keep (by omega) (by rw [← part_append, ← part_append, hsame, hsame']) hi' hj')
    | remove => cases htag
    | add => cases htag
  | remove hn hi hj =>
    cases h' with
    | remove hm hi' _ =>
      rw [Nat.add_assoc] at hi'
      simp only [Nat.add_assoc]
      exact .single (.remove (by omega) hi' hj)
    | keep => cases htag
    | add => cases htag
  | add hn hi hj =>
    cases h' with
    | add hm _ hj' =>
      rw [Nat.add_assoc] at hj'
      simp only [Nat.add_assoc]
      exact .single (.add (by omega) hi hj')
    | keep => cases htag
    | remove => cases htag

lemma cons_dropEmpty {i j n : Nat} {rest : List Run} (hsame : part olds i n = part news j n)
    (hi : i + n ≤ olds.length) (hj : j + n ≤ news.length) (h : Route (Run.Leads olds news) rest (i + n, j + n) q) :
    Route (Run.Leads olds news) (dropEmpty ⟨.keep, i, j, n⟩ rest) (i, j) q := by
  unfold dropEmpty
  split
  · rename_i hn
    simp only at hn
    rwa [hn] at h
  · rename_i hn
    exact .cons (.keep (Nat.pos_of_ne_zero hn) hsame hi hj) h

lemma give_below {kept : Run} (hkept : kept.tag = .keep) {after : List Run}
    (h : Route (Run.Leads olds news) (kept :: after) p q) :
    Route (Run.Leads olds news) (giveBelow kept after) p q := by
  unfold giveBelow
  split
  · rename_i next rest
    split
    · rename_i hnext
      obtain ⟨o, hpair, hrest⟩ := exists_of_append (show Route _ ([kept, next] ++ rest) p q from h)
      have hmerged := hpair.merge (hkept.trans hnext.symm)
      obtain ⟨o', hk, hn⟩ := hpair.of_pair
      cases hk with
      | remove => cases hkept
      | add => cases hkept
      | keep =>
        cases hn with
        | remove => cases hnext
        | add => cases hnext
        | @keep _ _ m =>
          simp only [Nat.add_sub_cancel, Nat.add_comm m]
          exact hmerged.append hrest
    · exact h
  · exact h

lemma give_above {kept : Run} (hkept : kept.tag = .keep) {before : List Run}
    (h : Route (Run.Leads olds news) (before.reverse ++ [kept]) p q) :
    Route (Run.Leads olds news) (giveAbove kept before).reverse p q := by
  unfold giveAbove
  split
  · rename_i prev rest
    split
    · rename_i hprev
      rw [List.reverse_cons, List.append_assoc] at h
      rw [List.reverse_cons]
      obtain ⟨o, hfront, h⟩ := h.exists_of_append
      exact hfront.append (h.merge (hprev.trans hkept.symm))
    · simpa using h
  · simpa using h

end Route

lemma dropEmpty_append (r : Run) (rs ss : List Run) : dropEmpty r rs ++ ss = dropEmpty r (rs ++ ss) := by
  unfold dropEmpty
  split <;> rfl

lemma reverse_dropEmpty (r : Run) (rs ss : List Run) :
    (dropEmpty r rs).reverse ++ ss = rs.reverse ++ dropEmpty r ss := by
  unfold dropEmpty
  split <;> simp

variable [DecidableEq α]

lemma drop_commonSuffix (as bs : List α) :
    as.drop (as.length - commonSuffix as bs) = bs.drop (bs.length - commonSuffix as bs) := by
  have h := take_commonPrefix as.reverse bs.reverse
  rw [List.take_reverse, List.take_reverse] at h
  exact List.reverse_inj.mp h

lemma commonSuffix_le (as bs : List α) : commonSuffix as bs ≤ as.length ∧ commonSuffix as bs ≤ bs.length := by
  have hl := commonPrefix_le_left as.reverse bs.reverse
  have hr := commonPrefix_le_right as.reverse bs.reverse
  rw [List.length_reverse] at hl hr
  exact ⟨hl, hr⟩

lemma exists_trim (as bs : List α) : ∃ x z, as = x ++ ((trim as bs).left ++ z) ∧
    bs = x ++ ((trim as bs).right ++ z) ∧
    x.length = (trim as bs).head ∧ z.length = (trim as bs).tail := by
  have hpre := take_commonPrefix as bs
  have hle := commonPrefix_le_left as bs
  have hsuf := drop_commonSuffix (as.drop (commonPrefix as bs)) (bs.drop (commonPrefix as bs))
  have hle' := commonSuffix_le (as.drop (commonPrefix as bs)) (bs.drop (commonPrefix as bs))
  refine ⟨as.take (commonPrefix as bs),
    (as.drop (commonPrefix as bs)).drop ((as.drop (commonPrefix as bs)).length -
    commonSuffix (as.drop (commonPrefix as bs)) (bs.drop (commonPrefix as bs))), ?_, ?_, ?_, ?_⟩
  · simp only [trim, ← List.length_drop, List.take_append_drop]
  · rw [hsuf, hpre]
    simp only [trim, ← List.length_drop, List.take_append_drop]
  · simp only [trim, List.length_take]
    omega
  · rw [List.length_drop]
    simp only [trim]
    omega

lemma scriptFrom_route {i j : Nat} {as bs : List α} (hi : StandsAt olds i as) (hj : StandsAt news j bs) :
    Route (Run.Leads olds news) (scriptFrom i j as bs) (i, j) (i + as.length, j + bs.length) := by
  induction hk : as.length + bs.length using Nat.strongRecOn generalizing i j as bs with
  | ind k ih =>
    obtain ⟨x, z, has, hbs, hx, hz⟩ := exists_trim as bs
    rw [scriptFrom]
    split
    rename_i head left right tail ht
    rw [ht] at has hbs hx hz
    simp only at has hbs hx hz
    have hlength : as.length = x.length + left.length + z.length ∧
        bs.length = x.length + right.length + z.length := by
      rw [has, hbs]
      simp only [List.length_append]
      omega
    rw [has] at hi
    rw [hbs] at hj
    have hleft := hi.right.left
    have hright := hj.right.left
    rw [hlength.1, hlength.2, ← Nat.add_assoc, ← Nat.add_assoc, ← Nat.add_assoc, ← Nat.add_assoc]
    subst hx hz
    refine ((keeping_route hi.left hj.left).append ?_).append (keeping_route hi.right.right hj.right.right)
    split_ifs with h hr hl
    · rw [h.1, h.2]
      exact .nil
    · rw [hr]
      exact .single (.remove (by omega) hleft.1 (by have := hright.1; omega))
    · rw [hl]
      exact .single (.add (by omega) (by have := hleft.1; omega) hright.1)
    · split
      · exact whole_route hleft hright hl hr
      · rename_i u v _
        split_ifs with hpoint
        · have hu : (left.take u).length = u := by simp only [List.length_take]; omega
          have hv : (right.take v).length = v := by simp only [List.length_take]; omega
          rw [← List.take_append_drop u left] at hleft
          rw [← List.take_append_drop v right] at hright
          have h₁ := ih _ (by simp only [List.length_take]; omega) hleft.left hright.left rfl
          have h₂ := ih _ (by simp only [List.length_drop]; omega) hleft.right hright.right rfl
          have hl' : i + x.length + u + (left.drop u).length = i + x.length + left.length := by
            simp only [List.length_drop]
            omega
          have hr' : j + x.length + v + (right.drop v).length = j + x.length + right.length := by
            simp only [List.length_drop]
            omega
          rw [hu, hv] at h₁ h₂
          rw [hl', hr'] at h₂
          exact h₁.append h₂
        · exact whole_route hleft hright hl hr

theorem script_route (as bs : List α) : Route (Run.Leads as bs) (script as bs) (0, 0) (as.length, bs.length) := by
  have hstands (cs : List α) : StandsAt cs 0 cs := ⟨by omega, by simp [part]⟩
  simpa [script] using scriptFrom_route (hstands as) (hstands bs)

lemma Route.slide_up {above run : Run} {n : Nat} (hn : slack olds news above run = n) (hpos : 0 < n)
    (habove : above.tag = .keep) (h : Route (Run.Leads olds news) [above, run] p q) :
    Route (Run.Leads olds news)
      (dropEmpty { above with size := above.size - n } [{ run with old := run.old - n, new := run.new - n },
        ⟨.keep, above.old + above.size - n, run.new + run.size - n, n⟩]) p q := by
  obtain ⟨o, h, h'⟩ := h.of_pair
  cases h with
  | remove => cases habove
  | add => cases habove
  | @keep i j w hw hsame hi hj =>
    cases h' with
    | keep => simp [slack] at hn; omega
    | remove => simp [slack] at hn; omega
    | @add _ i' _ m hm _ hj' =>
      rw [slack, if_pos rfl] at hn
      have hle := commonSuffix_le (part olds i w) (part news (j + w) m)
      have hdrop := drop_commonSuffix (part olds i w) (part news (j + w) m)
      rw [hn, length_part hi, length_part hj'] at hle hdrop
      rw [drop_part, drop_part] at hdrop
      obtain ⟨k, rfl⟩ := Nat.exists_eq_add_of_le' hle.1
      obtain ⟨l, rfl⟩ := Nat.exists_eq_add_of_le' hle.2
      simp only [Nat.add_sub_cancel, Nat.add_sub_cancel_left] at hdrop ⊢
      rw [show j + (k + n) - n = j + k by omega, show i + (k + n) - n = i + k by omega,
        show j + (k + n) + (l + n) - n = j + k + (l + n) by omega, ← Nat.add_assoc i k n,
        show j + (k + n) + (l + n) = j + k + (l + n) + n by omega]
      rw [show j + (k + n) + l = j + k + (l + n) by omega] at hdrop
      exact .cons_dropEmpty (part_eq_of_le hsame (Nat.le_add_right k n)) (by omega) (by omega)
        (.cons (.add hm (by omega) (by omega)) (.single (.keep hpos hdrop (by omega) (by omega))))

lemma Route.slide_down {below run : Run} {n : Nat} (hn : slackBelow olds news below run = n) (hpos : 0 < n)
    (hbelow : below.tag = .keep) (h : Route (Run.Leads olds news) [run, below] p q) :
    Route (Run.Leads olds news)
      (⟨.keep, below.old, run.new, n⟩ :: { run with old := run.old + n, new := run.new + n } ::
        dropEmpty { below with old := below.old + n, new := below.new + n, size := below.size - n } []) p q := by
  obtain ⟨o, h, h'⟩ := h.of_pair
  cases h with
  | keep => simp [slackBelow] at hn; omega
  | remove => simp [slackBelow] at hn; omega
  | @add i i' j m hm hi hj =>
    cases h' with
    | remove => cases hbelow
    | add => cases hbelow
    | @keep _ _ w hw hsame hi' hj' =>
      rw [slackBelow, if_pos rfl] at hn
      have hleft := commonPrefix_le_left (part olds i w) (part news j m)
      have hright := commonPrefix_le_right (part olds i w) (part news j m)
      have htake := take_commonPrefix (part olds i w) (part news j m)
      rw [hn, length_part hi'] at hleft
      rw [hn, length_part hj] at hright
      rw [hn, take_part olds i hleft, take_part news j hright] at htake
      obtain ⟨k, rfl⟩ := Nat.exists_eq_add_of_le hleft
      have hend := part_eq_drop n hsame
      have hpass : Run.Leads olds news ⟨.add, i' + n, j + n, m⟩ (i + n, j + n) (i + n, j + m + n) := by
        rw [Nat.add_right_comm j m n]
        exact .add hm (by omega) (by omega)
      simp only [Nat.add_sub_cancel_left] at hend ⊢
      rw [← Nat.add_assoc, ← Nat.add_assoc (j + m)]
      exact .cons (.keep hpos htake (by omega) (by omega))
        (.cons hpass (.cons_dropEmpty hend (by omega) (by omega) .nil))

def Cursor.runs (c : Cursor) : List Run := c.before.reverse ++ c.run :: c.after

lemma slideUp_route (before : List Run) (run : Run) (after : List Run) (hrun : run.tag ≠ .keep)
    (h : Route (Run.Leads olds news) (before.reverse ++ run :: after) p q) :
    (slideUp olds news before run after).run.tag = run.tag ∧
      Route (Run.Leads olds news) (slideUp olds news before run after).runs p q := by
  fun_induction slideUp olds news before run after with
  | case1 => exact ⟨rfl, h⟩
  | case2 run after prev rest hkeep n hpos ih =>
    rw [List.reverse_cons, List.append_assoc] at h
    replace h := Route.replace (Route.slide_up rfl hpos hkeep) h
    rw [dropEmpty_append, ← reverse_dropEmpty, List.cons_append, List.append_cons] at h
    obtain ⟨o, hfront, hback⟩ := h.exists_of_append
    refine ih hrun ?_
    rw [List.append_cons]
    exact hfront.append (hback.give_below rfl)
  -- No run of a route is empty, so none is taken out here.
  | case3 run after prev rest _ _ _ hzero ih =>
    rw [List.reverse_cons, List.append_assoc] at h
    exact absurd hzero (Nat.ne_of_gt h.size_pos)
  | case4 => exact ⟨rfl, h⟩
  | case5 run after prev rest hkeep htag ih =>
    rw [List.reverse_cons, List.append_assoc] at h
    have := ih (htag ▸ hrun) (Route.replace (Route.merge htag) h)
    exact ⟨this.1.trans htag, this.2⟩
  | case6 run after prev rest hkeep htag ih =>
    rw [List.reverse_cons, List.append_assoc] at h
    exact ih hrun (Route.replace (Route.swap hkeep hrun htag) h)

lemma slideDown_route (before : List Run) (run : Run) (after : List Run) (hrun : run.tag ≠ .keep)
    (h : Route (Run.Leads olds news) (before.reverse ++ run :: after) p q) :
    Route (Run.Leads olds news) (slideDown olds news before run after).runs p q := by
  fun_induction slideDown olds news before run after with
  | case1 => exact h
  | case2 before run next rest hkeep n hpos ih =>
    replace h := Route.replace (Route.slide_down rfl hpos hkeep)
      (show Route _ (_ ++ ([run, next] ++ rest)) p q from h)
    rw [List.cons_append, List.cons_append, dropEmpty_append, List.nil_append, List.append_cons] at h
    obtain ⟨o, hfront, hback⟩ := h.exists_of_append
    exact ih hrun ((hfront.give_above rfl).append hback)
  | case3 before run next rest _ _ _ hzero ih =>
    rw [List.append_cons] at h
    exact absurd hzero (Nat.ne_of_gt h.size_pos)
  | case4 => exact h
  | case5 before run next rest hkeep htag ih =>
    exact ih hrun (Route.replace (Route.merge htag.symm) (show Route _ (_ ++ ([run, next] ++ rest)) p q from h))
  | case6 before run next rest hkeep htag ih =>
    refine ih hrun ?_
    rw [List.reverse_cons, List.append_assoc]
    exact Route.replace (Route.swap hrun hkeep (Ne.symm htag))
      (show Route _ (_ ++ ([run, next] ++ rest)) p q from h)

lemma slideAll_route {tag : Tag} (htag : tag ≠ .keep) (steps : Nat) (before after : List Run)
    (h : Route (Run.Leads olds news) (before.reverse ++ after) p q) :
    Route (Run.Leads olds news) (slideAll olds news tag steps before after) p q := by
  fun_induction slideAll olds news tag steps before after with
  | case1 steps before run after hrun up down ih =>
    obtain ⟨hup, h⟩ := slideUp_route before run after (hrun ▸ htag) h
    have := slideDown_route _ _ _ (hup ▸ hrun ▸ htag) h
    refine ih ?_
    rwa [List.reverse_cons, List.append_assoc]
  | case2 steps before run after _ ih =>
    refine ih ?_
    rwa [List.reverse_cons, List.append_assoc]
  | case3 => exact h

theorem settle_route {runs : List Run} (h : Route (Run.Leads olds news) runs p q) :
    Route (Run.Leads olds news) (settle olds news runs) p q :=
  slideAll_route (by decide) _ _ _ (slideAll_route (by decide) _ _ _ h)

end DotMend.Diff
