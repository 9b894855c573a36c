import DotMend.Command.Execute
import DotMend.Proofs.Text.Replacement
import Mathlib.Data.List.Induction
import Mathlib.Data.List.TakeWhile

/-! What a removed statement takes with it, in characters: the blanks behind it, or its whole line. Two removals
never overlap, since each stops at the first character that belongs to something else. -/

namespace DotMend

namespace Text

lemma utf8_append (s t : Text) : (s ++ t).utf8 = s.utf8 ++ t.utf8 := by simp [utf8]

@[simp] lemma length_utf8 (t : Text) : t.utf8.length = t.bytes := by
  induction t with
  | nil => rfl
  | cons c t ih =>
    rw [utf8, List.flatMap_cons, List.length_append, ← utf8, ih]
    simp

lemma le_of_mem_utf8EncodeChar {c : Char} (h : 128 ≤ c.toNat) {b : UInt8} (hb : b ∈ String.utf8EncodeChar c) :
    128 ≤ b.toNat := by
  unfold String.utf8EncodeChar at hb
  simp only [show c.val.toNat = c.toNat from rfl] at hb
  rw [if_neg (by omega)] at hb
  split at hb
  · simp only [List.mem_cons, List.not_mem_nil, or_false] at hb
    rcases hb with rfl | rfl <;> simp <;> omega
  · split at hb <;> simp only [List.mem_cons, List.not_mem_nil, or_false] at hb
    · rcases hb with rfl | rfl | rfl <;> simp <;> omega
    · rcases hb with rfl | rfl | rfl | rfl <;> simp <;> omega

lemma mem_utf8EncodeChar_iff {c d : Char} (hd : d.toNat < 128) {b : UInt8} (hb : b ∈ String.utf8EncodeChar c) :
    b = UInt8.ofNat d.toNat ↔ c = d := by
  have hbd : (UInt8.ofNat d.toNat).toNat = d.toNat := by simp; omega
  by_cases hc : c.toNat < 128
  · unfold String.utf8EncodeChar at hb
    simp only [show c.val.toNat = c.toNat from rfl] at hb
    rw [if_pos (by omega), List.mem_singleton] at hb
    have hbc : (UInt8.ofNat c.toNat).toNat = c.toNat := by simp; omega
    rw [hb]
    constructor
    · intro h
      have := congrArg UInt8.toNat h
      rw [hbc, hbd] at this
      exact Char.toNat_inj.mp this
    · rintro rfl
      rfl
  · have hle := le_of_mem_utf8EncodeChar (by omega) hb
    constructor
    · rintro rfl
      omega
    · rintro rfl
      omega

end Text

namespace Consolidation

def isBlankChar (c : Char) : Bool := c = ' ' || c = '\t'

lemma isBlank_eq {c : Char} {b : UInt8} (hb : b ∈ String.utf8EncodeChar c) : isBlank b = isBlankChar c := by
  have h₁ := Text.mem_utf8EncodeChar_iff (d := ' ') (by decide) hb
  have h₂ := Text.mem_utf8EncodeChar_iff (d := '\t') (by decide) hb
  simp only [isBlank, isBlankChar, Bool.or_eq_decide, decide_eq_decide, decide_eq_true_eq]
  exact or_congr h₁ h₂

section Encoding

variable {enc : Char → List UInt8} {p : UInt8 → Bool} {q : Char → Bool}

lemma takeWhile_flatMap (hne : ∀ c, enc c ≠ []) (h : ∀ c, ∀ b ∈ enc c, p b = q c) (t : Text) :
    (t.flatMap enc).takeWhile p = (t.takeWhile q).flatMap enc := by
  induction t with
  | nil => rfl
  | cons c t ih =>
    rw [List.flatMap_cons, List.takeWhile_cons]
    by_cases hc : q c = true
    · rw [List.takeWhile_append_of_pos fun b hb => (h c b hb).trans hc, ih, if_pos hc, List.flatMap_cons]
    · obtain ⟨b, bs, hb⟩ := List.exists_cons_of_ne_nil (hne c)
      have hpb : ¬ p b = true := by
        rw [h c b (by simp [hb])]
        exact hc
      rw [if_neg hc, hb, List.cons_append, List.takeWhile_cons, if_neg hpb]
      rfl

lemma head?_all_flatMap (hne : ∀ c, enc c ≠ []) (h : ∀ c, ∀ b ∈ enc c, p b = q c) (t : Text) :
    (t.flatMap enc).head?.all p = t.head?.all q := by
  cases t with
  | nil => rfl
  | cons c t =>
    obtain ⟨b, bs, hb⟩ := List.exists_cons_of_ne_nil (hne c)
    simp [hb, h c b (by simp [hb])]

end Encoding

lemma reverse_utf8 (t : Text) : t.utf8.reverse = t.reverse.flatMap fun c => (String.utf8EncodeChar c).reverse := by
  simp [Text.utf8, List.reverse_flatMap, Function.comp_def]

lemma exists_of_lineBreak? {t : Text} {n : Nat} (h : lineBreak? t.utf8 = some n) :
    ∃ brk s, t = brk ++ s ∧ (brk = ['\n'] ∨ brk = ['\r', '\n']) ∧ Text.bytes brk = n := by
  have hfirst {c : Char} {b : UInt8} {bs bs' : List UInt8} (hb : b :: bs = String.utf8EncodeChar c ++ bs') :
      b ∈ String.utf8EncodeChar c := by
    obtain ⟨d, ds, hd⟩ := List.exists_cons_of_ne_nil (@String.utf8EncodeChar_ne_nil c)
    rw [hd, List.cons_append] at hb
    rw [hd, (List.cons.inj hb).1]
    simp
  cases t with
  | nil => simp [Text.utf8, lineBreak?] at h
  | cons c t =>
    rw [Text.utf8, List.flatMap_cons] at h
    unfold lineBreak? at h
    split at h
    · rename_i bs hbs
      obtain rfl := Option.some.inj h
      obtain rfl := (Text.mem_utf8EncodeChar_iff (d := '\r') (by decide) (hfirst hbs.symm)).mp rfl
      have hbs' := (List.cons.inj (show 0x0d :: Text.utf8 t = 0x0d :: 0x0a :: bs from hbs)).2
      cases t with
      | nil => cases hbs'
      | cons d t =>
        rw [Text.utf8, List.flatMap_cons] at hbs'
        obtain rfl := (Text.mem_utf8EncodeChar_iff (d := '\n') (by decide) (hfirst hbs'.symm)).mp rfl
        exact ⟨['\r', '\n'], t, rfl, .inr rfl, by decide⟩
    · rename_i bs hbs
      obtain rfl := Option.some.inj h
      obtain rfl := (Text.mem_utf8EncodeChar_iff (d := '\n') (by decide) (hfirst hbs.symm)).mp rfl
      exact ⟨['\n'], t, rfl, .inl rfl, by decide⟩
    · simp at h

lemma isSome_lineBreak? {brk : Text} (h : brk = ['\n'] ∨ brk = ['\r', '\n']) (s : Text) :
    (lineBreak? (Text.utf8 (brk ++ s))).isSome := by
  rcases h with rfl | rfl
  · rfl
  · rfl

def OwnLine (a b : Text) : Prop :=
  (∃ before lead, a = before ++ lead ∧ (∀ c ∈ lead, isBlankChar c) ∧ before.getLast?.all (· = '\n')) ∧
    ∃ trail brk behind, b = trail ++ brk ++ behind ∧ (∀ c ∈ trail, isBlankChar c) ∧
    (brk = ['\n'] ∨ brk = ['\r', '\n'])

/-- What goes with a statement that stands between `before ++ lead` and `trail ++ behind`: its line, if nothing
else is on it, and else all blanks behind it. -/
inductive Swept : (before lead trail behind : Text) → Prop
  | line {before lead trail brk behind} : (∀ c ∈ lead, isBlankChar c) → before.getLast?.all (· = '\n') →
      (∀ c ∈ trail, isBlankChar c) → (brk = ['\n'] ∨ brk = ['\r', '\n']) → Swept before lead (trail ++ brk) behind
  | blanks {before trail behind} : ¬ OwnLine before (trail ++ behind) → (∀ c ∈ trail, isBlankChar c) →
      (∀ c ∈ behind.head?, isBlankChar c = false) → Swept before [] trail behind

lemma takeWhile_isBlankChar {w rest : Text} (hw : ∀ c ∈ w, isBlankChar c)
    (hrest : ∀ c ∈ rest.head?, isBlankChar c = false) :
    (w ++ rest).takeWhile isBlankChar = w ∧ (w ++ rest).dropWhile isBlankChar = rest := by
  rw [List.takeWhile_append_of_pos hw, List.dropWhile_append_of_pos hw]
  cases rest with
  | nil => simp
  | cons c rest => simp [hrest c rfl]

lemma exists_blanks (t : Text) : ∃ w rest, t = w ++ rest ∧ (∀ c ∈ w, isBlankChar c) ∧
    ∀ c ∈ rest.head?, isBlankChar c = false := by
  refine ⟨t.takeWhile isBlankChar, t.dropWhile isBlankChar, List.takeWhile_append_dropWhile.symm, ?_, ?_⟩
  · intro c hc
    exact List.mem_takeWhile_imp hc
  · intro c hc
    have hhead := List.head?_dropWhile_not isBlankChar t
    rw [hc] at hhead
    exact hhead

lemma ownLine_iff {before lead trail behind : Text} (hlead : ∀ c ∈ lead, isBlankChar c)
    (hbefore : ∀ c ∈ before.getLast?, isBlankChar c = false) (htrail : ∀ c ∈ trail, isBlankChar c)
    (hbehind : ∀ c ∈ behind.head?, isBlankChar c = false) :
    OwnLine (before ++ lead) (trail ++ behind) ↔ before.getLast?.all (· = '\n') ∧
      (lineBreak? (Text.utf8 behind)).isSome := by
  constructor
  · rintro ⟨⟨before', lead', hfront, hlead', hline⟩, trail', brk, behind', hback, htrail', hbrk⟩
    constructor
    · have hrev (u v : Text) : (u ++ v).reverse = v.reverse ++ u.reverse := List.reverse_append
      have hlast : ∀ c ∈ before'.reverse.head?, isBlankChar c = false := by
        intro c hc
        rw [List.head?_reverse] at hc
        rw [hc] at hline
        obtain rfl : c = '\n' := by simpa using hline
        rfl
      have hsame := congrArg (fun u : Text => u.reverse.dropWhile isBlankChar) hfront
      simp only [hrev] at hsame
      rw [(takeWhile_isBlankChar (by simpa using hlead) (by simpa using hbefore)).2,
        (takeWhile_isBlankChar (by simpa using hlead') hlast).2, List.reverse_inj] at hsame
      rwa [hsame]
    · have hhead : ∀ c ∈ (brk ++ behind').head?, isBlankChar c = false := by
        rcases hbrk with rfl | rfl <;> simp [isBlankChar]
      have hsame := congrArg (List.dropWhile isBlankChar) hback
      rw [List.append_assoc, (takeWhile_isBlankChar htrail hbehind).2, (takeWhile_isBlankChar htrail' hhead).2]
        at hsame
      rw [hsame]
      exact isSome_lineBreak? hbrk behind'
  · rintro ⟨hline, hbreak⟩
    obtain ⟨n, hn⟩ := Option.isSome_iff_exists.mp hbreak
    obtain ⟨brk, s, rfl, hbrk, -⟩ := exists_of_lineBreak? hn
    exact ⟨⟨before, lead, rfl, hlead, hline⟩, trail, brk, s, by simp, htrail, hbrk⟩

theorem exists_swept (a x b : Text) :
    ∃ before lead trail behind, a = before ++ lead ∧ b = trail ++ behind ∧ Swept before lead trail behind ∧
      removal (a ++ x ++ b).utf8 ⟨a.bytes, (a ++ x).bytes⟩ =
      ⟨before.bytes, (before ++ lead ++ x ++ trail).bytes⟩ := by
  have hrev (c : Char) : (String.utf8EncodeChar c).reverse ≠ [] := by simp
  have hblank : ∀ c, ∀ b ∈ (String.utf8EncodeChar c).reverse, isBlank b = isBlankChar c :=
    fun c b hb => isBlank_eq (List.mem_reverse.mp hb)
  have hbreak : ∀ c, ∀ b ∈ (String.utf8EncodeChar c).reverse, decide (b = 0x0a) = decide (c = '\n') :=
    fun c b hb =>
      decide_eq_decide.mpr (Text.mem_utf8EncodeChar_iff (d := '\n') (by decide) (List.mem_reverse.mp hb))
  obtain ⟨before, lead, rfl, hlead, hbefore, hwhile⟩ : ∃ before lead : Text, a = before ++ lead ∧
      (∀ c ∈ lead, isBlankChar c) ∧ (∀ c ∈ before.getLast?, isBlankChar c = false) ∧
      a.reverse.takeWhile isBlankChar = lead.reverse := by
    obtain ⟨w, rest, hsplit, hw, hrest⟩ := exists_blanks a.reverse
    refine ⟨rest.reverse, w.reverse, ?_, by simpa using hw, by simpa using hrest, ?_⟩
    · rw [← List.reverse_append, ← hsplit, List.reverse_reverse]
    · rw [hsplit, (takeWhile_isBlankChar hw hrest).1, List.reverse_reverse]
  obtain ⟨trail, behind, rfl, htrail, hbehind⟩ := exists_blanks b
  have htake : (before ++ lead ++ x ++ (trail ++ behind)).utf8.take (Text.bytes (before ++ lead)) =
      Text.utf8 (before ++ lead) := by
    rw [List.append_assoc _ x, Text.utf8_append (before ++ lead), ← Text.length_utf8, List.take_left]
  have hdrop : (before ++ lead ++ x ++ (trail ++ behind)).utf8.drop (Text.bytes (before ++ lead ++ x)) =
      Text.utf8 trail ++ Text.utf8 behind := by
    rw [Text.utf8_append (before ++ lead ++ x), ← Text.length_utf8, List.drop_left, Text.utf8_append]
  have hreverse : (Text.utf8 (before ++ lead)).reverse =
      (Text.utf8 lead).reverse ++ (Text.utf8 before).reverse := by
    rw [Text.utf8_append, List.reverse_append]
  have hcount : (((Text.utf8 lead).reverse ++ (Text.utf8 before).reverse).takeWhile isBlank).length =
      (Text.utf8 lead).reverse.length := by
    rw [← hreverse, reverse_utf8, takeWhile_flatMap hrev hblank, hwhile, ← reverse_utf8]
  have hstarts : ((Text.utf8 before).reverse.head?.all (· = 0x0a)) = before.getLast?.all (· = '\n') := by
    rw [reverse_utf8, head?_all_flatMap hrev hbreak, List.head?_reverse]
  have hcount' : ((Text.utf8 trail ++ Text.utf8 behind).takeWhile isBlank).length = (Text.utf8 trail).length := by
    rw [← Text.utf8_append, Text.utf8,
      takeWhile_flatMap (fun _ => String.utf8EncodeChar_ne_nil) (fun _ _ => isBlank_eq),
      (takeWhile_isBlankChar htrail hbehind).1]
    rfl
  simp only [removal, htake, hdrop, hcount, hcount', hreverse, List.drop_left, hstarts]
  simp only [List.length_reverse, Text.length_utf8]
  split
  · rename_i n hline hn
    obtain ⟨brk, s, rfl, hbrk, rfl⟩ := exists_of_lineBreak? hn
    refine ⟨before, lead, trail ++ brk, s, rfl, by simp, .line hlead hline htrail hbrk, ?_⟩
    simp [Nat.add_assoc]
  · rename_i hnot
    have hown : ¬ OwnLine (before ++ lead) (trail ++ behind) := by
      rw [ownLine_iff hlead hbefore htrail hbehind]
      rintro ⟨hline, hsome⟩
      obtain ⟨n, hn⟩ := Option.isSome_iff_exists.mp hsome
      exact hnot n hline hn
    exact ⟨before ++ lead, [], trail, behind, by simp, rfl, .blanks hown htrail hbehind, by simp [Nat.add_assoc]⟩

inductive Trim (before : Text) : (lead trail : Text) → Prop
  | blanks {trail} : (∀ c ∈ trail, isBlankChar c) → Trim before [] trail
  | line {lead trail brk} : (∀ c ∈ lead, isBlankChar c) → before.getLast?.all (· = '\n') →
    (∀ c ∈ trail, isBlankChar c) →
      (brk = ['\n'] ∨ brk = ['\r', '\n']) → Trim before lead (trail ++ brk)

lemma Swept.trim {before lead trail behind : Text} (h : Swept before lead trail behind) :
    Trim before lead trail := by
  cases h with
  | line hlead hline htrail hbrk => exact .line hlead hline htrail hbrk
  | blanks _ htrail => exact .blanks htrail

theorem exists_trim (a x b : Text) :
    ∃ before lead trail behind, a = before ++ lead ∧ b = trail ++ behind ∧ Trim before lead trail ∧
      removal (a ++ x ++ b).utf8 ⟨a.bytes, (a ++ x).bytes⟩ =
      ⟨before.bytes, (before ++ lead ++ x ++ trail).bytes⟩ := by
  obtain ⟨before, lead, trail, behind, ha, hb, hswept, hremoval⟩ := exists_swept a x b
  exact ⟨before, lead, trail, behind, ha, hb, hswept.trim, hremoval⟩

lemma Trim.blank {before lead trail : Text} (h : Trim before lead trail) :
    (∀ c ∈ lead, isBlankChar c) ∧ ∀ c ∈ trail, isBlankChar c = true ∨ c = '\r' ∨ c = '\n' := by
  cases h with
  | blanks htrail => exact ⟨by simp, fun c hc => .inl (htrail c hc)⟩
  | line hlead _ htrail hbrk =>
    refine ⟨hlead, fun c hc => ?_⟩
    rcases List.mem_append.mp hc with hc | hc
    · exact .inl (htrail c hc)
    · rcases hbrk with rfl | rfl <;> simp at hc
      · exact .inr (.inr hc)
      · exact .inr hc

lemma Trim.exists_lead {before lead trail y g : Text} (h : Trim before lead trail) (he : before ++ lead = y ++ g)
    (hy : ∀ c, y.getLast? = some c → isBlankChar c = false) : ∃ g', g = g' ++ lead ∧ before = y ++ g' := by
  have hlead := h.blank.1
  rcases List.append_eq_append_iff.mp he with ⟨z, hz, rfl⟩ | ⟨z, rfl, rfl⟩
  · cases z using List.reverseRecOn with
    | nil => exact ⟨[], by simp, by simpa using hz.symm⟩
    | append_singleton z c =>
      exfalso
      have hc := hy c (by rw [hz]; simp [← List.append_assoc])
      have := hlead c (by simp)
      simp [hc] at this
  · exact ⟨z, rfl, rfl⟩

lemma Trim.exists_trail {before lead trail g y behind : Text} (h : Trim before lead trail)
    (he : trail ++ behind = g ++ y) (hy : ∀ c, y.head? = some c → isBlankChar c = false ∧ c ≠ '\r' ∧ c ≠ '\n') :
    ∃ g', g = trail ++ g' ∧ behind = g' ++ y := by
  have htrail := h.blank.2
  rcases List.append_eq_append_iff.mp he with ⟨z, rfl, rfl⟩ | ⟨z, rfl, rfl⟩
  · exact ⟨z, rfl, rfl⟩
  · cases z with
    | nil => exact ⟨[], by simp, by simp⟩
    | cons c z =>
      exfalso
      have hc := hy c (by simp)
      rcases htrail c (by simp) with h | h | h
      · simp [hc.1] at h
      · exact hc.2.1 h
      · exact hc.2.2 h

lemma Trim.trail_blank_or {before lead trail : Text} (h : Trim before lead trail) :
    (∀ c ∈ trail, isBlankChar c) ∨ trail.getLast? = some '\n' := by
  cases h with
  | blanks htrail => exact .inl htrail
  | line _ _ _ hbrk =>
    right
    rcases hbrk with rfl | rfl <;> simp

lemma Trim.starts_line {before lead trail : Text} (h : Trim before lead trail)
    (hlast : trail.getLast? = some '\n') : before.getLast?.all (· = '\n') := by
  cases h with
  | blanks htrail =>
    have := htrail _ (List.mem_of_getLast? hlast)
    simp [isBlankChar] at this
  | line _ hline => exact hline

lemma Trim.bytes_le {before lead trail before' lead' trail' y g : Text} (h : Trim before lead trail)
    (h' : Trim before' lead' trail') {g₁ g₂ : Text} (hg : g = trail ++ g₁) (hg' : g = g₂ ++ lead')
    (hb : before' = y ++ g₂) (hy : ∃ c, y.getLast? = some c ∧ c ≠ '\n') : trail.bytes ≤ g₂.bytes := by
  cases h' with
  | blanks =>
    rw [List.append_nil] at hg'
    rw [← hg', hg, Text.bytes_append]
    omega
  | line hlead' hline =>
    rcases List.append_eq_append_iff.mp (hg.symm.trans hg') with ⟨z, rfl, -⟩ | ⟨z, rfl, hz⟩
    · rw [Text.bytes_append]
      omega
    · -- The blanks `z` end the first removal and begin the second.
      cases z using List.reverseRecOn with
      | nil => simp
      | append_singleton z c =>
        exfalso
        have hc := hlead' c (by rw [hz]; simp)
        rcases h.trail_blank_or with htrail | hlast
        · obtain ⟨d, hd, hne⟩ := hy
          cases g₂ using List.reverseRecOn with
          | nil =>
            rw [hb, List.append_nil, hd] at hline
            exact hne (by simpa using hline)
          | append_singleton g₂ e =>
            rw [hb, ← List.append_assoc, List.getLast?_concat] at hline
            obtain rfl : e = '\n' := by simpa using hline
            have := htrail '\n' (by simp)
            simp [isBlankChar] at this
        · rw [← List.append_assoc, List.getLast?_concat] at hlast
          obtain rfl := Option.some.inj hlast
          simp [isBlankChar] at hc

end Consolidation

end DotMend
