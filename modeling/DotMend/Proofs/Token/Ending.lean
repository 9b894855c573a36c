import DotMend.Token.Scan
import Mathlib.Data.List.Basic
import Mathlib.Data.List.TakeWhile
import Mathlib.Order.Nat
import Mathlib.Tactic.Common

/-! Where a comment, a string, a numeral or a run of characters ends. What ends inside a text ends at the same
place whatever follows the text. -/

namespace DotMend.Token.Lexeme

lemma closeComment?_bounds {t : Text} {n : Nat} (h : closeComment? t = some n) : 2 ≤ n ∧ n ≤ t.length := by
  fun_induction closeComment? t generalizing n with
  | case1 t =>
    obtain rfl : 2 = n := by simpa using h
    simp
  | case2 c t hne ih =>
    obtain ⟨m, hm, rfl⟩ := Option.map_eq_some_iff.mp h
    have := ih hm
    simp only [List.length_cons]
    omega
  | case3 => simp at h

lemma closeComment?_append {x : Text} {n : Nat} (h : closeComment? x = some n) (r : Text) :
    closeComment? (x ++ r) = some n := by
  fun_induction closeComment? x generalizing n with
  | case1 => simpa [closeComment?] using h
  | case2 c t hne ih =>
    obtain ⟨m, hm, rfl⟩ := Option.map_eq_some_iff.mp h
    have ht : t ≠ [] := by rintro rfl; simp [closeComment?] at hm
    obtain ⟨d, t, rfl⟩ := List.exists_cons_of_ne_nil ht
    rw [List.cons_append, closeComment?, ih hm, Option.map_some]
    intro t' hc ht'
    simp only [List.cons_append, List.cons.injEq] at ht'
    exact hne t hc (by rw [ht'.1])
  | case3 => simp at h

lemma closeComment?_of_append {x s : Text} {n : Nat} (h : closeComment? (x ++ s) = some n) (hn : n ≤ x.length) :
    closeComment? x = some n := by
  cases hx : closeComment? x with
  | some m => rw [closeComment?_append hx] at h; exact h
  | none =>
    exfalso
    induction x generalizing n with
    | nil =>
      have := (closeComment?_bounds h).1
      simp at hn
      omega
    | cons c x ih =>
      by_cases hc : c = '*' ∧ ∃ x', x = '/' :: x'
      · obtain ⟨rfl, x', rfl⟩ := hc
        simp [closeComment?] at hx
      · rw [closeComment?] at hx
        · rw [List.cons_append, closeComment?] at h
          · obtain ⟨m, hm, rfl⟩ := Option.map_eq_some_iff.mp h
            exact ih hm (by simpa using hn) (by simpa using hx)
          · intro t' hc' ht'
            cases x with
            | nil =>
              have := (closeComment?_bounds h).1
              simp at hn
              omega
            | cons d x =>
              simp only [List.cons_append, List.cons.injEq] at ht'
              exact hc ⟨hc', x, by rw [ht'.1]⟩
        · intro t' hc' ht'
          exact hc ⟨hc', t', ht'⟩

lemma quotedRest_append {x : Text} (h : (quotedRest x).closed = true) (r : Text) :
    quotedRest (x ++ r) = quotedRest x := by
  fun_induction quotedRest x with
  | case1 => simp at h
  | case2 => simp [quotedRest]
  | case3 t q ih => simp [quotedRest, ih h, q]
  | case4 t q ih => simp [quotedRest, ih h, q]
  | case5 t q ih => simp [quotedRest, ih h, q]
  | case6 c t h₁ h₂ h₃ h₄ q ih =>
    -- a closed rest goes on behind `c`, so what follows cannot make another escape of it
    have ht : t ≠ [] := by rintro rfl; simp [q, quotedRest] at h
    have ht' : t ≠ ['\r'] := by rintro rfl; simp [q, quotedRest] at h
    rw [List.cons_append, quotedRest, ih h]
    · exact h₁
    · intro t' hc he
      obtain ⟨d, t, rfl⟩ := List.exists_cons_of_ne_nil ht
      simp only [List.cons_append, List.cons.injEq] at he
      exact h₂ t hc (by rw [he.1])
    · intro t' hc he
      obtain ⟨d, t, rfl⟩ := List.exists_cons_of_ne_nil ht
      simp only [List.cons_append, List.cons.injEq] at he
      exact h₃ t hc (by rw [he.1])
    · intro t' hc he
      match t, ht, ht' with
      | [d], _, ht' => simp only [List.cons_append, List.cons.injEq] at he; exact ht' (by rw [he.1])
      | d :: e :: t, _, _ =>
        simp only [List.cons_append, List.cons.injEq] at he
        exact h₄ t hc (by rw [he.1, he.2.1])

lemma quotedRest_bounds (t : Text) : (quotedRest t).length ≤ t.length ∧
    ((quotedRest t).closed = true → 1 ≤ (quotedRest t).length) ∧
      ((quotedRest t).closed = false → (quotedRest t).length = t.length) := by
  fun_induction quotedRest t with
  | case1 => simp
  | case2 t => simp
  | case3 t q ih => exact ⟨Nat.add_le_add_right ih.1 2, by simp, fun h => congrArg (· + 2) (ih.2.2 h)⟩
  | case4 t q ih => exact ⟨Nat.add_le_add_right ih.1 2, by simp, fun h => congrArg (· + 2) (ih.2.2 h)⟩
  | case5 t q ih => exact ⟨Nat.add_le_add_right ih.1 3, by simp, fun h => congrArg (· + 3) (ih.2.2 h)⟩
  | case6 c t h₁ h₂ h₃ h₄ q ih =>
    exact ⟨Nat.add_le_add_right ih.1 1, by simp, fun h => congrArg (· + 1) (ih.2.2 h)⟩

lemma quotedRest_of_append {x s : Text} (h : (quotedRest (x ++ s)).closed = true)
    (hn : (quotedRest (x ++ s)).length ≤ x.length) : quotedRest x = quotedRest (x ++ s) := by
  cases hx : (quotedRest x).closed with
  | true => rw [quotedRest_append hx]
  | false =>
    exfalso
    fun_induction quotedRest x with
    | case1 =>
      have := (quotedRest_bounds _).2.1 h
      simp only [List.length_nil] at hn
      omega
    | case2 => simp at hx
    | case3 t q ih => exact ih (by simpa [quotedRest] using h) (by simpa [quotedRest] using hn) hx
    | case4 t q ih => exact ih (by simpa [quotedRest] using h) (by simpa [quotedRest] using hn) hx
    | case5 t q ih => exact ih (by simpa [quotedRest] using h) (by simpa [quotedRest] using hn) hx
    | case6 c t h₁ h₂ h₃ h₄ q ih =>
      have hstep : quotedRest (c :: (t ++ s)) =
          ⟨(quotedRest (t ++ s)).length + 1, c :: (quotedRest (t ++ s)).value, (quotedRest (t ++ s)).closed⟩ := by
        rw [quotedRest]
        · exact h₁
        · rintro t' rfl he
          rw [List.cons_append, he, quotedRest] at hn
          cases t with
          | nil => simp at hn
          | cons d t => exact h₂ t rfl (by simp at he; rw [he.1])
        · rintro t' rfl he
          rw [List.cons_append, he, quotedRest] at hn
          cases t with
          | nil => simp at hn
          | cons d t => exact h₃ t rfl (by simp at he; rw [he.1])
        · rintro t' rfl he
          rw [List.cons_append, he, quotedRest] at hn
          match t with
          | [] => simp at hn
          | [d] => simp at hn
          | d :: e :: t => exact h₄ t rfl (by simp at he; rw [he.1, he.2.1])
      rw [List.cons_append, hstep] at h hn
      exact ih h (by simpa using hn) hx

lemma closeAngle?_bounds {d : Nat} {t : Text} {n : Nat} (h : closeAngle? d t = some n) : 1 ≤ n ∧ n ≤ t.length := by
  fun_induction closeAngle? d t generalizing n with
  | case1 => simp at h
  | case2 d t ih =>
    obtain ⟨m, hm, rfl⟩ := Option.map_eq_some_iff.mp h
    exact ⟨Nat.le_add_left 1 m, Nat.add_le_add_right (ih hm).2 1⟩
  | case3 t =>
    obtain rfl : 1 = n := by simpa using h
    simp
  | case4 t d ih =>
    obtain ⟨m, hm, rfl⟩ := Option.map_eq_some_iff.mp h
    exact ⟨Nat.le_add_left 1 m, Nat.add_le_add_right (ih hm).2 1⟩
  | case5 d c t h₁ h₂ h₃ ih =>
    obtain ⟨m, hm, rfl⟩ := Option.map_eq_some_iff.mp h
    exact ⟨Nat.le_add_left 1 m, Nat.add_le_add_right (ih hm).2 1⟩

lemma closeAngle?_append {d : Nat} {x : Text} {n : Nat} (h : closeAngle? d x = some n) (r : Text) :
    closeAngle? d (x ++ r) = some n := by
  fun_induction closeAngle? d x generalizing n with
  | case1 => simp at h
  | case2 d t ih =>
    obtain ⟨m, hm, rfl⟩ := Option.map_eq_some_iff.mp h
    simp [closeAngle?, ih hm]
  | case3 t => simpa [closeAngle?] using h
  | case4 t d ih =>
    obtain ⟨m, hm, rfl⟩ := Option.map_eq_some_iff.mp h
    simp [closeAngle?, ih hm]
  | case5 d c t h₁ h₂ h₃ ih =>
    obtain ⟨m, hm, rfl⟩ := Option.map_eq_some_iff.mp h
    rw [List.cons_append, closeAngle?, ih hm, Option.map_some]
    · exact h₁
    · exact h₂
    · exact h₃

lemma closeAngle?_of_append {d : Nat} {x s : Text} {n : Nat} (h : closeAngle? d (x ++ s) = some n)
    (hn : n ≤ x.length) : closeAngle? d x = some n := by
  fun_induction closeAngle? d x generalizing n with
  | case1 =>
    have := (closeAngle?_bounds h).1
    simp only [List.length_nil] at hn
    omega
  | case2 d t ih =>
    rw [List.cons_append, closeAngle?] at h
    obtain ⟨m, hm, rfl⟩ := Option.map_eq_some_iff.mp h
    rw [ih hm (by simpa using hn), Option.map_some]
  | case3 t => simpa [closeAngle?] using h
  | case4 t d ih =>
    rw [List.cons_append, closeAngle?] at h
    obtain ⟨m, hm, rfl⟩ := Option.map_eq_some_iff.mp h
    rw [ih hm (by simpa using hn), Option.map_some]
  | case5 d c t h₁ h₂ h₃ ih =>
    rw [List.cons_append, closeAngle?] at h
    · obtain ⟨m, hm, rfl⟩ := Option.map_eq_some_iff.mp h
      rw [ih hm (by simpa using hn), Option.map_some]
    · exact h₁
    · exact h₂
    · exact h₃

def AllDigits (t : Text) : Prop := ∀ c ∈ t, c.isDigit = true

def Unsigned (x : Text) : Prop :=
  x ≠ [] ∧ AllDigits x ∨ ∃ w p, x = w ++ '.' :: p ∧ AllDigits w ∧ AllDigits p ∧ (w ≠ [] ∨ p ≠ [])

def IsNumeral (x : Text) : Prop := Unsigned x ∨ ∃ y, x = '-' :: y ∧ Unsigned y

def EndsNumeral (x rest : Text) : Prop := ∀ c, rest.head? = some c → c.isDigit = false ∧ (c = '.' → '.' ∈ x)

lemma takeWhile_append_of_all {p : Char → Bool} {x r : Text} (hx : ∀ c ∈ x, p c = true)
    (hr : ∀ c, r.head? = some c → p c = false) : (x ++ r).takeWhile p = x := by
  rw [List.takeWhile_append_of_pos hx]
  cases r with
  | nil => simp
  | cons c r => simp [hr c rfl]

lemma length_takeWhile_append_iff {p : Char → Bool} {x r : Text} :
    ((x ++ r).takeWhile p).length = x.length ↔ (∀ c ∈ x, p c = true) ∧ ∀ c, r.head? = some c → p c = false := by
  constructor
  · intro h
    have hx : (x ++ r).takeWhile p = x := by
      have hpre : (x ++ r).takeWhile p <+: x ++ r := List.takeWhile_prefix p
      rw [List.prefix_iff_eq_take, h, List.take_left] at hpre
      exact hpre
    have hall : ∀ c ∈ x, p c = true := by
      rw [← hx]
      exact fun c hc => List.mem_takeWhile_imp hc
    refine ⟨hall, ?_⟩
    intro c hc
    cases r with
    | nil => simp at hc
    | cons d r =>
      obtain rfl : d = c := by simpa using hc
      by_contra hd
      rw [List.takeWhile_append_of_pos hall] at hx
      simp [hd] at hx
  · rintro ⟨hx, hr⟩
    rw [takeWhile_append_of_all hx hr]

lemma exists_run_append (p : Char → Bool) (t : Text) :
    ∃ x r, t = x ++ r ∧ (∀ c ∈ x, p c = true) ∧ ∀ c, r.head? = some c → p c = false := by
  refine ⟨t.takeWhile p, t.dropWhile p, by simp, fun c hc => List.mem_takeWhile_imp hc, ?_⟩
  intro c hc
  have := List.head?_dropWhile_not p t
  rw [hc] at this
  simpa using this

lemma digits_append {x r : Text} (hx : AllDigits x) (hr : ∀ c, r.head? = some c → c.isDigit = false) :
    digits (x ++ r) = x.length :=
  length_takeWhile_append_iff.mpr ⟨hx, hr⟩

lemma not_isDigit_dot : ('.').isDigit = false := by decide

lemma unsignedNumeral?_iff {x rest : Text} :
    unsignedNumeral? (x ++ rest) = some x.length ↔ Unsigned x ∧ EndsNumeral x rest := by
  constructor
  · intro h
    obtain ⟨w, r, hwr, hw, hr⟩ := exists_run_append Char.isDigit (x ++ rest)
    rw [unsignedNumeral?, hwr, digits_append hw hr, List.drop_left] at h
    split at h
    · rename_i t
      obtain ⟨p, r, rfl, hp, hr⟩ := exists_run_append Char.isDigit t
      simp only [digits_append hp hr] at h
      split at h
      · simp at h
      · rename_i hne
        have hlen : x.length = (w ++ '.' :: p).length := by simp at h ⊢; omega
        obtain ⟨rfl, rfl⟩ := List.append_inj (hwr.trans (by simp : w ++ '.' :: (p ++ r) = w ++ '.' :: p ++ r)) hlen
        refine ⟨.inr ⟨w, p, rfl, hw, hp, ?_⟩, fun c hc => ⟨hr c hc, by simp⟩⟩
        by_contra hcon
        simp only [not_or, not_not] at hcon
        exact hne (by simp [hcon])
    · rename_i hdot
      split at h
      · simp at h
      · rename_i hne
        obtain ⟨rfl, rfl⟩ := List.append_inj hwr (by simpa using h.symm)
        refine ⟨.inl ⟨by rintro rfl; simp at hne, hw⟩, fun c hc => ⟨hr c hc, ?_⟩⟩
        rintro rfl
        cases rest with
        | nil => simp at hc
        | cons d r => exact (hdot r (by simpa using hc)).elim
  · rintro ⟨hx | ⟨w, p, rfl, hw, hp, hne⟩, hend⟩
    · rw [unsignedNumeral?, digits_append hx.2 fun c hc => (hend c hc).1, List.drop_left]
      split
      · rename_i t
        have := (hx.2 '.' ((hend '.' rfl).2 rfl))
        simp [not_isDigit_dot] at this
      · simp [hx.1]
    · have hd : digits (w ++ '.' :: (p ++ rest)) = w.length := digits_append hw (by simp [not_isDigit_dot])
      have hp' : digits (p ++ rest) = p.length := digits_append hp fun c hc => (hend c hc).1
      simp only [unsignedNumeral?, List.append_assoc, List.cons_append, hd, List.drop_left, hp']
      rw [if_neg (by simpa [← List.length_eq_zero_iff, imp_iff_not_or] using hne)]
      simp
      omega

lemma not_unsigned_minus {y : Text} : ¬ Unsigned ('-' :: y) := by
  rintro (⟨-, h⟩ | ⟨w, p, h, hw, -, -⟩)
  · simpa using h '-' (by simp)
  · cases w with
    | nil => simp at h
    | cons d w =>
      simp only [List.cons_append, List.cons.injEq] at h
      simpa [← h.1] using hw d (by simp)

lemma Unsigned.ne_nil {x : Text} (h : Unsigned x) : x ≠ [] := by
  rcases h with h | ⟨w, p, rfl, -⟩
  · exact h.1
  · simp

lemma IsNumeral.ne_nil {x : Text} (h : IsNumeral x) : x ≠ [] := by
  rcases h with h | ⟨y, rfl, -⟩
  · exact h.ne_nil
  · simp

lemma numeral?_iff {x rest : Text} (hx : x ≠ []) :
    numeral? (x ++ rest) = some x.length ↔ IsNumeral x ∧ EndsNumeral x rest := by
  cases x with
  | nil => exact absurd rfl hx
  | cons c y =>
    by_cases hc : c = '-'
    · subst hc
      have he : EndsNumeral ('-' :: y) rest ↔ EndsNumeral y rest := by simp [EndsNumeral]
      have hm : numeral? ('-' :: y ++ rest) = some ('-' :: y).length ↔
          unsignedNumeral? (y ++ rest) = some y.length := by
        simp [numeral?]
      rw [hm, unsignedNumeral?_iff, he]
      simp [IsNumeral, not_unsigned_minus]
    · have hm : numeral? (c :: y ++ rest) = unsignedNumeral? (c :: y ++ rest) := by
        rw [List.cons_append, numeral?]
        exact fun _ h => hc (List.cons.inj h).1
      rw [hm, unsignedNumeral?_iff]
      simp [IsNumeral, hc]

lemma digits_le (t : Text) : digits t ≤ t.length := (List.takeWhile_prefix _).length_le

lemma unsignedNumeral?_le {t : Text} {n : Nat} (h : unsignedNumeral? t = some n) : n ≤ t.length := by
  simp only [unsignedNumeral?] at h
  have hd := digits_le t
  split at h
  · rename_i u hu
    have := digits_le u
    have := congrArg List.length hu
    simp only [List.length_drop, List.length_cons] at this
    split at h <;> simp only [Option.some.injEq, reduceCtorEq] at h
    omega
  · split at h <;> simp only [Option.some.injEq, reduceCtorEq] at h
    omega

lemma numeral?_le {t : Text} {n : Nat} (h : numeral? t = some n) : n ≤ t.length := by
  unfold numeral? at h
  split at h
  · obtain ⟨m, hm, rfl⟩ := Option.map_eq_some_iff.mp h
    exact Nat.add_le_add_right (unsignedNumeral?_le hm) 1
  · exact unsignedNumeral?_le h

end DotMend.Token.Lexeme
