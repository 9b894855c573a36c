import DotMend.Proofs.Text.Positions
import DotMend.Proofs.Text.Simultaneous
import Mathlib.Data.List.Induction
import Mathlib.Data.List.TakeWhile
import Mathlib.Data.Prod.Lex
import Mathlib.Order.Bounds.Basic

namespace DotMend

namespace Position

@[simp] lemma width_append (x y : Text) : width (x ++ y) = width x + width y := by
  induction x with
  | nil => simp [width]
  | cons c x ih => simp [ih, Nat.add_assoc]

def key (p : Position) : Nat ×ₗ Nat := toLex (p.line, p.character)

lemma key_le_advance (p : Position) (c : Char) : p.key ≤ (p.advance c).key := by
  apply Prod.Lex.toLex_le_toLex.mpr
  unfold advance
  split
  · left
    simp
  · right
    simp

end Position

namespace Text

open Position

/-- A line of a text. What ends it, a line feed and a carriage return in front of that, is no part of its content;
the return at the end of a text is not either. -/
structure Line (t : Text) where
  before : Text
  content : Text
  tail : Text
  behind : Text
  split : t = before ++ (content ++ tail ++ behind)
  starts : before = [] ∨ before.getLast? = some '\n'
  unbroken : '\n' ∉ content ++ tail
  ends : behind = [] ∨ behind.head? = some '\n'
  returned : tail = ['\r'] ∨ tail = [] ∧ content.getLast? ≠ some '\r'

namespace Line

variable {t : Text} (l : Line t)

def number : Nat := l.before.count '\n'

def contentEnd : Nat := (l.before ++ l.content).bytes

/-- The line feed that ends a line is still on it; what is behind that is on the next one. -/
def Holds (offset : Nat) : Prop :=
  l.before.bytes ≤ offset ∧ offset ≤ (l.before ++ (l.content ++ l.tail)).bytes

end Line

inductive Lines : Text → Prop
  | nil : Lines []
  | cons {x before} : '\n' ∉ x → Lines before → Lines (x ++ '\n' :: before)

lemma lines_of_last {before : Text} (h : before = [] ∨ before.getLast? = some '\n') : Lines before := by
  induction hn : before.length using Nat.strong_induction_on generalizing before with
  | _ n ih =>
    rcases h with rfl | hlast
    · exact .nil
    · obtain ⟨x, rest, rfl, hx⟩ := List.eq_append_cons_of_mem (List.mem_of_getLast? hlast)
      apply Lines.cons hx
      apply ih rest.length
      · rw [← hn, List.length_append, List.length_cons]
        omega
      · cases rest with
        | nil => exact .inl rfl
        | cons c rest =>
          right
          simpa [List.getLast?_append, List.getLast?_cons_cons] using hlast
      · rfl

lemma Lines.foldl_advance {before : Text} (h : Lines before) (n : Nat) :
    before.foldl advance ⟨n, 0⟩ = ⟨n + before.count '\n', 0⟩ := by
  induction h generalizing n with
  | nil => rfl
  | cons hx _ ih =>
    rw [List.foldl_append, foldl_advance_line hx, List.foldl_cons, advance, if_pos rfl, ih]
    simp [List.count_eq_zero_of_not_mem hx, Nat.add_comm, Nat.add_left_comm]

lemma Lines.lineOffset_append {before : Text} (h : Lines before) (column : Nat) (rest : Text) :
    lineOffset (before.count '\n') column (before ++ rest) =
      before.bytes + columnOffset column (withoutReturn (rest.takeWhile (· ≠ '\n'))) := by
  induction h with
  | nil => simp [lineOffset]
  | @cons x before hx _ ih =>
    have hcount : (x ++ '\n' :: before).count '\n' = before.count '\n' + 1 := by
      simp [List.count_eq_zero_of_not_mem hx]
    rw [hcount, List.append_assoc, List.cons_append, lineOffset_below hx, ih]
    simp [Nat.add_assoc, show '\n'.utf8Size = 1 from rfl]

lemma head_dropWhile_line {t rest : Text} {c : Char} (h : t.dropWhile (· ≠ '\n') = c :: rest) : c = '\n' := by
  have hnot := List.head?_dropWhile_not (· ≠ '\n') t
  rw [h] at hnot
  simpa using hnot

lemma lineOffset_of_count_lt {line : Nat} {t : Text} (h : t.count '\n' < line) (column : Nat) :
    lineOffset line column t = t.bytes := by
  induction line generalizing t with
  | zero => omega
  | succ line ih =>
    rw [lineOffset]
    have hsplit := List.takeWhile_append_dropWhile (p := (· ≠ '\n')) (l := t)
    cases hrest : t.dropWhile (· ≠ '\n') with
    | nil => rfl
    | cons c rest =>
      obtain rfl := head_dropWhile_line hrest
      rw [hrest] at hsplit
      rw [← hsplit, List.count_append, List.count_cons_self] at h
      simp only
      rw [ih (by omega)]
      conv_rhs => rw [← hsplit]
      simp [Nat.add_assoc, show '\n'.utf8Size = 1 from rfl]

lemma columnOffset_of_le {n : Nat} {x : Text} (h : width x ≤ n) : columnOffset n x = x.bytes := by
  induction x generalizing n with
  | nil => cases n <;> rfl
  | cons c x ih =>
    have hpos := units_pos c
    rw [width_cons] at h
    cases n with
    | zero => omega
    | succ n => rw [columnOffset, ih (by omega), bytes_cons]

lemma exists_columnOffset (n : Nat) (x : Text) : ∃ y z, x = y ++ z ∧ columnOffset n x = y.bytes := by
  induction x generalizing n with
  | nil => exact ⟨[], [], rfl, by cases n <;> rfl⟩
  | cons c x ih =>
    cases n with
    | zero => exact ⟨[], c :: x, rfl, rfl⟩
    | succ n =>
      obtain ⟨y, z, rfl, hy⟩ := ih (n + 1 - units c)
      exact ⟨c :: y, z, rfl, by rw [columnOffset, hy, bytes_cons]⟩

namespace Line

variable {t : Text} (l : Line t)

lemma takeWhile_eq : (l.content ++ l.tail ++ l.behind).takeWhile (· ≠ '\n') = l.content ++ l.tail := by
  rw [takeWhile_line l.unbroken]
  rcases l.ends with hnil | hhead
  · simp [hnil]
  · obtain ⟨rest, hrest⟩ := List.head?_eq_some_iff.mp hhead
    simp [hrest]

lemma withoutReturn_eq : withoutReturn (l.content ++ l.tail) = l.content := by
  rcases l.returned with htail | ⟨htail, hlast⟩
  · simp [withoutReturn, htail]
  · simp [withoutReturn, htail, hlast]

lemma offsetAt_eq (column : Nat) : t.offsetAt ⟨l.number, column⟩ =
    l.before.bytes + columnOffset column l.content := by
  have h := (lines_of_last l.starts).lineOffset_append column (l.content ++ l.tail ++ l.behind)
  rw [l.takeWhile_eq, l.withoutReturn_eq, ← l.split] at h
  exact h

lemma exists_offsetAt (column : Nat) :
    ∃ y z, l.content = y ++ z ∧ t.offsetAt ⟨l.number, column⟩ = (l.before ++ y).bytes := by
  obtain ⟨y, z, hyz, hy⟩ := exists_columnOffset column l.content
  exact ⟨y, z, hyz, by rw [offsetAt_eq, hy, bytes_append]⟩

lemma Holds.exists_prefix {a b : Text} (h : l.Holds a.bytes) (ht : t = a ++ b) :
    ∃ x y, a = l.before ++ x ∧ l.content ++ l.tail = x ++ y := by
  obtain ⟨hfrom, hto⟩ := h
  obtain ⟨x, rfl, hrest⟩ := exists_append_of_bytes_le (l.split.symm.trans ht) hfrom
  rw [bytes_append, bytes_append l.before] at hto
  obtain ⟨y, hy, -⟩ := exists_append_of_bytes_le hrest.symm (Nat.le_of_add_le_add_left hto)
  exact ⟨x, y, rfl, hy⟩

theorem offsetAt_positionAt {a b : Text} (h : l.Holds a.bytes) (ht : t = a ++ b) :
    t.offsetAt (t.positionAt a.bytes) = min a.bytes l.contentEnd := by
  obtain ⟨x, y, rfl, hxy⟩ := h.exists_prefix l ht
  have hx : '\n' ∉ x := fun hmem => l.unbroken (hxy ▸ List.mem_append_left y hmem)
  have hposition : t.positionAt (l.before ++ x).bytes = ⟨l.number, width x⟩ := by
    have hfold := positionFrom_bytes ⟨0, 0⟩ (l.before ++ x) b
    rw [← ht, List.foldl_append, (lines_of_last l.starts).foldl_advance, foldl_advance_line hx] at hfold
    rw [positionAt, hfold, number, Nat.zero_add, Nat.zero_add]
  rw [hposition, l.offsetAt_eq, contentEnd, bytes_append, bytes_append]
  -- Either the place is in the content, or it is behind all of it.
  rcases List.append_eq_append_iff.mp hxy with ⟨z, rfl, -⟩ | ⟨z, hz, -⟩
  · rw [columnOffset_of_le (by simp), bytes_append]
    omega
  · rw [hz, columnOffset_width, bytes_append]
    omega

lemma exists_of_split {before : Text} (h : before = [] ∨ before.getLast? = some '\n') (rest : Text) :
    ∃ l : Line (before ++ rest), l.before = before ∧ l.content ++ l.tail = rest.takeWhile (· ≠ '\n') := by
  have hsplit := List.takeWhile_append_dropWhile (p := (· ≠ '\n')) (l := rest)
  have hunbroken : '\n' ∉ rest.takeWhile (· ≠ '\n') := fun hmem => by simpa using List.mem_takeWhile_imp hmem
  have hends : rest.dropWhile (· ≠ '\n') = [] ∨ (rest.dropWhile (· ≠ '\n')).head? = some '\n' := by
    cases hrest : rest.dropWhile (· ≠ '\n') with
    | nil => exact .inl rfl
    | cons c behind => exact .inr (by rw [head_dropWhile_line hrest]; rfl)
  by_cases hreturn : (rest.takeWhile (· ≠ '\n')).getLast? = some '\r'
  · obtain ⟨content, hcontent⟩ := List.getLast?_eq_some_iff.mp hreturn
    rw [hcontent] at hsplit hunbroken ⊢
    exact ⟨⟨before, content, ['\r'], _, by rw [hsplit], h, hunbroken, hends, .inl rfl⟩, rfl, rfl⟩
  · refine ⟨⟨before, rest.takeWhile (· ≠ '\n'), [], rest.dropWhile (· ≠ '\n'), ?_, h, ?_, hends,
      .inr ⟨rfl, hreturn⟩⟩, rfl, ?_⟩
    · rw [List.append_nil, hsplit]
    · rwa [List.append_nil]
    · exact List.append_nil _

end Line

lemma exists_line_start
    (a : Text) : ∃ before x, a = before ++ x ∧ (before = [] ∨ before.getLast? = some '\n') ∧ '\n' ∉ x := by
  induction a using List.reverseRecOn with
  | nil => exact ⟨[], [], rfl, .inl rfl, List.not_mem_nil⟩
  | append_singleton a c ih =>
    by_cases hc : c = '\n'
    · subst hc
      exact ⟨a ++ ['\n'], [], by simp, .inr List.getLast?_concat, List.not_mem_nil⟩
    · obtain ⟨before, x, rfl, hbefore, hx⟩ := ih
      refine ⟨before, x ++ [c], by simp, hbefore, ?_⟩
      simp [hx, Ne.symm hc]

theorem exists_line_holds (a b : Text) : ∃ l : Line (a ++ b), l.Holds a.bytes := by
  obtain ⟨before, x, rfl, hbefore, hx⟩ := exists_line_start a
  obtain ⟨l, hl, hline⟩ := Line.exists_of_split hbefore (x ++ b)
  rw [List.append_assoc]
  refine ⟨l, ?_, ?_⟩
  · simp [hl]
  · rw [takeWhile_line hx] at hline
    simp [hl, hline]

lemma exists_line_number {t : Text} {n : Nat} (h : n ≤ t.count '\n') : ∃ l : Line t, l.number = n := by
  suffices hsplit : ∃ before rest, t = before ++ rest ∧ (before = [] ∨ before.getLast? = some '\n') ∧
    before.count '\n' = n by
    obtain ⟨before, rest, rfl, hbefore, rfl⟩ := hsplit
    obtain ⟨l, hl, -⟩ := Line.exists_of_split hbefore rest
    exact ⟨l, by rw [Line.number, hl]⟩
  induction n with
  | zero => exact ⟨[], t, rfl, .inl rfl, rfl⟩
  | succ n ih =>
    obtain ⟨before, rest, rfl, -, hcount⟩ := ih (by omega)
    have hmem : '\n' ∈ rest := by
      rw [List.count_append, hcount] at h
      exact List.count_pos_iff.mp (by omega)
    obtain ⟨x, rest, rfl, hx⟩ := List.eq_append_cons_of_mem hmem
    refine ⟨before ++ (x ++ ['\n']), rest, by simp, .inr (by simp), ?_⟩
    simp [hcount, List.count_eq_zero_of_not_mem hx]

theorem exists_floor (t : Text) (n : Nat) :
    ∃ a b, t = a ++ b ∧ IsGreatest {m | t.IsCut m ∧ m ≤ n} a.bytes ∧
      ∀ p, positionFrom p n t = a.foldl advance p := by
  induction t generalizing n with
  | nil =>
    refine ⟨[], [], rfl, ⟨⟨⟨[], [], rfl, rfl⟩, Nat.zero_le n⟩, ?_⟩, fun p => by rw [positionFrom]; rfl⟩
    rintro m ⟨⟨a, b, hab, rfl⟩, -⟩
    rw [(List.append_eq_nil_iff.mp hab.symm).1]
  | cons c t ih =>
    by_cases hc : c.utf8Size ≤ n
    · obtain ⟨a, b, rfl, ⟨⟨-, hle⟩, hgreatest⟩, hposition⟩ := ih (n - c.utf8Size)
      refine ⟨c :: a, b, rfl, ⟨⟨⟨c :: a, b, rfl, rfl⟩, by rw [bytes_cons]; omega⟩, ?_⟩, fun p => ?_⟩
      · rintro m ⟨⟨d, e, hde, rfl⟩, hm⟩
        cases d with
        | nil => simp
        | cons d ds =>
          obtain ⟨rfl, hrest⟩ := List.cons.inj hde
          rw [bytes_cons] at hm ⊢
          rw [bytes_cons]
          have := hgreatest ⟨⟨ds, e, hrest, rfl⟩, by omega⟩
          omega
      · rw [positionFrom, if_pos hc, hposition, List.foldl_cons]
    · refine ⟨[], c :: t, rfl, ⟨⟨⟨[], c :: t, rfl, rfl⟩, Nat.zero_le n⟩, ?_⟩, fun p => ?_⟩
      · rintro m ⟨⟨d, e, hde, rfl⟩, hm⟩
        cases d with
        | nil => simp
        | cons d ds =>
          obtain ⟨rfl, -⟩ := List.cons.inj hde
          rw [bytes_cons] at hm
          omega
      · rw [positionFrom, if_neg hc]
        rfl

lemma key_le_positionFrom (p : Position) (n : Nat) (t : Text) : p.key ≤ (positionFrom p n t).key := by
  induction t generalizing p n with
  | nil => exact le_rfl
  | cons c t ih =>
    rw [positionFrom]
    split
    · exact (key_le_advance p c).trans (ih _ _)
    · exact le_rfl

lemma positionFrom_mono (p : Position) (t : Text) : Monotone fun n => (positionFrom p n t).key := by
  induction t generalizing p with
  | nil => exact fun _ _ _ => le_rfl
  | cons c t ih =>
    intro n m hnm
    dsimp only
    by_cases hc : c.utf8Size ≤ n
    · rw [positionFrom, if_pos hc, positionFrom, if_pos (hc.trans hnm)]
      exact ih _ (by omega)
    · rw [positionFrom, if_neg hc]
      exact key_le_positionFrom p m (c :: t)

lemma exists_line_offsetAt {t : Text} {p : Position} (h : p.line ≤ t.count '\n') :
    ∃ l : Line t, ∃ y z, l.content = y ++ z ∧ t.offsetAt p = (l.before ++ y).bytes := by
  obtain ⟨l, hl⟩ := exists_line_number h
  obtain ⟨y, z, hyz, hy⟩ := l.exists_offsetAt p.character
  exact ⟨l, y, z, hyz, by rw [← hy, hl]⟩

lemma isCut_offsetAt (t : Text) (p : Position) : t.IsCut (t.offsetAt p) := by
  by_cases h : p.line ≤ t.count '\n'
  · obtain ⟨l, y, z, hyz, hy⟩ := exists_line_offsetAt h
    refine ⟨l.before ++ y, z ++ l.tail ++ l.behind, l.split.trans ?_, hy.symm⟩
    rw [hyz]
    simp
  · exact ⟨t, [], by simp, (lineOffset_of_count_lt (by omega) _).symm⟩

lemma IsCut.le_bytes {t : Text} {n : Nat} (h : t.IsCut n) : n ≤ t.bytes := by
  obtain ⟨a, b, rfl, rfl⟩ := h
  rw [bytes_append]
  exact Nat.le_add_right _ _

lemma exists_offsetAt_positionAt (t : Text) (o : Nat) : ∃ (s : Nat) (l : Line t),
    IsGreatest {n | t.IsCut n ∧ n ≤ min o t.bytes} s ∧ l.Holds s ∧
      t.offsetAt (t.positionAt o) = min s l.contentEnd := by
  obtain ⟨a, b, rfl, ⟨⟨hcut, hle⟩, hgreatest⟩, hposition⟩ := exists_floor t o
  obtain ⟨l, hl⟩ := exists_line_holds a b
  refine ⟨a.bytes, l, ⟨⟨hcut, le_min hle hcut.le_bytes⟩, ?_⟩, hl, ?_⟩
  · rintro m ⟨hm, hmo⟩
    exact hgreatest ⟨hm, hmo.trans (min_le_left _ _)⟩
  · have hsame : (a ++ b).positionAt o = (a ++ b).positionAt a.bytes := by
      rw [positionAt, hposition, positionAt, positionFrom_bytes]
    rw [hsame]
    exact l.offsetAt_positionAt hl rfl

lemma offsetAt_positionAt_offsetAt {t : Text} {p : Position} (h : p.line ≤ t.count '\n') :
    t.offsetAt (t.positionAt (t.offsetAt p)) = t.offsetAt p := by
  obtain ⟨l, y, z, hyz, hy⟩ := exists_line_offsetAt h
  have hsplit : t = l.before ++ y ++ (z ++ l.tail ++ l.behind) := l.split.trans (by rw [hyz]; simp)
  have hholds : l.Holds (l.before ++ y).bytes := by
    simp [Line.Holds, hyz]
  rw [hy, l.offsetAt_positionAt hholds hsplit, Line.contentEnd, hyz]
  apply min_eq_left
  simp

/-- An offset comes back from its position as the last place between two characters that is not behind it, or as
the end of its line's content if that is before; later offsets have no earlier positions. A position has an offset
between two characters, and if its line exists, that offset comes back as it is. -/
theorem offsetAt_positionAt_clamped (t : Text) :
    (∀ o, ∃ (s : Nat) (l : Line t), IsGreatest {n | t.IsCut n ∧ n ≤ min o t.bytes} s ∧ l.Holds s ∧
        t.offsetAt (t.positionAt o) = min s l.contentEnd) ∧
      (Monotone fun o => toLex ((t.positionAt o).line, (t.positionAt o).character)) ∧
      (∀ p, t.IsCut (t.offsetAt p) ∧ t.offsetAt p ≤ t.bytes) ∧
      ∀ p : Position, p.line ≤ t.count '\n' → t.offsetAt (t.positionAt (t.offsetAt p)) = t.offsetAt p := by
  refine ⟨exists_offsetAt_positionAt t, positionFrom_mono ⟨0, 0⟩ t, fun p => ?_,
    fun p => offsetAt_positionAt_offsetAt⟩
  have hcut := isCut_offsetAt t p
  exact ⟨hcut, hcut.le_bytes⟩

theorem offsetAt_positionAt_clamped_astral :
    let t : Text := "a😀\r\n\r".toList
    (⟨0, 2⟩ : Position).line ≤ t.count '\n' ∧ t.offsetAt ⟨0, 2⟩ = 5 ∧
      t.offsetAt (t.positionAt (t.offsetAt ⟨0, 2⟩)) = t.offsetAt ⟨0, 2⟩ := by
  intro t
  have hline : (⟨0, 2⟩ : Position).line ≤ t.count '\n' := by decide
  exact ⟨hline, by decide, (offsetAt_positionAt_clamped t).2.2.2 ⟨0, 2⟩ hline⟩

end Text

end DotMend
