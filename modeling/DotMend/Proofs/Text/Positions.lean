import DotMend.Proofs.Text.Replacement
import DotMend.Text.Position

/-! Places in a text that keep their offset when they are written as a line and a column: all places between
characters but those behind the carriage return of a line's end. -/

namespace DotMend

namespace Position

def width : Text → Nat
  | [] => 0
  | c :: t => units c + width t

@[simp] lemma width_cons (c : Char) (t : Text) : width (c :: t) = units c + width t := rfl

lemma units_pos (c : Char) : 0 < units c := by
  unfold units
  split <;> omega

lemma foldl_advance_line {x : Text} (hx : '\n' ∉ x) (p : Position) :
    x.foldl advance p = ⟨p.line, p.character + width x⟩ := by
  induction x generalizing p with
  | nil => rfl
  | cons c x ih =>
    have hc : c ≠ '\n' := by rintro rfl; simp at hx
    rw [List.foldl_cons, ih (fun h => hx (List.mem_cons_of_mem c h))]
    simp [advance, hc, Nat.add_assoc]

lemma foldl_advance_below (t : Text) (n : Nat) (p : Position) :
    t.foldl advance ⟨p.line + n, p.character⟩ = ⟨(t.foldl advance p).line + n, (t.foldl advance p).character⟩ := by
  induction t generalizing p with
  | nil => rfl
  | cons c t ih =>
    have hc : advance ⟨p.line + n, p.character⟩ c = ⟨(advance p c).line + n, (advance p c).character⟩ := by
      unfold advance
      split <;> simp [Nat.add_right_comm]
    rw [List.foldl_cons, List.foldl_cons, hc, ih]

end Position

namespace Text

open Position

/-- The place between two parts of a text is not that between a carriage return and the end of its line. -/
def Settled (a b : Text) : Prop := a.getLast? = some '\r' → ∃ c, b.head? = some c ∧ c ≠ '\n'

lemma positionFrom_bytes (p : Position) (a b : Text) : positionFrom p a.bytes (a ++ b) = a.foldl advance p := by
  induction a generalizing p with
  | nil =>
    cases b with
    | nil => rfl
    | cons c b => simp [positionFrom, Nat.ne_of_gt c.utf8Size_pos]
  | cons c a ih => simp [positionFrom, ih]

lemma columnOffset_width (x r : Text) : columnOffset (width x) (x ++ r) = x.bytes := by
  induction x with
  | nil => cases r <;> rfl
  | cons c x ih =>
    obtain ⟨n, hn⟩ : ∃ n, width (c :: x) = n + 1 :=
      Nat.exists_eq_add_one.mpr (width_cons c x ▸ Nat.add_pos_left (units_pos c) _)
    have hrest : n + 1 - units c = width x := by rw [← hn, width_cons, Nat.add_sub_cancel_left]
    rw [hn, List.cons_append, columnOffset, hrest, ih, bytes_cons]

lemma takeWhile_line {x : Text} (hx : '\n' ∉ x) (b : Text) :
    (x ++ b).takeWhile (· ≠ '\n') = x ++ b.takeWhile (· ≠ '\n') := by
  apply List.takeWhile_append_of_pos
  intro c hc
  simp only [decide_eq_true_eq]
  rintro rfl
  exact hx hc

lemma exists_withoutReturn {x b : Text} (h : Settled x b) :
    ∃ r, withoutReturn (x ++ b.takeWhile (· ≠ '\n')) = x ++ r := by
  unfold withoutReturn
  cases hline : b.takeWhile (· ≠ '\n') with
  | nil =>
    have hx : x.getLast? ≠ some '\r' := by
      intro hx
      obtain ⟨c, hc, hne⟩ := h hx
      obtain ⟨b', rfl⟩ := List.head?_eq_some_iff.mp hc
      simp [hne] at hline
    exact ⟨[], by simp [hx]⟩
  | cons c r =>
    split
    · exact ⟨(c :: r).dropLast, List.dropLast_append_of_ne_nil (by simp)⟩
    · exact ⟨c :: r, rfl⟩

lemma lineOffset_below {x : Text} (hx : '\n' ∉ x) (line column : Nat) (rest : Text) :
    lineOffset (line + 1) column (x ++ '\n' :: rest) = x.bytes + 1 + lineOffset line column rest := by
  have htake : (x ++ '\n' :: rest).takeWhile (· ≠ '\n') = x := by
    rw [takeWhile_line hx, List.takeWhile_cons_of_neg (by simp), List.append_nil]
  have hdrop : (x ++ '\n' :: rest).dropWhile (· ≠ '\n') = '\n' :: rest := by
    have hwhole := List.takeWhile_append_dropWhile (p := (· ≠ '\n')) (l := x ++ '\n' :: rest)
    rw [htake] at hwhole
    exact List.append_cancel_left hwhole
  rw [lineOffset, hdrop, htake]

lemma Settled.of_line {x a b : Text} (h : Settled (x ++ '\n' :: a) b) : Settled a b := by
  intro ha
  apply h
  simp [List.getLast?_append, List.getLast?_cons, ha]

lemma lineOffset_foldl {a b : Text} (h : Settled a b) :
    lineOffset (a.foldl advance ⟨0, 0⟩).line (a.foldl advance ⟨0, 0⟩).character (a ++ b) = a.bytes := by
  induction hn : a.length using Nat.strong_induction_on generalizing a with
  | _ n ih =>
    by_cases ha : '\n' ∈ a
    · -- The first line is passed over as a whole.
      obtain ⟨x, a', rfl, hx⟩ := List.eq_append_cons_of_mem ha
      have hfold : (x ++ '\n' :: a').foldl advance ⟨0, 0⟩ = a'.foldl advance ⟨0 + 1, 0⟩ := by
        rw [List.foldl_append, foldl_advance_line hx, List.foldl_cons]
        rfl
      have hlt : a'.length < n := by
        rw [← hn, List.length_append, List.length_cons]
        omega
      have hrest := ih a'.length hlt h.of_line rfl
      rw [hfold, foldl_advance_below a' 1 ⟨0, 0⟩, List.append_assoc, List.cons_append, lineOffset_below hx, hrest]
      simp [Nat.add_assoc, show '\n'.utf8Size = 1 from rfl]
    · obtain ⟨r, hr⟩ := exists_withoutReturn h
      rw [foldl_advance_line ha, lineOffset, takeWhile_line ha, hr, Nat.zero_add, columnOffset_width]

theorem offsetAt_positionAt {a b : Text} (h : Settled a b) :
    (a ++ b).offsetAt ((a ++ b).positionAt a.bytes) = a.bytes := by
  rw [offsetAt, positionAt, positionFrom_bytes]
  exact lineOffset_foldl h

theorem spanOf_regionOf {a x b : Text} (hstart : Settled a (x ++ b)) (hstop : Settled (a ++ x) b) :
    (a ++ x ++ b).spanOf ((a ++ x ++ b).regionOf ⟨a.bytes, (a ++ x).bytes⟩) = ⟨a.bytes, (a ++ x).bytes⟩ := by
  have hfrom := offsetAt_positionAt hstart
  rw [← List.append_assoc] at hfrom
  rw [spanOf, regionOf, hfrom, offsetAt_positionAt hstop, bytes_append, Nat.max_eq_left (Nat.le_add_right _ _)]

end Text

end DotMend
