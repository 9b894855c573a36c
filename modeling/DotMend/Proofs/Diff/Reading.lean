import DotMend.Diff.Unified
import Mathlib.Data.List.Basic

/-!
How a patch is read back. Its hunks say where they begin and how many lines of both texts they show; context and
removed lines consume lines of the old text, context and added lines are emitted, and what lies between the hunks
is copied. A note behind a line says that the line has no end.
-/

namespace DotMend

def Text.splitFeeds : Text → List Text
  | [] => []
  | c :: rest => if c = '\n' then [c] :: splitFeeds rest else consLine c (splitFeeds rest)

namespace Diff

structure Dialect where
  lines : Text → List Text
  isNote : Text → Bool

def Dialect.standard : Dialect := ⟨Text.splitFeeds, fun line => line.head? = some '\\'⟩

def Dialect.printed : Dialect := ⟨Text.splitLines, fun line => line = ['\n']⟩

/-- Takes the notes out, and with each of them the last character of the line before it. -/
def heedNotes (isNote : Text → Bool) : List Text → List Text
  | line :: note :: rest =>
    if isNote note then line.dropLast :: heedNotes isNote rest else line :: heedNotes isNote (note :: rest)
  | lines => lines

def number? (t : Text) : Option (Nat × Text) :=
  match t.takeWhile Char.isDigit with
  | [] => none
  | digits => some (Nat.ofDigitChars 10 digits 0, t.dropWhile Char.isDigit)

def range? (t : Text) : Option ((Nat × Nat) × Text) :=
  match number? t with
  | none => none
  | some (first, ',' :: rest) =>
    (number? rest).map fun (size, rest) => ((if size = 0 then first else first - 1, size), rest)
  | some (first, rest) => some ((first - 1, 1), rest)

def header? : Text → Option ((Nat × Nat) × (Nat × Nat))
  | '@' :: '@' :: ' ' :: '-' :: t =>
    match range? t with
    | some (old, ' ' :: '+' :: t) =>
      match range? t with
      | some (new, ' ' :: '@' :: '@' :: _) => some (old, new)
      | _ => none
    | _ => none
  | _ => none

def signed? : Text → Option (Change Text)
  | ' ' :: line => some (.keep line)
  | '-' :: line => some (.remove line)
  | '+' :: line => some (.add line)
  | _ => none

/-- Follows the lines of a patch through the lines of the old text that are left, of which `place` lie before. The
hunk at hand still has to show `n` lines of the old text and `m` of the new one. -/
def follow (n m place : Nat) (olds : List Text) : List Text → Option (List Text)
  | [] => if n = 0 ∧ m = 0 then some olds else none
  | line :: rest =>
    if n = 0 ∧ m = 0 then
      match header? line with
      | some ((start, size), (_, newSize)) =>
        if place ≤ start ∧ start - place ≤ olds.length then
          (follow size newSize start (olds.drop (start - place)) rest).map (olds.take (start - place) ++ ·)
        else none
      | none => none
    else
      match signed? line, olds with
      | some (.keep line), old :: olds =>
        if 0 < n ∧ 0 < m ∧ line = old then (follow (n - 1) (m - 1) (place + 1) olds rest).map (line :: ·) else none
      | some (.remove line), old :: olds =>
        if 0 < n ∧ line = old then follow (n - 1) m (place + 1) olds rest else none
      | some (.add line), olds => if 0 < m then (follow n (m - 1) place olds rest).map (line :: ·) else none
      | _, _ => none

def patched? (d : Dialect) (path : String) (old text : Text) : Option Text :=
  if pathText path <+: text then
    (follow 0 0 0 (d.lines old) (heedNotes d.isNote (d.lines (text.drop (pathText path).length)))).map List.flatten
  else none

namespace Change

def signed (c : Change Text) : Text := c.sign :: c.line

/-- The lines that a change takes in a patch. If it is not to stand alone, an end is put to its line, and an empty
line follows. -/
def rows (alone : Change Text → Bool) (c : Change Text) : List Text :=
  if alone c then [c.signed] else [c.signed ++ ['\n'], ['\n']]

end Change

def Hunk.headLine (h : Hunk) : Text := h.header ++ ['\n']

def Hunk.rows (alone : Change Text → Bool) (h : Hunk) : List Text :=
  h.headLine :: h.changes.flatMap (Change.rows alone)

def oldSide : List (Change Text) → List Text
  | [] => []
  | .keep l :: cs | .remove l :: cs => l :: oldSide cs
  | .add _ :: cs => oldSide cs

def newSide : List (Change Text) → List Text
  | [] => []
  | .keep l :: cs | .add l :: cs => l :: newSide cs
  | .remove _ :: cs => newSide cs

/-- Hunks list a way from one list of lines to another, line by line, and their headers say where and how many
lines they show. Of both texts, `i` and `j` lines lie before. -/
inductive Edits : Nat → Nat → List Text → List Text → List Hunk → Prop
  | done {i j : Nat} {rest : List Text} : Edits i j rest rest []
  | hunk {i j : Nat} {same olds news : List Text} {h : Hunk} {hs : List Hunk}
      (hline : '\n' ∉ h.header ∧ '\r' ∉ h.header)
      (hheader : header? h.headLine = some ((i + same.length, (oldSide h.changes).length),
        (j + same.length, (newSide h.changes).length)))
      (hrest : Edits (i + same.length + (oldSide h.changes).length) (j + same.length + (newSide h.changes).length)
        olds news hs) :
      Edits i j (same ++ (oldSide h.changes ++ olds)) (same ++ (newSide h.changes ++ news)) (h :: hs)

lemma follow_empty (n m place : Nat) (olds rest : List Text) : follow n m place olds (['\n'] :: rest) = none := by
  by_cases h : n = 0 ∧ m = 0
  · exact if_pos h
  · exact if_neg h

lemma follow_header {line : Text} {start size newStart newSize : Nat}
    (h : header? line = some ((start, size), (newStart, newSize))) (place : Nat) (olds rest : List Text) :
    follow 0 0 place olds (line :: rest) =
      if place ≤ start ∧ start - place ≤ olds.length then
        (follow size newSize start (olds.drop (start - place)) rest).map (olds.take (start - place) ++ ·)
      else none := by
  refine (if_pos ⟨rfl, rfl⟩).trans ?_
  rw [h]

lemma follow_keep (n m place : Nat) (old line : Text) (olds rest : List Text) :
    follow (n + 1) (m + 1) place (old :: olds) ((' ' :: line) :: rest) =
      if line = old then (follow n m (place + 1) olds rest).map (line :: ·) else none := by
  refine (if_neg fun h => Nat.succ_ne_zero n h.1).trans ?_
  change (if 0 < n + 1 ∧ 0 < m + 1 ∧
    line = old then (follow n m (place + 1) olds rest).map (line :: ·) else none) = _
  simp only [Nat.succ_pos, true_and]

lemma follow_remove (n m place : Nat) (old line : Text) (olds rest : List Text) :
    follow (n + 1) m place (old :: olds) (('-' :: line) :: rest) =
      if line = old then follow n m (place + 1) olds rest else none := by
  refine (if_neg fun h => Nat.succ_ne_zero n h.1).trans ?_
  change (if 0 < n + 1 ∧ line = old then follow n m (place + 1) olds rest else none) = _
  simp only [Nat.succ_pos, true_and]

lemma follow_add (n m place : Nat) (line : Text) (olds rest : List Text) :
    follow n (m + 1) place olds (('+' :: line) :: rest) = (follow n m place olds rest).map (line :: ·) :=
  (if_neg fun h => Nat.succ_ne_zero m h.2).trans (if_pos (Nat.succ_pos m))

lemma follow_changes (alone : Change Text → Bool) (cs : List (Change Text)) (place : Nat) (olds rest : List Text) :
    follow (oldSide cs).length (newSide cs).length place (oldSide cs ++ olds)
      (cs.flatMap (Change.rows alone) ++ rest) =
      if cs.all alone then (follow 0 0 (place + (oldSide cs).length) olds rest).map (newSide cs ++ ·)
      else none := by
  induction cs generalizing place with
  | nil => simp [oldSide, newSide]
  | cons c cs ih =>
    rw [List.flatMap_cons, List.append_assoc, List.all_cons]
    cases halone : alone c with
    | true =>
      rw [Change.rows, if_pos halone, Bool.true_and]
      cases c <;>
        simp only [oldSide, newSide, List.length_cons, List.cons_append, List.nil_append, Change.signed,
          Change.sign, Change.line]
      case keep l =>
        rw [follow_keep, if_pos rfl, ih, Nat.add_right_comm, ← Nat.add_assoc]
        split <;> simp [Function.comp_def]
      case remove l =>
        rw [follow_remove, if_pos rfl, ih, Nat.add_right_comm, ← Nat.add_assoc]
      case add l =>
        rw [follow_add, ih]
        split <;> simp [Function.comp_def]
    | false =>
      -- A line that was given an end is not one of the old text, and the empty line behind an added one has no
      -- sign.
      have hend (l : Text) : l ++ ['\n'] ≠ l := by simp
      rw [Change.rows, if_neg (by simp [halone]), Bool.false_and]
      cases c <;>
        simp only [oldSide, newSide, List.length_cons, List.cons_append, List.nil_append, Change.signed,
          Change.sign, Change.line]
      case keep l => exact (follow_keep ..).trans (if_neg (hend l))
      case remove l => exact (follow_remove ..).trans (if_neg (hend l))
      case add l =>
        rw [follow_add, follow_empty]
        rfl

lemma follow_hunks (alone : Change Text → Bool) {i j : Nat} {olds news : List Text} {hs : List Hunk}
    (h : Edits i j olds news hs) :
    follow 0 0 i olds (hs.flatMap (Hunk.rows alone)) =
      if hs.all fun h => h.changes.all alone then some news else none := by
  induction h with
  | done => rfl
  | @hunk i j same olds news h hs _ hheader _ ih =>
    have hskip : i + same.length - i = same.length := Nat.add_sub_cancel_left ..
    have hplace : i ≤ i + same.length ∧ same.length ≤ (same ++ (oldSide h.changes ++ olds)).length := by
      simp only [List.length_append]
      omega
    have hchanges := follow_changes alone h.changes (i + same.length) olds (hs.flatMap (Hunk.rows alone))
    rw [ih] at hchanges
    rw [List.flatMap_cons, Hunk.rows, List.cons_append, follow_header hheader, hskip, if_pos hplace,
      List.drop_left, List.take_left, hchanges, List.all_cons]
    cases h.changes.all alone <;> cases hs.all fun h => h.changes.all alone <;> rfl

end Diff

end DotMend
