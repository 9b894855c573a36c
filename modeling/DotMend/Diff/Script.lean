import DotMend.Diff.Meeting

/-!
Scripts of runs that lead from one list to another: what both ends share is kept, and the middle is divided where a
shortest way passes.
-/

namespace DotMend.Diff

variable {α : Type} [DecidableEq α]

inductive Tag where
  | keep
  | remove
  | add
  deriving DecidableEq, Repr

structure Run where
  tag : Tag
  old : Nat
  new : Nat
  size : Nat
  deriving DecidableEq, Repr

def keeping (old new size : Nat) : List Run := if size = 0 then [] else [⟨.keep, old, new, size⟩]

structure Trimmed (α : Type) where
  head : Nat
  left : List α
  right : List α
  tail : Nat

def trim (as bs : List α) : Trimmed α :=
  let head := commonPrefix as bs
  let tail := commonSuffix (as.drop head) (bs.drop head)
  ⟨head, (as.drop head).take (as.length - head - tail), (bs.drop head).take (bs.length - head - tail), tail⟩

theorem length_trim_left (as bs : List α) : (trim as bs).left.length ≤ as.length := by
  simp only [trim, List.length_take, List.length_drop]
  omega

theorem length_trim_right (as bs : List α) : (trim as bs).right.length ≤ bs.length := by
  simp only [trim, List.length_take, List.length_drop]
  omega

/-- A script whose lists begin at `i` and `j` of larger ones. Of lists that share no end, all is removed and added
if no point lies between them. -/
def scriptFrom (i j : Nat) (as bs : List α) : List Run :=
  match _ht : trim as bs with
  | ⟨head, left, right, tail⟩ =>
    let i₁ := i + head
    let j₁ := j + head
    let n := left.length
    let m := right.length
    let whole := [⟨.remove, i₁, j₁, n⟩, ⟨.add, i₁, j₁, m⟩]
    let middle :=
      if n = 0 ∧ m = 0 then []
      else if m = 0 then [⟨.remove, i₁, j₁, n⟩]
      else if n = 0 then [⟨.add, i₁, j₁, m⟩]
      else
        match meeting? left right with
        | none => whole
        | some (x, y) =>
          if x ≤ n ∧ y ≤ m ∧ 0 < x + y ∧ x + y < n + m then
            scriptFrom i₁ j₁ (left.take x) (right.take y) ++
              scriptFrom (i₁ + x) (j₁ + y) (left.drop x) (right.drop y)
          else whole
    keeping i j head ++ middle ++ keeping (i₁ + n) (j₁ + m) tail
  termination_by as.length + bs.length
  decreasing_by
    all_goals
      have hl := length_trim_left as bs
      have hr := length_trim_right as bs
      simp only [_ht] at hl hr
      simp only [List.length_take, List.length_drop]
      omega

def script (as bs : List α) : List Run := scriptFrom 0 0 as bs

end DotMend.Diff
