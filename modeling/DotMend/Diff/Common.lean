namespace DotMend.Diff

variable {α : Type} [DecidableEq α]

def commonPrefix : List α → List α → Nat
  | a :: as, b :: bs => if a = b then commonPrefix as bs + 1 else 0
  | _, _ => 0

def commonSuffix (as bs : List α) : Nat := commonPrefix as.reverse bs.reverse

theorem commonPrefix_le_left (as bs : List α) : commonPrefix as bs ≤ as.length := by
  fun_induction commonPrefix as bs <;> simp_all

theorem commonPrefix_le_right (as bs : List α) : commonPrefix as bs ≤ bs.length := by
  fun_induction commonPrefix as bs <;> simp_all

theorem take_commonPrefix (as bs : List α) :
    as.take (commonPrefix as bs) = bs.take (commonPrefix as bs) := by
  fun_induction commonPrefix as bs <;> simp_all

end DotMend.Diff
