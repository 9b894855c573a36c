import DotMend.Diff.Common
import DotMend.Diff.Unified

/-!
Line changes that keep as many lines as possible: the kept lines are a longest common subsequence. Of several
longest ones, read from the end, additions come as late as possible and then removals.
-/

namespace DotMend.Diff

variable {α : Type} [DecidableEq α]

def nextRow (a : α) : List α → List Nat → List Nat
  | b :: bs, above :: row =>
    let rest := nextRow a bs row
    (if a = b then row.headD 0 + 1 else max above (rest.headD 0)) :: rest
  | _, _ => [0]

def lengths (as bs : List α) : List (List Nat) :=
  as.foldr (fun a rows => nextRow a bs (rows.headD []) :: rows) [List.replicate (bs.length + 1) 0]

def changesAlong : List (List Nat) → List α → List α → List (Change α)
  | _, [], [] => []
  | rows, [], b :: bs => .add b :: changesAlong (rows.map List.tail) [] bs
  | rows, a :: as, [] => .remove a :: changesAlong rows.tail as []
  | rows, a :: as, b :: bs =>
    let row := rows.headD []
    let below := rows.tail.headD []
    if row.headD 0 = row.tail.headD 0 then .add b :: changesAlong (rows.map List.tail) (a :: as) bs
    else if row.headD 0 = below.headD 0 then .remove a :: changesAlong rows.tail as (b :: bs)
    else .keep a :: changesAlong (rows.tail.map List.tail) as bs
  termination_by _ as bs => as.length + bs.length

def changesBetween (as bs : List α) : List (Change α) :=
  let head := commonPrefix as bs
  let tail := commonSuffix (as.drop head) (bs.drop head)
  let left := ((as.drop head).take (as.length - head - tail)).reverse
  let right := ((bs.drop head).take (bs.length - head - tail)).reverse
  (as.take head).map .keep ++ (changesAlong (lengths left right) left right).reverse ++
    (as.drop (as.length - tail)).map .keep

/-- What follows the last line end counts as an empty line if nothing else is there. -/
def finalChange : Bool → Bool → List (Change Text)
  | true, true => [.keep []]
  | true, false => [.remove []]
  | false, true => [.add []]
  | false, false => []

def lineChanges (old new : Text) : List (Change Text) :=
  changesBetween old.bareLines new.bareLines ++
    finalChange (old.getLast? = some '\n') (new.getLast? = some '\n')

end DotMend.Diff
