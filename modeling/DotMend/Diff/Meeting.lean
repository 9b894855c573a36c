import DotMend.Diff.Common

/-!
A point that lies on a shortest way from one list to another. The ways are searched from both ends at once, in
rounds that allow one more change each, until a way from the start and a way from the end touch.

A point `(x, y)` has `x` items of the first list and `y` of the second behind it; it lies on diagonal `x - y`.
-/

namespace DotMend.Diff

variable {α : Type} [DecidableEq α]

/-- How far one gets on a diagonal: equal items lead from `start` to `stop`, both counted in the first list. What
both lists have left behind them is kept. -/
structure Reach (α : Type) where
  diagonal : Int
  start : Nat
  stop : Nat
  oldRest : List α
  newRest : List α
  deriving DecidableEq, Repr

def Reach.along (diagonal : Int) (start : Nat) (as bs : List α) : Reach α :=
  let n := commonPrefix as bs
  ⟨diagonal, start, start + n, as.drop n, bs.drop n⟩

def Reach.removing (below : Reach α) : Reach α :=
  .along (below.diagonal + 1) (below.stop + 1) below.oldRest.tail below.newRest

def Reach.adding (above : Reach α) : Reach α :=
  .along (above.diagonal - 1) above.stop above.oldRest above.newRest.tail

def Reach.between : Option (Reach α) → Option (Reach α) → Option (Reach α)
  | none, none => none
  | none, some below => some below.removing
  | some above, none => some above.adding
  | some above, some below => some (if below.stop < above.stop then above.adding else below.removing)

def nextRound (as bs : List α) : List (Reach α) → List (Reach α)
  | [] => [.along 0 0 as bs]
  | before =>
    let reaches := before.map some
    (List.zipWith Reach.between (none :: reaches) (reaches ++ [none])).reduceOption

/-- The first reach from one end that touches or passes one from the other end. A diagonal is `delta` less what it
is from the other end; the one list is from the highest and the other from the lowest. -/
def touching (size : Nat) (delta : Int) : List (Reach α) → List (Reach α) → Option (Reach α)
  | r :: rs, o :: os =>
    if o.diagonal < delta - r.diagonal then touching size delta (r :: rs) os
    else if o.diagonal = delta - r.diagonal ∧ size ≤ r.stop + o.stop then some r
    else touching size delta rs (o :: os)
  | _, _ => none
  termination_by rs os => rs.length + os.length

def searchRound (as bs : List α) (state : List (Reach α) × List (Reach α)) :
    Except (Nat × Nat) (List (Reach α) × List (Reach α)) := do
  let delta : Int := as.length - bs.length
  let forward := nextRound as bs state.1
  if let some r := touching as.length delta forward state.2.reverse then
    throw (r.start, (r.start - r.diagonal).toNat)
  let backward := nextRound as.reverse bs.reverse state.2
  if let some r := touching as.length delta backward forward.reverse then
    throw (as.length - r.stop, bs.length - (r.stop - r.diagonal).toNat)
  pure (forward, backward)

def meetingWithin? (as bs : List α) : Nat → List (Reach α) × List (Reach α) → Option (Nat × Nat)
  | 0, _ => none
  | rounds + 1, state =>
    match searchRound as bs state with
    | .error point => some point
    | .ok state => meetingWithin? as bs rounds state

def meeting? (as bs : List α) : Option (Nat × Nat) :=
  meetingWithin? as bs ((as.length + bs.length + 1) / 2 + 1) ([], [])

end DotMend.Diff
