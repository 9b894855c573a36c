import DotMend.Diff.Script

/-!
Scripts made easier to read: additions slide over the equal items beside them, up and then down, and neighbours of
one kind that meet on the way become one run. A removal stays where it is, but lets additions pass.
-/

namespace DotMend.Diff

variable {α : Type} [DecidableEq α]

structure Cursor where
  before : List Run
  run : Run
  after : List Run
  deriving DecidableEq, Repr

def part (as : List α) (start size : Nat) : List α := (as.drop start).take size

def weight (runs : List Run) : Nat := runs.foldr (fun r n => r.size + 1 + n) 0

def giveBelow (kept : Run) : List Run → List Run
  | next :: rest =>
    if next.tag = .keep then
      ⟨.keep, next.old - kept.size, next.new - kept.size, next.size + kept.size⟩ :: rest
    else kept :: next :: rest
  | [] => [kept]

def giveAbove (kept : Run) : List Run → List Run
  | prev :: rest =>
    if prev.tag = .keep then { prev with size := prev.size + kept.size } :: rest
    else kept :: prev :: rest
  | [] => [kept]

def dropEmpty (r : Run) (rest : List Run) : List Run := if r.size = 0 then rest else r :: rest

theorem weight_cons (r : Run) (rest : List Run) : weight (r :: rest) = r.size + 1 + weight rest := rfl

theorem weight_dropEmpty {r : Run} {n size : Nat} (rest : List Run) (hn : 0 < n) (h : r.size = size - n) :
    weight (dropEmpty r rest) < size + 1 + weight rest := by
  unfold dropEmpty
  split
  · omega
  · rw [weight_cons]
    omega

def slack (old new : List α) (above run : Run) : Nat :=
  if run.tag = .add then commonSuffix (part old above.old above.size) (part new run.new run.size) else 0

def slackBelow (old new : List α) (below run : Run) : Nat :=
  if run.tag = .add then commonPrefix (part old below.old below.size) (part new run.new run.size) else 0

def slideUp (old new : List α) (before : List Run) (run : Run) (after : List Run) : Cursor :=
  match before with
  | [] => ⟨[], run, after⟩
  | prev :: rest =>
    if prev.tag = .keep then
      let n := slack old new prev run
      if 0 < n then
        slideUp old new (dropEmpty { prev with size := prev.size - n } rest)
          { run with old := run.old - n, new := run.new - n }
          (giveBelow ⟨.keep, prev.old + prev.size - n, run.new + run.size - n, n⟩ after)
      else if prev.size = 0 then slideUp old new rest run after
      else ⟨prev :: rest, run, after⟩
    else if prev.tag = run.tag then slideUp old new rest { prev with size := prev.size + run.size } after
    else slideUp old new rest run (prev :: after)
  termination_by weight before
  decreasing_by
    · rw [weight_cons]
      exact weight_dropEmpty rest ‹0 < n› rfl
    all_goals
      rw [weight_cons]
      omega

def slideDown (old new : List α) (before : List Run) (run : Run) (after : List Run) : Cursor :=
  match after with
  | [] => ⟨before, run, []⟩
  | next :: rest =>
    if next.tag = .keep then
      let n := slackBelow old new next run
      if 0 < n then
        slideDown old new (giveAbove ⟨.keep, next.old, run.new, n⟩ before)
          { run with old := run.old + n, new := run.new + n }
          (dropEmpty { next with old := next.old + n, new := next.new + n, size := next.size - n } rest)
      else if next.size = 0 then slideDown old new before run rest
      else ⟨before, run, next :: rest⟩
    else if next.tag = run.tag then slideDown old new before { run with size := run.size + next.size } rest
    else slideDown old new (next :: before) run rest
  termination_by weight after
  decreasing_by
    · rw [weight_cons]
      exact weight_dropEmpty rest ‹0 < n› rfl
    all_goals
      rw [weight_cons]
      omega

def slideAll (old new : List α) (tag : Tag) : Nat → List Run → List Run → List Run
  | steps + 1, before, run :: after =>
    if run.tag = tag then
      let up := slideUp old new before run after
      let down := slideDown old new up.before up.run up.after
      slideAll old new tag steps (down.run :: down.before) down.after
    else slideAll old new tag steps (run :: before) after
  | _, before, after => before.reverse ++ after

/-- A script has no more runs than there are items, so the steps suffice. -/
def settle (old new : List α) (runs : List Run) : List Run :=
  let steps := old.length + new.length + runs.length
  slideAll old new .add steps [] (slideAll old new .remove steps [] runs)

end DotMend.Diff
