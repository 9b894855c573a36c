import DotMend.Diff.Slide
import DotMend.Diff.Unified

namespace DotMend.Diff

variable {α : Type} [DecidableEq α]

inductive Block where
  | keep (old new size : Nat)
  | change (old removed new added : Nat)
  deriving DecidableEq, Repr

namespace Block

def oldStart : Block → Nat
  | keep old _ _ => old
  | change old _ _ _ => old

def newStart : Block → Nat
  | keep _ new _ => new
  | change _ _ new _ => new

def oldStop : Block → Nat
  | keep old _ size => old + size
  | change old removed _ _ => old + removed

def newStop : Block → Nat
  | keep _ new size => new + size
  | change _ _ new added => new + added

def ofRuns : Option Run → Option Run → List Block
  | none, none => []
  | some r, none => [change r.old r.size r.new 0]
  | none, some a => [change a.old 0 a.new a.size]
  | some r, some a => [change r.old r.size a.new a.size]

end Block

def Block.ofKept (kept : Option Run) : List Block := (kept.map fun r => keep r.old r.new r.size).toList

def Run.join (first : Option Run) (r : Run) : Option Run :=
  match first with
  | some f => some { f with size := f.size + r.size }
  | none => some r

def blocksFrom (kept removed added : Option Run) : List Run → List Block
  | [] => Block.ofRuns removed added ++ Block.ofKept kept
  | r :: rest =>
    match r.tag with
    | .keep => Block.ofRuns removed added ++ blocksFrom (Run.join kept r) none none rest
    | .remove => Block.ofKept kept ++ blocksFrom none (Run.join removed r) added rest
    | .add => Block.ofKept kept ++ blocksFrom none removed (Run.join added r) rest

def blocks (runs : List Run) : List Block := blocksFrom none none none runs

def radius : Nat := 3

def Block.shortenBefore : Block → Block
  | keep old new size => keep (old + (size - radius)) (new + (size - radius)) (size - (size - radius))
  | b => b

def Block.shortenAfter : Block → Block
  | keep old new size => keep old new (min size radius)
  | b => b

def shortenFirst : List Block → List Block
  | [] => []
  | b :: rest => b.shortenBefore :: rest

def shortenLast (bs : List Block) : List Block :=
  match bs.getLast? with
  | some b => bs.dropLast ++ [b.shortenAfter]
  | none => []

def groupsFrom (pending : List Block) : List Block → List (List Block)
  | [] =>
    match pending with
    | [] | [.keep _ _ _] => []
    | _ => [pending]
  | .keep old new size :: rest =>
    if 2 * radius < size then
      (pending ++ [(Block.keep old new size).shortenAfter]) ::
        groupsFrom [(Block.keep old new size).shortenBefore] rest
    else groupsFrom (pending ++ [.keep old new size]) rest
  | b :: rest => groupsFrom (pending ++ [b]) rest

def groups (bs : List Block) : List (List Block) := groupsFrom [] (shortenLast (shortenFirst bs))

/-- Lines are counted from one. The size is left out if it is one; no lines at all are placed behind the line
before. -/
def rangeText (start stop : Nat) : String :=
  let size := stop - start
  if size = 1 then toString (start + 1)
  else if size = 0 then s!"{start},0"
  else s!"{start + 1},{size}"

def headerText (first last : Block) : Text :=
  s!"@@ -{rangeText first.oldStart last.oldStop} +{rangeText first.newStart last.newStop} @@".toList

def Block.changes (olds news : List Text) : Block → List (Change Text)
  | keep i _ size => (part olds i size).map .keep
  | change i removed j added => (part olds i removed).map .remove ++ (part news j added).map .add

def Hunk.ofBlocks? (olds news : List Text) (bs : List Block) : Option Hunk :=
  match bs.head?, bs.getLast? with
  | some first, some last => some ⟨headerText first last, bs.flatMap (Block.changes olds news)⟩
  | _, _ => none

def hunks (olds news : List Text) : List Hunk :=
  (groups (blocks (settle olds news (script olds news)))).filterMap (Hunk.ofBlocks? olds news)

def patch (path : String) (old new : Text) : Text := unified path (hunks old.splitLines new.splitLines)

end DotMend.Diff
