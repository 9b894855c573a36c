import DotMend.Text.Slice

/-!
Replacements of spans. All spans of a batch refer to the text before any of them; they may touch, and must not
overlap.
-/

namespace DotMend

structure Edit where
  span : Span
  replacement : String
  message : String
  deriving DecidableEq, Repr

inductive EditError where
  | overlap (offset : Nat)
  | outOfBounds (span : Span) (size : Nat)
  deriving DecidableEq, Repr

namespace EditError

def message : EditError → String
  | overlap offset => s!"Overlapping edits detected at offset {offset}"
  | outOfBounds span size => s!"Edit range {span.render} out of bounds for source length {size}"

end EditError

namespace Edit

def delete (span : Span) (message : String) : Edit := ⟨span, "", message⟩

/-- Later spans first; of two that start together the longer one. -/
def notBefore (a b : Edit) : Bool :=
  b.span.start < a.span.start || (a.span.start == b.span.start && b.span.stop ≤ a.span.stop)

/-- Replaces from the back: `head` is what of `source` is still untouched, `done` what follows it. -/
def applyFrom (source : Text) : (head done : Text) → List Edit → Except EditError Text
  | head, done, [] => .ok (head ++ done)
  | head, done, e :: rest =>
    match source.slice? e.span with
    | none => .error (.outOfBounds e.span source.bytes)
    | some _ =>
      match Text.cut? e.span.stop head with
      | none => .error (.overlap e.span.start)
      | some (before, kept) =>
        match Text.cut? e.span.start before with
        | none => .error (.overlap e.span.start)
        | some (head', _) => applyFrom source head' (e.replacement.toList ++ kept ++ done) rest

def applyAll (source : Text) (edits : List Edit) : Except EditError Text :=
  applyFrom source source [] (edits.mergeSort notBefore)

end Edit

end DotMend
