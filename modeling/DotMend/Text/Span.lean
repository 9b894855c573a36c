/-!
Spans of byte offsets. A span may be reversed; it then holds no text.
-/

namespace DotMend

structure Span where
  start : Nat
  stop : Nat
  deriving DecidableEq, Repr

namespace Span

def caret (offset : Nat) : Span := ⟨offset, offset⟩

def isEmpty (s : Span) : Bool := s.start == s.stop

def size (s : Span) : Nat := s.stop - s.start

def cover (a b : Span) : Span := ⟨min a.start b.start, max a.stop b.stop⟩

/-- Both ends count as inside, so a caret right behind a word still touches it. -/
def touches (s : Span) (offset : Nat) : Bool := s.start ≤ offset && offset ≤ s.stop

def encloses (outer inner : Span) : Bool := outer.start ≤ inner.start && inner.stop ≤ outer.stop

def render (s : Span) : String := s!"{s.start}..{s.stop}"

@[simp] theorem caret_start (n : Nat) : (caret n).start = n := rfl

@[simp] theorem caret_stop (n : Nat) : (caret n).stop = n := rfl

theorem touches_iff {s : Span} {n : Nat} : s.touches n = true ↔ s.start ≤ n ∧ n ≤ s.stop := by
  simp [touches]

theorem encloses_iff {a b : Span} : a.encloses b = true ↔ a.start ≤ b.start ∧ b.stop ≤ a.stop := by
  simp [encloses]

end Span

end DotMend
