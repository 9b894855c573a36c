import DotMend.Text.Span

/-!
Texts as lists of characters, measured and cut in UTF-8 bytes. A cut exists exactly where a character ends.
-/

namespace DotMend

abbrev Text := List Char

namespace Text

def bytes (t : Text) : Nat := t.foldr (fun c n => c.utf8Size + n) 0

def cut? : Nat → Text → Option (Text × Text)
  | 0, t => some ([], t)
  | _ + 1, [] => none
  | n + 1, c :: t =>
    if c.utf8Size ≤ n + 1 then (cut? (n + 1 - c.utf8Size) t).map fun p => (c :: p.1, p.2) else none

def slice? (t : Text) (s : Span) : Option Text :=
  if s.start ≤ s.stop then
    (cut? s.start t).bind fun p => (cut? (s.stop - s.start) p.2).map Prod.fst
  else none

def sliceString? (t : Text) (s : Span) : Option String := (slice? t s).map String.ofList

def utf8 (t : Text) : List UInt8 := t.flatMap String.utf8EncodeChar

@[simp] theorem bytes_nil : bytes [] = 0 := rfl

@[simp] theorem bytes_cons (c : Char) (t : Text) : bytes (c :: t) = c.utf8Size + bytes t := rfl

@[simp] theorem bytes_append (s t : Text) : bytes (s ++ t) = bytes s + bytes t := by
  induction s with
  | nil => simp
  | cons c s ih => simp [ih, Nat.add_assoc]

theorem cut?_eq_some {n : Nat} {t a b : Text} (h : cut? n t = some (a, b)) : t = a ++ b ∧ bytes a = n := by
  induction t generalizing n a b with
  | nil =>
    cases n with
    | zero => simp_all [cut?]
    | succ n => simp [cut?] at h
  | cons c t ih =>
    cases n with
    | zero => simp_all [cut?]
    | succ n =>
      simp only [cut?] at h
      split at h
      · obtain ⟨⟨a', b'⟩, hp, he⟩ := Option.map_eq_some_iff.mp h
        obtain ⟨rfl, hb⟩ := ih hp
        simp only [Prod.mk.injEq] at he
        obtain ⟨rfl, rfl⟩ := he
        exact ⟨rfl, by simp only [bytes_cons]; omega⟩
      · simp at h

@[simp] theorem cut?_bytes (a b : Text) : cut? (bytes a) (a ++ b) = some (a, b) := by
  induction a with
  | nil => simp [cut?]
  | cons c a ih =>
    have hc := c.utf8Size_pos
    obtain ⟨n, hn⟩ : ∃ n, bytes (c :: a) = n + 1 := ⟨c.utf8Size + bytes a - 1, by simp only [bytes_cons]; omega⟩
    have hr : n + 1 - c.utf8Size = bytes a := by simp only [bytes_cons] at hn; omega
    have hle : c.utf8Size ≤ n + 1 := by simp only [bytes_cons] at hn; omega
    simp [hn, cut?, hle, hr, ih]

theorem slice?_bytes (a b c : Text) :
    slice? (a ++ b ++ c) ⟨bytes a, bytes a + bytes b⟩ = some b := by
  simp [slice?, List.append_assoc]

end Text

end DotMend
