import DotMend.Proofs.Diff.Reading

/-!
The lines of a patch. Each change takes one of them, or two if its line has no end, and the text of a patch is cut
into these lines again.
-/

namespace DotMend

namespace Text

def Unbroken (x : Text) : Prop := '\n' ∉ x ∧ '\r' ∉ x

lemma unbroken_cons {c : Char} {x : Text} : Unbroken (c :: x) ↔ (c ≠ '\n' ∧ c ≠ '\r') ∧ Unbroken x := by
  simp only [Unbroken, List.mem_cons, not_or, ne_eq, eq_comm (a := c)]
  tauto

lemma unbroken_append {x y : Text} (hx : Unbroken x) (hy : Unbroken y) : Unbroken (x ++ y) := by
  simp only [Unbroken, List.mem_append, not_or]
  exact ⟨⟨hx.1, hy.1⟩, hx.2, hy.2⟩

inductive IsLine : Text → Prop
  | cutOff {x : Text} (hx : Unbroken x) : IsLine x
  | ended {x e : Text} (hx : Unbroken x) (he : e = ['\n'] ∨ e = ['\r'] ∨ e = ['\r', '\n']) : IsLine (x ++ e)

lemma IsLine.cons {c : Char} {l : Text} (hc : c ≠ '\n' ∧ c ≠ '\r') (h : IsLine l) : IsLine (c :: l) := by
  cases h with
  | cutOff hx => exact .cutOff (unbroken_cons.mpr ⟨hc, hx⟩)
  | ended hx he => exact .ended (unbroken_cons.mpr ⟨hc, hx⟩) he

lemma splitLines_newline (rest : Text) : splitLines ('\n' :: rest) = ['\n'] :: splitLines rest := by
  simp [splitLines]

lemma splitLines_return {rest : Text} (h : rest.head? ≠ some '\n') :
    splitLines ('\r' :: rest) = ['\r'] :: splitLines rest := by
  rw [splitLines]
  · simp
  · rintro t - rfl
    exact h rfl

lemma splitLines_cons {c : Char} (hc : c ≠ '\n' ∧ c ≠ '\r') (rest : Text) :
    splitLines (c :: rest) = consLine c (splitLines rest) := by
  rw [splitLines]
  · simp [hc]
  · rintro t rfl
    exact absurd rfl hc.2

lemma splitLines_unbroken {x : Text} (hx : Unbroken x) {l : Text} {ls : List Text} {rest : Text}
    (h : splitLines rest = l :: ls) : splitLines (x ++ rest) = (x ++ l) :: ls := by
  induction x with
  | nil => exact h
  | cons c x ih =>
    obtain ⟨hc, hx⟩ := unbroken_cons.mp hx
    rw [List.cons_append, splitLines_cons hc, ih hx]
    rfl

lemma isEnded_append (x : Text) {e : Text} (he : e = ['\n'] ∨ e = ['\r'] ∨ e = ['\r', '\n']) :
    (x ++ e).isEnded := by
  rcases he with rfl | rfl | rfl <;> simp [isEnded]

lemma not_isEnded_of_unbroken {x : Text} (hx : Unbroken x) : ¬ x.isEnded := by
  unfold isEnded
  split
  · rename_i c hc
    have := List.mem_of_getLast? hc
    have hn : c ≠ '\n' := fun h => hx.1 (h ▸ this)
    have hr : c ≠ '\r' := fun h => hx.2 (h ▸ this)
    simp [hn, hr]
  · simp

lemma IsLine.splitLines_append {l rest : Text} (hl : IsLine l) (hend : l.isEnded)
    (hrest : rest.head? ≠ some '\n') : splitLines (l ++ rest) = l :: splitLines rest := by
  cases hl with
  | cutOff hx => exact absurd hend (not_isEnded_of_unbroken hx)
  | ended hx he =>
    rw [List.append_assoc]
    apply splitLines_unbroken hx
    rcases he with rfl | rfl | rfl
    · exact splitLines_newline rest
    · exact splitLines_return hrest
    · rfl

lemma mem_consLine {c : Char} {l : Text} {ls : List Text} (h : l ∈ consLine c ls) :
    (∃ m, (m = [] ∨ m ∈ ls) ∧ l = c :: m) ∨ l ∈ ls := by
  cases ls with
  | nil => exact .inl ⟨[], .inl rfl, List.mem_singleton.mp h⟩
  | cons m ls =>
    rcases List.mem_cons.mp h with rfl | h
    · exact .inl ⟨m, .inr (by simp), rfl⟩
    · exact .inr (by simp [h])

lemma isLine_of_mem_splitLines {t : Text} : ∀ l ∈ splitLines t, IsLine l := by
  fun_induction splitLines t with
  | case1 => simp
  | case2 rest ih =>
    rintro l (_ | ⟨_, hl⟩)
    · exact .ended (x := []) (by simp [Unbroken]) (.inr (.inr rfl))
    · exact ih l hl
  | case3 c rest _ hc ih =>
    rintro l (_ | ⟨_, hl⟩)
    · exact .ended (x := []) (by simp [Unbroken]) (by rcases hc with rfl | rfl <;> simp)
    · exact ih l hl
  | case4 c rest _ hc ih =>
    intro l hl
    obtain ⟨m, hm, rfl⟩ | hl := mem_consLine hl
    · exact IsLine.cons (not_or.mp hc) (hm.elim (fun h => h ▸ .cutOff (by simp [Unbroken])) (ih m))
    · exact ih l hl

def Paired : Text → Prop
  | [] => True
  | c :: rest => (c = '\r' → rest.head? = some '\n') ∧ Paired rest

instance decidablePaired : DecidablePred Paired
  | [] => .isTrue trivial
  | _ :: rest =>
    have := decidablePaired rest
    inferInstanceAs (Decidable (_ ∧ _))

lemma paired_append {x y : Text} (hx : Paired x) (hy : Paired y) : Paired (x ++ y) := by
  induction x with
  | nil => exact hy
  | cons c x ih =>
    refine ⟨fun hc => ?_, ih hx.2⟩
    show (x ++ y).head? = some '\n'
    rw [List.head?_append, hx.1 hc]
    rfl

lemma paired_of_not_mem {x : Text} (h : '\r' ∉ x) : Paired x := by
  induction x with
  | nil => trivial
  | cons c x ih => exact ⟨fun hc => absurd (hc ▸ List.mem_cons_self) h, ih fun hx => h (List.mem_cons_of_mem _ hx)⟩

lemma paired_flatten {ls : List Text} (h : ∀ l ∈ ls, Paired l) : Paired ls.flatten := by
  induction ls with
  | nil => trivial
  | cons l ls ih => exact paired_append (h l (by simp)) (ih fun m hm => h m (by simp [hm]))

lemma paired_of_mem_splitLines {t : Text} (h : Paired t) : ∀ l ∈ splitLines t, Paired l := by
  fun_induction splitLines t with
  | case1 => simp
  | case2 rest ih =>
    rintro l (_ | ⟨_, hl⟩)
    · simp [Paired]
    · exact ih h.2.2 l hl
  | case3 c rest hne hc ih =>
    rintro l (_ | ⟨_, hl⟩)
    · rcases hc with rfl | rfl
      · simp [Paired]
      · cases rest with
        | nil => exact absurd (h.1 rfl) (by simp)
        | cons d rest =>
          obtain rfl := Option.some.inj (h.1 rfl)
          exact absurd rfl (hne rest rfl)
    · exact ih h.2 l hl
  | case4 c rest _ hc ih =>
    intro l hl
    obtain ⟨m, hm, rfl⟩ | hl := mem_consLine hl
    · exact ⟨fun h => absurd h (not_or.mp hc).2, hm.elim (fun h => h ▸ trivial) (ih h.2 m)⟩
    · exact ih h.2 l hl

lemma splitFeeds_eq_splitLines {t : Text} (h : Paired t) : splitFeeds t = splitLines t := by
  fun_induction splitLines t with
  | case1 => rfl
  | case2 rest ih => simp [splitFeeds, ih h.2.2, consLine]
  | case3 c rest hne hc ih =>
    rcases hc with rfl | rfl
    · simp [splitFeeds, ih h.2]
    · cases rest with
      | nil => exact absurd (h.1 rfl) (by simp)
      | cons d rest =>
        obtain rfl := Option.some.inj (h.1 rfl)
        exact absurd rfl (hne rest rfl)
  | case4 c rest _ hc ih => simp [splitFeeds, ih h.2, not_or.mp hc]

end Text

namespace Diff

open Text

lemma flatten_flatMap {α : Type} (f : α → List Text) (as : List α) :
    (as.flatMap f).flatten = as.flatMap fun a => (f a).flatten := by
  simp only [← List.flatMap_id, List.flatMap_assoc]

lemma Change.flatten_rows (c : Change Text) : (c.rows isEnded).flatten = c.text := by
  unfold rows text shown
  split <;> simp [signed]

lemma Hunk.flatten_rows (h : Hunk) : (h.rows Change.isEnded).flatten = h.text := by
  rw [rows, text, headLine, List.flatten_cons, flatten_flatMap, List.append_assoc]
  simp only [Change.flatten_rows, List.singleton_append]

lemma unified_eq (path : String) (hs : List Hunk) :
    unified path hs = pathText path ++ (hs.flatMap (Hunk.rows Change.isEnded)).flatten := by
  rw [unified, flatten_flatMap]
  simp only [Hunk.flatten_rows]

structure Hunk.Headed (h : Hunk) : Prop where
  unbroken : Unbroken h.header
  mark : h.header.head? = some '@'

lemma Hunk.Headed.exists_header {h : Hunk} (hh : h.Headed) : ∃ x, h.headLine = '@' :: x := by
  obtain ⟨-, hmark⟩ := hh
  obtain ⟨x, hx⟩ := List.head?_eq_some_iff.mp hmark
  exact ⟨x ++ ['\n'], by rw [headLine, hx, List.cons_append]⟩

lemma Hunk.Headed.splitLines_headLine {h : Hunk} (hh : h.Headed) (rest : Text) :
    splitLines (h.headLine ++ rest) = h.headLine :: splitLines rest := by
  rw [headLine, List.append_assoc]
  exact splitLines_unbroken hh.unbroken (splitLines_newline rest)

lemma head?_of_header? {line : Text} {ranges : (Nat × Nat) × Nat × Nat} (h : header? line = some ranges) :
    line.head? = some '@' := by
  unfold header? at h
  split at h
  · rfl
  · cases h

lemma headed_of_header? {h : Hunk} {ranges : (Nat × Nat) × Nat × Nat} (hline : Unbroken h.header)
    (hheader : header? h.headLine = some ranges) : h.Headed := by
  have hmark := head?_of_header? hheader
  refine ⟨hline, ?_⟩
  rw [Hunk.headLine, List.head?_append] at hmark
  cases hhead : h.header.head? with
  | none =>
    rw [hhead] at hmark
    cases hmark
  | some c =>
    rw [hhead] at hmark
    exact hmark

lemma Edits.headed {i j : Nat} {olds news : List Text} {hs : List Hunk} (h : Edits i j olds news hs) :
    ∀ h ∈ hs, h.Headed := by
  induction h with
  | done => simp
  | hunk hline hheader _ ih => exact List.forall_mem_cons.mpr ⟨headed_of_header? hline hheader, ih⟩

lemma line_mem_sides {cs : List (Change Text)} {c : Change Text} (hc : c ∈ cs) :
    c.line ∈ oldSide cs ∨ c.line ∈ newSide cs := by
  induction cs with
  | nil => cases hc
  | cons d cs ih =>
    rcases List.mem_cons.mp hc with rfl | hmem
    · cases c <;> simp [oldSide, newSide, Change.line]
    · rcases ih hmem with h | h <;> cases d <;> simp [oldSide, newSide, h]

lemma Edits.line_mem {i j : Nat} {olds news : List Text} {hs : List Hunk} (h : Edits i j olds news hs) :
    ∀ h ∈ hs, ∀ c ∈ h.changes, c.line ∈ olds ∨ c.line ∈ news := by
  induction h with
  | done => simp
  | hunk _ _ _ ih =>
    simp only [List.forall_mem_cons, List.mem_append]
    refine ⟨fun c hc => ?_, fun g hg c hc => ?_⟩
    · exact (line_mem_sides hc).imp (fun h => .inr (.inl h)) fun h => .inr (.inl h)
    · exact (ih g hg c hc).imp (fun h => .inr (.inr h)) fun h => .inr (.inr h)

lemma Change.sign_unbroken (c : Change Text) : c.sign ≠ '\n' ∧ c.sign ≠ '\r' := by
  cases c <;> simp [sign]

lemma Change.splitLines_rows {c : Change Text} (hc : IsLine c.line) {rest : Text}
    (hrest : rest.head? ≠ some '\n') :
    splitLines ((c.rows isEnded).flatten ++ rest) = c.rows isEnded ++ splitLines rest := by
  rw [rows, isEnded, signed]
  generalize c.line = l at hc
  cases hc with
  | cutOff hx =>
    rw [if_neg (not_isEnded_of_unbroken hx)]
    have hx := unbroken_cons.mpr ⟨c.sign_unbroken, hx⟩
    simpa [splitLines_newline] using splitLines_unbroken hx (splitLines_newline ('\n' :: rest))
  | @ended x e hx he =>
    have hline : IsLine (c.sign :: x ++ e) := .ended (unbroken_cons.mpr ⟨c.sign_unbroken, hx⟩) he
    rw [if_pos (isEnded_append x he)]
    simpa using hline.splitLines_append (isEnded_append _ he) hrest

lemma splitLines_changes {cs : List (Change Text)} (h : ∀ c ∈ cs, IsLine c.line) {rest : Text}
    (hrest : rest.head? ≠ some '\n') :
    splitLines ((cs.flatMap (Change.rows Change.isEnded)).flatten ++ rest) =
      cs.flatMap (Change.rows Change.isEnded) ++ splitLines rest := by
  induction cs with
  | nil => rfl
  | cons c cs ih =>
    -- A line that ends with `\r` would take a `\n` behind it for its own.
    have hhead : ((cs.flatMap (Change.rows Change.isEnded)).flatten ++ rest).head? ≠ some '\n' := by
      cases cs with
      | nil => exact hrest
      | cons d _ =>
        rw [List.flatMap_cons, List.flatten_append, Change.flatten_rows, Change.text]
        simpa using d.sign_unbroken.1
    rw [List.flatMap_cons, List.flatten_append, List.append_assoc, Change.splitLines_rows (h c (by simp)) hhead,
      ih fun d hd => h d (by simp [hd]), List.append_assoc]

lemma splitLines_hunks {hs : List Hunk} (hheaded : ∀ h ∈ hs, h.Headed)
    (hlines : ∀ h ∈ hs, ∀ c ∈ h.changes, IsLine c.line) :
    splitLines (hs.flatMap (Hunk.rows Change.isEnded)).flatten = hs.flatMap (Hunk.rows Change.isEnded) := by
  induction hs with
  | nil => rfl
  | cons g hs ih =>
    rw [List.forall_mem_cons] at hheaded hlines
    have hhead : (hs.flatMap (Hunk.rows Change.isEnded)).flatten.head? ≠ some '\n' := by
      cases hs with
      | nil => simp
      | cons g' _ =>
        obtain ⟨x, hx⟩ := (hheaded.2 g' List.mem_cons_self).exists_header
        simp [Hunk.rows, hx]
    rw [List.flatMap_cons, Hunk.rows, List.flatten_append, List.flatten_cons, List.append_assoc,
      hheaded.1.splitLines_headLine, splitLines_changes hlines.1 hhead, ih hheaded.2 hlines.2]
    rfl

lemma heedNotes_cons {isNote : Text → Bool} {line : Text} {rest : List Text}
    (h : ∀ note, rest.head? = some note → isNote note = false) :
    heedNotes isNote (line :: rest) = line :: heedNotes isNote rest := by
  cases rest with
  | nil => rfl
  | cons note rest => simp [heedNotes, h note rfl]

lemma heedNotes_eq_self {isNote : Text → Bool} {lines : List Text} (h : ∀ l ∈ lines, isNote l = false) :
    heedNotes isNote lines = lines := by
  induction lines with
  | nil => rfl
  | cons l lines ih =>
    rw [heedNotes_cons fun m hm => h m (List.mem_cons_of_mem _ (List.mem_of_head? hm)),
      ih fun m hm => h m (by simp [hm])]

lemma Change.heedNotes_rows (c : Change Text) {rest : List Text} (hrest : rest.head? ≠ some ['\n']) :
    heedNotes Dialect.printed.isNote (c.rows isEnded ++ rest) =
      c.signed :: heedNotes Dialect.printed.isNote rest := by
  unfold rows
  split
  · apply heedNotes_cons
    rintro note hnote
    simpa [Dialect.printed] using fun h : note = ['\n'] => hrest (h ▸ hnote)
  · simp [heedNotes, Dialect.printed]

lemma head?_changes_ne (cs : List (Change Text)) {rest : List Text} (hrest : rest.head? ≠ some ['\n']) :
    (cs.flatMap (Change.rows Change.isEnded) ++ rest).head? ≠ some ['\n'] := by
  cases cs with
  | nil => exact hrest
  | cons c _ =>
    have := c.sign_unbroken.1
    simp only [List.flatMap_cons, Change.rows, Change.signed]
    split <;> simp [this]

lemma heedNotes_changes (cs : List (Change Text)) {rest : List Text} (hrest : rest.head? ≠ some ['\n']) :
    heedNotes Dialect.printed.isNote (cs.flatMap (Change.rows Change.isEnded) ++ rest) =
      cs.flatMap (Change.rows fun _ => true) ++ heedNotes Dialect.printed.isNote rest := by
  induction cs with
  | nil => rfl
  | cons c cs ih =>
    rw [List.flatMap_cons, List.append_assoc, c.heedNotes_rows (head?_changes_ne cs hrest), ih]
    rfl

lemma heedNotes_hunks {hs : List Hunk} (hheaded : ∀ h ∈ hs, h.Headed) :
    heedNotes Dialect.printed.isNote (hs.flatMap (Hunk.rows Change.isEnded)) =
      hs.flatMap (Hunk.rows fun _ => true) := by
  induction hs with
  | nil => rfl
  | cons g hs ih =>
    rw [List.forall_mem_cons] at hheaded
    have hhead : (hs.flatMap (Hunk.rows Change.isEnded)).head? ≠ some ['\n'] := by
      cases hs with
      | nil => simp
      | cons g' _ =>
        obtain ⟨x, hx⟩ := (hheaded.2 g' List.mem_cons_self).exists_header
        simp [Hunk.rows, hx]
    have hne := head?_changes_ne g.changes hhead
    rw [List.flatMap_cons, Hunk.rows, List.cons_append, heedNotes_cons, heedNotes_changes g.changes hhead,
      ih hheaded.2]
    · rfl
    · intro note hnote
      simpa [Dialect.printed] using fun h : note = ['\n'] => hne (h ▸ hnote)

lemma mem_rows {hs : List Hunk} {l : Text} (h : l ∈ hs.flatMap (Hunk.rows Change.isEnded)) :
    (∃ g ∈ hs, l = g.headLine) ∨ (∃ g ∈ hs, ∃ c ∈ g.changes, l = c.signed ∨ l = c.signed ++ ['\n']) ∨
      l = ['\n'] := by
  obtain ⟨g, hg, hl⟩ := List.mem_flatMap.mp h
  rcases List.mem_cons.mp hl with rfl | hl
  · exact .inl ⟨g, hg, rfl⟩
  · obtain ⟨c, hc, hl⟩ := List.mem_flatMap.mp hl
    unfold Change.rows at hl
    split at hl <;> simp only [List.mem_cons, List.not_mem_nil, or_false] at hl
    · exact .inr (.inl ⟨g, hg, c, hc, .inl hl⟩)
    · rcases hl with hl | hl
      · exact .inr (.inl ⟨g, hg, c, hc, .inr hl⟩)
      · exact .inr (.inr hl)

lemma not_isNote_standard {hs : List Hunk} (hheaded : ∀ h ∈ hs, h.Headed) :
    ∀ l ∈ hs.flatMap (Hunk.rows Change.isEnded), Dialect.standard.isNote l = false := by
  intro l hl
  obtain ⟨g, hg, rfl⟩ | ⟨g, -, c, -, hl⟩ | rfl := mem_rows hl
  · obtain ⟨x, hx⟩ := (hheaded g hg).exists_header
    simp [Dialect.standard, hx]
  · rcases hl with rfl | rfl <;> cases c <;> simp [Dialect.standard, Change.signed, Change.sign]
  · rfl

lemma paired_hunks {hs : List Hunk} (hheaded : ∀ h ∈ hs, h.Headed) (h : ∀ h ∈ hs, ∀ c ∈ h.changes, Paired c.line) :
    Paired (hs.flatMap (Hunk.rows Change.isEnded)).flatten := by
  apply paired_flatten
  intro l hl
  have hend : Paired ['\n'] := paired_of_not_mem (by simp)
  have hsigned (c : Change Text) (hc : Paired c.line) : Paired c.signed :=
    ⟨fun h => absurd h c.sign_unbroken.2, hc⟩
  obtain ⟨g, hg, rfl⟩ | ⟨g, hg, c, hc, hl⟩ | rfl := mem_rows hl
  · exact paired_append (paired_of_not_mem (hheaded g hg).unbroken.2) hend
  · rcases hl with rfl | rfl
    · exact hsigned c (h g hg c hc)
    · exact paired_append (hsigned c (h g hg c hc)) hend
  · exact hend

end Diff

end DotMend
