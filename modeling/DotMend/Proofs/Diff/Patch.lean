import DotMend.Proofs.Diff.Hunks
import DotMend.Proofs.Diff.Unified

/-! The hunks that the search finds. They list a way from the old text to the new one, but their headers can be
wrong. -/

namespace DotMend

namespace Diff

open Text

theorem groups_of_script_spread (olds news : List Text) :
    Spread olds news 0 0 (groups (blocks (settle olds news (script olds news)))) :=
  groups_spread (blocks_route (settle_route (script_route olds news)))

lemma oldSide_append (cs ds : List (Change Text)) : oldSide (cs ++ ds) = oldSide cs ++ oldSide ds := by
  fun_induction oldSide cs <;> simp_all [oldSide]

lemma newSide_append (cs ds : List (Change Text)) : newSide (cs ++ ds) = newSide cs ++ newSide ds := by
  fun_induction newSide cs <;> simp_all [newSide]

lemma sides_keep (ls : List Text) : oldSide (ls.map .keep) = ls ∧ newSide (ls.map .keep) = ls := by
  induction ls <;> simp_all [oldSide, newSide]

lemma sides_change (ls ms : List Text) :
    oldSide (ls.map .remove ++ ms.map .add) = ls ∧ newSide (ls.map .remove ++ ms.map .add) = ms := by
  rw [oldSide_append, newSide_append]
  constructor
  · have : oldSide (ms.map .add) = [] := by induction ms <;> simp_all [oldSide]
    rw [this, List.append_nil]
    induction ls <;> simp_all [oldSide]
  · have : newSide (ls.map .remove) = [] := by induction ls <;> simp_all [newSide]
    rw [this, List.nil_append]
    induction ms <;> simp_all [newSide]

variable {olds news : List Text}

structure Shows (olds news : List Text) (cs : List (Change Text)) (p q : Nat × Nat) : Prop where
  old : oldSide cs ++ olds.drop q.1 = olds.drop p.1
  new : newSide cs ++ news.drop q.2 = news.drop p.2
  oldSize : p.1 + (oldSide cs).length = q.1
  newSize : p.2 + (newSide cs).length = q.2

lemma Block.Leads.shows {b : Block} {p q : Nat × Nat} (h : b.Leads olds news p q) :
    Shows olds news (b.changes olds news) p q := by
  cases h with
  | @keep i _ n hn hsame hi hj =>
    have hsides := sides_keep (part olds i n)
    constructor
    · rw [Block.changes, hsides.1, ← drop_eq_part_append]
    · rw [Block.changes, hsides.2, hsame, ← drop_eq_part_append]
    · rw [Block.changes, hsides.1, length_part hi]
    · rw [Block.changes, hsides.2, hsame, length_part hj]
  | @change i i' j j' n m _ hn hm hi hj =>
    have hplace {ls : List Text} {k k' n : Nat} (h : 0 < n → k' = k) : part ls k' n = part ls k n := by
      rcases Nat.eq_zero_or_pos n with rfl | hn
      · simp [part]
      · rw [h hn]
    have hsides := sides_change (part olds i n) (part news j m)
    rw [Block.changes, hplace hn, hplace hm]
    constructor
    · rw [hsides.1, ← drop_eq_part_append]
    · rw [hsides.2, ← drop_eq_part_append]
    · rw [hsides.1, length_part hi]
    · rw [hsides.2, length_part hj]

lemma Shows.append {cs ds : List (Change Text)} {p o q : Nat × Nat} (h : Shows olds news cs p o)
    (h' : Shows olds news ds o q) : Shows olds news (cs ++ ds) p q where
  old := by rw [oldSide_append, List.append_assoc, h'.old, h.old]
  new := by rw [newSide_append, List.append_assoc, h'.new, h.new]
  oldSize := by rw [oldSide_append, List.length_append, ← Nat.add_assoc, h.oldSize, h'.oldSize]
  newSize := by rw [newSide_append, List.length_append, ← Nat.add_assoc, h.newSize, h'.newSize]

lemma Route.shows {bs : List Block} {p q : Nat × Nat} (h : Route (Block.Leads olds news) bs p q) :
    Shows olds news (bs.flatMap (Block.changes olds news)) p q := by
  induction h with
  | nil => exact ⟨rfl, rfl, rfl, rfl⟩
  | cons hb _ ih =>
    rw [List.flatMap_cons]
    exact hb.shows.append ih

lemma number?_toDigits (n : Nat) {rest : Text} (h : ∀ c, rest.head? = some c → c.isDigit = false) :
    number? (Nat.toDigits 10 n ++ rest) = some (n, rest) := by
  have hdigits : ∀ c ∈ Nat.toDigits 10 n, c.isDigit = true :=
    fun c => Nat.isDigit_of_mem_toDigits (by decide) (by decide)
  have htake : rest.takeWhile Char.isDigit = [] ∧ rest.dropWhile Char.isDigit = rest := by
    cases rest with
    | nil => exact ⟨rfl, rfl⟩
    | cons c rest => simp [h c rfl]
  rw [number?, List.takeWhile_append_of_pos hdigits, List.dropWhile_append_of_pos hdigits, htake.1, htake.2,
    List.append_nil]
  split
  · exact absurd ‹_› Nat.toDigits_ne_nil
  · rw [Nat.ofDigitChars_ten_toDigits]

lemma toList_rangeText (start size : Nat) : (rangeText start (start + size)).toList =
    if size = 1 then Nat.toDigits 10 (start + 1)
    else Nat.toDigits 10 (if size = 0 then start else start + 1) ++ ',' :: Nat.toDigits 10 size := by
  simp only [rangeText, Nat.add_sub_cancel_left]
  split
  · simp
  · split
    · simp [toString, *]
    · simp [toString]

lemma range?_rangeText (start size : Nat) (rest : Text) :
    range? ((rangeText start (start + size)).toList ++ ' ' :: rest) = some ((start, size), ' ' :: rest) := by
  have hblank : ∀ c, (' ' :: rest).head? = some c → c.isDigit = false := by
    rintro c ⟨⟩
    decide
  have hcomma (t : Text) : ∀ c, (',' :: t).head? = some c → c.isDigit = false := by
    rintro c ⟨⟩
    decide
  rw [toList_rangeText, range?]
  split_ifs with h
  · simp [number?_toDigits _ hblank, h]
  all_goals
    rw [List.append_assoc, List.cons_append, number?_toDigits _ (hcomma _)]
    simp only
    rw [number?_toDigits _ hblank]
    simp [*]

lemma rangeText_sub (start stop : Nat) : rangeText start (start + (stop - start)) = rangeText start stop := by
  simp only [rangeText, Nat.add_sub_cancel_left]

lemma headerText_eq (first last : Block) : headerText first last =
    '@' :: '@' :: ' ' :: '-' :: ((rangeText first.oldStart last.oldStop).toList ++
      ' ' :: '+' :: ((rangeText first.newStart last.newStop).toList ++ ' ' :: ['@', '@'])) := by
  simp [headerText, toString]

lemma header?_headerText (first last : Block) (rest : Text) : header? (headerText first last ++ rest) =
    some ((first.oldStart, last.oldStop - first.oldStart), (first.newStart, last.newStop - first.newStart)) := by
  rw [headerText_eq, ← rangeText_sub first.oldStart, ← rangeText_sub first.newStart]
  simp only [List.cons_append, List.append_assoc, header?, range?_rangeText, List.nil_append]

lemma unbroken_rangeText (start stop : Nat) : Unbroken (rangeText start stop).toList := by
  have hdigits (n : Nat) : Unbroken (Nat.toDigits 10 n) :=
    ⟨fun h => absurd (Nat.isDigit_of_mem_toDigits (by decide) (by decide) h) (by decide),
      fun h => absurd (Nat.isDigit_of_mem_toDigits (by decide) (by decide) h) (by decide)⟩
  rw [← rangeText_sub, toList_rangeText]
  split
  · exact hdigits _
  · exact unbroken_append (hdigits _) (unbroken_cons.mpr ⟨by decide, hdigits _⟩)

lemma unbroken_headerText (first last : Block) : Unbroken (headerText first last) := by
  rw [headerText_eq]
  simp only [unbroken_cons]
  refine ⟨by decide, by decide, by decide, by decide, unbroken_append (unbroken_rangeText _ _) ?_⟩
  simp only [unbroken_cons]
  refine ⟨by decide, by decide, unbroken_append (unbroken_rangeText _ _) ?_⟩
  simp [Unbroken]

def ContextFirst (rows : List Text) : Prop := ∃ line rest, rows = (' ' :: line) :: rest

instance : DecidablePred ContextFirst
  | [] => .isFalse (by simp [ContextFirst])
  | [] :: _ => .isFalse (by simp [ContextFirst])
  | (c :: line) :: rest => decidable_of_iff (c = ' ') (by simp [ContextFirst])

/-- Follows the lines of a patch without looking at the numbers in its headers, except for where a hunk begins that
has equal lines in front. -/
def retrace (place : Nat) (olds : List Text) : List Text → List Text
  | [] => olds
  | row :: rows =>
    match signed? row with
    | some (.keep line) => line :: retrace (place + 1) olds.tail rows
    | some (.remove _) => retrace (place + 1) olds.tail rows
    | some (.add line) => line :: retrace place olds rows
    | none =>
      let skip := if ContextFirst rows then (header? row).elim 0 (·.1.1) - place else 0
      olds.take skip ++ retrace (place + skip) (olds.drop skip) rows

lemma retrace_changes (cs : List (Change Text)) (place : Nat) (olds rest : List Text) :
    retrace place (oldSide cs ++ olds) (cs.flatMap (Change.rows fun _ => true) ++ rest) =
      newSide cs ++ retrace (place + (oldSide cs).length) olds rest := by
  induction cs generalizing place with
  | nil => rfl
  | cons c cs ih =>
    cases c <;>
      simp [oldSide, newSide, Change.rows, Change.signed, Change.sign, Change.line, retrace, signed?, ih,
        Nat.add_assoc, Nat.add_comm 1]

lemma signed?_of_header? {line : Text} {ranges : (Nat × Nat) × Nat × Nat} (h : header? line = some ranges) :
    signed? line = none := by
  unfold header? at h
  split at h
  · rfl
  · cases h

lemma retrace_header {line : Text} {ranges : (Nat × Nat) × Nat × Nat} (h : header? line = some ranges)
    {place k : Nat} {olds rows : List Text} (hskip : k = if ContextFirst rows then ranges.1.1 - place else 0) :
    retrace place olds (line :: rows) = olds.take k ++ retrace (place + k) (olds.drop k) rows := by
  simp only [retrace, signed?_of_header? h, h, Option.elim_some, ← hskip]

structure Prints (olds news : List Text) (g : List Block) (i j : Nat) (q : Nat × Nat) (h : Hunk)
    (ranges : (Nat × Nat) × Nat × Nat) : Prop where
  printed : Hunk.ofBlocks? olds news g = some h
  unbroken : Unbroken h.header
  header : header? h.headLine = some ranges
  shows : Shows olds news h.changes (i, j) q
  nonempty : h.changes ≠ []
  front : h.changes.head?.map Change.sign = some ' ' ↔ KeptFirst g
  start : KeptFirst g → ranges.1.1 = i ∧ ranges.2.1 = j
  inside : i ≤ olds.length

lemma Block.Leads.exists_first {b : Block} {p q : Nat × Nat} (h : b.Leads olds news p q) (bs : List Block) :
    ∃ c cs, b.changes olds news = c :: cs ∧ (c.sign = ' ' ↔ KeptFirst (b :: bs)) := by
  have hfirst {ls : List Text} {i n : Nat} (hn : 0 < n) (hi : i + n ≤ ls.length) :
      ∃ l rest, part ls i n = l :: rest :=
    List.exists_cons_of_length_pos (by rwa [length_part hi])
  cases h with
  | keep hn _ hi _ =>
    obtain ⟨l, ls, hl⟩ := hfirst hn hi
    exact ⟨.keep l, ls.map .keep, by rw [Block.changes, hl]; rfl, by simp [Change.sign, KeptFirst]⟩
  | @change i i' j j' n m hnm hn hm hi hj =>
    rcases Nat.eq_zero_or_pos n with rfl | hpos
    · rw [Nat.zero_add] at hnm
      obtain ⟨l, ls, hl⟩ := hfirst hnm hj
      exact ⟨.add l, ls.map .add, by rw [Block.changes, hm hnm, hl]; simp [part], by simp [Change.sign, KeptFirst]⟩
    · obtain ⟨l, ls, hl⟩ := hfirst hpos hi
      exact ⟨.remove l, _, by rw [Block.changes, hn hpos, hl]; rfl, by simp [Change.sign, KeptFirst]⟩

lemma Block.Leads.le_length {b : Block} {p q : Nat × Nat} (h : b.Leads olds news p q) : p.1 ≤ olds.length := by
  cases h <;> simp only <;> omega

lemma exists_prints {g : List Block} {i j : Nat} {q : Nat × Nat} (hne : g ≠ [])
    (hg : Route (Block.Leads olds news) g (i, j) q) : ∃ h ranges, Prints olds news g i j q h ranges := by
  have hshows := hg.shows
  cases hg with
  | nil => exact absurd rfl hne
  | @cons b bs _ _ _ hb hbs =>
    obtain ⟨last, hlast⟩ := Option.ne_none_iff_exists'.mp (show (b :: bs).getLast? ≠ none by simp)
    obtain ⟨c, cs, hc, hsign⟩ := hb.exists_first bs
    refine ⟨⟨headerText b last, (b :: bs).flatMap (Block.changes olds news)⟩, _,
      by simp only [Hunk.ofBlocks?, List.head?_cons, hlast], unbroken_headerText b last,
      header?_headerText b last _, hshows, ?_, ?_, fun hkept => ?_, hb.le_length⟩
    · simp [hc]
    · simp [hc, hsign]
    · cases hb with
      | keep => exact ⟨rfl, rfl⟩
      | change => cases hkept

lemma contextFirst_changes {cs : List (Change Text)} (hne : cs ≠ []) (rest : List Text) :
    ContextFirst (cs.flatMap (Change.rows fun _ => true) ++ rest) ↔ cs.head?.map Change.sign = some ' ' := by
  obtain ⟨c, cs, rfl⟩ := List.exists_cons_of_ne_nil hne
  simp [ContextFirst, Change.rows, Change.signed]

lemma retrace_groups {i j : Nat} {gs : List (List Block)} (h : Spread olds news i j gs) :
    retrace i (olds.drop i) ((gs.filterMap (Hunk.ofBlocks? olds news)).flatMap (Hunk.rows fun _ => true)) =
      news.drop j := by
  induction h with
  | done h => exact h
  | @group i j k i' j' g gs hsame hfirst hne hg _ ih =>
    obtain ⟨h, ranges, hprints⟩ := exists_prints hne hg
    have hskip (rest : List Text) :
        k = if ContextFirst (h.changes.flatMap (Change.rows fun _ => true) ++ rest) then ranges.1.1 - i
        else 0 := by
      have hfront := (contextFirst_changes hprints.nonempty rest).trans hprints.front
      split
      · rw [(hprints.start (hfront.mp ‹_›)).1, Nat.add_sub_cancel_left]
      · -- Only at the start of both texts a hunk has no equal line in front, and nothing is skipped there.
        exact (hfirst.resolve_right fun hkept => ‹¬ _› (hfront.mpr hkept)).2.2
    have hshows := hprints.shows
    rw [List.filterMap_cons_some hprints.printed, List.flatMap_cons, Hunk.rows, List.cons_append,
      retrace_header hprints.header (hskip _), List.drop_drop, ← hshows.old, retrace_changes, hshows.oldSize, ih,
      hshows.new, drop_eq_part_append news j k, ← hsame]
    rfl

/-- The header counts the lines that are shown, and if no equal line is in front it begins with the texts. -/
def Hunk.Numbered (h : Hunk) : Prop :=
  ∀ ranges ∈ header? h.headLine,
    ranges.1.2 = (oldSide h.changes).length ∧ ranges.2.2 = (newSide h.changes).length ∧
      (h.changes.head?.map Change.sign = some ' ' ∨ ranges.1.1 = 0 ∧ ranges.2.1 = 0)

lemma edits_of_spread {i j : Nat} {gs : List (List Block)} (h : Spread olds news i j gs)
    (hnumbered : ∀ h ∈ gs.filterMap (Hunk.ofBlocks? olds news), h.Numbered) :
    Edits i j (olds.drop i) (news.drop j) (gs.filterMap (Hunk.ofBlocks? olds news)) := by
  induction h with
  | done h =>
    rw [h]
    exact .done
  | @group i j k i' j' g gs hsame hfirst hne hg _ ih =>
    obtain ⟨h, ⟨⟨a, n⟩, b, m⟩, hprints⟩ := exists_prints hne hg
    rw [List.filterMap_cons_some hprints.printed] at hnumbered ⊢
    obtain ⟨holds, hnews, hfront⟩ := hnumbered h (by simp) _ hprints.header
    have hplace : a = i + k ∧ b = j + k := by
      by_cases hkept : KeptFirst g
      · exact hprints.start hkept
      · obtain ⟨rfl, rfl, rfl⟩ := hfirst.resolve_right hkept
        exact hfront.resolve_left fun h => hkept (hprints.front.mp h)
    have hlength := length_part hprints.inside
    have hrest := ih fun h' hh' => hnumbered h' (by simp [hh'])
    have hshows := hprints.shows
    have hheader := hprints.header
    rw [hplace.1, hplace.2, show n = _ from holds, show m = _ from hnews] at hheader
    rw [drop_eq_part_append olds i k, drop_eq_part_append news j k, ← hsame, ← hshows.old, ← hshows.new]
    refine .hunk hprints.unbroken (by rwa [hlength]) ?_
    rwa [hlength, hshows.oldSize, hshows.newSize]

theorem edits_hunks {old new : Text} (h : ∀ h ∈ hunks old.splitLines new.splitLines, h.Numbered) :
    Edits 0 0 old.splitLines new.splitLines (hunks old.splitLines new.splitLines) :=
  edits_of_spread (groups_of_script_spread old.splitLines new.splitLines) h

lemma headed_of_mem_hunks {old new : List Text} : ∀ h ∈ hunks old new, h.Headed := by
  intro h hh
  obtain ⟨bs, -, hbs⟩ := List.mem_filterMap.mp hh
  unfold Hunk.ofBlocks? at hbs
  split at hbs <;> cases hbs
  exact headed_of_header? (unbroken_headerText _ _) (header?_headerText _ _ _)

lemma line_mem_of_mem_hunks (old new : List Text) :
    ∀ h ∈ hunks old new, ∀ c ∈ h.changes, c.line ∈ old ∨ c.line ∈ new := by
  intro h hh c hc
  obtain ⟨bs, -, hbs⟩ := List.mem_filterMap.mp hh
  have hpart {ls : List Text} {i n : Nat} {l : Text} (h : l ∈ part ls i n) : l ∈ ls :=
    List.mem_of_mem_drop (List.mem_of_mem_take h)
  have hchanges : h.changes = bs.flatMap (Block.changes old new) := by
    unfold Hunk.ofBlocks? at hbs
    split at hbs <;> cases hbs
    rfl
  rw [hchanges] at hc
  obtain ⟨b, -, hc⟩ := List.mem_flatMap.mp hc
  cases b with
  | keep i j n =>
    obtain ⟨l, hl, rfl⟩ := List.mem_map.mp hc
    exact .inl (hpart hl)
  | change i n j m =>
    rcases List.mem_append.mp hc with hc | hc
    · obtain ⟨l, hl, rfl⟩ := List.mem_map.mp hc
      exact .inl (hpart hl)
    · obtain ⟨l, hl, rfl⟩ := List.mem_map.mp hc
      exact .inr (hpart hl)

theorem patch_injective (path : String) (old : Text) : Function.Injective (patch path old) := by
  have hrows (new : Text) := splitLines_hunks headed_of_mem_hunks fun g hg c hc =>
    (line_mem_of_mem_hunks old.splitLines new.splitLines g hg c hc).elim (isLine_of_mem_splitLines _)
      (isLine_of_mem_splitLines _)
  have hretrace (new : Text) : (retrace 0 old.splitLines (heedNotes Dialect.printed.isNote
      (splitLines ((patch path old new).drop (pathText path).length)))).flatten = new := by
    have := retrace_groups (groups_of_script_spread old.splitLines new.splitLines)
    rw [List.drop_zero, List.drop_zero] at this
    rw [patch, unified_eq, List.drop_left, hrows, heedNotes_hunks headed_of_mem_hunks, hunks, this,
      flatten_splitLines]
  intro new new' h
  rw [← hretrace new, h, hretrace new']

-- A removal is not told of the additions that slide past it: this header has one line, and the second, for two and
-- the first.
example : patch "g" "b\na\n".toList "a\na\n".toList =
    "--- a/g\n+++ b/g\n@@ -1 +2 @@\n-b\n a\n+a\n".toList := by
  decide +kernel

end Diff

end DotMend
