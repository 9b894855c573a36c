import DotMend.Proofs.Diff.Rows

namespace DotMend.Diff

open Text

lemma patched?_unified (d : Dialect) (path : String) (old : Text) (hs : List Hunk) :
    patched? d path old (unified path hs) = (follow 0 0 0 (d.lines old)
      (heedNotes d.isNote (d.lines (hs.flatMap (Hunk.rows Change.isEnded)).flatten))).map List.flatten := by
  rw [patched?, unified_eq, if_pos (List.prefix_append _ _), List.drop_left]

section Reading

variable {old new : Text} {hs : List Hunk}

lemma Edits.splitLines_rows (h : Edits 0 0 old.splitLines new.splitLines hs) :
    splitLines (hs.flatMap (Hunk.rows Change.isEnded)).flatten = hs.flatMap (Hunk.rows Change.isEnded) :=
  splitLines_hunks h.headed fun g hg c hc =>
    (h.line_mem g hg c hc).elim (isLine_of_mem_splitLines _) (isLine_of_mem_splitLines _)

lemma Edits.patched_printed (h : Edits 0 0 old.splitLines new.splitLines hs) (path : String) :
    patched? .printed path old (unified path hs) = some new := by
  have hrows : heedNotes Dialect.printed.isNote
      (Dialect.printed.lines (hs.flatMap (Hunk.rows Change.isEnded)).flatten) = _ :=
    (congrArg (heedNotes _) h.splitLines_rows).trans (heedNotes_hunks h.headed)
  have hfollow := follow_hunks (fun _ => true) h
  simp only [List.all_eq_true, implies_true, if_true] at hfollow
  rw [patched?_unified, hrows]
  exact (congrArg (Option.map List.flatten) hfollow).trans (congrArg some (flatten_splitLines new))

lemma Edits.patched_standard (h : Edits 0 0 old.splitLines new.splitLines hs) (path : String) (hold : Paired old)
    (hnew : Paired new) : patched? .standard path old (unified path hs) =
      if hs.all fun h => h.changes.all Change.isEnded then some new else none := by
  have hpaired := paired_hunks h.headed fun g hg c hc =>
    (h.line_mem g hg c hc).elim (paired_of_mem_splitLines hold _) (paired_of_mem_splitLines hnew _)
  have hrows : Dialect.standard.lines (hs.flatMap (Hunk.rows Change.isEnded)).flatten = _ :=
    (splitFeeds_eq_splitLines hpaired).trans h.splitLines_rows
  have holds : Dialect.standard.lines old = _ := splitFeeds_eq_splitLines hold
  rw [patched?_unified, hrows, holds, heedNotes_eq_self (not_isNote_standard h.headed), follow_hunks _ h]
  split
  · rw [Option.map_some, flatten_splitLines]
  · rfl

end Reading

/-- Whatever hunks list a way from one text to another: the new text follows from the old one and from what is
printed of the hunks. It is read back by their headers if an empty line is taken for the note that the line before
it has no end and a `\r` alone for the end of a line. So between texts without such ends the standard reading
succeeds exactly if every line that is shown has an end. -/
theorem unified_reads_back (path : String) (old new : Text) (hs : List Hunk)
    (h : Edits 0 0 old.splitLines new.splitLines hs) :
    (∀ new' hs', Edits 0 0 old.splitLines new'.splitLines hs' → unified path hs' = unified path hs → new' = new) ∧
      patched? .printed path old (unified path hs) = some new ∧
      (Paired old → Paired new → patched? .standard path old (unified path hs) =
        if hs.all fun h => h.changes.all Change.isEnded then some new else none) := by
  refine ⟨fun new' hs' h' heq => ?_, h.patched_printed path, h.patched_standard path⟩
  have hread := h'.patched_printed path
  rw [heq, h.patched_printed path] at hread
  exact (Option.some.inj hread).symm

theorem unified_reads_back_hunks :
    let lines (front back : List String) : List Text :=
      (front ++ ["a\r\n", "b\r\n", "c\r\n", "d\n"] ++ back).map String.toList
    let old : Text := (lines ["graph \x7b\r\n"] ["\x7d\r\n"]).flatten
    let new : Text := (lines ["strict graph \x7b\r\n"] ["e\n", "\x7d\r\n"]).flatten
    let first : Hunk := ⟨"@@ -1,2 +1,2 @@".toList, [.remove "graph \x7b\r\n".toList,
      .add "strict graph \x7b\r\n".toList, .keep "a\r\n".toList]⟩
    let second : Hunk := ⟨"@@ -5,2 +5,3 @@".toList, [.keep "d\n".toList, .add "e\n".toList,
      .keep "\x7d\r\n".toList]⟩
    Edits 0 0 old.splitLines new.splitLines [first, second] ∧
      patched? .standard "a/b.dot" old (unified "a/b.dot" [first, second]) = some new := by
  intro lines old new first second
  have hlines : old.splitLines = lines ["graph \x7b\r\n"] ["\x7d\r\n"] ∧
      new.splitLines = lines ["strict graph \x7b\r\n"] ["e\n", "\x7d\r\n"] := by decide +kernel
  have hrest : Edits 2 2 (lines [] ["\x7d\r\n"]).tail (lines [] ["e\n", "\x7d\r\n"]).tail [second] :=
    @Edits.hunk 2 2 (["b\r\n", "c\r\n"].map String.toList) [] [] second [] (by decide) (by decide +kernel) .done
  have h : Edits 0 0 old.splitLines new.splitLines [first, second] := by
    rw [hlines.1, hlines.2]
    exact @Edits.hunk 0 0 [] _ _ first [second] (by decide) (by decide +kernel) hrest
  refine ⟨h, ?_⟩
  rw [(unified_reads_back "a/b.dot" old new _ h).2.2 (by decide +kernel) (by decide +kernel)]
  decide +kernel

/-- Where the standard asks for a note on a line without an end, an empty line is printed. -/
theorem unified_unended :
    let old : Text := "graph \x7b a -> b \x7d".toList
    let new : Text := "graph \x7b a -- b \x7d".toList
    let hunk : Hunk := ⟨"@@ -1 +1 @@".toList, [.remove old, .add new]⟩
    let header := "--- a/g.dot\n+++ b/g.dot\n@@ -1 +1 @@\n"
    let note := "\n\\ No newline at end of file\n"
    Edits 0 0 old.splitLines new.splitLines [hunk] ∧
      unified "g.dot" [hunk] = (header ++ "-graph \x7b a -> b \x7d\n\n+graph \x7b a -- b \x7d\n\n").toList ∧
      patched? .standard "g.dot" old (unified "g.dot" [hunk]) = none ∧
      patched? .standard "g.dot" old
        (header ++ "-graph \x7b a -> b \x7d" ++ note ++ "+graph \x7b a -- b \x7d" ++ note).toList = some new := by
  intro old new hunk header note
  refine ⟨?_, by decide +kernel⟩
  have hlines : old.splitLines = [old] ∧ new.splitLines = [new] := by decide +kernel
  rw [hlines.1, hlines.2]
  exact @Edits.hunk 0 0 [] [] [] hunk [] (by decide) (by decide +kernel) .done

end DotMend.Diff
