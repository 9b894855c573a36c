import DotMend.Proofs.Token.Run

namespace DotMend.Token

def escaped (s : Text) : Text := s.flatMap fun c => if c = '"' then ['\\', '"'] else [c]

def inQuotes (x : Text) : Text := '"' :: x ++ ['"']

def continuations : List Text := [['\\', '\n'], ['\\', '\r', '\n']]

/-- A text that escaping its quotes suffices for: no backslash in it takes out a line break or the closing
quote. -/
structure Quotable (s : Text) : Prop where
  last : s.getLast? ≠ some '\\'
  lf : ¬ ['\\', '\n'] <:+: s
  crlf : ¬ ['\\', '\r', '\n'] <:+: s

def quotedToken (x s : Text) : Token := ⟨.quoted, ⟨0, x.bytes⟩, String.ofList s, false⟩

namespace Lexeme

variable {c : Char} {s t u w rest : Text}

structure KeepsBackslash (t : Text) : Prop where
  quote : t.head? ≠ some '"'
  lf : t.head? ≠ some '\n'
  crlf : ¬ ['\r', '\n'] <+: t

lemma quotedRest_cons (hc : c ≠ '"') (ht : c = '\\' → KeepsBackslash t) :
    quotedRest (c :: t) = ⟨(quotedRest t).length + 1, c :: (quotedRest t).value, (quotedRest t).closed⟩ := by
  rw [quotedRest]
  · exact hc
  · rintro t' rfl rfl
    exact (ht rfl).quote rfl
  · rintro t' rfl rfl
    exact (ht rfl).lf rfl
  · rintro t' rfl rfl
    exact (ht rfl).crlf (by simp)

lemma getLast?_of_cons_ne (h : (c :: t).getLast? ≠ some '\\') : t.getLast? ≠ some '\\' := by
  intro ht
  rw [List.getLast?_cons, ht] at h
  exact h rfl

lemma quotedRest_append_of_open (hopen : (quotedRest u).closed = false) (hlast : u.getLast? ≠ some '\\')
    (hreturn : ['\\', '\r'] <:+ u → w.head? ≠ some '\n') :
    quotedRest (u ++ w) =
      ⟨u.length + (quotedRest w).length, (quotedRest u).value ++ (quotedRest w).value, (quotedRest w).closed⟩ := by
  fun_induction quotedRest u with
  | case1 => simp
  | case2 => cases hopen
  | case3 t q ih | case4 t q ih =>
    have hrest := ih hopen (getLast?_of_cons_ne (getLast?_of_cons_ne hlast)) fun h =>
      hreturn ((h.trans (List.suffix_cons _ t)).trans (List.suffix_cons _ _))
    simp only [List.cons_append, quotedRest, hrest, List.length_cons]
    grind
  | case5 t q ih =>
    have hrest := ih hopen (getLast?_of_cons_ne (getLast?_of_cons_ne (getLast?_of_cons_ne hlast))) fun h =>
      hreturn (((h.trans (List.suffix_cons _ t)).trans (List.suffix_cons _ _)).trans (List.suffix_cons _ _))
    simp only [List.cons_append, quotedRest, hrest, List.length_cons]
    grind
  | case6 c t hquote hq hlf hcrlf q ih =>
    have hrest := ih hopen (getLast?_of_cons_ne hlast) fun h => hreturn (h.trans (List.suffix_cons c t))
    have hkeeps : c = '\\' → KeepsBackslash (t ++ w) := by
      rintro rfl
      -- the backslash is not the last character, so that `t` decides what it does, unless that is a lone return
      obtain ⟨d, t, rfl⟩ := List.exists_cons_of_ne_nil (show t ≠ [] by rintro rfl; exact hlast rfl)
      refine ⟨fun hd => ?_, fun hd => ?_, fun hpre => ?_⟩
      · obtain rfl := Option.some.inj hd
        exact hq t rfl rfl
      · obtain rfl := Option.some.inj hd
        exact hlf t rfl rfl
      · obtain ⟨rfl, y, hy⟩ := List.cons_prefix_cons.mp hpre
        cases t with
        | nil => exact hreturn (List.suffix_refl _) (by rw [show w = '\n' :: y from hy.symm]; rfl)
        | cons e t =>
          obtain rfl : '\n' = e := (List.cons.inj hy).1
          exact hcrlf t rfl rfl
    rw [List.cons_append, quotedRest_cons hquote hkeeps, hrest]
    simp only [List.length_cons]
    grind

end Lexeme

open Lexeme

variable {c : Char} {s u v x rest : Text}

lemma escaped_cons (c : Char) (s : Text) :
    escaped (c :: s) = (if c = '"' then ['\\', '"'] else [c]) ++ escaped s := List.flatMap_cons

lemma Quotable.tail (h : Quotable (c :: s)) : Quotable s :=
  ⟨getLast?_of_cons_ne h.last, fun hs => h.lf (hs.trans (List.suffix_cons c s).isInfix),
    fun hs => h.crlf (hs.trans (List.suffix_cons c s).isInfix)⟩

lemma eq_cons_of_head?_escaped (hc : c ≠ '\\' ∧ c ≠ '"') (h : (escaped s ++ '"' :: rest).head? = some c) :
    ∃ t, s = c :: t := by
  cases s with
  | nil => exact absurd (Option.some.inj h).symm hc.2
  | cons d t =>
    rw [escaped_cons] at h
    split at h
    · exact absurd (Option.some.inj h).symm hc.1
    · exact ⟨t, by rw [Option.some.inj h]⟩

lemma Quotable.keepsBackslash (h : Quotable ('\\' :: s)) : KeepsBackslash (escaped s ++ '"' :: rest) where
  quote := by
    obtain ⟨d, t, rfl⟩ := List.exists_cons_of_ne_nil (show s ≠ [] by rintro rfl; exact h.last rfl)
    rw [escaped_cons]
    split
    · simp
    · simpa
  lf hhead := by
    obtain ⟨t, rfl⟩ := eq_cons_of_head?_escaped (by decide) hhead
    exact h.lf ⟨[], t, rfl⟩
  crlf hpre := by
    obtain ⟨t, rfl⟩ := eq_cons_of_head?_escaped (c := '\r') (by decide) (by obtain ⟨y, hy⟩ := hpre; rw [← hy]; rfl)
    obtain ⟨-, y, hy⟩ := List.cons_prefix_cons.mp hpre
    have hhead : (escaped t ++ '"' :: rest).head? = some '\n' := by
      rw [show escaped t ++ '"' :: rest = '\n' :: y from hy.symm]
      rfl
    obtain ⟨t, rfl⟩ := eq_cons_of_head?_escaped (by decide) hhead
    exact h.crlf ⟨[], t, rfl⟩

theorem quotedRest_escaped (h : Quotable s) (rest : Text) :
    quotedRest (escaped s ++ '"' :: rest) = ⟨(escaped s).length + 1, s, true⟩ := by
  induction s with
  | nil => simp [escaped, quotedRest]
  | cons c s ih =>
    rw [escaped_cons]
    split
    · rename_i hc
      simp [quotedRest, ih h.tail, hc]
    · rename_i hc
      have hcons := quotedRest_cons hc (t := escaped s ++ '"' :: rest) fun he => (he ▸ h).keepsBackslash
      simp [hcons, ih h.tail]

lemma not_closed_of_append (h : quotedRest (u ++ v) = ⟨(u ++ v).length, s, true⟩) (hv : v ≠ []) :
    (quotedRest u).closed = false := by
  by_contra hclosed
  rw [quotedRest_append (by simpa using hclosed)] at h
  have hle := (quotedRest_bounds u).1
  have hpos := List.length_pos_iff.mpr hv
  simp only [h, List.length_append] at hle
  omega

lemma quotedRest_continuation {br : Text} (hbr : br ∈ continuations) (t : Text) :
    quotedRest (br ++ t) = ⟨br.length + (quotedRest t).length, (quotedRest t).value, (quotedRest t).closed⟩ := by
  simp only [continuations, List.mem_cons, List.not_mem_nil, or_false] at hbr
  rcases hbr with rfl | rfl <;> simp [quotedRest, Nat.add_comm]

lemma Quotable.not_infix_escaped (h : Quotable s) : ¬ ['\\', '\r', '\n'] <:+: escaped s := by
  induction s with
  | nil => simp [escaped]
  | cons c s ih =>
    rw [escaped_cons]
    split
    · simpa [List.infix_cons_iff, List.cons_prefix_cons] using ih h.tail
    · rw [List.singleton_append, List.infix_cons_iff, not_or]
      refine ⟨fun hpre => ?_, ih h.tail⟩
      obtain ⟨rfl, hreturn⟩ := List.cons_prefix_cons.mp hpre
      exact h.keepsBackslash.crlf (hreturn.trans (List.prefix_append _ ['"']))

theorem quotedRest_continued (h : Quotable s) (he : escaped s = u ++ v) (hu : u.getLast? ≠ some '\\') {br : Text}
    (hbr : br ∈ continuations) :
    quotedRest (u ++ br ++ v ++ ['"']) = ⟨(u ++ br ++ v ++ ['"']).length, s, true⟩ := by
  have hall : quotedRest (u ++ (v ++ ['"'])) = ⟨(u ++ (v ++ ['"'])).length, s, true⟩ := by
    rw [← List.append_assoc, ← he, quotedRest_escaped h, List.length_append]
    rfl
  have hopen := not_closed_of_append hall (by simp)
  have hreturn : ['\\', '\r'] <:+ u → (v ++ ['"']).head? ≠ some '\n' := by
    rintro ⟨y, rfl⟩ hv
    refine h.not_infix_escaped ?_
    cases v with
    | nil => simp at hv
    | cons d v =>
      obtain rfl : d = '\n' := Option.some.inj hv
      exact ⟨y, v, by simp [he]⟩
  have hbreak : ['\\', '\r'] <:+ u → (br ++ (v ++ ['"'])).head? ≠ some '\n' := by
    simp only [continuations, List.mem_cons, List.not_mem_nil, or_false] at hbr
    rcases hbr with rfl | rfl <;> simp
  have hplain := quotedRest_append_of_open hopen hu hreturn
  have hbroken := quotedRest_append_of_open hopen hu hbreak
  rw [hall, QuotedRest.mk.injEq] at hplain
  obtain ⟨hlength, hvalue, hclosed⟩ := hplain
  rw [quotedRest_continuation hbr] at hbroken
  rw [List.append_assoc, List.append_assoc, hbroken, ← hvalue, ← hclosed]
  simp only [List.length_append] at hlength ⊢
  grind

lemma head?_scan_quoted (h : quotedRest (x ++ ['"']) = ⟨(x ++ ['"']).length, s, true⟩) (rest : Text) :
    (scan (inQuotes x ++ rest)).tokens.head? = some (quotedToken (inQuotes x) s) := by
  let p : Piece := ⟨inQuotes x, some (.quoted, s), none⟩
  have hreads : p.Reads true rest := .quoted h
  have hscan := hreads.scanFrom 0
  rw [show p.text = inQuotes x from rfl] at hscan
  rw [scan, hscan]
  simp [p, Piece.tokenAt, Piece.spanAt, quotedToken]

/-- A string in quotes, its own quotes escaped, is read as one token without fault that stands for it and ends with
the closing quote; line breaks behind a backslash that are put into it, though not behind a backslash, change
nothing. -/
theorem scan_escaped (s rest : Text) (h : Quotable s) :
    (scan (inQuotes (escaped s) ++ rest)).tokens.head? = some (quotedToken (inQuotes (escaped s)) s) ∧
      ∀ u v, escaped s = u ++ v → u.getLast? ≠ some '\\' → ∀ br ∈ continuations,
        (scan (inQuotes (u ++ br ++ v) ++ rest)).tokens.head? =
        some (quotedToken (inQuotes (u ++ br ++ v)) s) := by
  refine ⟨head?_scan_quoted ?_ rest, fun u v he hu br hbr => head?_scan_quoted ?_ rest⟩
  · rw [quotedRest_escaped h, List.length_append]
    rfl
  · exact quotedRest_continued h he hu hbr

theorem scan_escaped_backslashes :
    ∃ s u v : Text, s = ['\\', '"', 'é', '\\', '\r', '\\', 'n'] ∧ Quotable s ∧ escaped s = u ++ v ∧
      u = ['\\', '\\', '"', 'é', '\\', '\r'] ∧ u.getLast? ≠ some '\\' ∧
      (scan (inQuotes (escaped s) ++ ['"', 'x'])).tokens.head? = some (quotedToken (inQuotes (escaped s)) s) ∧
      (scan (inQuotes (u ++ ['\\', '\r', '\n'] ++ v) ++ ['"', 'x'])).tokens.head? =
        some (quotedToken (inQuotes (u ++ ['\\', '\r', '\n'] ++ v)) s) := by
  have hs : Quotable ['\\', '"', 'é', '\\', '\r', '\\', 'n'] := ⟨by decide, by decide, by decide⟩
  have hu : ['\\', '\\', '"', 'é', '\\', '\r'].getLast? ≠ some '\\' := by decide
  have hbr : ['\\', '\r', '\n'] ∈ continuations := by decide
  obtain ⟨hplain, hbroken⟩ := scan_escaped _ ['"', 'x'] hs
  exact ⟨_, _, ['\\', 'n'], rfl, hs, rfl, rfl, hu, hplain, hbroken _ ['\\', 'n'] rfl hu _ hbr⟩

end DotMend.Token
