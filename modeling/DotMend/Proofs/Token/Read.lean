import DotMend.Proofs.Token.Ending

namespace DotMend.Token.Lexeme

def mark? : Char → Option Kind
  | '\x7b' => some .openBrace
  | '\x7d' => some .closeBrace
  | '[' => some .openBracket
  | ']' => some .closeBracket
  | ':' => some .colon
  | ';' => some .semicolon
  | ',' => some .comma
  | '=' => some .equals
  | '+' => some .plus
  | _ => none

def wordToken (x : Text) : Kind × Text :=
  match Kind.ofKeyword? x with
  | some keyword => (keyword, [])
  | none => (.word, x)

def AtLineEnd (rest : Text) : Prop := ∀ c, rest.head? = some c → c = '\n'

def EndsWord (rest : Text) : Prop := ∀ c, rest.head? = some c → continuesWord c = false

/-- A character that starts neither a blank, a comment, punctuation nor a string in front of `t`. -/
structure Plain (lineStart : Bool) (c : Char) (t : Text) : Prop where
  not_blank : isBlank c = false
  not_mark : mark? c = none
  not_quote : c ≠ '"' ∧ c ≠ '<'
  not_hash : c = '#' → lineStart = false
  not_slash : c = '/' → t.head? ≠ some '/' ∧ t.head? ≠ some '*'
  not_minus : c = '-' → t.head? ≠ some '-' ∧ t.head? ≠ some '>'

structure Stray (lineStart : Bool) (c : Char) (rest : Text) : Prop extends Plain lineStart c rest where
  not_word : startsWord c = false
  not_numeral : numeral? (c :: rest) = none

/-- The lexemes: `x` is one in front of `rest`. -/
inductive Read : (lineStart : Bool) → (x rest : Text) → Option (Kind × Text) → Option Fault → Prop
  | blank {b c rest} : isBlank c = true → Read b [c] rest none none
  | hash {x rest} : '\n' ∉ x → AtLineEnd rest → Read true ('#' :: x) rest none none
  | line {b x rest} : '\n' ∉ x → AtLineEnd rest → Read b ('/' :: '/' :: x) rest none none
  | block {b x rest} : closeComment? x = some x.length → Read b ('/' :: '*' :: x) rest none none
  | openBlock {b x} : closeComment? x = none → Read b ('/' :: '*' :: x) [] none (some .openComment)
  | mark {b c rest k} : mark? c = some k → Read b [c] rest (some (k, [])) none
  | directed {b rest} : Read b ['-', '>'] rest (some (.directedOp, [])) none
  | undirected {b rest} : Read b ['-', '-'] rest (some (.undirectedOp, [])) none
  | quoted {b x rest v} : quotedRest x = ⟨x.length, v, true⟩ → Read b ('"' :: x) rest (some (.quoted, v)) none
  | openQuoted {b x v} : quotedRest x = ⟨x.length, v, false⟩ →
      Read b ('"' :: x) [] (some (.quoted, v)) (some .openString)
  | html {b x rest} : closeAngle? 0 x = some x.length → Read b ('<' :: x) rest (some (.html, x.dropLast)) none
  | openHtml {b x} : closeAngle? 0 x = none → Read b ('<' :: x) [] (some (.html, x)) (some .openHtml)
  | numeral {b x rest} : IsNumeral x → EndsNumeral x rest → Read b x rest (some (.numeral, x)) none
  | word {b c x rest} : startsWord c = true → (∀ d ∈ x, continuesWord d = true) → EndsWord rest →
      Read b (c :: x) rest (some (wordToken (c :: x))) none
  | stray {b c rest} : Stray b c rest → Read b [c] rest (some (.unknown, [])) (some (.unexpected c))

lemma Read.ne_nil {b : Bool} {x rest : Text} {token : Option (Kind × Text)} {fault : Option Fault}
    (h : Read b x rest token fault) : x ≠ [] := by
  cases h with
  | numeral h => exact h.ne_nil
  | _ => simp

lemma lineComment_eq {x rest : Text} :
    lineComment (x ++ rest) = trivia x.length ↔ '\n' ∉ x ∧ AtLineEnd rest := by
  have h : lineComment (x ++ rest) = trivia x.length ↔ ((x ++ rest).takeWhile (· ≠ '\n')).length = x.length := by
    simp [lineComment, trivia]
  rw [h, length_takeWhile_append_iff]
  constructor
  · rintro ⟨hx, hr⟩
    exact ⟨fun hn => by simpa using hx _ hn, fun c hc => by simpa using hr c hc⟩
  · rintro ⟨hx, hr⟩
    refine ⟨fun c hc => ?_, fun c hc => by simp [hr c hc]⟩
    simp only [decide_eq_true_eq]
    rintro rfl
    exact hx hc

lemma word_eq {c : Char} {x rest : Text} (hx : ∀ d ∈ x, continuesWord d = true) (hr : EndsWord rest) :
    word c (x ++ rest) = ⟨x.length, some (wordToken (c :: x)), none⟩ := by
  have h : (x ++ rest).takeWhile continuesWord = x := takeWhile_append_of_all hx hr
  simp only [word, wordToken, h]
  cases Kind.ofKeyword? (c :: x) <;> rfl

lemma front_of_plain {b : Bool} {c : Char} {t : Text} (h : Plain b c t) : front b c t = other c t := by
  obtain ⟨hb, hm, ⟨hq, ha⟩, hh, hs, hd⟩ := h
  have hhash : (decide (c = '#') && b) = false := by
    by_cases hc : c = '#'
    · simp [hh hc]
    · simp [hc]
  unfold front
  rw [if_neg (by simp [hb]), if_neg (by simp [hhash])]
  split
  all_goals first
    | rfl
    | (simp at hs; done)
    | (simp at hd; done)
    | (simp [mark?] at hm; done)
    | (simp at hq; done)
    | simp at ha

lemma front_of_mark {c : Char} {k : Kind} {b : Bool} {t : Text} (h : mark? c = some k) :
    front b c t = punctuation k 0 := by
  unfold mark? at h
  split at h <;> first | (obtain rfl := Option.some.inj h; rfl) | simp at h

lemma isBlank_iff {c : Char} : isBlank c = true ↔ c = ' ' ∨ c = '\t' ∨ c = '\r' ∨ c = '\n' ∨ c = '\x0c' := by
  simp [isBlank, or_assoc]

def special : Text := " \t\r\n\x0c\x7b\x7d[]:;,=+\"<#/-".toList

lemma plain_of_class {p : Char → Bool} (hp : special.any p = false) {b : Bool} {c : Char} {t : Text}
    (h : p c = true) : Plain b c t := by
  have hne (d : Char) (hd : d ∈ special) : c ≠ d := by
    rintro rfl
    exact absurd h (List.any_eq_false.mp hp c hd)
  refine ⟨?_, ?_, ⟨hne _ (by decide), hne _ (by decide)⟩, fun hc => absurd hc (hne _ (by decide)),
    fun hc => absurd hc (hne _ (by decide)), fun hc => absurd hc (hne _ (by decide))⟩
  · rw [← Bool.not_eq_true, isBlank_iff]
    rintro (hc | hc | hc | hc | hc) <;> exact hne _ (by decide) hc
  · unfold mark?
    split <;> first | rfl | exact absurd rfl (hne _ (by decide))

lemma plain_of_startsWord {b : Bool} {c : Char} {t : Text} (h : startsWord c = true) : Plain b c t :=
  plain_of_class (by decide) h

lemma plain_of_isDigit {b : Bool} {c : Char} {t : Text} (h : c.isDigit = true) : Plain b c t :=
  plain_of_class (by decide) h

lemma Unsigned.head {x : Text} (h : Unsigned x) : ∃ c y, x = c :: y ∧ (c.isDigit = true ∨ c = '.') := by
  rcases h with ⟨hne, hx⟩ | ⟨w, p, rfl, hw, -⟩
  · obtain ⟨c, y, rfl⟩ := List.exists_cons_of_ne_nil hne
    exact ⟨c, y, rfl, .inl (hx c (by simp))⟩
  · cases w with
    | nil => exact ⟨'.', p, rfl, .inr rfl⟩
    | cons c w => exact ⟨c, w ++ '.' :: p, rfl, .inl (hw c (by simp))⟩

lemma plain_of_isNumeral {b : Bool} {c : Char} {x rest : Text} (h : IsNumeral (c :: x)) :
    Plain b c (x ++ rest) := by
  rcases h with h | ⟨y, he, h⟩
  · obtain ⟨d, y, he, hd⟩ := h.head
    obtain ⟨rfl, rfl⟩ := List.cons.inj he
    rcases hd with hd | rfl
    · exact plain_of_isDigit hd
    · exact ⟨by decide, by decide, by decide, by simp, by simp, by simp⟩
  · obtain ⟨rfl, rfl⟩ := List.cons.inj he
    obtain ⟨d, y, rfl, hd⟩ := h.head
    refine ⟨by decide, by decide, by decide, by simp, by simp, fun _ => ?_⟩
    rcases hd with hd | rfl
    · constructor <;> · simp; rintro rfl; simp at hd
    · simp

lemma numeral?_of_startsWord {c : Char} {t : Text} (h : startsWord c = true) : numeral? (c :: t) = none := by
  have hd : c.isDigit = false := by
    by_contra hd
    delta startsWord Char.isAlpha Char.isUpper Char.isLower at h
    simp only [Char.isDigit, Bool.or_eq_true, Bool.and_eq_true, decide_eq_true_eq, Bool.not_eq_false] at h hd
    rcases h with (h | rfl) | h
    · rcases h with h | h <;> simp [UInt32.le_iff_toNat_le] at h hd <;> omega
    · simp at hd
    · simp [UInt32.le_iff_toNat_le] at h hd
      omega
  have hm : c ≠ '-' := by rintro rfl; simp [startsWord] at h
  have hdot : c ≠ '.' := by rintro rfl; simp [startsWord] at h
  have hu : unsignedNumeral? (c :: t) = none := by
    have : digits (c :: t) = 0 := by simp [digits, hd]
    simp [unsignedNumeral?, this, hdot]
  rw [numeral?, hu]
  exact fun _ he => hm (List.cons.inj he).1

theorem front_of_read {b : Bool} {c : Char} {x rest : Text} {token : Option (Kind × Text)} {fault : Option Fault}
    (h : Read b (c :: x) rest token fault) : front b c (x ++ rest) = ⟨x.length, token, fault⟩ := by
  cases h with
  | blank h =>
    unfold front
    rw [if_pos h]
    rfl
  | hash hx hr => exact lineComment_eq.mpr ⟨hx, hr⟩
  | line hx hr => exact lineComment_eq.mpr ⟨by simpa using hx, hr⟩
  | @block _ x _ h =>
    change blockComment (x ++ rest) = _
    rw [blockComment, closeComment?_append h]
    rfl
  | @openBlock _ x h =>
    change blockComment (x ++ []) = _
    simp [blockComment, h]
  | mark h => exact front_of_mark h
  | directed => rfl
  | undirected => rfl
  | quoted h =>
    change quotedString (x ++ rest) = _
    rw [quotedString, quotedRest_append (by rw [h])]
    simp [h]
  | openQuoted h =>
    change quotedString (x ++ []) = _
    simp [quotedString, h]
  | html h =>
    change htmlString (x ++ rest) = _
    rw [htmlString, closeAngle?_append h]
    simp [List.dropLast_eq_take, List.take_append_of_le_length]
  | openHtml h =>
    change htmlString (x ++ []) = _
    simp [htmlString, h]
  | numeral h hr =>
    rw [front_of_plain (plain_of_isNumeral h), other, ← List.cons_append,
      (numeral?_iff (List.cons_ne_nil c x)).mpr ⟨h, hr⟩]
    simp
  | word hc hx hr =>
    rw [front_of_plain (plain_of_startsWord hc), other, numeral?_of_startsWord hc]
    simp [hc, word_eq hx hr]
  | stray h =>
    rw [List.nil_append, front_of_plain h.toPlain, other, h.not_numeral]
    simp [h.not_word]

lemma of_lineComment {x rest : Text} {token : Option (Kind × Text)} {fault : Option Fault}
    (h : lineComment (x ++ rest) = ⟨x.length, token, fault⟩) :
    token = none ∧ fault = none ∧ '\n' ∉ x ∧ AtLineEnd rest := by
  have ht : token = none ∧ fault = none := by
    simp only [lineComment, trivia, Lexeme.mk.injEq] at h
    exact ⟨h.2.1.symm, h.2.2.symm⟩
  obtain ⟨rfl, rfl⟩ := ht
  exact ⟨rfl, rfl, lineComment_eq.mp h⟩

lemma read_of_blockComment {b : Bool} {x rest : Text} {token : Option (Kind × Text)} {fault : Option Fault}
    (h : blockComment (x ++ rest) = ⟨x.length + 1, token, fault⟩) : Read b ('/' :: '*' :: x) rest token fault := by
  unfold blockComment at h
  split at h
  · rename_i n hn
    simp only [trivia, Lexeme.mk.injEq, Nat.add_right_cancel_iff] at h
    obtain ⟨rfl, rfl, rfl⟩ := h
    exact .block (closeComment?_of_append hn le_rfl)
  · rename_i hn
    simp only [Lexeme.mk.injEq, List.length_append, Nat.add_right_cancel_iff, Nat.add_eq_left] at h
    obtain ⟨hr, rfl, rfl⟩ := h
    obtain rfl := List.eq_nil_of_length_eq_zero hr
    exact .openBlock (by simpa using hn)

lemma read_of_quotedString {b : Bool} {x rest : Text} {token : Option (Kind × Text)} {fault : Option Fault}
    (h : quotedString (x ++ rest) = ⟨x.length, token, fault⟩) : Read b ('"' :: x) rest token fault := by
  simp only [quotedString, Lexeme.mk.injEq] at h
  obtain ⟨hlen, rfl, rfl⟩ := h
  cases hc : (quotedRest (x ++ rest)).closed with
  | true =>
    have hx := quotedRest_of_append hc hlen.le
    refine .quoted ?_
    rw [hx, ← hlen, ← hc]
  | false =>
    have hr : rest = [] := by
      have := (quotedRest_bounds _).2.2 hc
      rw [hlen, List.length_append, Nat.left_eq_add] at this
      exact List.eq_nil_of_length_eq_zero this
    subst hr
    rw [List.append_nil] at *
    refine .openQuoted ?_
    rw [← hlen, ← hc]

lemma read_of_htmlString {b : Bool} {x rest : Text} {token : Option (Kind × Text)} {fault : Option Fault}
    (h : htmlString (x ++ rest) = ⟨x.length, token, fault⟩) : Read b ('<' :: x) rest token fault := by
  unfold htmlString at h
  split at h
  · rename_i n hn
    simp only [Lexeme.mk.injEq] at h
    obtain ⟨rfl, rfl, rfl⟩ := h
    have hx := closeAngle?_of_append hn le_rfl
    have hv : (x ++ rest).take (x.length - 1) = x.dropLast := by
      rw [List.dropLast_eq_take, List.take_append_of_le_length (by omega)]
    rw [hv]
    exact .html hx
  · rename_i hn
    simp only [Lexeme.mk.injEq, List.length_append, Nat.add_eq_left] at h
    obtain ⟨hr, rfl, rfl⟩ := h
    obtain rfl := List.eq_nil_of_length_eq_zero hr
    rw [List.append_nil] at *
    exact .openHtml hn

lemma of_word {c : Char} {x rest : Text} {token : Option (Kind × Text)} {fault : Option Fault}
    (h : word c (x ++ rest) = ⟨x.length, token, fault⟩) :
    token = some (wordToken (c :: x)) ∧ fault = none ∧ (∀ d ∈ x, continuesWord d = true) ∧ EndsWord rest := by
  have hlen : ((x ++ rest).takeWhile continuesWord).length = x.length := by
    have := congrArg Lexeme.more h
    simp only [word] at this
    split at this <;> exact this
  obtain ⟨hx, hr⟩ := length_takeWhile_append_iff.mp hlen
  rw [word_eq hx hr] at h
  simp only [Lexeme.mk.injEq, true_and] at h
  exact ⟨h.1.symm, h.2.symm, hx, hr⟩

lemma one_le_of_unsignedNumeral? {t : Text} {n : Nat} (h : unsignedNumeral? t = some n) : 1 ≤ n := by
  simp only [unsignedNumeral?] at h
  split at h <;> split at h <;> simp at h <;> omega

lemma one_le_of_numeral? {t : Text} {n : Nat} (h : numeral? t = some n) : 1 ≤ n := by
  unfold numeral? at h
  split at h
  · obtain ⟨m, -, rfl⟩ := Option.map_eq_some_iff.mp h
    omega
  · exact one_le_of_unsignedNumeral? h

lemma read_of_other {b : Bool} {c : Char} {x rest : Text} {token : Option (Kind × Text)} {fault : Option Fault}
    (hp : Plain b c (x ++ rest)) (h : other c (x ++ rest) = ⟨x.length, token, fault⟩) :
    Read b (c :: x) rest token fault := by
  unfold other at h
  split at h
  · rename_i n hn
    simp only [Lexeme.mk.injEq] at h
    have hn1 := one_le_of_numeral? hn
    obtain ⟨hlen, rfl, rfl⟩ := h
    obtain rfl : n = (c :: x).length := by simp only [List.length_cons]; omega
    obtain ⟨hx, hr⟩ := (numeral?_iff (List.cons_ne_nil c x)).mp hn
    rw [← List.cons_append, List.take_left]
    exact .numeral hx hr
  · rename_i hn
    split at h
    · rename_i hc
      obtain ⟨rfl, rfl, hx, hr⟩ := of_word h
      exact .word hc hx hr
    · rename_i hc
      simp only [Lexeme.mk.injEq] at h
      obtain ⟨hx, rfl, rfl⟩ := h
      obtain rfl := List.eq_nil_of_length_eq_zero hx.symm
      exact .stray ⟨hp, by simpa using hc, hn⟩

lemma read_of_slash {b : Bool} {x rest : Text} {token : Option (Kind × Text)} {fault : Option Fault}
    (hs : (x ++ rest).head? = some '/' ∨ (x ++ rest).head? = some '*')
    (h : front b '/' (x ++ rest) = ⟨x.length, token, fault⟩) : Read b ('/' :: x) rest token fault := by
  obtain ⟨d, t, ht⟩ : ∃ d t, x ++ rest = d :: t := by
    cases hxr : x ++ rest with
    | nil => simp [hxr] at hs
    | cons d t => exact ⟨d, t, rfl⟩
  have hd : d = '/' ∨ d = '*' := by simpa [ht] using hs
  cases x with
  | nil =>
    -- a comment is longer than its first character
    rcases hd with rfl | rfl
    · rw [ht] at h
      have := congrArg Lexeme.more (show lineComment ('/' :: t) = _ from h)
      simp [lineComment, trivia] at this
    · rw [ht] at h
      have := congrArg Lexeme.more (show blockComment t = _ from h)
      simp only [blockComment] at this
      split at this <;> simp [trivia] at this
  | cons e x =>
    obtain ⟨rfl, rfl⟩ := List.cons.inj ht
    rcases hd with rfl | rfl
    · obtain ⟨rfl, rfl, hx, hr⟩ := of_lineComment (x := '/' :: x) h
      exact .line (by simpa using hx) hr
    · exact read_of_blockComment h

lemma read_of_minus {b : Bool} {x rest : Text} {token : Option (Kind × Text)} {fault : Option Fault}
    (hs : (x ++ rest).head? = some '-' ∨ (x ++ rest).head? = some '>')
    (h : front b '-' (x ++ rest) = ⟨x.length, token, fault⟩) : Read b ('-' :: x) rest token fault := by
  obtain ⟨d, t, ht⟩ : ∃ d t, x ++ rest = d :: t := by
    cases hxr : x ++ rest with
    | nil => simp [hxr] at hs
    | cons d t => exact ⟨d, t, rfl⟩
  have hd : d = '-' ∨ d = '>' := by simpa [ht] using hs
  have hl : x.length = 1 ∧ token = some (if d = '-' then .undirectedOp else .directedOp, []) ∧ fault = none := by
    rw [ht] at h
    rcases hd with rfl | rfl
    · have h' : punctuation .undirectedOp 1 = _ := h
      simp only [punctuation, Lexeme.mk.injEq] at h'
      exact ⟨h'.1.symm, by simp [← h'.2.1], h'.2.2.symm⟩
    · have h' : punctuation .directedOp 1 = _ := h
      simp only [punctuation, Lexeme.mk.injEq] at h'
      exact ⟨h'.1.symm, by simp [← h'.2.1], h'.2.2.symm⟩
  obtain ⟨hlen, rfl, rfl⟩ := hl
  obtain ⟨e, rfl⟩ := List.length_eq_one_iff.mp hlen
  obtain ⟨rfl, -⟩ := List.cons.inj ht
  rcases hd with rfl | rfl
  · exact .undirected
  · exact .directed

theorem read_of_front {b : Bool} {c : Char} {x rest : Text} {token : Option (Kind × Text)} {fault : Option Fault}
    (h : front b c (x ++ rest) = ⟨x.length, token, fault⟩) : Read b (c :: x) rest token fault := by
  by_cases hp : Plain b c (x ++ rest)
  · exact read_of_other hp (front_of_plain hp ▸ h)
  by_cases hb : isBlank c = true
  · unfold front at h
    rw [if_pos hb] at h
    simp only [trivia, Lexeme.mk.injEq] at h
    obtain ⟨hx, rfl, rfl⟩ := h
    obtain rfl := List.eq_nil_of_length_eq_zero hx.symm
    exact .blank hb
  cases hm : mark? c with
  | some k =>
    rw [front_of_mark hm] at h
    simp only [punctuation, Lexeme.mk.injEq] at h
    obtain ⟨hx, rfl, rfl⟩ := h
    obtain rfl := List.eq_nil_of_length_eq_zero hx.symm
    exact .mark hm
  | none =>
    by_cases hq : c = '"'
    · subst hq
      exact read_of_quotedString h
    by_cases ha : c = '<'
    · subst ha
      exact read_of_htmlString h
    by_cases hh : c = '#' ∧ b = true
    · obtain ⟨rfl, rfl⟩ := hh
      obtain ⟨rfl, rfl, hx, hr⟩ := of_lineComment h
      exact .hash hx hr
    by_cases hs : c = '/' ∧ ((x ++ rest).head? = some '/' ∨ (x ++ rest).head? = some '*')
    · obtain ⟨rfl, hs⟩ := hs
      exact read_of_slash hs h
    by_cases hd : c = '-' ∧ ((x ++ rest).head? = some '-' ∨ (x ++ rest).head? = some '>')
    · obtain ⟨rfl, hd⟩ := hd
      exact read_of_minus hd h
    refine absurd ⟨by simpa using hb, hm, ⟨hq, ha⟩, ?_, ?_, ?_⟩ hp
    · simpa using hh
    · simpa using hs
    · simpa using hd

lemma other_more_le (c : Char) (t : Text) : (other c t).more ≤ t.length := by
  unfold other
  split
  · rename_i n hn
    have := numeral?_le hn
    simp only [List.length_cons] at this ⊢
    omega
  · split
    · simp only [word]
      split <;> exact (List.takeWhile_prefix _).length_le
    · simp

lemma front_more_le (b : Bool) (c : Char) (t : Text) : (front b c t).more ≤ t.length := by
  have hline (t : Text) : (lineComment t).more ≤ t.length := (List.takeWhile_prefix _).length_le
  unfold front
  split
  · simp [trivia]
  split
  · exact hline t
  split
  case h_1 => exact hline _
  case h_2 t =>
    unfold blockComment
    split
    · rename_i n hn
      exact Nat.add_le_add_right (closeComment?_bounds hn).2 1
    · simp
  case h_14 => exact (quotedRest_bounds _).1
  case h_15 t =>
    unfold htmlString
    split
    · rename_i n hn
      exact (closeAngle?_bounds hn).2
    · exact le_rfl
  case h_16 => exact other_more_le c t
  all_goals simp [punctuation]

theorem front_iff {b : Bool} {c : Char} {x rest : Text} {token : Option (Kind × Text)} {fault : Option Fault} :
    front b c (x ++ rest) = ⟨x.length, token, fault⟩ ↔ Read b (c :: x) rest token fault :=
  ⟨read_of_front, front_of_read⟩

lemma exists_read (b : Bool) (c : Char) (t : Text) :
    ∃ x rest token fault, t = x ++ rest ∧ Read b (c :: x) rest token fault := by
  refine ⟨t.take (front b c t).more, t.drop (front b c t).more, (front b c t).token, (front b c t).fault, by simp,
    ?_⟩
  apply read_of_front
  rw [List.take_append_drop, List.length_take_of_le (front_more_le b c t)]

end DotMend.Token.Lexeme
