import DotMend.Proofs.Token.Guarded
import DotMend.Proofs.Token.Respelling
import Mathlib.Computability.RegularExpressions

namespace DotMend.Token

open RegularExpression

def LongestPrefix (P : Text → Prop) (t x : Text) : Prop := x <+: t ∧ P x ∧ ∀ y, y <+: t → P y → y.length ≤ x.length

def ShortestPrefix (P : Text → Prop) (t x : Text) : Prop :=
  x <+: t ∧ P x ∧ ∀ y, y <+: t → P y → x.length ≤ y.length

section Numerals

def digit : RegularExpression Char := "0123456789".toList.foldr (fun c r => char c + r) 0

def someDigits : RegularExpression Char := digit * star digit

def unsigned : RegularExpression Char := char '.' * someDigits + someDigits * (1 + char '.' * star digit)

/-- `-?(\.[0-9]+|[0-9]+(\.[0-9]*)?)` -/
def numerals : RegularExpression Char := (1 + char '-') * unsigned

variable {x : Text}

lemma mem_char {c : Char} : x ∈ (char c).matches' ↔ x = [c] := Iff.rfl

lemma mem_foldr_char {cs : Text} :
    x ∈ (cs.foldr (fun c r => char c + r) (0 : RegularExpression Char)).matches' ↔ ∃ c ∈ cs, x = [c] := by
  induction cs with
  | nil => simp
  | cons c cs ih => rw [List.foldr_cons, matches'_add, Language.mem_add, mem_char, ih, List.exists_mem_cons_iff]

lemma mem_digits_iff {c : Char} : c ∈ "0123456789".toList ↔ c.isDigit = true := by
  constructor
  · intro h
    have hall : "0123456789".toList.all Char.isDigit = true := by decide
    exact List.all_eq_true.mp hall c h
  · intro h
    obtain ⟨h₁, h₂⟩ : 48 ≤ c.toNat ∧ c.toNat ≤ 57 := by simpa [Char.isDigit, UInt32.le_iff_toNat_le] using h
    have hall : ∀ n < 58, 48 ≤ n → Char.ofNat n ∈ "0123456789".toList := by decide
    rw [← Char.ofNat_toNat c]
    exact hall c.toNat (by omega) h₁

lemma mem_digit : x ∈ digit.matches' ↔ ∃ c, c.isDigit = true ∧ x = [c] := by
  rw [digit, mem_foldr_char]
  simp only [mem_digits_iff]

lemma mem_star_digit : x ∈ (star digit).matches' ↔ Lexeme.AllDigits x := by
  rw [matches'_star, Language.mem_kstar]
  constructor
  · rintro ⟨words, rfl, hwords⟩ c hc
    obtain ⟨w, hw, hc⟩ := List.mem_flatten.mp hc
    obtain ⟨d, hd, rfl⟩ := mem_digit.mp (hwords w hw)
    obtain rfl := List.mem_singleton.mp hc
    exact hd
  · intro hx
    refine ⟨x.map ([·]), (List.flatMap_singleton' x).symm, fun w hw => ?_⟩
    obtain ⟨c, hc, rfl⟩ := List.mem_map.mp hw
    exact mem_digit.mpr ⟨c, hx c hc, rfl⟩

lemma mem_someDigits : x ∈ someDigits.matches' ↔ x ≠ [] ∧ Lexeme.AllDigits x := by
  rw [someDigits, matches'_mul, Language.mem_mul]
  simp only [mem_digit, mem_star_digit]
  constructor
  · rintro ⟨-, ⟨c, hc, rfl⟩, y, hy, rfl⟩
    exact ⟨by simp, List.forall_mem_cons.mpr ⟨hc, hy⟩⟩
  · rintro ⟨hne, hx⟩
    obtain ⟨c, y, rfl⟩ := List.exists_cons_of_ne_nil hne
    obtain ⟨hc, hy⟩ := List.forall_mem_cons.mp hx
    exact ⟨[c], ⟨c, hc, rfl⟩, y, hy, rfl⟩

lemma mem_unsigned : x ∈ unsigned.matches' ↔ Lexeme.Unsigned x := by
  simp only [unsigned, matches'_add, matches'_mul, matches'_epsilon, Language.mem_add, Language.mem_mul,
    Language.mem_one, mem_char, mem_someDigits, mem_star_digit]
  constructor
  · rintro (⟨-, rfl, p, ⟨hne, hp⟩, rfl⟩ | ⟨w, ⟨hne, hw⟩, -, rfl | ⟨-, rfl, p, hp, rfl⟩, rfl⟩)
    · exact .inr ⟨[], p, rfl, by simp [Lexeme.AllDigits], hp, .inr hne⟩
    · rw [List.append_nil]
      exact .inl ⟨hne, hw⟩
    · exact .inr ⟨w, p, rfl, hw, hp, .inl hne⟩
  · rintro (⟨hne, hx⟩ | ⟨w, p, rfl, hw, hp, hne⟩)
    · exact .inr ⟨x, ⟨hne, hx⟩, [], .inl rfl, List.append_nil x⟩
    · by_cases hw' : w = []
      · subst hw'
        exact .inl ⟨['.'], rfl, p, ⟨by simpa using hne, hp⟩, rfl⟩
      · exact .inr ⟨w, ⟨hw', hw⟩, '.' :: p, .inr ⟨['.'], rfl, p, hp, rfl⟩, rfl⟩

lemma mem_numerals : x ∈ numerals.matches' ↔ Lexeme.IsNumeral x := by
  rw [numerals, matches'_mul, Language.mem_mul]
  simp only [mem_unsigned, matches'_add, Language.mem_add, matches'_epsilon, Language.mem_one, mem_char]
  constructor
  · rintro ⟨-, rfl | rfl, y, hy, rfl⟩
    · exact .inl hy
    · exact .inr ⟨y, rfl, hy⟩
  · rintro (hx | ⟨y, rfl, hy⟩)
    · exact ⟨[], .inl rfl, x, hx, rfl⟩
    · exact ⟨['-'], .inr rfl, y, hy, rfl⟩

end Numerals

namespace Lexeme

variable {c : Char} {x y rest : Text}

lemma Unsigned.chars (h : Unsigned x) : (∀ c ∈ x, c.isDigit = true ∨ c = '.') ∧ x.count '.' ≤ 1 := by
  have hnone {w : Text} (hw : AllDigits w) : '.' ∉ w := fun hmem => by simpa using hw '.' hmem
  rcases h with ⟨-, hx⟩ | ⟨w, p, rfl, hw, hp, -⟩
  · exact ⟨fun c hc => .inl (hx c hc), by simp [List.count_eq_zero_of_not_mem (hnone hx)]⟩
  · constructor
    · intro c hc
      rcases List.mem_append.mp hc with hc | hc
      · exact .inl (hw c hc)
      · rcases List.mem_cons.mp hc with rfl | hc
        · exact .inr rfl
        · exact .inl (hp c hc)
    · rw [List.count_append, List.count_cons_self, List.count_eq_zero_of_not_mem (hnone hw),
        List.count_eq_zero_of_not_mem (hnone hp)]

lemma IsNumeral.tail (h : IsNumeral (c :: y)) :
    (∀ d ∈ y, d.isDigit = true ∨ d = '.') ∧ (c :: y).count '.' ≤ 1 := by
  rcases h with h | ⟨z, hz, h⟩
  · exact ⟨fun d hd => h.chars.1 d (List.mem_cons_of_mem c hd), h.chars.2⟩
  · obtain ⟨rfl, rfl⟩ := List.cons.inj hz
    exact ⟨h.chars.1, by simpa using h.chars.2⟩

lemma IsNumeral.longest (hx : IsNumeral x) (hend : EndsNumeral x rest) (hy : IsNumeral y)
    (hpre : y <+: x ++ rest) : y.length ≤ x.length := by
  by_contra hlt
  obtain ⟨s, rfl⟩ := List.prefix_of_prefix_length_le (List.prefix_append x rest) hpre (by omega)
  obtain ⟨c, x, rfl⟩ := List.exists_cons_of_ne_nil hx.ne_nil
  obtain ⟨d, s, rfl⟩ : ∃ d s', s = d :: s' := List.exists_cons_of_ne_nil (by rintro rfl; simp at hlt)
  have hrest : rest.head? = some d := by
    obtain ⟨r, rfl⟩ := (List.prefix_append_right_inj _).mp hpre
    rfl
  obtain ⟨hdigit, hpoint⟩ := hend d hrest
  obtain ⟨hchars, hcount⟩ : (∀ e ∈ x ++ d :: s, e.isDigit = true ∨ e = '.') ∧
      (c :: x ++ d :: s).count '.' ≤ 1 := hy.tail
  have hd : d = '.' := by
    rcases hchars d (by simp) with h | h
    · rw [hdigit] at h
      cases h
    · exact h
  -- the numeral has its point already
  have hone := List.one_le_count_iff.mpr (hpoint hd)
  rw [List.count_append, hd, List.count_cons_self] at hcount
  omega

lemma not_noNumeral (hy : Unsigned y) : ¬ NoNumeral (y ++ rest) := by
  intro h
  rcases hy with ⟨hne, hy⟩ | ⟨w, p, rfl, hw, hp, hne⟩
  · obtain ⟨c, y, rfl⟩ := List.exists_cons_of_ne_nil hne
    simpa [hy c (by simp)] using (h c rfl).1
  · cases w with
    | nil =>
      obtain ⟨d, p, rfl⟩ := List.exists_cons_of_ne_nil (by simpa using hne)
      simpa [hp d (by simp)] using (h '.' rfl).2 rfl d rfl
    | cons c w => simpa [hw c (by simp)] using (h c rfl).1

lemma numeral?_ne_none (hy : IsNumeral y) : numeral? (y ++ rest) ≠ none := by
  rcases hy with hy | ⟨z, rfl, hz⟩
  · have hsign : numeral? (y ++ rest) = unsignedNumeral? (y ++ rest) := by
      obtain ⟨c, z, rfl, hc⟩ := hy.head
      rw [List.cons_append, numeral?]
      rintro z' h
      obtain ⟨rfl, -⟩ := List.cons.inj h
      simp at hc
    rw [hsign, Ne, unsignedNumeral?_eq_none_iff]
    exact not_noNumeral hy
  · rw [List.cons_append, numeral?, Ne, Option.map_eq_none_iff, unsignedNumeral?_eq_none_iff]
    exact not_noNumeral hz

end Lexeme

section Words

def isLetterByte (b : UInt8) : Bool := 0x41 ≤ b && b ≤ 0x5a || 0x61 ≤ b && b ≤ 0x7a

def startsWordByte (b : UInt8) : Bool := isLetterByte b || b = 0x5f || 0x80 ≤ b

def continuesWordByte (b : UInt8) : Bool := startsWordByte b || 0x30 ≤ b && b ≤ 0x39

variable {c : Char} {b : UInt8} {x rest : Text}

lemma class_eq {p : UInt8 → Bool} {q : Char → Bool} (hascii : ∀ n < 128, p (UInt8.ofNat n) = q (Char.ofNat n))
    (hp : ∀ b, 0x80 ≤ b → p b = true) (hq : ∀ c : Char, 128 ≤ c.toNat → q c = true)
    (hb : b ∈ String.utf8EncodeChar c) : p b = q c := by
  by_cases hc : c.toNat < 128
  · rw [(Text.mem_utf8EncodeChar_iff hc hb).mpr rfl, hascii c.toNat hc, Char.ofNat_toNat]
  · have hle : 0x80 ≤ b := UInt8.le_iff_toNat_le.mpr (Text.le_of_mem_utf8EncodeChar (by omega) hb)
    rw [hp b hle, hq c (by omega)]

lemma startsWordByte_eq (hb : b ∈ String.utf8EncodeChar c) : startsWordByte b = Lexeme.startsWord c := by
  refine class_eq (by decide +kernel) (fun b hb => ?_) (fun c hc => Guarded.startsWord_of_le hc) hb
  rw [startsWordByte, decide_eq_true hb, Bool.or_true]

lemma continuesWordByte_eq (hb : b ∈ String.utf8EncodeChar c) : continuesWordByte b = Lexeme.continuesWord c := by
  refine class_eq (by decide +kernel) (fun b hb => ?_) (fun c hc => ?_) hb
  · rw [continuesWordByte, startsWordByte, decide_eq_true hb, Bool.or_true, Bool.true_or]
  · rw [Lexeme.continuesWord, Guarded.startsWord_of_le hc, Bool.true_or]

lemma exists_head?_utf8 (c : Char) (x : Text) :
    ∃ b ∈ String.utf8EncodeChar c, (Text.utf8 (c :: x)).head? = some b := by
  obtain ⟨b, bs, hb⟩ := List.exists_cons_of_ne_nil (@String.utf8EncodeChar_ne_nil c)
  exact ⟨b, by simp [hb], by simp [Text.utf8, hb]⟩

lemma takeWhile_utf8 (hx : ∀ d ∈ x, Lexeme.continuesWord d = true) (hrest : Lexeme.EndsWord rest) :
    (x ++ rest).utf8.takeWhile continuesWordByte = x.utf8 := by
  rw [Text.utf8,
    Consolidation.takeWhile_flatMap (fun _ => String.utf8EncodeChar_ne_nil) fun _ _ => continuesWordByte_eq,
    Lexeme.takeWhile_append_of_all hx hrest]
  rfl

lemma ofKeyword?_eq_some_iff {w : String} {k : Kind} (h : (w, k) ∈ Kind.keywords) :
    Kind.ofKeyword? x = some k ↔ x.map Char.toLower = w.toList := by
  have hlower : ∀ e ∈ Kind.keywords, e.1.toList.map Char.toLower = e.1.toList := by decide
  have hkinds : ∀ e ∈ Kind.keywords, ∀ e' ∈ Kind.keywords, e.2 = e'.2 → e = e' := by decide
  have hwords : ∀ e ∈ Kind.keywords, ∀ e' ∈ Kind.keywords, e.1.toList = e'.1.toList → e = e' := by decide
  constructor
  · intro hk
    obtain ⟨s, hs, hsame⟩ := exists_of_ofKeyword? hk
    obtain ⟨rfl, -⟩ := Prod.mk.inj (hkinds _ hs _ h rfl)
    rw [sameWord, beq_iff_eq, hlower _ hs] at hsame
    exact hsame.symm
  · intro hx
    cases hk : Kind.ofKeyword? x with
    | none =>
      rw [Kind.ofKeyword?, Option.map_eq_none_iff, List.find?_eq_none] at hk
      exact absurd (by rw [sameWord, beq_iff_eq, hlower _ h, hx]) (hk _ h)
    | some k' =>
      obtain ⟨s, hs, hsame⟩ := exists_of_ofKeyword? hk
      rw [sameWord, beq_iff_eq, hlower _ hs, hx] at hsame
      obtain ⟨-, rfl⟩ := Prod.mk.inj (hwords _ hs _ h hsame)
      rfl

lemma kind_wordToken_iff {w : String} {k : Kind} (h : (w, k) ∈ Kind.keywords) :
    (Lexeme.wordToken x).1 = k ↔ x.map Char.toLower = w.toList := by
  have hword : ∀ e ∈ Kind.keywords, Kind.word ≠ e.2 := by decide
  rw [← ofKeyword?_eq_some_iff h, Lexeme.wordToken]
  cases Kind.ofKeyword? x with
  | none => simp [hword _ h]
  | some k' => simp

end Words

section Brackets

def Balanced (x : Text) : Prop := x.head? = some '<' ∧ x.count '<' = x.count '>'

variable {d : Nat} {t x y rest : Text}

lemma ne_close {c : Char} (hlast : d = 0 → c = '>' → False) (hclose : ∀ n, d = n + 1 → c = '>' → False) :
    c ≠ '>' := by
  cases d with
  | zero => exact hlast rfl
  | succ d => exact hclose d rfl

lemma count_le_of_closeAngle? (hy : y <+: t) (h : ∀ n ∈ Lexeme.closeAngle? d t, y.length < n) :
    y.count '>' ≤ y.count '<' + d := by
  fun_induction Lexeme.closeAngle? d t generalizing y with
  | case1 d =>
    obtain rfl := List.prefix_nil.mp hy
    simp
  | case2 d t ih =>
    rcases List.prefix_cons_iff.mp hy with rfl | ⟨z, rfl, hz⟩
    · simp
    · have := ih hz (by simpa using h)
      simp
      omega
  | case3 t =>
    obtain rfl : y = [] := by simpa using h
    simp
  | case4 t d ih =>
    rcases List.prefix_cons_iff.mp hy with rfl | ⟨z, rfl, hz⟩
    · simp
    · have := ih hz (by simpa using h)
      simp
      omega
  | case5 d c t hopen hlast hclose ih =>
    have hc := ne_close hlast hclose
    rcases List.prefix_cons_iff.mp hy with rfl | ⟨z, rfl, hz⟩
    · simp
    · rw [List.count_cons_of_ne hc, List.count_cons_of_ne hopen]
      exact ih hz (by simpa using h)

lemma count_of_closeAngle? (h : Lexeme.closeAngle? d x = some x.length) : x.count '>' = x.count '<' + d + 1 := by
  fun_induction Lexeme.closeAngle? d x with
  | case1 => cases h
  | case2 d t ih =>
    have := ih (by simpa using h)
    simp
    omega
  | case3 t =>
    obtain rfl : t = [] := by simpa using h
    simp
  | case4 t d ih =>
    have := ih (by simpa using h)
    simp
    omega
  | case5 d c t hopen hlast hclose ih =>
    have hc := ne_close hlast hclose
    rw [List.count_cons_of_ne hc, List.count_cons_of_ne hopen]
    exact ih (by simpa using h)

lemma lt_of_balanced (hy : Balanced y) (hpre : y <+: '<' :: t) : ∃ n ∈ Lexeme.closeAngle? 0 t, n < y.length := by
  obtain ⟨hhead, hcount⟩ := hy
  rcases List.prefix_cons_iff.mp hpre with rfl | ⟨z, rfl, hz⟩
  · cases hhead
  · by_contra hnone
    have hle : z.count '>' ≤ z.count '<' + 0 := by
      refine count_le_of_closeAngle? hz fun n hn => ?_
      by_contra hlt
      exact hnone ⟨n, hn, by simp at hlt ⊢; omega⟩
    simp at hcount
    omega

lemma balanced_of_closeAngle? (h : Lexeme.closeAngle? 0 x = some x.length) : Balanced ('<' :: x) := by
  have := count_of_closeAngle? h
  exact ⟨rfl, by simpa using this.symm⟩

end Brackets

def marks : Text := ['\x7b', '\x7d', '[', ']', ':', ';', ',', '=', '+']

inductive Begins (before : Text) : (rest : Text) → Prop
  | blank {c rest} : c ∈ [' ', '\t', '\r', '\n', '\x0c'] → Begins before (c :: rest)
  | line {rest} : Begins before ('/' :: '/' :: rest)
  | block {rest} : Begins before ('/' :: '*' :: rest)
  | hash {rest} : (before = [] ∨ before.getLast? = some '\n') → Begins before ('#' :: rest)
  | mark {c rest} : c ∈ marks → Begins before (c :: rest)
  | operator {rest} (op : EdgeOp) : op.text.toList <+: rest → Begins before rest
  | quoted {rest} : Begins before ('"' :: rest)
  | html {rest} : Begins before ('<' :: rest)
  | numeral {rest x} : x <+: rest → x ∈ numerals.matches' → Begins before rest
  | word {rest b} : rest.utf8.head? = some b → startsWordByte b = true → Begins before rest

def wordKinds : List Kind := .word :: Kind.keywords.map Prod.snd

/-- What the kind of a token says about its text `x`, which stands between `before` and `behind`. -/
structure Classified (before x behind : Text) (kind : Kind) (faulty : Bool) : Prop where
  numeral : kind = .numeral → LongestPrefix (· ∈ numerals.matches') (x ++ behind) x
  word : kind ∈ wordKinds →
    (∃ b ∈ x.utf8.head?, startsWordByte b) ∧ (x ++ behind).utf8.takeWhile continuesWordByte = x.utf8
  keyword : kind ∈ wordKinds → ∀ w k, (w, k) ∈ Kind.keywords → (kind = k ↔ x.map Char.toLower = w.toList)
  html : kind = .html → faulty = false → ShortestPrefix Balanced (x ++ behind) x
  openHtml : kind = .html →
    (faulty = true ↔ ∀ y, y <+: x ++ behind → ¬ Balanced y) ∧ (faulty = true → x.head? = some '<' ∧ behind = [])
  unknown : kind = .unknown ↔ x ≠ [] ∧ ¬ Begins before (x ++ behind)
  single : kind = .unknown → ∃ b < 0x80, x.utf8 = [b]

section Kinds

variable {before x y rest : Text} {b f : Bool} {c : Char}

lemma mem_wordKinds (x : Text) : (Lexeme.wordToken x).1 ∈ wordKinds := by
  rcases wordToken_eq x with h | ⟨k, h, hk⟩
  · rw [h]
    exact List.mem_cons_self
  · obtain ⟨s, hs, -⟩ := exists_of_ofKeyword? hk
    rw [h]
    exact List.mem_cons_of_mem _ (List.mem_map_of_mem hs)

lemma Classified.of_other {k : Kind} (hk : k ∉ .numeral :: .html :: .unknown :: wordKinds)
    (h : Begins before (x ++ rest)) : Classified before x rest k f := by
  simp only [List.mem_cons, not_or] at hk
  obtain ⟨hnumeral, hhtml, hunknown, hword⟩ := hk
  exact ⟨fun hk => absurd hk hnumeral, fun hk => absurd hk hword, fun hk => absurd hk hword,
    fun hk => absurd hk hhtml,
    fun hk => absurd hk hhtml, ⟨fun hk => absurd hk hunknown, fun hx => absurd h hx.2⟩,
      fun hk => absurd hk hunknown⟩

lemma Classified.of_numeral (hx : Lexeme.IsNumeral x) (hend : Lexeme.EndsNumeral x rest) :
    Classified before x rest .numeral f := by
  have hpre : x <+: x ++ rest := List.prefix_append x rest
  have hmem : x ∈ numerals.matches' := mem_numerals.mpr hx
  have hword : Kind.numeral ∉ wordKinds := by decide
  exact ⟨fun _ => ⟨hpre, hmem, fun y hy hmem => hx.longest hend (mem_numerals.mp hmem) hy⟩,
    fun hk => absurd hk hword,
    fun hk => absurd hk hword, by simp, by simp, ⟨by simp, fun hx => absurd (.numeral hpre hmem) hx.2⟩, by simp⟩

lemma Classified.of_word (hc : Lexeme.startsWord c = true) (hy : ∀ d ∈ y, Lexeme.continuesWord d = true)
    (hend : Lexeme.EndsWord rest) : Classified before (c :: y) rest (Lexeme.wordToken (c :: y)).1 f := by
  have hother : ∀ k ∈ wordKinds, k ≠ .numeral ∧ k ≠ .html ∧ k ≠ .unknown := by decide
  obtain ⟨hnumeral, hhtml, hunknown⟩ := hother _ (mem_wordKinds (c :: y))
  have hall : ∀ d ∈ c :: y, Lexeme.continuesWord d = true :=
    List.forall_mem_cons.mpr ⟨by rw [Lexeme.continuesWord, hc, Bool.true_or], hy⟩
  have hhead (z : Text) : ∃ b ∈ (Text.utf8 (c :: z)).head?, startsWordByte b = true := by
    obtain ⟨d, hd, hhead⟩ := exists_head?_utf8 c z
    exact ⟨d, hhead, (startsWordByte_eq hd).trans hc⟩
  have hbegins : Begins before (c :: y ++ rest) := by
    obtain ⟨d, hd, hstarts⟩ := hhead (y ++ rest)
    exact .word hd hstarts
  exact ⟨fun hk => absurd hk hnumeral, fun _ => ⟨hhead y, takeWhile_utf8 hall hend⟩,
    fun _ w k h => kind_wordToken_iff h,
    fun hk => absurd hk hhtml, fun hk => absurd hk hhtml,
      ⟨fun hk => absurd hk hunknown, fun hx => absurd hbegins hx.2⟩,
    fun hk => absurd hk hunknown⟩

lemma Classified.of_html (hshortest : f = false → ShortestPrefix Balanced ('<' :: y ++ rest) ('<' :: y))
    (hopen : f = true → rest = [] ∧ ∀ z, z <+: '<' :: y → ¬ Balanced z) :
    Classified before ('<' :: y) rest .html f := by
  have hword : Kind.html ∉ wordKinds := by decide
  have hfaulty : f = true ↔ ∀ z, z <+: '<' :: y ++ rest → ¬ Balanced z := by
    constructor
    · intro hf z hz
      obtain ⟨rfl, hnone⟩ := hopen hf
      exact hnone z (by simpa using hz)
    · intro hnone
      by_contra hf
      obtain ⟨hpre, hbalanced, -⟩ := hshortest (by simpa using hf)
      exact hnone _ hpre hbalanced
  exact ⟨by simp, fun hk => absurd hk hword, fun hk => absurd hk hword, fun _ => hshortest,
    fun _ => ⟨hfaulty, fun hf => ⟨rfl, (hopen hf).1⟩⟩, ⟨by simp, fun hx => absurd .html hx.2⟩, by simp⟩

lemma shortestPrefix_of_closeAngle? (h : Lexeme.closeAngle? 0 y = some y.length) :
    ShortestPrefix Balanced ('<' :: y ++ rest) ('<' :: y) := by
  refine ⟨List.prefix_append _ rest, balanced_of_closeAngle? h, fun z hz hb => ?_⟩
  obtain ⟨n, hn, hlt⟩ := lt_of_balanced (t := y ++ rest) hb hz
  rw [Lexeme.closeAngle?_append h] at hn
  obtain rfl := Option.some.inj hn
  exact hlt

lemma not_balanced_of_closeAngle? (h : Lexeme.closeAngle? 0 y = none) : ∀ z, z <+: '<' :: y → ¬ Balanced z := by
  intro z hz hb
  obtain ⟨n, hn, -⟩ := lt_of_balanced hb hz
  rw [h] at hn
  cases hn

lemma not_begins_of_stray (h : Lexeme.Stray b c rest) (hb : before = [] ∨ before.getLast? = some '\n' → b = true) :
    ¬ Begins before (c :: rest) := by
  generalize ht : c :: rest = t
  intro hbegins
  cases hbegins with
  | blank hc =>
    obtain ⟨rfl, -⟩ := List.cons.inj ht
    simpa [Lexeme.isBlank_iff.mpr (by simpa using hc)] using h.not_blank
  | line =>
    obtain ⟨rfl, rfl⟩ := List.cons.inj ht
    exact (h.not_slash rfl).1 rfl
  | block =>
    obtain ⟨rfl, rfl⟩ := List.cons.inj ht
    exact (h.not_slash rfl).2 rfl
  | hash hline =>
    obtain ⟨rfl, -⟩ := List.cons.inj ht
    simpa [hb hline] using h.not_hash rfl
  | mark hc =>
    have hmarks : marks.all (fun d => (Lexeme.mark? d).isSome) = true := by decide
    obtain ⟨rfl, -⟩ := List.cons.inj ht
    simpa [h.not_mark] using List.all_eq_true.mp hmarks c hc
  | operator op hop =>
    obtain ⟨r, rfl⟩ := hop
    cases op with
    | directed =>
      obtain ⟨rfl, rfl⟩ := List.cons.inj ht
      exact (h.not_minus rfl).2 rfl
    | undirected =>
      obtain ⟨rfl, rfl⟩ := List.cons.inj ht
      exact (h.not_minus rfl).1 rfl
  | quoted => exact h.not_quote.1 (List.cons.inj ht).1
  | html => exact h.not_quote.2 (List.cons.inj ht).1
  | numeral hx hmem =>
    obtain ⟨r, rfl⟩ := hx
    exact Lexeme.numeral?_ne_none (mem_numerals.mp hmem) (ht ▸ h.not_numeral)
  | word hhead hc =>
    obtain ⟨d, hd, hhead'⟩ := exists_head?_utf8 c rest
    rw [← ht, hhead'] at hhead
    obtain rfl := Option.some.inj hhead
    rw [startsWordByte_eq hd, h.not_word] at hc
    cases hc

lemma exists_utf8_of_ascii (hc : c.toNat < 128) : ∃ d < 0x80, Text.utf8 [c] = [d] := by
  refine ⟨UInt8.ofNat c.toNat, ?_, ?_⟩
  · rw [UInt8.lt_iff_toNat_lt]
    simp
    omega
  · rw [Text.utf8, List.flatMap_singleton]
    unfold String.utf8EncodeChar
    exact if_pos (Nat.le_of_lt_succ hc)

lemma Classified.of_stray (h : Lexeme.Stray b c rest) (hb : before = [] ∨ before.getLast? = some '\n' → b = true) :
    Classified before [c] rest .unknown f := by
  have hword : Kind.unknown ∉ wordKinds := by decide
  have hascii : c.toNat < 128 := by
    by_contra hc
    simpa [Guarded.startsWord_of_le (Nat.le_of_not_lt hc)] using h.not_word
  exact ⟨by simp, fun hk => absurd hk hword, fun hk => absurd hk hword, by simp, by simp,
    ⟨fun _ => ⟨by simp, not_begins_of_stray h hb⟩, fun _ => rfl⟩, fun _ => exists_utf8_of_ascii hascii⟩

end Kinds

namespace Lexeme

variable {before x rest v : Text} {b : Bool} {k : Kind} {fault : Option Fault}

lemma mark?_kind_not_mem {c : Char} (h : mark? c = some k) :
    k ∉ .numeral :: .html :: .unknown :: wordKinds ∧ c ∈ marks := by
  unfold mark? at h
  split at h <;> first | (obtain rfl := Option.some.inj h; decide) | cases h

lemma Read.classified (h : Read b x rest (some (k, v)) fault)
    (hb : before = [] ∨ before.getLast? = some '\n' → b = true) : Classified before x rest k fault.isSome := by
  generalize ht : some (k, v) = token at h
  cases h with
  | mark h =>
    obtain ⟨rfl, -⟩ := Prod.mk.inj (Option.some.inj ht)
    obtain ⟨hk, hc⟩ := mark?_kind_not_mem h
    exact .of_other hk (.mark hc)
  | directed =>
    obtain ⟨rfl, -⟩ := Prod.mk.inj (Option.some.inj ht)
    exact .of_other (by decide) (.operator .directed (List.prefix_append _ rest))
  | undirected =>
    obtain ⟨rfl, -⟩ := Prod.mk.inj (Option.some.inj ht)
    exact .of_other (by decide) (.operator .undirected (List.prefix_append _ rest))
  | quoted | openQuoted =>
    obtain ⟨rfl, -⟩ := Prod.mk.inj (Option.some.inj ht)
    exact .of_other (by decide) .quoted
  | html h =>
    obtain ⟨rfl, -⟩ := Prod.mk.inj (Option.some.inj ht)
    exact .of_html (fun _ => shortestPrefix_of_closeAngle? h) (by simp)
  | openHtml h =>
    obtain ⟨rfl, -⟩ := Prod.mk.inj (Option.some.inj ht)
    exact .of_html (by simp) fun _ => ⟨rfl, not_balanced_of_closeAngle? h⟩
  | numeral hx hend =>
    obtain ⟨rfl, -⟩ := Prod.mk.inj (Option.some.inj ht)
    exact .of_numeral hx hend
  | word hc hx hend =>
    obtain rfl : k = _ := congrArg Prod.fst (Option.some.inj ht)
    exact .of_word hc hx hend
  | stray h =>
    obtain ⟨rfl, -⟩ := Prod.mk.inj (Option.some.inj ht)
    exact .of_stray h hb
  | _ => cases ht

end Lexeme

lemma Run.exists_classified {b : Bool} {ps : List Piece} (h : Run b ps) (before : Text)
    (hb : before = [] ∨ before.getLast? = some '\n' → b = true) :
    ∀ u ∈ tokensAt before.bytes ps, ∃ front x behind, before ++ spell ps = front ++ x ++ behind ∧
      u.span = ⟨front.bytes, (front ++ x).bytes⟩ ∧ Classified front x behind u.kind u.faulty := by
  induction h generalizing before with
  | nil => simp
  | @cons b p ps hr _ ih =>
    have hline : before ++ p.text = [] ∨ (before ++ p.text).getLast? = some '\n' → p.endsLine = true := by
      obtain ⟨c, y, hy⟩ := List.exists_cons_of_ne_nil (Lexeme.Read.ne_nil hr)
      rintro (hnil | hlast)
      · simp [hy] at hnil
      · rw [Piece.endsLine, beq_iff_eq, ← hlast, List.getLast?_append_of_ne_nil _ (by simp [hy])]
    have hps := ih (before ++ p.text) hline
    rw [Text.bytes_append] at hps
    rw [tokensAt_cons, spell_cons, ← List.append_assoc, List.forall_mem_append]
    refine ⟨fun u hu => ?_, hps⟩
    obtain ⟨⟨k, v⟩, hkv, rfl⟩ := Option.map_eq_some_iff.mp (Option.mem_toList.mp hu)
    rw [Piece.Reads, hkv] at hr
    exact ⟨before, p.text, spell ps, rfl, by rw [Text.bytes_append]; rfl, hr.classified hb⟩

/-- Every token is of the class that its kind names, and as long or as short as the class asks. -/
theorem scan_classified (t : Text) :
    ∀ u ∈ (scan t).tokens, ∃ before x behind, t = before ++ x ++ behind ∧
      u.span = ⟨before.bytes, (before ++ x).bytes⟩ ∧ Classified before x behind u.kind u.faulty := by
  obtain ⟨ps, hrun, rfl⟩ := exists_run true t
  rw [hrun.scan, List.forall_mem_append, List.forall_mem_singleton]
  refine ⟨hrun.exists_classified [] fun _ => rfl, spell ps, [], [], by simp, by simp [endAt, Span.caret], ?_⟩
  have hword : Kind.endOfFile ∉ wordKinds := by decide
  exact ⟨by simp [endAt], fun hk => absurd hk hword, fun hk => absurd hk hword, by simp [endAt], by simp [endAt],
    by simp [endAt], by simp [endAt]⟩

theorem scan_classified_adjoining :
    ∃ t : Text, t = "-1.5./StriCT<a<b>>é9-<x".toList ∧
      (⟨.numeral, ⟨0, 4⟩, "-1.5", false⟩ : Token) ∈ (scan t).tokens ∧
      (⟨.html, ⟨22, 24⟩, "x", true⟩ : Token) ∈ (scan t).tokens ∧
      (∃ before x behind, t = before ++ x ++ behind ∧ (⟨0, 4⟩ : Span) = ⟨before.bytes, (before ++ x).bytes⟩ ∧
        Classified before x behind .numeral false) ∧
      ∃ before x behind, t = before ++ x ++ behind ∧ (⟨22, 24⟩ : Span) = ⟨before.bytes, (before ++ x).bytes⟩ ∧
        Classified before x behind .html true := by
  have hnumeral : (⟨.numeral, ⟨0, 4⟩, "-1.5", false⟩ : Token) ∈
      (scan "-1.5./StriCT<a<b>>é9-<x".toList).tokens := by
    decide +kernel
  have hopen : (⟨.html, ⟨22, 24⟩, "x", true⟩ : Token) ∈ (scan "-1.5./StriCT<a<b>>é9-<x".toList).tokens := by
    decide +kernel
  exact ⟨_, rfl, hnumeral, hopen, scan_classified _ _ hnumeral, scan_classified _ _ hopen⟩

end DotMend.Token
