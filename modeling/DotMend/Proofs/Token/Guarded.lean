import DotMend.Proofs.Text.Removal
import DotMend.Proofs.Token.Run

/-! Scanning by byte offsets. Every step that needs its offsets to be in place is guarded: it fails on a slice that
is out of bounds or cuts a character, on a byte behind the end, on a bracket that closes nothing and on a span that
ends before it starts. No text makes it fail, and it yields what scanning by characters yields. -/

namespace DotMend

def Span.forward? (start stop : Nat) : Option Span := if start ≤ stop then some ⟨start, stop⟩ else none

namespace Token.Guarded

open Lexeme

structure Found where
  stop : Nat
  token : Option (Kind × Text)
  fault : Option Fault
  deriving DecidableEq, Repr

section Scanner

variable (t : Text)

/-- A byte as a character: itself in ASCII, and some character beyond it for each byte of one beyond it. -/
def byte? (offset : Nat) : Option Char := t.utf8[offset]?.map Char.ofUInt8

variable {t} in
lemma lt_of_byte? {offset : Nat} {b : Char} (h : byte? t offset = some b) : offset < t.bytes := by
  obtain ⟨_, hb, -⟩ := Option.map_eq_some_iff.mp h
  obtain ⟨hlt, -⟩ := List.getElem?_eq_some_iff.mp hb
  rwa [Text.length_utf8] at hlt

def count (p : Char → Bool) (offset : Nat) : Nat :=
  ((t.utf8.drop offset).takeWhile fun b => p (Char.ofUInt8 b)).length

def startsLine? (offset : Nat) : Option Bool :=
  if offset = 0 then some true else (byte? t (offset - 1)).map (· = '\n')

def digits? (offset : Nat) : Option Nat := if offset ≤ t.bytes then some (count t Char.isDigit offset) else none

def unsigned? (offset : Nat) : Option Nat := do
  let whole ← digits? t offset
  if byte? t (offset + whole) = some '.' then
    let part ← digits? t (offset + whole + 1)
    return if whole = 0 ∧ part = 0 then 0 else whole + 1 + part
  else return whole

def numeral? (start : Nat) : Option Nat := do
  let sign := if byte? t start = some '-' then 1 else 0
  let length ← unsigned? t (start + sign)
  return if length = 0 then 0 else sign + length

def numeralFrom? (start : Nat) (b : Char) : Option Nat :=
  if b = '-' ∨ b = '.' ∨ b.isDigit then numeral? t start else some 0

def lineComment (start : Nat) : Found := ⟨start + count t (· ≠ '\n') start, none, none⟩

def blockComment? (start : Nat) : Option Found := do
  let behind ← t.slice? ⟨start + 2, t.bytes⟩
  match closeComment? behind with
  | some n => return ⟨start + 2 + Text.bytes (behind.take n), none, none⟩
  | none => return ⟨t.bytes, none, some .openComment⟩

/-- A string from inside of it; what stands between `segment` and the offset is still to be added to its value. -/
def quoted? (segment : Nat) (value : Text) (offset : Nat) : Option Found :=
  match h : byte? t offset with
  | none => do
    let last ← t.slice? ⟨segment, offset⟩
    return ⟨offset, some (.quoted, value ++ last), some .openString⟩
  | some '"' => do
    let last ← t.slice? ⟨segment, offset⟩
    return ⟨offset + 1, some (.quoted, value ++ last), none⟩
  | some '\\' =>
    match byte? t (offset + 1), byte? t (offset + 2) with
    | some '"', _ => do
      let part ← t.slice? ⟨segment, offset⟩
      quoted? (offset + 2) (value ++ part ++ ['"']) (offset + 2)
    | some '\n', _ => do
      let part ← t.slice? ⟨segment, offset⟩
      quoted? (offset + 2) (value ++ part) (offset + 2)
    | some '\r', some '\n' => do
      let part ← t.slice? ⟨segment, offset⟩
      quoted? (offset + 3) (value ++ part) (offset + 3)
    | _, _ => quoted? segment value (offset + 1)
  | some _ => quoted? segment value (offset + 1)
  termination_by t.bytes - offset
  decreasing_by all_goals have := lt_of_byte? h; omega

def html? (start depth offset : Nat) : Option Found :=
  match h : byte? t offset with
  | none => do
    let value ← t.slice? ⟨start + 1, t.bytes⟩
    return ⟨offset, some (.html, value), some .openHtml⟩
  | some '<' => html? start (depth + 1) (offset + 1)
  | some '>' =>
    if depth = 0 then none
    else if depth = 1 then do
      let value ← t.slice? ⟨start + 1, offset⟩
      return ⟨offset + 1, some (.html, value), none⟩
    else html? start (depth - 1) (offset + 1)
  | some _ => html? start depth (offset + 1)
  termination_by t.bytes - offset
  decreasing_by all_goals have := lt_of_byte? h; omega

def stray (start : Nat) (b : Char) : Found := ⟨start + 1, some (.unknown, []), some (.unexpected b)⟩

def other? (start : Nat) (b : Char) : Option Found := do
  let length ← numeralFrom? t start b
  if 0 < length then
    let value ← t.slice? ⟨start, start + length⟩
    return ⟨start + length, some (.numeral, value), none⟩
  else if startsWord b then
    let stop := start + count t continuesWord start
    let value ← t.slice? ⟨start, stop⟩
    return ⟨stop, some (wordToken value), none⟩
  else return stray start b

def found? (start : Nat) (b : Char) : Option Found :=
  if isBlank b then some ⟨start + 1, none, none⟩
  else
    match mark? b with
    | some kind => some ⟨start + 1, some (kind, []), none⟩
    | none =>
      match b, byte? t (start + 1) with
      | '/', some '/' => some (lineComment t start)
      | '/', some '*' => blockComment? t start
      | '#', _ => (startsLine? t start).map fun first => if first then lineComment t start else stray start '#'
      | '-', some '>' => some ⟨start + 2, some (.directedOp, []), none⟩
      | '-', some '-' => some ⟨start + 2, some (.undirectedOp, []), none⟩
      | '"', _ => quoted? t (start + 1) [] (start + 1)
      | '<', _ => html? t start 0 start
      | b, _ => other? t start b

def scanFrom (start : Nat) : Option Scanned :=
  match h : byte? t start with
  | none => some ⟨[endAt t.bytes], []⟩
  | some b => do
    let found ← found? t start b
    let span ← Span.forward? start found.stop
    if start < found.stop then
      let rest ← scanFrom found.stop
      let token := found.token.map fun (kind, value) =>
        (⟨kind, span, String.ofList value, found.fault.isSome⟩ : Token)
      return ⟨token.toList ++ rest.tokens, (found.fault.map (·.diagnostic span)).toList ++ rest.diagnostics⟩
    else none
  termination_by t.bytes - start
  decreasing_by have := lt_of_byte? h; omega

def scan : Option Scanned := scanFrom t 0

end Scanner

/-- A byte `d` of a character `c`. -/
def Spells (c d : Char) : Prop := d = c ∨ 128 ≤ c.toNat ∧ 128 ≤ d.toNat

lemma Spells.eq_iff {c d k : Char} (h : Spells c d) (hk : k.toNat < 128) : d = k ↔ c = k := by
  rcases h with rfl | ⟨hc, hd⟩
  · rfl
  · constructor <;>
    · rintro rfl
      omega

lemma spells_ofUInt8 {c : Char} {b : UInt8} (hb : b ∈ String.utf8EncodeChar c) : Spells c (Char.ofUInt8 b) := by
  have hnat : (Char.ofUInt8 b).toNat = b.toNat := UInt8.toNat_toUInt32 b
  by_cases hc : c.toNat < 128
  · left
    have hbyte := (Text.mem_utf8EncodeChar_iff hc hb).mpr rfl
    rw [← Char.toNat_inj, hnat, hbyte]
    simp
    omega
  · right
    rw [hnat]
    exact ⟨by omega, Text.le_of_mem_utf8EncodeChar (by omega) hb⟩

def Coarse (p : Char → Bool) : Prop := ∀ c d, 128 ≤ c.toNat → 128 ≤ d.toNat → p c = p d

lemma Coarse.eq {p : Char → Bool} (hp : Coarse p) {c d : Char} (h : Spells c d) : p d = p c := by
  rcases h with rfl | ⟨hc, hd⟩
  · rfl
  · exact hp d c hd hc

section Bytes

variable {t a r : Text} {c : Char}

lemma drop_utf8 (a r : Text) : (a ++ r).utf8.drop a.bytes = r.utf8 := by
  rw [Text.utf8_append, ← Text.length_utf8, List.drop_left]

lemma byte?_end (ht : t = a) : byte? t a.bytes = none := by simp [ht, byte?]

lemma exists_byte (ht : t = a ++ c :: r) {i : Nat} (hi : i < c.utf8Size) :
    ∃ d, byte? t (a.bytes + i) = some d ∧ Spells c d := by
  have hlength : i < (String.utf8EncodeChar c).length := by simpa using hi
  refine ⟨Char.ofUInt8 ((String.utf8EncodeChar c).get ⟨i, hlength⟩), ?_, spells_ofUInt8 (List.get_mem _ _)⟩
  rw [byte?, ← List.getElem?_drop, ht, drop_utf8, Text.utf8, List.flatMap_cons, List.getElem?_append_left hlength,
    List.getElem?_eq_getElem hlength]
  rfl

lemma byte?_eq_some_iff (ht : t = a ++ r) {k : Char} (hk : k.toNat < 128) :
    byte? t a.bytes = some k ↔ r.head? = some k := by
  cases r with
  | nil => simp [ht, byte?]
  | cons c r =>
    obtain ⟨d, hd, hspells⟩ := exists_byte ht c.utf8Size_pos
    rw [Nat.add_zero] at hd
    rw [hd, List.head?_cons, Option.some_inj, Option.some_inj]
    exact hspells.eq_iff hk

lemma count_eq {p : Char → Bool} (hp : Coarse p) (ht : t = a ++ r) :
    count t p a.bytes = Text.bytes (r.takeWhile p) := by
  have hclass : ∀ c, ∀ b ∈ String.utf8EncodeChar c,
      p (Char.ofUInt8 b) = p c := fun c b hb => hp.eq (spells_ofUInt8 hb)
  rw [count, ht, drop_utf8, Text.utf8,
    Consolidation.takeWhile_flatMap (fun _ => String.utf8EncodeChar_ne_nil) hclass, ← Text.utf8, Text.length_utf8]

lemma bytes_concat (x : Text) (hc : c.utf8Size = 1) : (x ++ [c]).bytes = x.bytes + 1 := by
  rw [Text.bytes_append, Text.bytes_cons, hc]
  rfl

lemma slice?_between {x : Text} (ht : t = a ++ x ++ r) : t.slice? ⟨a.bytes, (a ++ x).bytes⟩ = some x := by
  rw [ht, Text.bytes_append a x]
  exact Text.slice?_bytes a x r

lemma slice?_behind (ht : t = a ++ r) : t.slice? ⟨a.bytes, t.bytes⟩ = some r := by
  have hstop : t.bytes = (a ++ r).bytes := by rw [ht]
  rw [hstop]
  exact @slice?_between t a [] r (by rw [ht, List.append_nil])

lemma eq_across {β : Type} {f : Nat → β} (ht : t = a ++ c :: r)
    (h : ∀ i d, byte? t i = some d → Spells c d → f i = f (i + 1)) : f a.bytes = f (a ++ [c]).bytes := by
  have hsteps : ∀ n ≤ c.utf8Size, f a.bytes = f (a.bytes + n) := by
    intro n hn
    induction n with
    | zero => rfl
    | succ n ih =>
      obtain ⟨d, hd, hspells⟩ := exists_byte ht (Nat.lt_of_succ_le hn)
      exact (ih (Nat.le_of_succ_le hn)).trans (h _ d hd hspells)
  simpa using hsteps c.utf8Size le_rfl

end Bytes

section Strings

variable {t : Text}

lemma quoted?_step {segment offset : Nat} {value : Text} {d : Char} (hd : byte? t offset = some d)
    (hquote : d ≠ '"')
    (hslash : d ≠ '\\') : quoted? t segment value offset = quoted? t segment value (offset + 1) := by
  rw [quoted?, hd]
  split
  · simp_all
  · simp_all
  · simp_all
  · rfl

def escapes : List (Text × Text) := [(['\\', '"'], ['"']), (['\\', '\n'], []), (['\\', '\r', '\n'], [])]

lemma quoted?_escape {a segment r : Text} {e : Text × Text} (he : e ∈ escapes) (value : Text)
    (ht : t = a ++ segment ++ (e.1 ++ r)) :
    quoted? t a.bytes value (a ++ segment).bytes =
      quoted? t (a ++ segment ++ e.1).bytes (value ++ segment ++ e.2) (a ++ segment ++ e.1).bytes := by
  have hslice : t.slice? ⟨a.bytes, (a ++ segment).bytes⟩ = some segment := slice?_between ht
  have hbyte (x : Text) (c : Char) (s : Text) (hx : t = a ++ segment ++ (x ++ c :: s)) (hc : c.toNat < 128) :
      byte? t ((a ++ segment).bytes + x.bytes) = some c := by
    rw [← Text.bytes_append]
    exact (byte?_eq_some_iff (by rw [hx, List.append_assoc _ x]) hc).mpr rfl
  rw [Text.bytes_append (a ++ segment) e.1]
  simp only [escapes, List.mem_cons, List.not_mem_nil, or_false] at he
  rcases he with rfl | rfl | rfl
  · rw [quoted?, show byte? t (a ++ segment).bytes = some '\\' from hbyte [] _ _ ht (by decide),
      show byte? t ((a ++ segment).bytes + 1) = some '"' from hbyte ['\\'] _ _ ht (by decide), hslice]
    rfl
  · rw [quoted?, show byte? t (a ++ segment).bytes = some '\\' from hbyte [] _ _ ht (by decide),
      show byte? t ((a ++ segment).bytes + 1) = some '\n' from hbyte ['\\'] _ _ ht (by decide), hslice]
    simp
    rfl
  · rw [quoted?, show byte? t (a ++ segment).bytes = some '\\' from hbyte [] _ _ ht (by decide),
      show byte? t ((a ++ segment).bytes + 1) = some '\r' from hbyte ['\\'] _ _ ht (by decide),
      show byte? t ((a ++ segment).bytes + 2) = some '\n' from hbyte ['\\', '\r'] _ _ ht (by decide), hslice]
    simp
    rfl

lemma quoted?_backslash {a segment r : Text} (value : Text) (ht : t = a ++ segment ++ '\\' :: r)
    (hquote : ∀ s, r ≠ '"' :: s) (hfeed : ∀ s, r ≠ '\n' :: s) (hreturn : ∀ s, r ≠ '\r' :: '\n' :: s) :
    quoted? t a.bytes value (a ++ segment).bytes = quoted? t a.bytes value (a ++ segment ++ ['\\']).bytes := by
  have hnext {k : Char} (hk : k.toNat < 128) : byte? t ((a ++ segment).bytes + 1) = some k ↔ r.head? = some k := by
    have := @byte?_eq_some_iff t (a ++ segment ++ ['\\']) r (by simp [ht]) k hk
    rwa [Text.bytes_append] at this
  rw [quoted?, (byte?_eq_some_iff ht (by decide)).mpr rfl, Text.bytes_append (a ++ segment)]
  simp only
  split
  · rename_i hbyte
    obtain ⟨s, rfl⟩ := List.head?_eq_some_iff.mp ((hnext (by decide)).mp hbyte)
    exact absurd rfl (hquote s)
  · rename_i hbyte
    obtain ⟨s, rfl⟩ := List.head?_eq_some_iff.mp ((hnext (by decide)).mp hbyte)
    exact absurd rfl (hfeed s)
  · rename_i hbyte hbyte'
    obtain ⟨s, rfl⟩ := List.head?_eq_some_iff.mp ((hnext (by decide)).mp hbyte)
    have := @byte?_eq_some_iff t (a ++ segment ++ ['\\', '\r']) s (by simp [ht]) '\n' (by decide)
    rw [Text.bytes_append] at this
    obtain ⟨s, rfl⟩ := List.head?_eq_some_iff.mp (this.mp hbyte')
    exact absurd rfl (hreturn s)
  · rfl

def quotedFound (a value r : Text) : Found :=
  ⟨(a ++ r.take (quotedRest r).length).bytes, some (.quoted, value ++ (quotedRest r).value),
    if (quotedRest r).closed then none else some .openString⟩

lemma quoted?_eq (r : Text) {a segment : Text} (value : Text) (ht : t = a ++ segment ++ r) :
    quoted? t a.bytes value (a ++ segment).bytes = some (quotedFound (a ++ segment) (value ++ segment) r) := by
  induction r using quotedRest.induct generalizing a segment value with
  | case1 =>
    rw [quoted?, byte?_end (by simpa using ht), slice?_between ht]
    simp [quotedFound, quotedRest]
  | case2 r =>
    rw [quoted?, (byte?_eq_some_iff ht (by decide)).mpr rfl, slice?_between ht]
    simp [quotedFound, quotedRest, Nat.add_assoc]
    rfl
  | case3 r ih =>
    have h := @ih (a ++ segment ++ ['\\', '"']) [] (value ++ segment ++ ['"']) (by simp [ht])
    rw [List.append_nil, List.append_nil] at h
    rw [@quoted?_escape _ _ _ r (['\\', '"'], ['"']) (by simp [escapes]) value ht, h]
    simp [quotedFound, quotedRest]
  | case4 r ih =>
    have h := @ih (a ++ segment ++ ['\\', '\n']) [] (value ++ segment) (by simp [ht])
    rw [List.append_nil, List.append_nil] at h
    rw [@quoted?_escape _ _ _ r (['\\', '\n'], []) (by simp [escapes]) value ht, List.append_nil, h]
    simp [quotedFound, quotedRest]
  | case5 r ih =>
    have h := @ih (a ++ segment ++ ['\\', '\r', '\n']) [] (value ++ segment) (by simp [ht])
    rw [List.append_nil, List.append_nil] at h
    rw [@quoted?_escape _ _ _ r (['\\', '\r', '\n'], []) (by simp [escapes]) value ht, List.append_nil, h]
    simp [quotedFound, quotedRest]
  | case6 c r h₁ h₂ h₃ h₄ ih =>
    have h := @ih a (segment ++ [c]) value (by simp [ht])
    have hover : quoted? t a.bytes value (a ++ segment).bytes =
        quoted? t a.bytes value (a ++ segment ++ [c]).bytes := by
      by_cases hc : c = '\\'
      · subst hc
        exact quoted?_backslash value ht (fun _ => h₂ _ rfl) (fun _ => h₃ _ rfl) fun _ => h₄ _ rfl
      · apply eq_across ht
        intro i d hd hspells
        exact quoted?_step hd (mt (hspells.eq_iff (by decide)).mp h₁) (mt (hspells.eq_iff (by decide)).mp hc)
    rw [hover, List.append_assoc, h]
    simp [quotedFound, quotedRest]

lemma html?_open {a r : Text} (ht : t = a ++ '<' :: r) :
    html? t a.bytes 0 a.bytes = html? t a.bytes 1 (a.bytes + 1) := by
  rw [html?, (byte?_eq_some_iff ht (by decide)).mpr rfl]
  rfl

lemma html?_step {start depth offset : Nat} {d : Char} (hd : byte? t offset = some d) (hopen : d ≠ '<')
    (hclose : d ≠ '>') : html? t start depth offset = html? t start depth (offset + 1) := by
  rw [html?, hd]
  split
  · simp_all
  · simp_all
  · simp_all
  · rfl

def htmlFound (a value : Text) (depth : Nat) (r : Text) : Found :=
  match closeAngle? depth r with
  | some n => ⟨(a ++ r.take n).bytes, some (.html, value ++ r.take (n - 1)), none⟩
  | none => ⟨(a ++ r).bytes, some (.html, value ++ r), some .openHtml⟩

lemma htmlFound_cons {a value r : Text} {c : Char} {depth depth' : Nat}
    (h : closeAngle? depth (c :: r) = (closeAngle? depth' r).map (· + 1)) :
    htmlFound (a ++ [c]) (value ++ [c]) depth' r = htmlFound a value depth (c :: r) := by
  rw [htmlFound, htmlFound, h]
  cases hclose : closeAngle? depth' r with
  | none => simp
  | some n =>
    obtain ⟨m, rfl⟩ : ∃ m, n = m + 1 := ⟨n - 1, by have := (closeAngle?_bounds hclose).1; omega⟩
    simp

lemma html?_eq (depth : Nat) (r : Text) {a value : Text} (ht : t = a ++ ['<'] ++ value ++ r) :
    html? t a.bytes (depth + 1) (a ++ ['<'] ++ value).bytes =
      some (htmlFound (a ++ ['<'] ++ value) value depth r) := by
  have hstart : a.bytes + 1 = (a ++ ['<']).bytes := (bytes_concat a rfl).symm
  induction depth, r using closeAngle?.induct generalizing value with
  | case1 depth =>
    rw [List.append_nil] at ht
    rw [html?, byte?_end ht, hstart, slice?_behind ht]
    simp [htmlFound, closeAngle?]
  | case2 depth r ih =>
    have h := @ih (value ++ ['<']) (by simp [ht])
    rw [← List.append_assoc, bytes_concat _ rfl, htmlFound_cons rfl] at h
    rw [html?, (byte?_eq_some_iff ht (by decide)).mpr rfl]
    exact h
  | case3 r =>
    rw [html?, (byte?_eq_some_iff ht (by decide)).mpr rfl, hstart, slice?_between ht,
      ← @bytes_concat '>' _ rfl]
    simp [htmlFound, closeAngle?]
  | case4 depth r ih =>
    have hnext : closeAngle? (depth + 1) ('>' :: r) = (closeAngle? depth r).map (· + 1) := rfl
    have h := @ih (value ++ ['>']) (by simp [ht])
    rw [← List.append_assoc, bytes_concat _ rfl, htmlFound_cons hnext] at h
    rw [html?, (byte?_eq_some_iff ht (by decide)).mpr rfl]
    exact h
  | case5 depth c r h₁ h₂ h₃ ih =>
    have hnext : closeAngle? depth (c :: r) = (closeAngle? depth r).map (· + 1) := by
      rw [closeAngle?]
      all_goals assumption
    have h := @ih (value ++ [c]) (by simp [ht])
    rw [← List.append_assoc, htmlFound_cons hnext] at h
    rw [← h]
    apply eq_across ht
    intro i d hd hspells
    apply html?_step hd
    · exact mt (hspells.eq_iff (by decide)).mp h₁
    · exact mt (hspells.eq_iff (by decide)).mp (by cases depth <;> simp_all)

end Strings

section Numerals

variable {t a r : Text}

lemma bytes_of_ascii {x : Text} (h : ∀ c ∈ x, c.toNat < 128) : x.bytes = x.length := by
  induction x with
  | nil => rfl
  | cons c x ih =>
    have hc : c.utf8Size = 1 := Char.utf8Size_eq_one_iff.mpr (by
      have := h c (by simp)
      rw [UInt32.le_iff_toNat_le]
      exact Nat.le_of_lt_succ this)
    rw [Text.bytes_cons, hc, ih fun c hc => h c (by simp [hc]), List.length_cons, Nat.add_comm]

lemma toNat_lt_of_isDigit {c : Char} (h : c.isDigit = true) : c.toNat < 128 := by
  simp only [Char.isDigit, Bool.and_eq_true, decide_eq_true_eq, UInt32.le_iff_toNat_le] at h
  exact Nat.lt_of_le_of_lt h.2 (by decide)

lemma toNat_lt_of_mem_unsigned {x : Text} (h : Unsigned x) : ∀ c ∈ x, c.toNat < 128 := by
  rcases h with ⟨-, h⟩ | ⟨w, p, rfl, hw, hp, -⟩
  · exact fun c hc => toNat_lt_of_isDigit (h c hc)
  · refine List.forall_mem_append.mpr ⟨fun c hc => toNat_lt_of_isDigit (hw c hc), ?_⟩
    exact List.forall_mem_cons.mpr ⟨by decide, fun c hc => toNat_lt_of_isDigit (hp c hc)⟩

lemma bytes_of_isNumeral {x : Text} (h : IsNumeral x) : x.bytes = x.length := by
  apply bytes_of_ascii
  rcases h with h | ⟨y, rfl, h⟩
  · exact toNat_lt_of_mem_unsigned h
  · exact List.forall_mem_cons.mpr ⟨by decide, toNat_lt_of_mem_unsigned h⟩

lemma coarse_isDigit : Coarse Char.isDigit := by
  have hfalse (c : Char) (hc : 128 ≤ c.toNat) : c.isDigit = false := by
    rw [← Bool.not_eq_true]
    intro h
    have := toNat_lt_of_isDigit h
    omega
  intro c d hc hd
  rw [hfalse c hc, hfalse d hd]

lemma digits?_eq (ht : t = a ++ r) : digits? t a.bytes = some (digits r) := by
  have hascii : Text.bytes (r.takeWhile Char.isDigit) = digits r :=
    bytes_of_ascii fun c hc => toNat_lt_of_isDigit (List.mem_takeWhile_imp hc)
  rw [digits?, if_pos (by rw [ht, Text.bytes_append]; omega), count_eq coarse_isDigit ht, hascii]

lemma unsigned?_eq (ht : t = a ++ r) : unsigned? t a.bytes = some ((unsignedNumeral? r).getD 0) := by
  obtain ⟨w, s, rfl, hw, hs⟩ := exists_run_append Char.isDigit r
  have hwhole : digits (w ++ s) = w.length := digits_append hw hs
  have hbytes : a.bytes + w.length = (a ++ w).bytes := by
    rw [Text.bytes_append, bytes_of_ascii fun c hc => toNat_lt_of_isDigit (hw c hc)]
  have ht' : t = a ++ w ++ s := by simp [ht]
  rw [unsigned?, digits?_eq ht, hwhole, unsignedNumeral?, hwhole, List.drop_left]
  simp only [Option.bind_eq_bind, Option.bind_some, hbytes, byte?_eq_some_iff ht' (by decide : '.'.toNat < 128)]
  by_cases hdot : s.head? = some '.'
  · obtain ⟨p, rfl⟩ := List.head?_eq_some_iff.mp hdot
    have hpoint : (a ++ w).bytes + 1 = (a ++ w ++ ['.']).bytes := (bytes_concat (a ++ w) rfl).symm
    rw [if_pos hdot, hpoint, digits?_eq (by simp [ht'] : t = a ++ w ++ ['.'] ++ p)]
    simp only [Option.bind_some]
    split <;> simp_all
  · rw [if_neg hdot]
    split
    · simp at hdot
    · split <;> simp_all

lemma numeral?_eq (ht : t = a ++ r) : numeral? t a.bytes = some ((Lexeme.numeral? r).getD 0) := by
  rw [numeral?]
  simp only [byte?_eq_some_iff ht (by decide : '-'.toNat < 128)]
  by_cases hminus : r.head? = some '-'
  · obtain ⟨y, rfl⟩ := List.head?_eq_some_iff.mp hminus
    have hsign : a.bytes + 1 = (a ++ ['-']).bytes := (bytes_concat a rfl).symm
    rw [if_pos hminus, hsign, unsigned?_eq (by simp [ht] : t = a ++ ['-'] ++ y), Lexeme.numeral?]
    cases hy : unsignedNumeral? y with
    | none => rfl
    | some n =>
      have := one_le_of_unsignedNumeral? hy
      simp only [Option.bind_eq_bind, Option.bind_some, Option.getD_some, Option.map_some]
      rw [if_neg (by omega), Nat.add_comm]
      rfl
  · rw [if_neg hminus, Nat.add_zero, unsigned?_eq ht, Lexeme.numeral?]
    · simpa using Eq.symm
    · rintro y rfl
      exact hminus rfl

end Numerals

section Found

variable {t a rest : Text}

lemma startsLine?_eq (ht : t = a ++ rest) : startsLine? t a.bytes = some (a.getLast?.all (· = '\n')) := by
  cases a using List.reverseRecOn with
  | nil => simp [startsLine?]
  | append_singleton a c =>
    have hsize := c.utf8Size_pos
    obtain ⟨d, hd, hspells⟩ := @exists_byte t a rest c (by simp [ht]) (c.utf8Size - 1) (by omega)
    have hback : Text.bytes (a ++ [c]) - 1 = Text.bytes a + (c.utf8Size - 1) := by
      rw [Text.bytes_append, Text.bytes_cons, Text.bytes_nil]
      omega
    rw [startsLine?, if_neg (by rw [Text.bytes_append, Text.bytes_cons]; omega), hback, hd]
    simp [hspells.eq_iff (by decide : '\n'.toNat < 128)]

lemma coarse_ne {k : Char} (hk : k.toNat < 128) : Coarse fun c => c ≠ k := by
  have htrue (c : Char) (hc : 128 ≤ c.toNat) : c ≠ k := by
    rintro rfl
    omega
  intro c d hc hd
  simp [htrue c hc, htrue d hd]

lemma startsWord_of_le {c : Char} (hc : 128 ≤ c.toNat) : startsWord c = true := by
  have : (0x80 : UInt32) ≤ c.val := UInt32.le_iff_toNat_le.mpr hc
  simp [startsWord, this]

lemma coarse_startsWord : Coarse startsWord := by
  intro c d hc hd
  rw [startsWord_of_le hc, startsWord_of_le hd]

lemma coarse_continuesWord : Coarse continuesWord := by
  intro c d hc hd
  rw [continuesWord, continuesWord, coarse_startsWord c d hc hd, coarse_isDigit c d hc hd]

lemma lineComment_eq {x : Text} (ht : t = a ++ (x ++ rest)) (hx : '\n' ∉ x) (hrest : AtLineEnd rest) :
    lineComment t a.bytes = ⟨(a ++ x).bytes, none, none⟩ := by
  have hline : (x ++ rest).takeWhile (· ≠ '\n') = x := by
    refine takeWhile_append_of_all (fun c hc => ?_) fun c hc => by simp [hrest c hc]
    rw [decide_eq_true_eq]
    rintro rfl
    exact hx hc
  rw [lineComment, count_eq (coarse_ne (by decide)) ht, hline, Text.bytes_append]

lemma blockComment?_eq {r : Text} (ht : t = a ++ ['/', '*'] ++ r) :
    blockComment? t a.bytes = some ((closeComment? r).elim ⟨t.bytes, none, some .openComment⟩ fun n =>
      ⟨(a ++ ['/', '*'] ++ r.take n).bytes, none, none⟩) := by
  have hstart : a.bytes + 2 = (a ++ ['/', '*']).bytes := (Text.bytes_append a ['/', '*']).symm
  rw [blockComment?, hstart, slice?_behind ht]
  simp only [Option.bind_eq_bind, Option.bind_some]
  cases closeComment? r with
  | none => rfl
  | some n =>
    rw [Option.elim_some, Text.bytes_append _ (r.take n)]
    rfl

lemma numeralFrom?_eq {c d : Char} {r : Text} (ht : t = a ++ c :: r) (hd : Spells c d) :
    numeralFrom? t a.bytes d = some ((Lexeme.numeral? (c :: r)).getD 0) := by
  simp only [numeralFrom?, hd.eq_iff (by decide : '-'.toNat < 128), hd.eq_iff (by decide : '.'.toNat < 128),
    coarse_isDigit.eq hd]
  split
  · exact numeral?_eq ht
  · rename_i hc
    simp only [not_or, Bool.not_eq_true] at hc
    have hdigits : digits (c :: r) = 0 := by simp [digits, hc.2.2]
    have hnone : unsignedNumeral? (c :: r) = none := by simp [unsignedNumeral?, hdigits, hc.2.1]
    rw [Lexeme.numeral?, hnone]
    · rfl
    · exact fun _ h => hc.1 (List.cons.inj h).1

section Other

variable {c d : Char} {x : Text}

lemma other?_numeral (ht : t = a ++ c :: (x ++ rest)) (hd : Spells c d) (h : IsNumeral (c :: x))
    (hend : EndsNumeral (c :: x) rest) :
    other? t a.bytes d = some ⟨(a ++ c :: x).bytes, some (.numeral, c :: x), none⟩ := by
  have hlength := (numeral?_iff (List.cons_ne_nil c x)).mpr ⟨h, hend⟩
  have hbytes : a.bytes + (c :: x).length = (a ++ c :: x).bytes := by rw [Text.bytes_append, bytes_of_isNumeral h]
  have hslice : t.slice? ⟨a.bytes, (a ++ c :: x).bytes⟩ = some (c :: x) :=
    slice?_between (by rw [ht, List.append_assoc]; rfl)
  rw [other?, numeralFrom?_eq ht hd, ← List.cons_append, hlength]
  simp only [Option.getD_some, Option.bind_eq_bind, Option.bind_some, hbytes, hslice]
  rfl

lemma other?_word (ht : t = a ++ c :: (x ++ rest)) (hd : Spells c d) (hc : startsWord c = true)
    (hx : ∀ e ∈ x, continuesWord e = true) (hend : EndsWord rest) :
    other? t a.bytes d = some ⟨(a ++ c :: x).bytes, some (wordToken (c :: x)), none⟩ := by
  have hword : (c :: (x ++ rest)).takeWhile continuesWord = c :: x := by
    rw [← List.cons_append]
    exact takeWhile_append_of_all (List.forall_mem_cons.mpr ⟨by simp [continuesWord, hc], hx⟩) hend
  have hstop : a.bytes + count t continuesWord a.bytes = (a ++ c :: x).bytes := by
    rw [count_eq coarse_continuesWord ht, hword, Text.bytes_append]
  have hslice : t.slice? ⟨a.bytes, (a ++ c :: x).bytes⟩ = some (c :: x) :=
    slice?_between (by rw [ht, List.append_assoc]; rfl)
  rw [other?, numeralFrom?_eq ht hd, numeral?_of_startsWord hc]
  simp only [Option.getD_none, Option.bind_eq_bind, Option.bind_some, coarse_startsWord.eq hd, hc, hstop, hslice]
  rfl

lemma other?_stray {b : Bool} (ht : t = a ++ c :: rest) (h : Stray b c rest) :
    other? t a.bytes c = some (stray a.bytes c) := by
  rw [other?, numeralFrom?_eq ht (.inl rfl), h.not_numeral]
  simp only [Option.getD_none, Option.bind_eq_bind, Option.bind_some, h.not_word]
  rfl

end Other

lemma found?_of_plain {b : Bool} {c d : Char} {r : Text} (ht : t = a ++ c :: r) (hd : Spells c d)
    (hline : a.getLast?.all (· = '\n') = b) (h : Plain b c r) : found? t a.bytes d = other? t a.bytes d := by
  have hnext {k : Char} (hc : c.utf8Size = 1) (hk : k.toNat < 128) :
      byte? t (a.bytes + 1) = some k ↔ r.head? = some k := by
    have := @byte?_eq_some_iff t (a ++ [c]) r (by simp [ht]) k hk
    rwa [bytes_concat a hc] at this
  have hplain : Plain b d r ∨ d = c := hd.symm.imp_left fun hd => plain_of_startsWord (startsWord_of_le hd.2)
  obtain ⟨hblank, hmark⟩ : isBlank d = false ∧ mark? d = none := by
    rcases hplain with hplain | rfl
    · exact ⟨hplain.not_blank, hplain.not_mark⟩
    · exact ⟨h.not_blank, h.not_mark⟩
  unfold found?
  rw [if_neg (by simp [hblank]), hmark]
  simp only
  split
  · rename_i hbyte
    obtain rfl := (hd.eq_iff (by decide)).mp rfl
    exact absurd ((hnext rfl (by decide)).mp hbyte) (h.not_slash rfl).1
  · rename_i hbyte
    obtain rfl := (hd.eq_iff (by decide)).mp rfl
    exact absurd ((hnext rfl (by decide)).mp hbyte) (h.not_slash rfl).2
  · obtain rfl := (hd.eq_iff (by decide)).mp rfl
    rw [startsLine?_eq ht, hline, h.not_hash rfl]
    rfl
  · rename_i hbyte
    obtain rfl := (hd.eq_iff (by decide)).mp rfl
    exact absurd ((hnext rfl (by decide)).mp hbyte) (h.not_minus rfl).2
  · rename_i hbyte
    obtain rfl := (hd.eq_iff (by decide)).mp rfl
    exact absurd ((hnext rfl (by decide)).mp hbyte) (h.not_minus rfl).1
  · exact absurd ((hd.eq_iff (by decide)).mp rfl) h.not_quote.1
  · exact absurd ((hd.eq_iff (by decide)).mp rfl) h.not_quote.2
  · rfl

section Classes

variable {c : Char} {x r : Text}

lemma found?_first (ht : t = a ++ c :: r) (hc : c.toNat < 128) :
    (byte? t a.bytes).bind (found? t a.bytes) = found? t a.bytes c := by
  rw [(byte?_eq_some_iff ht hc).mpr rfl, Option.bind_some]

lemma byte?_second {e : Char} (ht : t = a ++ c :: e :: r) (hc : c.utf8Size = 1) (he : e.toNat < 128) :
    byte? t (a.bytes + 1) = some e := by
  rw [← bytes_concat a hc]
  exact (@byte?_eq_some_iff t (a ++ [c]) (e :: r) (by simp [ht]) _ he).mpr rfl

lemma found?_blank (ht : t = a ++ c :: rest) (hc : isBlank c) :
    (byte? t a.bytes).bind (found? t a.bytes) = some ⟨(a ++ [c]).bytes, none, none⟩ := by
  obtain ⟨hascii, hsize⟩ : c.toNat < 128 ∧ c.utf8Size = 1 := by
    rcases isBlank_iff.mp hc with rfl | rfl | rfl | rfl | rfl <;> decide
  rw [found?_first ht hascii]
  unfold found?
  rw [if_pos hc, bytes_concat a hsize]

lemma found?_mark {k : Kind} (ht : t = a ++ c :: rest) (hmark : mark? c = some k) :
    (byte? t a.bytes).bind (found? t a.bytes) = some ⟨(a ++ [c]).bytes, some (k, []), none⟩ := by
  obtain ⟨hascii, hsize, hblank⟩ : c.toNat < 128 ∧ c.utf8Size = 1 ∧ isBlank c = false := by
    unfold mark? at hmark
    split at hmark <;> first | decide | cases hmark
  rw [found?_first ht hascii]
  unfold found?
  rw [if_neg (by simp [hblank]), hmark, bytes_concat a hsize]

lemma found?_hash (ht : t = a ++ ('#' :: x ++ rest)) (hline : a.getLast?.all (· = '\n') = true) (hx : '\n' ∉ x)
    (hrest : AtLineEnd rest) :
    (byte? t a.bytes).bind (found? t a.bytes) = some ⟨(a ++ '#' :: x).bytes, none, none⟩ := by
  have hfound : found? t a.bytes '#' =
      (startsLine? t a.bytes).map fun first => if first then lineComment t a.bytes else stray a.bytes '#' := rfl
  rw [found?_first ht (by decide), hfound, startsLine?_eq ht, hline]
  exact congrArg some (lineComment_eq ht (by simpa using hx) hrest)

lemma found?_line (ht : t = a ++ ('/' :: '/' :: x ++ rest)) (hx : '\n' ∉ x) (hrest : AtLineEnd rest) :
    (byte? t a.bytes).bind (found? t a.bytes) = some ⟨(a ++ '/' :: '/' :: x).bytes, none, none⟩ := by
  rw [found?_first ht (by decide)]
  unfold found?
  rw [byte?_second ht rfl (by decide)]
  exact congrArg some (lineComment_eq ht (by simpa using hx) hrest)

lemma found?_block (ht : t = a ++ '/' :: '*' :: r) :
    (byte? t a.bytes).bind (found? t a.bytes) = some ((closeComment? r).elim ⟨t.bytes, none, some .openComment⟩
      fun n => ⟨(a ++ ['/', '*'] ++ r.take n).bytes, none, none⟩) := by
  rw [found?_first ht (by decide)]
  unfold found?
  rw [byte?_second ht rfl (by decide)]
  exact blockComment?_eq (by simp [ht])

lemma found?_operator (op : EdgeOp) (ht : t = a ++ (op.text.toList ++ rest)) :
    (byte? t a.bytes).bind (found? t a.bytes) = some ⟨(a ++ op.text.toList).bytes, some (op.kind, []), none⟩ := by
  cases op <;>
  · rw [found?_first ht (by decide)]
    unfold found?
    rw [byte?_second ht rfl (by decide), Text.bytes_append]
    rfl

lemma found?_quoted (ht : t = a ++ '"' :: r) :
    (byte? t a.bytes).bind (found? t a.bytes) = some (quotedFound (a ++ ['"']) [] r) := by
  have hfound := @quoted?_eq t r (a ++ ['"']) [] [] (by simp [ht])
  rw [List.append_nil, List.append_nil, bytes_concat a rfl] at hfound
  rw [found?_first ht (by decide)]
  exact hfound

lemma found?_html (ht : t = a ++ '<' :: r) :
    (byte? t a.bytes).bind (found? t a.bytes) = some (htmlFound (a ++ ['<']) [] 0 r) := by
  have hfound := @html?_eq t 0 r a [] (by simp [ht])
  rw [List.append_nil, bytes_concat a rfl] at hfound
  rw [found?_first ht (by decide)]
  exact (html?_open ht).trans hfound

lemma found?_plain {b : Bool} (ht : t = a ++ c :: r) (hline : a.getLast?.all (· = '\n') = b) (h : Plain b c r) :
    ∃ d, Spells c d ∧ (byte? t a.bytes).bind (found? t a.bytes) = other? t a.bytes d := by
  obtain ⟨d, hd, hspells⟩ := exists_byte ht c.utf8Size_pos
  rw [Nat.add_zero] at hd
  exact ⟨d, hspells, by rw [hd, Option.bind_some, found?_of_plain ht hspells hline h]⟩

lemma found?_stray {b : Bool} (ht : t = a ++ c :: rest) (hline : a.getLast?.all (· = '\n') = b)
    (h : Stray b c rest) :
    (byte? t a.bytes).bind (found? t a.bytes) =
      some ⟨(a ++ [c]).bytes, some (.unknown, []), some (.unexpected c)⟩ := by
  have hascii : c.toNat < 128 := by
    by_contra hc
    have := startsWord_of_le (Nat.le_of_not_lt hc)
    simp [h.not_word] at this
  have hsize := bytes_of_ascii (List.forall_mem_singleton.mpr hascii)
  rw [found?_first ht hascii, found?_of_plain ht (.inl rfl) hline h.toPlain, other?_stray ht h, Text.bytes_append,
    hsize]
  rfl

end Classes

lemma found?_of_read {b : Bool} {x : Text} {token : Option (Kind × Text)} {fault : Option Fault}
    (h : Read b x rest token fault) (ht : t = a ++ x ++ rest) (hline : a.getLast?.all (· = '\n') = b) :
    (byte? t a.bytes).bind (found? t a.bytes) = some ⟨(a ++ x).bytes, token, fault⟩ := by
  have htext : t = a ++ (x ++ rest) := by rw [ht, List.append_assoc]
  cases h with
  | blank hblank => exact found?_blank htext hblank
  | hash hx hrest => exact found?_hash htext hline hx hrest
  | line hx hrest => exact found?_line htext hx hrest
  | block hclose =>
    rw [List.cons_append, List.cons_append] at htext
    rw [found?_block htext, closeComment?_append hclose]
    simp
  | openBlock hclose =>
    rw [List.append_nil] at htext
    rw [found?_block htext, hclose, htext]
    rfl
  | mark hmark => exact found?_mark htext hmark
  | directed => exact found?_operator .directed htext
  | undirected => exact found?_operator .undirected htext
  | quoted hquoted =>
    rw [List.cons_append] at htext
    rw [found?_quoted htext, quotedFound, quotedRest_append (by rw [hquoted]), hquoted]
    simp
  | openQuoted hquoted =>
    rw [List.append_nil] at htext
    rw [found?_quoted htext, quotedFound, hquoted]
    simp
  | html hclose =>
    rw [List.cons_append] at htext
    rw [found?_html htext, htmlFound, closeAngle?_append hclose]
    simp [List.dropLast_eq_take, List.take_append_of_le_length]
  | openHtml hclose =>
    rw [List.append_nil] at htext
    rw [found?_html htext, htmlFound, hclose]
    simp
  | numeral hnumeral hend =>
    obtain ⟨c, y, rfl⟩ := List.exists_cons_of_ne_nil (Read.ne_nil (.numeral (b := b) hnumeral hend))
    obtain ⟨d, hspells, hfound⟩ := found?_plain htext hline (plain_of_isNumeral hnumeral)
    exact hfound.trans (other?_numeral htext hspells hnumeral hend)
  | word hstarts hcontinues hend =>
    obtain ⟨d, hspells, hfound⟩ := found?_plain htext hline (plain_of_startsWord hstarts)
    exact hfound.trans (other?_word htext hspells hstarts hcontinues hend)
  | stray hstray => exact found?_stray htext hline hstray

end Found

lemma scanFrom_run {b : Bool} {ps : List Piece} (h : Run b ps) {t a : Text} (ht : t = a ++ spell ps)
    (hline : a.getLast?.all (· = '\n') = b) :
    scanFrom t a.bytes = some ⟨tokensAt a.bytes ps ++ [endAt t.bytes], diagnosticsAt a.bytes ps⟩ := by
  induction h generalizing a with
  | nil =>
    rw [scanFrom, byte?_end (by simpa using ht)]
    rfl
  | @cons b p ps hread hrun ih =>
    have ht' : t = a ++ p.text ++ spell ps := by rw [ht, spell_cons, List.append_assoc]
    obtain ⟨d, hd, hfound⟩ := Option.bind_eq_some_iff.mp (found?_of_read hread ht' hline)
    have hends : (a ++ p.text).getLast?.all (· = '\n') = p.endsLine := by
      rw [List.getLast?_append, Piece.endsLine]
      cases hlast : p.text.getLast? with
      | none => exact absurd (List.getLast?_eq_none_iff.mp hlast) hread.ne_nil
      | some c => exact Bool.eq_iff_iff.mpr (by simp)
    have hrest := ih ht' hends
    have hstop : (a ++ p.text).bytes = a.bytes + p.text.bytes := Text.bytes_append a p.text
    have hmore : a.bytes < (a ++ p.text).bytes := by
      have := Text.bytes_pos hread.ne_nil
      omega
    have hspan : Span.forward? a.bytes (a ++ p.text).bytes = some (p.spanAt a.bytes) := by
      rw [Span.forward?, if_pos hmore.le, hstop]
      rfl
    rw [scanFrom, hd]
    simp only [hfound, hspan, hrest, Option.bind_eq_bind, Option.bind_some, if_pos hmore]
    rw [tokensAt_cons, diagnosticsAt_cons, hstop, List.append_assoc]
    rfl

theorem scan_eq (t : Text) : scan t = some (Token.scan t) := by
  obtain ⟨ps, hrun, rfl⟩ := exists_run true t
  rw [hrun.scan]
  exact @scanFrom_run true ps hrun (spell ps) [] rfl rfl

end Token.Guarded

end DotMend
