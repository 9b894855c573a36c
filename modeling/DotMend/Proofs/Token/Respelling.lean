import DotMend.Proofs.Token.Run
import DotMend.Proofs.Tree.Relocation
import Mathlib.Data.List.Forall2

/-! Runs of lexemes in which operators and keywords are spelt differently. No lexeme sees more of what follows it
than one or two characters, and of letters only that they are letters. -/

namespace DotMend.Token

namespace Lexeme

def SameSort (a b : Option Char) : Prop :=
  a = b ∨ ∃ c d, a = some c ∧ b = some d ∧ c.isAlpha = true ∧ d.isAlpha = true

/-- No lexeme in front of them tells two texts apart. -/
structure Alike (rest rest' : Text) : Prop where
  head : SameSort rest.head? rest'.head?
  next : rest.head? = some '.' → SameSort rest.tail.head? rest'.tail.head?

lemma SameSort.refl (a : Option Char) : SameSort a a := .inl rfl

lemma SameSort.eq_of_not_isAlpha {a : Option Char} {c : Char} (h : SameSort a (some c)) (hc : c.isAlpha = false) :
    a = some c := by
  rcases h with h | ⟨-, d, -, hd, -, ha⟩
  · exact h
  · obtain rfl := Option.some.inj hd
    simp [hc] at ha

lemma SameSort.imp {a b : Option Char} (h : SameSort a b) {P : Char → Prop}
    (hP : ∀ c d, c.isAlpha = true → d.isAlpha = true → P c → P d) (ha : ∀ c, a = some c → P c) :
    ∀ d, b = some d → P d := by
  rintro d rfl
  rcases h with rfl | ⟨c, e, rfl, he, hc, hd⟩
  · exact ha d rfl
  · obtain rfl := Option.some.inj he
    exact hP c d hc hd (ha c rfl)

lemma not_isDigit_of_isAlpha {c : Char} (h : c.isAlpha = true) : c.isDigit = false := by
  by_contra hd
  delta Char.isAlpha Char.isUpper Char.isLower at h
  simp only [Char.isDigit, Bool.or_eq_true, Bool.and_eq_true, decide_eq_true_eq, Bool.not_eq_false,
    UInt32.le_iff_toNat_le] at h hd
  rcases h with h | h <;> simp at h hd <;> omega

lemma continuesWord_of_isAlpha {c : Char} (h : c.isAlpha = true) : continuesWord c = true := by
  simp [continuesWord, startsWord, h]

lemma ne_of_isAlpha {c d : Char} (h : c.isAlpha = true) (hd : d.isAlpha = false) : c ≠ d := by
  rintro rfl
  simp [hd] at h

def NoNumeral (t : Text) : Prop :=
  ∀ c, t.head? = some c → c.isDigit = false ∧ (c = '.' → ∀ d, t.tail.head? = some d → d.isDigit = false)

lemma digits_eq_zero_iff {t : Text} : digits t = 0 ↔ ∀ c, t.head? = some c → c.isDigit = false := by
  cases t with
  | nil => simp [digits]
  | cons c t => by_cases h : c.isDigit = true <;> simp [digits, h]

lemma unsignedNumeral?_eq_none_iff {t : Text} : unsignedNumeral? t = none ↔ NoNumeral t := by
  cases t with
  | nil => simp [unsignedNumeral?, NoNumeral, digits]
  | cons c t =>
    have hc : NoNumeral (c :: t) ↔ c.isDigit = false ∧ (c = '.' → digits t = 0) := by
      simp [NoNumeral, digits_eq_zero_iff]
    rw [hc]
    by_cases hd : c.isDigit = true
    · have h0 : digits (c :: t) ≠ 0 := by simp [digits, hd]
      simp only [unsignedNumeral?, hd]
      split <;> simp [h0]
    · have h0 : digits (c :: t) = 0 := by simp [digits, hd]
      by_cases hp : c = '.'
      · subst hp
        simp [unsignedNumeral?, h0]
      · simp [unsignedNumeral?, h0, hd, hp]

lemma NoNumeral.congr {t t' : Text} (h : NoNumeral t) (ha : Alike t t') : NoNumeral t' := by
  intro c hc
  have hd : c.isDigit = false :=
    ha.head.imp (P := fun c => c.isDigit = false) (fun _ _ _ h _ => not_isDigit_of_isAlpha h)
      (fun c hc => (h c hc).1) c hc
  refine ⟨hd, ?_⟩
  rintro rfl
  have hhead : t.head? = some '.' := (hc ▸ ha.head).eq_of_not_isAlpha (by decide)
  exact (ha.next hhead).imp (P := fun c => c.isDigit = false) (fun _ _ _ h _ => not_isDigit_of_isAlpha h)
    ((h '.' hhead).2 rfl)

lemma numeral?_eq_none_congr {c : Char} {t t' : Text} (ha : Alike t t') (h : numeral? (c :: t) = none) :
    numeral? (c :: t') = none := by
  by_cases hc : c = '-'
  · subst hc
    simp only [numeral?, Option.map_eq_none_iff, unsignedNumeral?_eq_none_iff] at h ⊢
    exact h.congr ha
  · have hn (t : Text) : numeral? (c :: t) = unsignedNumeral? (c :: t) := by
      rw [numeral?]
      exact fun _ he => hc (List.cons.inj he).1
    rw [hn, unsignedNumeral?_eq_none_iff] at h ⊢
    exact h.congr ⟨.refl _, fun _ => ha.head⟩

variable {b : Bool} {x rest rest' : Text} {token : Option (Kind × Text)} {fault : Option Fault}

lemma AtLineEnd.congr (h : AtLineEnd rest) (ha : Alike rest rest') : AtLineEnd rest' :=
  ha.head.imp (fun _ _ hc _ h => absurd h (ne_of_isAlpha hc (by decide))) h

lemma EndsWord.congr (h : EndsWord rest) (ha : Alike rest rest') : EndsWord rest' :=
  ha.head.imp (P := fun c => continuesWord c = false)
    (fun _ _ hc _ h => by simp [continuesWord_of_isAlpha hc] at h) h

lemma EndsNumeral.congr (h : EndsNumeral x rest) (ha : Alike rest rest') : EndsNumeral x rest' :=
  ha.head.imp (P := fun c => c.isDigit = false ∧ (c = '.' → '.' ∈ x))
    (fun _ _ _ hd _ => ⟨not_isDigit_of_isAlpha hd, fun he => absurd he (ne_of_isAlpha hd (by decide))⟩) h

lemma Alike.head_ne (ha : Alike rest rest') {c : Char} (hc : c.isAlpha = false) (h : rest.head? ≠ some c) :
    rest'.head? ≠ some c :=
  fun he => h ((he ▸ ha.head).eq_of_not_isAlpha hc)

lemma Stray.congr {c : Char} (h : Stray b c rest) (ha : Alike rest rest') : Stray b c rest' where
  not_blank := h.not_blank
  not_mark := h.not_mark
  not_quote := h.not_quote
  not_hash := h.not_hash
  not_slash hc := ⟨ha.head_ne (by decide) (h.not_slash hc).1, ha.head_ne (by decide) (h.not_slash hc).2⟩
  not_minus hc := ⟨ha.head_ne (by decide) (h.not_minus hc).1, ha.head_ne (by decide) (h.not_minus hc).2⟩
  not_word := h.not_word
  not_numeral := numeral?_eq_none_congr ha h.not_numeral

lemma Alike.eq_nil (ha : Alike [] rest') : rest' = [] := by
  rcases ha.head with h | ⟨c, d, h, -⟩
  · simpa using h.symm
  · simp at h

theorem Read.congr (h : Read b x rest token fault) (ha : Alike rest rest') : Read b x rest' token fault := by
  cases h with
  | blank h => exact .blank h
  | hash hx hr => exact .hash hx (hr.congr ha)
  | line hx hr => exact .line hx (hr.congr ha)
  | block h => exact .block h
  | openBlock h => exact ha.eq_nil ▸ .openBlock h
  | mark h => exact .mark h
  | directed => exact .directed
  | undirected => exact .undirected
  | quoted h => exact .quoted h
  | openQuoted h => exact ha.eq_nil ▸ .openQuoted h
  | html h => exact .html h
  | openHtml h => exact ha.eq_nil ▸ .openHtml h
  | numeral hx hr => exact .numeral hx (hr.congr ha)
  | word hc hx hr => exact .word hc hx (hr.congr ha)
  | stray h => exact .stray (h.congr ha)

lemma Read.endsWord {c : Char} (h : Read b (c :: x) rest token fault) (hc : startsWord c = true) :
    EndsWord rest := by
  have hf := front_of_read h
  rw [front_of_plain (plain_of_startsWord hc), other, numeral?_of_startsWord hc] at hf
  simp only [hc, if_true] at hf
  exact (of_word hf).2.2.2

end Lexeme

open Lexeme

def operatorPiece (op : EdgeOp) : Piece := ⟨op.text.toList, some (op.kind, []), none⟩

lemma bytes_operatorPiece (op : EdgeOp) : (operatorPiece op).text.bytes = 2 := by cases op <;> decide

structure IsKeyword (kind : Kind) (p : Piece) : Prop where
  token : p.token = some (kind, [])
  fault : p.fault = none
  letters : ∀ c ∈ p.text, c.isAlpha = true
  spelt : Kind.ofKeyword? p.text = some kind

lemma wordToken_eq (x : Text) :
    wordToken x = (.word, x) ∨ ∃ k, wordToken x = (k, []) ∧ Kind.ofKeyword? x = some k := by
  unfold wordToken
  split
  · exact .inr ⟨_, rfl, by assumption⟩
  · exact .inl rfl

lemma exists_of_ofKeyword? {x : Text} {k : Kind} (h : Kind.ofKeyword? x = some k) :
    ∃ s, (s, k) ∈ Kind.keywords ∧ sameWord s.toList x = true := by
  obtain ⟨⟨s, k⟩, he, rfl⟩ := Option.map_eq_some_iff.mp h
  exact ⟨s, List.mem_of_find?_eq_some he, by simpa using List.find?_some he⟩

lemma isAlpha_of_toLower {c : Char} (h : c.toLower.isLower = true) : c.isAlpha = true := by
  by_cases hu : c.isUpper = true
  · exact Bool.or_eq_true_iff.mpr (.inl hu)
  · have hc : c.toLower = c := by
      unfold Char.toLower
      rw [dif_neg fun h => hu (decide_eq_true h)]
    rw [hc] at h
    exact Bool.or_eq_true_iff.mpr (.inr h)

lemma isAlpha_of_ofKeyword? {x : Text} {k : Kind} (h : Kind.ofKeyword? x = some k) :
    ∀ c ∈ x, c.isAlpha = true := by
  intro c hc
  obtain ⟨s, hs, hw⟩ := exists_of_ofKeyword? h
  have hlower : Kind.keywords.all (fun e => e.1.toList.all (·.toLower.isLower)) = true := by decide
  have he : s.toList.map Char.toLower = x.map Char.toLower := by simpa [sameWord] using hw
  have hmem : c.toLower ∈ s.toList.map Char.toLower := he.symm ▸ List.mem_map_of_mem hc
  obtain ⟨d, hd, hdc⟩ := List.mem_map.mp hmem
  exact isAlpha_of_toLower (hdc ▸ List.all_eq_true.mp (List.all_eq_true.mp hlower _ hs) d hd)

lemma mark?_kind {c : Char} {k : Kind} (h : mark? c = some k) : k.edgeOp? = none ∧ k.graphKind? = none := by
  unfold mark? at h
  split at h <;> first | (obtain rfl := Option.some.inj h; decide) | cases h

lemma Piece.Reads.eq_operatorPiece {p : Piece} {b : Bool} {rest : Text} (h : p.Reads b rest) {k : Kind} {v : Text}
    {op : EdgeOp} (ht : p.token = some (k, v)) (hk : k.edgeOp? = some op) : p = operatorPiece op := by
  obtain ⟨text, token, fault⟩ := p
  obtain rfl : token = some (k, v) := ht
  change Read b text rest (some (k, v)) fault at h
  generalize hkv : some (k, v) = token at h
  cases h with
  | mark h =>
    obtain ⟨rfl, -⟩ := Prod.mk.inj (Option.some.inj hkv)
    rw [(mark?_kind h).1] at hk
    cases hk
  | directed | undirected =>
    obtain ⟨rfl, rfl⟩ := Prod.mk.inj (Option.some.inj hkv)
    obtain rfl := Option.some.inj hk
    rfl
  | @word _ c x =>
    rcases wordToken_eq (c :: x) with hw | ⟨k', hw, hk'⟩
    · rw [hw] at hkv
      obtain ⟨rfl, -⟩ := Prod.mk.inj (Option.some.inj hkv)
      cases hk
    · rw [hw] at hkv
      obtain ⟨rfl, -⟩ := Prod.mk.inj (Option.some.inj hkv)
      obtain ⟨s, hs, -⟩ := exists_of_ofKeyword? hk'
      have hall : ∀ e ∈ Kind.keywords, e.2.edgeOp? = none := by decide
      rw [hall _ hs] at hk
      cases hk
  | _ => cases hkv <;> cases hk

lemma Piece.Reads.isKeyword {p : Piece} {b : Bool} {rest : Text} (h : p.Reads b rest) {k : Kind} {v : Text}
    (ht : p.token = some (k, v)) (hk : k.graphKind?.isSome = true) : IsKeyword k p := by
  obtain ⟨text, token, fault⟩ := p
  obtain rfl : token = some (k, v) := ht
  change Read b text rest (some (k, v)) fault at h
  generalize hkv : some (k, v) = token at h
  cases h with
  | mark h =>
    obtain ⟨rfl, -⟩ := Prod.mk.inj (Option.some.inj hkv)
    rw [(mark?_kind h).2] at hk
    cases hk
  | @word _ c x =>
    rcases wordToken_eq (c :: x) with hw | ⟨k', hw, hk'⟩
    · rw [hw] at hkv
      obtain ⟨rfl, -⟩ := Prod.mk.inj (Option.some.inj hkv)
      cases hk
    · rw [hw] at hkv
      obtain ⟨rfl, rfl⟩ := Prod.mk.inj (Option.some.inj hkv)
      exact ⟨congrArg some hw, rfl, isAlpha_of_ofKeyword? hk', hk'⟩
  | _ => cases hkv <;> cases hk

inductive Respelt : Piece → Piece → Prop
  | same {p} : Respelt p p
  | operator {op op'} : Respelt (operatorPiece op) (operatorPiece op')
  | keyword {k k' p p'} : IsKeyword k p → IsKeyword k' p' → Respelt p p'

lemma IsKeyword.ne_nil {k : Kind} {p : Piece} (h : IsKeyword k p) : p.text ≠ [] := by
  intro hn
  have hk : Kind.ofKeyword? [] = some k := hn ▸ h.spelt
  rw [show Kind.ofKeyword? [] = none by decide] at hk
  cases hk

lemma IsKeyword.exists_cons {k : Kind} {p : Piece} (h : IsKeyword k p) :
    ∃ c x, p.text = c :: x ∧ c.isAlpha = true ∧ ∀ d ∈ x, d.isAlpha = true := by
  obtain ⟨c, x, hx⟩ := List.exists_cons_of_ne_nil h.ne_nil
  exact ⟨c, x, hx, h.letters c (by simp [hx]), fun d hd => h.letters d (by simp [hx, hd])⟩

lemma IsKeyword.endsLine {k : Kind} {p : Piece} (h : IsKeyword k p) : p.endsLine = false := by
  rw [Piece.endsLine, beq_eq_false_iff_ne]
  intro hl
  have := h.letters '\n' (List.mem_of_getLast? hl)
  exact absurd this (by decide)

lemma endsLine_operatorPiece (op : EdgeOp) : (operatorPiece op).endsLine = false := by cases op <;> decide

lemma Respelt.endsLine {p p' : Piece} (h : Respelt p p') : p'.endsLine = p.endsLine := by
  cases h with
  | same => rfl
  | operator => rw [endsLine_operatorPiece, endsLine_operatorPiece]
  | keyword h h' => rw [h.endsLine, h'.endsLine]

lemma head_spell {ps ps' : List Piece} (h : List.Forall₂ Respelt ps ps') (hne : ∀ p ∈ ps, p.text ≠ []) :
    SameSort (spell ps).head? (spell ps').head? := by
  cases h with
  | nil => exact .refl _
  | @cons p p' ps ps' h _ =>
    obtain ⟨c, x, hx⟩ := List.exists_cons_of_ne_nil (hne p (by simp))
    cases h with
    | same => simp only [spell_cons, hx]; exact .refl _
    | @operator op op' => cases op <;> cases op' <;> exact .refl _
    | keyword h h' =>
      obtain ⟨c, x, hx, hc, -⟩ := h.exists_cons
      obtain ⟨d, y, hy, hd, -⟩ := h'.exists_cons
      simp only [spell_cons, hx, hy]
      exact .inr ⟨c, d, rfl, rfl, hc, hd⟩

lemma alike_spell {ps ps' : List Piece} (h : List.Forall₂ Respelt ps ps') (hne : ∀ p ∈ ps, p.text ≠ []) :
    Alike (spell ps) (spell ps') := by
  refine ⟨head_spell h hne, fun hdot => ?_⟩
  cases h with
  | nil => exact .refl _
  | @cons p p' ps ps' h hps =>
    obtain ⟨c, x, hx⟩ := List.exists_cons_of_ne_nil (hne p (by simp))
    obtain rfl : c = '.' := by simpa [hx] using hdot
    cases h with
    | same =>
      cases x with
      | nil =>
        simp only [spell_cons, hx]
        exact head_spell hps fun p hp => hne p (by simp [hp])
      | cons d x => simp only [spell_cons, hx]; exact .refl _
    | @operator op op' => cases op <;> simp [operatorPiece, EdgeOp.text] at hx
    | keyword h =>
      obtain ⟨d, y, hy, hd, -⟩ := h.exists_cons
      obtain ⟨rfl, -⟩ := List.cons.inj (hx.symm.trans hy)
      exact absurd hd (by decide)

lemma Respelt.reads {b : Bool} {p p' : Piece} {rest rest' : Text} (h : Respelt p p') (hr : p.Reads b rest)
    (ha : Alike rest rest') : p'.Reads b rest' := by
  cases h with
  | same => exact Read.congr hr ha
  | @operator op op' =>
    cases op'
    · exact .directed
    · exact .undirected
  | keyword h h' =>
    obtain ⟨c, x, hx, hc, -⟩ := h.exists_cons
    obtain ⟨d, y, hy, hd, hall⟩ := h'.exists_cons
    have hs {c : Char} (hc : c.isAlpha = true) : startsWord c = true := by simp [startsWord, hc]
    rw [Piece.Reads, hx] at hr
    rw [Piece.Reads, h'.token, h'.fault]
    have hw := Read.word (b := b) (hs hd) (fun e he => continuesWord_of_isAlpha (hall e he))
      ((hr.endsWord (hs hc)).congr ha)
    rw [wordToken, ← hy, h'.spelt] at hw
    exact hw

theorem Run.respelt {b : Bool} {ps ps' : List Piece} (h : Run b ps) (hs : List.Forall₂ Respelt ps ps') :
    Run b ps' := by
  induction h generalizing ps' with
  | nil => cases hs; exact .nil
  | cons hr hps ih =>
    cases hs with
    | cons hp hs =>
      refine .cons (hp.reads hr (alike_spell hs fun p hp => hps.ne_nil hp)) ?_
      rw [hp.endsLine]
      exact ih hs

inductive Moves (φ : Relocation) : Nat → List Piece → List Piece → Prop
  | nil {n} : Moves φ n [] []
  | cons {n p p' ps ps'} : Respelt p p' → p'.tokenAt (φ.place n) = (p.tokenAt n).map φ.token →
      φ.place (n + p.text.bytes) = φ.place n + p'.text.bytes → Moves φ (n + p.text.bytes) ps ps' →
      Moves φ n (p :: ps) (p' :: ps')

lemma moves_map {φ : Relocation} {n : Nat} {ps : List Piece} (g : Nat × Piece → Piece)
    (h : ∀ q ∈ placed n ps, Respelt q.2 (g q) ∧ (g q).tokenAt (φ.place q.1) = (q.2.tokenAt q.1).map φ.token ∧
      φ.place (q.1 + q.2.text.bytes) = φ.place q.1 + (g q).text.bytes) :
    Moves φ n ps ((placed n ps).map g) := by
  induction ps generalizing n with
  | nil => exact .nil
  | cons p ps ih =>
    obtain ⟨hr, ht, hp⟩ := h (n, p) (by simp [placed])
    exact .cons hr ht hp (ih fun q hq => h q (by simp [placed, hq]))

namespace Moves

variable {φ : Relocation} {n : Nat} {ps ps' : List Piece}

lemma forall₂ (h : Moves φ n ps ps') : List.Forall₂ Respelt ps ps' := by
  induction h with
  | nil => exact .nil
  | cons h _ _ _ ih => exact .cons h ih

lemma place_end (h : Moves φ n ps ps') : φ.place (n + (spell ps).bytes) = φ.place n + (spell ps').bytes := by
  induction h with
  | nil => rfl
  | cons _ _ hp _ ih => simp only [spell_cons, Text.bytes_append, ← Nat.add_assoc, ih, hp]

lemma tokensAt (h : Moves φ n ps ps') : tokensAt (φ.place n) ps' = (tokensAt n ps).map φ.token := by
  induction h with
  | nil => rfl
  | cons _ ht hp _ ih =>
    rw [tokensAt_cons, tokensAt_cons, ← hp, ih, ht, List.map_append, Option.toList_map]

lemma diagnosticsAt (h : Moves φ n ps ps') :
    diagnosticsAt (φ.place n) ps' = (diagnosticsAt n ps).map φ.diagnostic := by
  induction h with
  | nil => rfl
  | @cons n p p' ps ps' hr _ hp _ ih =>
    have hd : p'.diagnosticAt (φ.place n) = (p.diagnosticAt n).map φ.diagnostic := by
      have hspan : p'.spanAt (φ.place n) = φ.span (p.spanAt n) := by
        simp only [Piece.spanAt, Relocation.span, hp]
      cases hr with
      | same =>
        rw [Piece.diagnosticAt, Piece.diagnosticAt, hspan, Option.map_map]
        rfl
      | operator => rfl
      | keyword h h' => rw [Piece.diagnosticAt, Piece.diagnosticAt, h.fault, h'.fault]; rfl
    rw [diagnosticsAt_cons, diagnosticsAt_cons, ← hp, ih, hd, List.map_append, Option.toList_map]

end Moves

end DotMend.Token
