import DotMend.Proofs.Token.Edges
import DotMend.Proofs.Token.Respelling
import Mathlib.Data.List.Chain

namespace DotMend.Token

open Lexeme

/-- A character that would be read as a part of the word or the numeral in front of it. -/
def continues : Kind → (value : Text) → Char → Bool
  | .numeral, value, c => c.isDigit || c = '.' && '.' ∉ value
  | .word, _, c | .strictKeyword, _, c | .graphKeyword, _, c | .digraphKeyword, _, c | .nodeKeyword, _, c
  | .edgeKeyword, _, c | .subgraphKeyword, _, c => continuesWord c
  | _, _, _ => false

namespace Lexeme

variable {b : Bool} {x rest : Text} {c : Char} {k : Kind} {v : Text} {token : Option (Kind × Text)}
  {fault : Option Fault}

lemma continues_wordToken (x : Text) (c : Char) :
    continues (wordToken x).1 (wordToken x).2 c = continuesWord c := by
  rcases wordToken_eq x with h | ⟨k, h, hk⟩
  · rw [h]
    rfl
  · rw [h]
    obtain ⟨s, hs, -⟩ := exists_of_ofKeyword? hk
    simp only [Kind.keywords, List.mem_cons, Prod.mk.injEq, List.not_mem_nil, or_false] at hs
    rcases hs with ⟨-, rfl⟩ | ⟨-, rfl⟩ | ⟨-, rfl⟩ | ⟨-, rfl⟩ | ⟨-, rfl⟩ | ⟨-, rfl⟩ <;> rfl

lemma wordToken_ne_numeral (x : Text) : (wordToken x).1 ≠ .numeral := by
  intro h
  have ha := continues_wordToken x 'a'
  rw [h] at ha
  exact absurd ha (by simp [continues, continuesWord, startsWord])

lemma continues_of_mark? {d : Char} (h : mark? d = some k) : continues k v c = false := by
  unfold mark? at h
  split at h <;> cases h <;> rfl

lemma Read.of_continues (h : Read b x rest (some (k, v)) fault) (hc : continues k v c = true) :
    IsNumeral x ∧ (k, v) = (.numeral, x) ∨
      (∃ d y, x = d :: y ∧ startsWord d = true) ∧ (k, v) = wordToken x := by
  generalize ht : some (k, v) = token at h
  cases h with
  | numeral hx => exact .inl ⟨hx, Option.some.inj ht⟩
  | @word _ d y _ hd => exact .inr ⟨⟨d, y, rfl, hd⟩, Option.some.inj ht⟩
  | @mark _ d _ k' hm =>
    obtain ⟨rfl, rfl⟩ := Prod.mk.inj (Option.some.inj ht)
    exact absurd hc (by simp [continues_of_mark? hm])
  | blank | hash | line | block | openBlock => cases ht
  | _ =>
    cases ht
    simp [continues] at hc

lemma Read.not_continues (h : Read b x rest (some (k, v)) fault) (hc : rest.head? = some c) :
    continues k v c = false := by
  generalize ht : some (k, v) = token at h
  cases h with
  | numeral _ hr =>
    obtain ⟨rfl, rfl⟩ := Prod.mk.inj (Option.some.inj ht)
    obtain ⟨hdigit, hdot⟩ := hr c hc
    simpa [continues, hdigit] using hdot
  | @word _ d y _ _ _ hr =>
    have hw := continues_wordToken (d :: y) c
    rw [← Option.some.inj ht] at hw
    exact hw.trans (hr c hc)
  | mark hm =>
    obtain ⟨rfl, rfl⟩ := Prod.mk.inj (Option.some.inj ht)
    exact continues_of_mark? hm
  | blank | hash | line | block | openBlock => cases ht
  | _ =>
    cases ht
    rfl

lemma Read.token_ne_none (h : Read b x rest token fault) {d : Char} {y : Text} (hx : x ++ rest = d :: y)
    (hd : Plain b d y) : token ≠ none := by
  cases h with
  | blank h =>
    obtain ⟨rfl, -⟩ := List.cons.inj hx
    exact absurd h (by simp [hd.not_blank])
  | hash =>
    obtain ⟨rfl, -⟩ := List.cons.inj hx
    exact absurd (hd.not_hash rfl) (by decide)
  | line =>
    obtain ⟨rfl, rfl⟩ := List.cons.inj hx
    exact absurd rfl (hd.not_slash rfl).1
  | block | openBlock =>
    obtain ⟨rfl, rfl⟩ := List.cons.inj hx
    exact absurd rfl (hd.not_slash rfl).2
  | _ => simp

lemma length_of_ofKeyword? {y : Text} (hx : Kind.ofKeyword? x = some k) (hy : Kind.ofKeyword? y = some k) :
    x.length = y.length := by
  obtain ⟨s, hs, hxs⟩ := exists_of_ofKeyword? hx
  obtain ⟨s', hs', hys⟩ := exists_of_ofKeyword? hy
  have hone : ∀ e ∈ Kind.keywords, ∀ e' ∈ Kind.keywords, e.2 = e'.2 → e.1 = e'.1 := by decide
  obtain rfl : s = s' := hone _ hs _ hs' rfl
  have hlen {z : Text} (hz : sameWord s.toList z = true) : z.length = s.toList.length := by
    simpa using (congrArg List.length (beq_iff_eq.mp hz)).symm
  rw [hlen hxs, hlen hys]

lemma Read.eq_of_continues {b' : Bool} {y rest' tail tail' : Text} {fault' : Option Fault}
    (hx : Read b x rest (some (k, v)) fault) (hy : Read b' y rest' (some (k, v)) fault')
    (hc : continues k v c = true) (he : x ++ tail = y ++ tail') : x = y := by
  rcases hx.of_continues hc with ⟨-, hkx⟩ | ⟨-, hkx⟩ <;> rcases hy.of_continues hc with ⟨-, hky⟩ | ⟨-, hky⟩
  · exact (Prod.mk.inj (hkx.symm.trans hky)).2
  · exact absurd (congrArg Prod.fst (hky.symm.trans hkx)) (wordToken_ne_numeral y)
  · exact absurd (congrArg Prod.fst (hkx.symm.trans hky)) (wordToken_ne_numeral x)
  · have hxy : wordToken x = wordToken y := hkx.symm.trans hky
    rcases wordToken_eq x with hw | ⟨k₁, hw, hk₁⟩ <;> rcases wordToken_eq y with hw' | ⟨k₂, hw', hk₂⟩
    all_goals rw [hw, hw', Prod.mk.injEq] at hxy
    · exact hxy.2
    · exact absurd hxy.2 hx.ne_nil
    · exact absurd hxy.2.symm hy.ne_nil
    · obtain rfl := hxy.1
      exact (List.append_inj he (length_of_ofKeyword? hk₁ hk₂)).1

end Lexeme

namespace Piece

def isHash (p : Piece) : Bool := p.token.isNone && p.text.head? == some '#'

def isLine (p : Piece) : Bool := p.isHash || p.token.isNone && p.text.take 2 == ['/', '/']

def continuedBy (p : Piece) (c : Char) : Bool := p.token.any fun kv => continues kv.1 kv.2 c

structure Sound (p : Piece) : Prop where
  faultless : p.fault = none
  reads : ∃ b rest, p.Reads b rest

lemma Sound.ne_nil {p : Piece} (h : p.Sound) : p.text ≠ [] :=
  let ⟨_, _, hr⟩ := h.reads
  Lexeme.Read.ne_nil hr

/-- The three ways in which a lexeme depends on its surroundings. -/
structure Suits (p : Piece) (b : Bool) (rest : Text) : Prop where
  hash : p.isHash → b
  line : p.isLine → AtLineEnd rest
  apart : ∀ c, rest.head? = some c → p.continuedBy c = false

lemma Reads.suits {p : Piece} {b : Bool} {rest : Text} (h : p.Reads b rest) : p.Suits b rest := by
  obtain ⟨x, token, fault⟩ := p
  cases token with
  | some kv =>
    exact ⟨by simp [isHash], by simp [isLine, isHash], fun c hc => by simpa [continuedBy] using h.not_continues hc⟩
  | none =>
    refine ⟨fun hp => ?_, fun hp => ?_, by simp [continuedBy]⟩
    · cases h with
      | hash => rfl
      | blank hc =>
        obtain rfl := Option.some.inj (beq_iff_eq.mp hp)
        simp [isBlank] at hc
      | _ => simp [isHash] at hp
    · cases h with
      | hash _ hr | line _ hr => exact hr
      | @blank _ c _ hc =>
        obtain rfl : c = '#' := by simpa [isLine, isHash] using hp
        simp [isBlank] at hc
      | _ => simp [isLine, isHash] at hp

theorem Sound.reads_iff {p : Piece} (h : p.Sound) {b : Bool} {rest : Text} : p.Reads b rest ↔ p.Suits b rest := by
  refine ⟨Reads.suits, fun hs => ?_⟩
  obtain ⟨hfault, b', rest', hr⟩ := h
  obtain ⟨x, token, fault⟩ := p
  obtain rfl : fault = none := hfault
  change Read b' x rest' token none at hr
  cases hr with
  | blank hc => exact .blank hc
  | hash hx =>
    obtain rfl : b = true := hs.hash rfl
    exact .hash hx (hs.line rfl)
  | line hx => exact .line hx (hs.line rfl)
  | block hx => exact .block hx
  | mark hm => exact .mark hm
  | directed => exact .directed
  | undirected => exact .undirected
  | quoted hx => exact .quoted hx
  | html hx => exact .html hx
  | numeral hx =>
    refine .numeral hx fun c hc => ?_
    have hapart := hs.apart c hc
    simpa [continuedBy, continues] using hapart
  | @word _ d y _ hd hy =>
    refine .word hd hy fun c hc => ?_
    rw [← continues_wordToken (d :: y)]
    exact hs.apart c hc

structure Beside (p q : Piece) : Prop where
  hash : q.isHash → p.endsLine
  line : p.isLine → q.text.head? = some '\n'

def Joins (p q : Piece) : Prop := ∃ c, q.text.head? = some c ∧ p.continuedBy c = true

end Piece

open Piece

lemma run_cons_iff {b : Bool} {p : Piece} {ps : List Piece} :
    Run b (p :: ps) ↔ p.Reads b (spell ps) ∧ Run p.endsLine ps :=
  ⟨fun h => by cases h with | cons hr h => exact ⟨hr, h⟩, fun h => .cons h.1 h.2⟩

lemma head?_spell_cons {p : Piece} (h : p.text ≠ []) (ps : List Piece) :
    (spell (p :: ps)).head? = p.text.head? := by
  obtain ⟨c, x, hx⟩ := List.exists_cons_of_ne_nil h
  simp [hx]

lemma getLast?_spell_concat {ps : List Piece} {p : Piece} (h : p.text ≠ []) :
    (spell (ps ++ [p])).getLast? = p.text.getLast? := by
  cases hp : p.text.getLast? with
  | none => exact absurd (List.getLast?_eq_none_iff.mp hp) h
  | some c => simp [List.getLast?_append, hp]

theorem run_iff_isChain {b : Bool} {ps : List Piece} (hs : ∀ p ∈ ps, p.Sound) :
    Run b ps ↔ (∀ p, ps.head? = some p → p.isHash → b) ∧ ps.IsChain fun p q => p.Beside q ∧ ¬ p.Joins q := by
  induction ps generalizing b with
  | nil => simp [Run.nil]
  | cons p ps ih =>
    rw [run_cons_iff, (hs p (by simp)).reads_iff, ih fun q hq => hs q (by simp [hq])]
    cases ps with
    | nil =>
      constructor
      · rintro ⟨hp, -⟩
        exact ⟨by rintro _ ⟨rfl⟩; exact hp.hash, .singleton p⟩
      · rintro ⟨hp, -⟩
        exact ⟨⟨hp p rfl, fun _ => by simp [AtLineEnd], by simp⟩, by simp⟩
    | cons q qs =>
      have hq := (hs q (by simp)).ne_nil
      rw [List.isChain_cons_cons]
      constructor
      · rintro ⟨hp, hhash, hchain⟩
        refine ⟨by rintro _ ⟨rfl⟩; exact hp.hash, ⟨⟨hhash q rfl, fun hl => ?_⟩, ?_⟩, hchain⟩
        · obtain ⟨c, x, hx⟩ := List.exists_cons_of_ne_nil hq
          rw [hx, List.head?_cons, hp.line hl c (by simp [hx])]
        · rintro ⟨c, hc, hj⟩
          have := hp.apart c (by rwa [head?_spell_cons hq])
          simp [hj] at this
      · rintro ⟨hp, ⟨hbeside, hjoins⟩, hchain⟩
        refine ⟨⟨hp p rfl, fun hl c hc => ?_, fun c hc => ?_⟩, by rintro _ ⟨rfl⟩; exact hbeside.hash, hchain⟩
        · rw [head?_spell_cons hq, hbeside.line hl] at hc
          exact (Option.some.inj hc).symm
        · rw [head?_spell_cons hq] at hc
          exact Bool.eq_false_iff.mpr fun hj => hjoins ⟨c, hc, hj⟩

def face (u : Token) : Kind × String := (u.kind, u.value)

def faces (ps : List Piece) : List (Kind × String) :=
  ps.filterMap fun p => p.token.map fun kv => (kv.1, String.ofList kv.2)

lemma faces_append (ps qs : List Piece) : faces (ps ++ qs) = faces ps ++ faces qs := List.filterMap_append

lemma faces_cons (p : Piece) (ps : List Piece) : faces (p :: ps) = faces [p] ++ faces ps := faces_append [p] ps

lemma map_face_tokensAt (n : Nat) (ps : List Piece) : (tokensAt n ps).map face = faces ps := by
  induction ps generalizing n with
  | nil => rfl
  | cons p ps ih =>
    rw [tokensAt_cons, List.map_append, ih]
    cases hp : p.token <;> simp [faces, Piece.tokenAt, hp, face]

lemma diagnosticsAt_of_sound {n : Nat} {ps : List Piece} (hs : ∀ p ∈ ps, p.Sound) : diagnosticsAt n ps = [] := by
  induction ps generalizing n with
  | nil => rfl
  | cons p ps ih =>
    rw [diagnosticsAt_cons, ih fun q hq => hs q (by simp [hq]), Piece.diagnosticAt, (hs p (by simp)).faultless]
    rfl

lemma Piece.Sound.reads_of_scanFrom {p : Piece} (h : p.Sound) {b : Bool} {rest : Text} (hhash : p.isHash → b)
    (hline : p.isLine → AtLineEnd rest) {n : Nat} {faces' : List (Kind × String)}
    (ht : (scanFrom n b (p.text ++ rest)).tokens.map face = faces [p] ++ faces') : p.Reads b rest := by
  rw [h.reads_iff]
  refine ⟨hhash, hline, fun c hc => Bool.eq_false_iff.mpr fun hj => ?_⟩
  obtain ⟨_, b', rest', hp⟩ := h
  obtain ⟨⟨k, v⟩, hkv, hj⟩ : ∃ kv, p.token = some kv ∧ continues kv.1 kv.2 c = true := by
    simpa [Piece.continuedBy, Option.any_eq_true] using hj
  rw [Piece.Reads, hkv] at hp
  -- Only a word or a numeral is continued, and those begin with a plain character.
  obtain ⟨d, y, hd, hplain⟩ : ∃ d y, p.text ++ rest = d :: y ∧ Plain b d y := by
    obtain ⟨d, y, hdy⟩ := List.exists_cons_of_ne_nil hp.ne_nil
    refine ⟨d, y ++ rest, by rw [hdy, List.cons_append], ?_⟩
    rcases hp.of_continues hj with ⟨hnum, -⟩ | ⟨⟨d', y', hdy', hstarts⟩, -⟩
    · exact plain_of_isNumeral (hdy ▸ hnum)
    · obtain ⟨rfl, rfl⟩ := List.cons.inj (hdy.symm.trans hdy')
      exact plain_of_startsWord hstarts
  -- What the scanner reads at the front is a token, and then the same as `p`.
  obtain ⟨rs, hrun, hspell⟩ := exists_run b (p.text ++ rest)
  cases hrun with
  | nil => simp [← hspell] at hd
  | @cons _ r rs hr _ =>
    rw [spell_cons] at hspell
    obtain ⟨kv', hkv'⟩ := Option.ne_none_iff_exists'.mp (hr.token_ne_none (hspell.trans hd) hplain)
    rw [← hspell, hr.scanFrom] at ht
    obtain rfl : kv' = (k, v) := by
      have hr' : (r.tokenAt n).toList.map face = [(kv'.1, String.ofList kv'.2)] := by
        simp [Piece.tokenAt, hkv', face]
      have hp' : faces [p] = [(k, String.ofList v)] := by simp [faces, hkv]
      rw [List.map_append, hr', hp'] at ht
      obtain ⟨hk, hv⟩ := Prod.mk.inj (List.cons.inj ht).1
      exact Prod.ext hk (String.ofList_inj.mp hv)
    rw [Piece.Reads, hkv'] at hr
    have heq := hr.eq_of_continues hp hj hspell
    rw [heq] at hspell
    rw [List.append_cancel_left hspell] at hr
    simp [hr.not_continues hc] at hj

/-- The scanner finds the lexemes that spell a text, neither more nor less, if and only if they form a run. -/
theorem scanFrom_eq_iff_run {b : Bool} {ps : List Piece} (hs : ∀ p ∈ ps, p.Sound)
    (hhead : ∀ p, ps.head? = some p → p.isHash → b) (hbeside : ps.IsChain Piece.Beside) (n : Nat) :
    (scanFrom n b (spell ps)).diagnostics = [] ∧
      (scanFrom n b (spell ps)).tokens.map face = faces ps ++ [(.endOfFile, "")] ↔ Run b ps := by
  constructor
  · rintro ⟨-, ht⟩
    -- One lexeme is read off the front; the tokens behind it are then those of the rest.
    induction ps generalizing b n with
    | nil => exact .nil
    | cons p ps ih =>
      have hp := hs p (by simp)
      have hs' : ∀ q ∈ ps, q.Sound := fun q hq => hs q (by simp [hq])
      have hline : p.isLine → AtLineEnd (spell ps) := by
        intro hl
        cases ps with
        | nil => simp [AtLineEnd]
        | cons q qs =>
          intro c hc
          rw [head?_spell_cons (hs' q (by simp)).ne_nil, (hbeside.rel_head? rfl).line hl] at hc
          exact (Option.some.inj hc).symm
      rw [faces_cons, spell_cons, List.append_assoc] at ht
      have hr := hp.reads_of_scanFrom (hhead p rfl) hline ht
      rw [hr.scanFrom, List.map_append] at ht
      have htoken : (p.tokenAt n).toList.map face = faces [p] := by
        rw [← map_face_tokensAt n, tokensAt_cons, tokensAt_nil, List.append_nil]
      rw [htoken] at ht
      exact .cons hr (ih hs' (fun q hq => (hbeside.rel_head? hq).hash) hbeside.tail _ (List.append_cancel_left ht))
  · intro h
    rw [h.scanFrom]
    exact ⟨diagnosticsAt_of_sound hs, by rw [List.map_append, map_face_tokensAt]; rfl⟩

end DotMend.Token
