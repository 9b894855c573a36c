import DotMend.Proofs.Source.Reading
import DotMend.Proofs.Token.Edges
import DotMend.Proofs.Token.Respelling

namespace DotMend.Token

namespace Lexeme

lemma not_mem_unsigned {x : Text} (h : Unsigned x) : '-' ∉ x ∧ '>' ∉ x := by
  have hdigit {y : Text} (hy : ∀ c ∈ y, c.isDigit = true) : '-' ∉ y ∧ '>' ∉ y :=
    ⟨fun hc => by simpa using hy _ hc, fun hc => by simpa using hy _ hc⟩
  rcases h with ⟨-, h⟩ | ⟨w, p, rfl, hw, hp, -⟩
  · exact hdigit h
  · obtain ⟨hw, hw'⟩ := hdigit hw
    obtain ⟨hp, hp'⟩ := hdigit hp
    simp [hw, hw', hp, hp']

/-- The spelling and the token of a lexeme that holds a minus, where that is followed by `d`: the lexeme is an
operator, or the second half of one begins the text, or the lexeme is a comment or a string that holds `d` too. -/
inductive HoldsMinus (u : Text) (d : Char) (v : Text) : Option (Kind × Text) → Prop
  | operator (op : EdgeOp) : u = [] → op.text.toList = ['-', d] → v = [d] → HoldsMinus u d v (some (op.kind, []))
  | astride : u = ['-'] → v = [] → HoldsMinus u d v (some (.undirectedOp, []))
  | comment : v ≠ [] → HoldsMinus u d v none
  | string {kind : Kind} {value : Text} : kind = .quoted ∨ kind = .html → v ≠ [] →
      HoldsMinus u d v (some (kind, value))

variable {b : Bool} {x rest u v : Text} {token : Option (Kind × Text)} {fault : Option Fault} {d : Char}

lemma eq_of_singleton {c : Char} (h : [c] = u ++ '-' :: v) : c = '-' ∧ u = [] ∧ v = [] := by
  cases u with
  | nil => simpa using h
  | cons e u => simp at h

lemma ne_nil_of_getLast? (hx : x = u ++ '-' :: v) (h : x.getLast? ≠ some '-') : v ≠ [] := by
  rintro rfl
  simp [hx] at h

lemma ne_nil_of_head? (hd : (v ++ rest).head? = some d) (h : rest.head? ≠ some d) : v ≠ [] := by
  rintro rfl
  exact h hd

lemma holdsMinus_operator {op : EdgeOp} (hx : op.text.toList = u ++ '-' :: v) (hd : (v ++ rest).head? = some d) :
    HoldsMinus u d v (some (op.kind, [])) := by
  cases op with
  | directed =>
    rcases u with _ | ⟨e, _ | ⟨e', u⟩⟩
    · obtain rfl : v = ['>'] := by simpa [EdgeOp.text] using hx.symm
      obtain rfl : '>' = d := by simpa using hd
      exact .operator .directed rfl rfl rfl
    · simp [EdgeOp.text] at hx
    · simp [EdgeOp.text] at hx
  | undirected =>
    rcases u with _ | ⟨e, _ | ⟨e', u⟩⟩
    · obtain rfl : v = ['-'] := by simpa [EdgeOp.text] using hx.symm
      obtain rfl : '-' = d := by simpa using hd
      exact .operator .undirected rfl rfl rfl
    · obtain ⟨rfl, rfl⟩ : e = '-' ∧ v = [] := by simpa [EdgeOp.text, eq_comm] using hx
      exact .astride rfl rfl
    · simp [EdgeOp.text] at hx

lemma IsNumeral.not_minus (h : IsNumeral (u ++ '-' :: v)) (hd : (v ++ rest).head? = some d) :
    ¬ (d = '-' ∨ d = '>') := by
  rcases h with h | ⟨y, hy, h⟩
  · exact absurd (by simp) (not_mem_unsigned h).1
  · obtain ⟨hminus, hangle⟩ := not_mem_unsigned h
    cases u with
    | nil =>
      obtain rfl : v = y := by simpa using hy
      obtain ⟨e, v, rfl⟩ := List.exists_cons_of_ne_nil h.ne_nil
      obtain rfl : e = d := by simpa using hd
      rintro (rfl | rfl)
      · simp at hminus
      · simp at hangle
    | cons e u =>
      obtain ⟨-, rfl⟩ := List.cons.inj hy
      simp at hminus

-- A comment or a string that is closed ends in its closing mark, one that is not reaches the end of the text.
lemma Read.holdsMinus (h : Read b x rest token fault) (hx : x = u ++ '-' :: v) (hd : (v ++ rest).head? = some d)
    (hop : d = '-' ∨ d = '>') : HoldsMinus u d v token := by
  cases h with
  | blank hblank =>
    obtain ⟨rfl, -⟩ := eq_of_singleton hx
    cases hblank
  | hash _ hline | line _ hline =>
    refine .comment (ne_nil_of_head? hd fun hnext => ?_)
    obtain rfl := hline d hnext
    simp at hop
  | block hclose =>
    refine .comment (ne_nil_of_getLast? hx ?_)
    rw [List.getLast?_cons, List.getLast?_cons, getLast?_of_closeComment? hclose]
    simp
  | openBlock => exact .comment (ne_nil_of_head? hd nofun)
  | mark hmark =>
    obtain ⟨rfl, -⟩ := eq_of_singleton hx
    cases hmark
  | directed => exact @holdsMinus_operator _ _ _ _ .directed hx hd
  | undirected => exact @holdsMinus_operator _ _ _ _ .undirected hx hd
  | quoted hclose =>
    refine .string (.inl rfl) (ne_nil_of_getLast? hx ?_)
    rw [List.getLast?_cons, getLast?_of_quotedRest (by rw [hclose]) (by rw [hclose])]
    simp
  | openQuoted => exact .string (.inl rfl) (ne_nil_of_head? hd nofun)
  | html hclose =>
    refine .string (.inr rfl) (ne_nil_of_getLast? hx ?_)
    rw [List.getLast?_cons, getLast?_of_closeAngle? hclose]
    simp
  | openHtml => exact .string (.inr rfl) (ne_nil_of_head? hd nofun)
  | numeral hnumeral =>
    rw [hx] at hnumeral
    exact absurd hop (hnumeral.not_minus hd)
  | word hc hw =>
    have hmem : '-' ∈ u ++ '-' :: v := by simp
    rcases List.mem_cons.mp (hx ▸ hmem) with rfl | hmem
    · cases hc
    · cases hw _ hmem
  | stray hstray =>
    obtain ⟨rfl, -, rfl⟩ := eq_of_singleton hx
    obtain ⟨hminus, hangle⟩ := hstray.not_minus rfl
    rcases hop with rfl | rfl
    · exact absurd hd hminus
    · exact absurd hd hangle

end Lexeme

variable {ps : List Piece}

lemma exists_split {a c : Text} (h : spell ps = a ++ c) (hc : c ≠ []) :
    ∃ before p behind u v, ps = before ++ p :: behind ∧ a = spell before ++ u ∧ p.text = u ++ v ∧ v ≠ [] ∧
      c = v ++ spell behind := by
  induction ps generalizing a with
  | nil => simp_all
  | cons p ps ih =>
    have hlater (a' : Text) (ha : a = p.text ++ a') (h : spell ps = a' ++ c) :
        ∃ before q behind u v, p :: ps = before ++ q :: behind ∧ a = spell before ++ u ∧ q.text = u ++ v ∧ v ≠ [] ∧
          c = v ++ spell behind := by
      obtain ⟨before, q, behind, u, v, rfl, rfl, hq, hv, hc⟩ := ih h
      exact ⟨p :: before, q, behind, u, v, rfl, by simp [ha], hq, hv, hc⟩
    rw [spell_cons] at h
    -- a part that begins right behind a lexeme begins in a later one
    rcases List.append_eq_append_iff.mp h with ⟨a', ha, h⟩ | ⟨v, hp, hv⟩
    · exact hlater a' ha h
    · by_cases hnil : v = []
      · subst hnil
        exact hlater [] (by simpa using hp.symm) (by simpa using hv.symm)
      · exact ⟨[], p, ps, a, v, rfl, rfl, hp, hnil, hv⟩

inductive SpeltAt (op : EdgeOp) (s : Span) (q : Nat × Piece) : Prop
  | operator : q.2.token = some (op.kind, []) → q.2.spanAt q.1 = s → SpeltAt op s q
  | astride : q.2.token = some (.undirectedOp, []) → s.start = q.1 + 1 → SpeltAt op s q
  | comment : q.2.token = none → (q.2.spanAt q.1).encloses s → SpeltAt op s q
  | string {kind : Kind} {value : Text} : kind = .quoted ∨ kind = .html → q.2.token = some (kind, value) →
      (q.2.spanAt q.1).encloses s → SpeltAt op s q

lemma Run.exists_speltAt (h : Run true ps) {op : EdgeOp} {s : Span}
    (hs : (spell ps).slice? s = some op.text.toList) : ∃ q ∈ placed 0 ps, SpeltAt op s q := by
  obtain ⟨d, hd, hop, hbytes⟩ : ∃ d, (d = '-' ∨ d = '>') ∧ op.text.toList = ['-', d] ∧ d.utf8Size = 1 := by
    cases op with
    | directed => exact ⟨'>', .inr rfl, rfl, rfl⟩
    | undirected => exact ⟨'-', .inl rfl, rfl, rfl⟩
  obtain ⟨a, b, hab, rfl⟩ := Text.slice?_eq_some_iff.mp hs
  rw [hop, List.append_assoc] at hab
  obtain ⟨before, p, behind, u, v, rfl, rfl, hp, hv, hc⟩ := exists_split hab (by simp)
  obtain ⟨e, v, rfl⟩ := List.exists_cons_of_ne_nil hv
  obtain ⟨rfl, hnext⟩ : '-' = e ∧ d :: b = v ++ spell behind := by simpa using hc
  obtain ⟨b', hr⟩ := h.reads
  have hmem : ((spell before).bytes, p) ∈ placed 0 (before ++ p :: behind) := by simp [placed_append, placed]
  have hminus : '-'.utf8Size = 1 := rfl
  have hholds := Lexeme.Read.holdsMinus hr hp (by rw [← hnext]; rfl) hd
  have hencloses (hne : v ≠ []) :
      (p.spanAt (spell before).bytes).encloses
        ⟨(spell before ++ u).bytes, (spell before ++ u).bytes + Text.bytes op.text.toList⟩ := by
    obtain ⟨e, v, rfl⟩ := List.exists_cons_of_ne_nil hne
    obtain rfl : d = e := by simpa using congrArg List.head? hnext
    rw [Span.encloses_iff]
    simp only [Piece.spanAt, hp, hop, Text.bytes_append, Text.bytes_cons, Text.bytes_nil]
    omega
  generalize htoken : p.token = token at hholds
  refine ⟨_, hmem, ?_⟩
  cases hholds with
  | operator op' hu hop' hv' =>
    obtain rfl : op' = op := EdgeOp.text_inj (hop'.trans hop.symm)
    refine .operator htoken ?_
    rw [Piece.spanAt, hp, hu, hv', List.append_nil, List.nil_append, hop]
  | astride hu hv' =>
    refine .astride htoken ?_
    simp [hu, Text.bytes_append, Text.bytes_cons, hminus]
  | comment hne => exact .comment htoken (hencloses hne)
  | string hkind hne => exact .string hkind htoken (hencloses hne)

/-- An operator's spelling that is no operator: it is in a string, or in a comment and so apart from all tokens, or
it begins with the second half of an undirected operator. -/
inductive Hidden (t : Text) (s : Span) : Prop
  | string {u : Token} : u ∈ (scan t).tokens → u.kind = .quoted ∨ u.kind = .html → u.span.encloses s → Hidden t s
  | comment : (∀ u ∈ (scan t).tokens, u.span.stop ≤ s.start ∨ s.stop ≤ u.span.start) → Hidden t s
  | astride {u : Token} : u ∈ (scan t).tokens → u.kind = .undirectedOp → s.start = u.span.start + 1 → Hidden t s

lemma mem_tokens_of_piece (h : Run true ps) {q : Nat × Piece} (hq : q ∈ placed 0 ps) {kind : Kind} {value : Text}
    (htoken : q.2.token = some (kind, value)) :
    ∃ u ∈ (scan (spell ps)).tokens, u.kind = kind ∧ u.span = q.2.spanAt q.1 := by
  refine ⟨⟨kind, q.2.spanAt q.1, String.ofList value, q.2.fault.isSome⟩, ?_, rfl, rfl⟩
  rw [h.scan]
  exact List.mem_append_left _ (mem_tokensAt.mpr ⟨q, hq, by rw [Piece.tokenAt, htoken]; rfl⟩)

lemma apart_of_comment (h : Run true ps) {q : Nat × Piece} (hq : q ∈ placed 0 ps) (htoken : q.2.token = none) :
    ∀ u ∈ (scan (spell ps)).tokens, u.span.stop ≤ q.1 ∨ q.1 + q.2.text.bytes ≤ u.span.start := by
  intro u hu
  rw [h.scan, List.mem_append] at hu
  rcases hu with hu | hu
  · obtain ⟨r, hr, hru⟩ := mem_tokensAt.mp hu
    obtain ⟨kv, hkv, rfl⟩ := Option.map_eq_some_iff.mp hru
    rcases eq_or_apart_of_mem_placed hr hq with rfl | hapart
    · rw [htoken] at hkv
      cases hkv
    · exact hapart
  · obtain rfl := List.mem_singleton.mp hu
    have := (le_of_mem_placed hq).2
    right
    simpa [endAt, Span.caret] using this

lemma operator_or_hidden {t : Text} {op : EdgeOp} {s : Span} (hs : t.slice? s = some op.text.toList) :
    (∃ u ∈ (scan t).tokens, u.kind = op.kind ∧ u.span = s) ∨ Hidden t s := by
  obtain ⟨ps, h, rfl⟩ := exists_run true t
  obtain ⟨q, hq, hspelt⟩ := h.exists_speltAt hs
  cases hspelt with
  | operator htoken hspan =>
    obtain ⟨u, hu, hkind, hu'⟩ := mem_tokens_of_piece h hq htoken
    exact .inl ⟨u, hu, hkind, hu'.trans hspan⟩
  | astride htoken hstart =>
    obtain ⟨u, hu, hkind, hu'⟩ := mem_tokens_of_piece h hq htoken
    exact .inr (.astride hu hkind (by rw [hu', hstart, Piece.spanAt_start]))
  | comment htoken hencloses =>
    refine .inr (.comment fun u hu => ?_)
    obtain ⟨hstart, hstop⟩ := Span.encloses_iff.mp hencloses
    rcases apart_of_comment h hq htoken u hu with hapart | hapart
    · exact .inl (hapart.trans hstart)
    · exact .inr (hstop.trans hapart)
  | string hkind htoken hencloses =>
    obtain ⟨u, hu, hkind', hu'⟩ := mem_tokens_of_piece h hq htoken
    exact .inr (.string hu (hkind' ▸ hkind) (hu' ▸ hencloses))

lemma exists_piece_of_mem_tokens (h : Run true ps) {u : Token} (hu : u ∈ (scan (spell ps)).tokens)
    (hk : u.kind ≠ .endOfFile) : ∃ q ∈ placed 0 ps, ∃ v, u.span = q.2.spanAt q.1 ∧
      q.2.token = some (u.kind, v) := by
  rw [h.scan, List.mem_append] at hu
  rcases hu with hu | hu
  · obtain ⟨q, hq, hqu⟩ := mem_tokensAt.mp hu
    obtain ⟨⟨k, v⟩, htoken, rfl⟩ := Option.map_eq_some_iff.mp hqu
    exact ⟨q, hq, v, rfl, htoken⟩
  · obtain rfl := List.mem_singleton.mp hu
    exact absurd rfl hk

lemma Run.bytes_of_operator (h : Run true ps) {q : Nat × Piece} (hq : q ∈ placed 0 ps) {k : Kind} {v : Text}
    (htoken : q.2.token = some (k, v)) (hk : k.isEdgeOp) : q.2.text.bytes = 2 := by
  obtain ⟨before, behind, rfl, -⟩ := exists_of_mem_placed hq
  obtain ⟨b, hr⟩ := h.reads
  obtain ⟨op, hop⟩ := Option.isSome_iff_exists.mp hk
  rw [hr.eq_operatorPiece htoken hop, bytes_operatorPiece]

lemma not_hidden_of_operator {t : Text} {u : Token} (hu : u ∈ (scan t).tokens) (hop : u.kind.isEdgeOp) :
    ¬ Hidden t u.span := by
  have hne {k : Kind} (hk : k.isEdgeOp) : k ≠ .endOfFile ∧ k ≠ .quoted ∧ k ≠ .html := by
    cases k <;> simp_all [Kind.isEdgeOp, Kind.edgeOp?]
  obtain ⟨ps, h, rfl⟩ := exists_run true t
  obtain ⟨q, hq, v, hspan, htoken⟩ := exists_piece_of_mem_tokens h hu (hne hop).1
  have hbytes := h.bytes_of_operator hq htoken hop
  intro hhidden
  rw [hspan] at hhidden
  cases hhidden with
  | @string w hw hkind hencloses =>
    obtain ⟨r, hr, v', hspan', htoken'⟩ :=
      exists_piece_of_mem_tokens h hw (by rcases hkind with hk | hk <;> simp [hk])
    rw [hspan', Span.encloses_iff, Piece.spanAt_start, Piece.spanAt_stop, Piece.spanAt_start, Piece.spanAt_stop]
      at hencloses
    rcases eq_or_apart_of_mem_placed hq hr with rfl | hapart
    · obtain ⟨hsame, -⟩ := Prod.mk.inj (Option.some.inj (htoken.symm.trans htoken'))
      rw [← hsame] at hkind
      exact hkind.elim (hne hop).2.1 (hne hop).2.2
    · omega
  | comment hapart =>
    have := hapart u hu
    rw [hspan, Piece.spanAt_start, Piece.spanAt_stop] at this
    omega
  | @astride w hw hkind hstart =>
    obtain ⟨r, hr, v', hspan', htoken'⟩ := exists_piece_of_mem_tokens h hw (by simp [hkind])
    have hbytes' := h.bytes_of_operator hr htoken' (by rw [hkind]; rfl)
    rw [hspan', Piece.spanAt_start, Piece.spanAt_start] at hstart
    rcases eq_or_apart_of_mem_placed hq hr with rfl | hapart
    · omega
    · omega

end DotMend.Token
