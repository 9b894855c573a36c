import DotMend.Proofs.Source.Reading

namespace DotMend.Token

inductive Filler : (before x behind : Text) → Prop
  | blank {before c behind} : c ∈ [' ', '\t', '\r', '\n', '\x0c'] → Filler before [c] behind
  | line {before x behind} : '\n' ∉ x → (∀ c, behind.head? = some c → c = '\n') →
      Filler before ('/' :: '/' :: x) behind
  | hash {before x behind} : (before = [] ∨ before.getLast? = some '\n') → '\n' ∉ x →
      (∀ c, behind.head? = some c → c = '\n') → Filler before ('#' :: x) behind
  | block {before x behind} : ¬ ['*', '/'] <:+: x → Filler before ('/' :: '*' :: x ++ ['*', '/']) behind
  | openBlock {before x} : ¬ ['*', '/'] <:+: x → Filler before ('/' :: '*' :: x) []

inductive Gap : (before gap behind : Text) → Prop
  | nil {before behind} : Gap before [] behind
  | cons {before x gap behind} : Filler before x (gap ++ behind) → Gap (before ++ x) gap behind →
      Gap before (x ++ gap) behind

/-- What follows `before` is made of tokens, in the order in which they are listed, and of gaps. -/
inductive Tiled : (before : Text) → List Token → (rest : Text) → Prop
  | last {before gap} : Gap before gap [] → Tiled before [] gap
  | token {before gap x u us rest} : Gap before gap (x ++ rest) → x ≠ [] →
      u.span = ⟨Text.bytes (before ++ gap), Text.bytes (before ++ gap ++ x)⟩ →
      Tiled (before ++ gap ++ x) us rest → Tiled before (u :: us) (gap ++ x ++ rest)

namespace Lexeme

lemma not_infix_of_closeComment? {x : Text} (h : closeComment? x = none) : ¬ ['*', '/'] <:+: x := by
  fun_induction closeComment? x with
  | case1 => cases h
  | case2 c t hne ih =>
    rw [List.infix_cons_iff]
    rintro (⟨y, hy⟩ | hinfix)
    · obtain ⟨rfl, rfl⟩ := List.cons.inj hy
      exact hne y rfl rfl
    · exact ih (Option.map_eq_none_iff.mp h) hinfix
  | case3 => simp

lemma exists_of_closeComment? {x : Text} (h : closeComment? x = some x.length) :
    ∃ y, x = y ++ ['*', '/'] ∧ ¬ ['*', '/'] <:+: y := by
  fun_induction closeComment? x with
  | case1 t =>
    obtain rfl : t = [] := by simpa using h
    exact ⟨[], rfl, by simp⟩
  | case2 c t hne ih =>
    obtain ⟨n, hn, hlen⟩ := Option.map_eq_some_iff.mp h
    obtain rfl : n = t.length := by simpa using hlen
    obtain ⟨y, rfl, hy⟩ := ih hn
    refine ⟨c :: y, rfl, ?_⟩
    rw [List.infix_cons_iff]
    rintro (⟨z, hz⟩ | hinfix)
    · obtain ⟨rfl, rfl⟩ := List.cons.inj hz
      exact hne (z ++ ['*', '/']) rfl rfl
    · exact hy hinfix
  | case3 => cases h

lemma Read.filler {b : Bool} {before x rest : Text} {fault : Option Fault} (h : Read b x rest none fault)
    (hb : b → before = [] ∨ before.getLast? = some '\n') : Filler before x rest := by
  generalize ht : (none : Option (Kind × Text)) = token at h
  cases h with
  | blank hc =>
    apply Filler.blank
    simpa using isBlank_iff.mp hc
  | hash hx hr => exact .hash (hb rfl) hx hr
  | line hx hr => exact .line hx hr
  | block hx =>
    obtain ⟨y, rfl, hy⟩ := exists_of_closeComment? hx
    exact .block hy
  | openBlock hx => exact .openBlock (not_infix_of_closeComment? hx)
  | _ => cases ht

end Lexeme

lemma Tiled.cons_filler {before x rest : Text} {us : List Token} (hx : Filler before x rest)
    (h : Tiled (before ++ x) us rest) : Tiled before us (x ++ rest) := by
  cases h with
  | last hgap =>
    apply Tiled.last
    exact .cons (by rwa [List.append_nil]) hgap
  | @token _ gap y u us rest hgap hne hspan h =>
    have hall := @Tiled.token before (x ++ gap) y u us rest (.cons (by rwa [← List.append_assoc]) hgap) hne
    simp only [← List.append_assoc] at hall hspan h ⊢
    exact hall hspan h

theorem Run.tiled {b : Bool} {ps : List Piece} (h : Run b ps) {before : Text}
    (hb : b → before = [] ∨ before.getLast? = some '\n') : Tiled before (tokensAt before.bytes ps) (spell ps) := by
  induction h generalizing before with
  | nil => exact .last .nil
  | @cons b p ps hr _ ih =>
    -- what the flag of a run says is what a comment in the first column asks of the text before it
    have hline : p.endsLine → before ++ p.text = [] ∨ (before ++ p.text).getLast? = some '\n' := by
      intro hends
      right
      rw [List.getLast?_append, beq_iff_eq.mp hends]
      rfl
    have hps := ih hline
    rw [Text.bytes_append] at hps
    rw [tokensAt_cons, spell_cons, Piece.tokenAt]
    cases htoken : p.token with
    | none =>
      rw [Piece.Reads, htoken] at hr
      exact hps.cons_filler (hr.filler hb)
    | some kv =>
      have hne : p.text ≠ [] := Lexeme.Read.ne_nil hr
      have hall := @Tiled.token before [] p.text ⟨kv.1, p.spanAt before.bytes, String.ofList kv.2, p.fault.isSome⟩
        (tokensAt (before.bytes + p.text.bytes) ps) (spell ps) .nil hne
      simp only [List.append_nil, List.nil_append] at hall
      exact hall (by rw [Text.bytes_append]; rfl) hps

lemma Tiled.exists_slice {before rest : Text} {us : List Token} (h : Tiled before us rest) :
    ∀ u ∈ us, ∃ x, x ≠ [] ∧ (before ++ rest).slice? u.span = some x := by
  induction h with
  | last => simp
  | @token before gap x u us rest _ hne hspan _ ih =>
    have hall : before ++ (gap ++ x ++ rest) = before ++ gap ++ x ++ rest := by simp
    rw [hall]
    refine List.forall_mem_cons.mpr ⟨⟨x, hne, ?_⟩, ih⟩
    rw [hspan, Text.bytes_append _ x]
    exact Text.slice?_bytes (before ++ gap) x rest

/-- Scanning loses nothing: in front of the mark at its end a text has tokens that are not empty, that stand on
characters, in order and apart, and between them only blanks and comments, of which the last may be left open at
the end. -/
theorem scan_partition (t : Text) :
    ∃ tokens, (scan t).tokens = tokens ++ [endAt t.bytes] ∧ (∀ u ∈ tokens, u.kind ≠ .endOfFile) ∧
      Parse.Ordered tokens ∧ (∀ u ∈ tokens, ∃ x, x ≠ [] ∧ t.slice? u.span = some x) ∧ Tiled [] tokens t := by
  obtain ⟨ps, hrun, rfl⟩ := exists_run true t
  have htiled : Tiled [] (tokensAt 0 ps) (spell ps) := hrun.tiled fun _ => .inl rfl
  refine ⟨tokensAt 0 ps, by rw [hrun.scan], hrun.kind_ne, ordered_tokensAt fun p hp => hrun.ne_nil hp, ?_, htiled⟩
  exact htiled.exists_slice

end DotMend.Token
