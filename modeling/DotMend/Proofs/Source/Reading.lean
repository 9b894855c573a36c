import DotMend.Proofs.Parse.Layout
import DotMend.Proofs.Token.Run
import DotMend.Source

namespace DotMend

namespace Token

lemma Lexeme.Read.kind_ne {b : Bool} {x rest : Text} {kind : Kind} {value : Text} {fault : Option Fault}
    (h : Lexeme.Read b x rest (some (kind, value)) fault) : kind ≠ .endOfFile := by
  generalize ht : some (kind, value) = token at h
  cases h with
  | mark h =>
    obtain ⟨rfl, -⟩ := Prod.mk.inj (Option.some.inj ht)
    intro hk
    subst hk
    unfold Lexeme.mark? at h
    split at h <;> cases h
  | @word _ c x =>
    obtain ht := Option.some.inj ht
    rw [Lexeme.wordToken] at ht
    split at ht
    · rename_i k hk
      obtain ⟨rfl, -⟩ := Prod.mk.inj ht
      obtain ⟨e, he, rfl⟩ := Option.map_eq_some_iff.mp hk
      have := List.mem_of_find?_eq_some he
      simp only [Kind.keywords, List.mem_cons, List.not_mem_nil, or_false] at this
      rcases this with rfl | rfl | rfl | rfl | rfl | rfl <;> decide
    · obtain ⟨rfl, -⟩ := Prod.mk.inj ht
      decide
  | _ => cases ht <;> decide

lemma Run.reads {b : Bool} {before behind : List Piece} {p : Piece} (h : Run b (before ++ p :: behind)) :
    ∃ b', p.Reads b' (spell behind) := by
  induction before generalizing b with
  | nil =>
    cases h with
    | cons hr _ => exact ⟨b, hr⟩
  | cons _ _ ih =>
    cases h with
    | cons _ h => exact ih h

lemma Run.right_of_append {b : Bool} {ps qs : List Piece} (h : Run b (ps ++ qs)) : ∃ b', Run b' qs := by
  induction ps generalizing b with
  | nil => exact ⟨b, h⟩
  | cons _ _ ih =>
    cases h with
    | cons _ h => exact ih h

lemma mem_tokensAt {n : Nat} {ps : List Piece} {t : Token} :
    t ∈ tokensAt n ps ↔ ∃ q ∈ placed n ps, q.2.tokenAt q.1 = some t := by
  simp [tokensAt, List.mem_filterMap]

lemma le_of_mem_placed {n : Nat} {ps : List Piece} {q : Nat × Piece} (h : q ∈ placed n ps) :
    n ≤ q.1 ∧ q.1 + q.2.text.bytes ≤ n + (spell ps).bytes := by
  induction ps generalizing n with
  | nil => simp [placed] at h
  | cons p ps ih =>
    simp only [spell_cons, Text.bytes_append]
    rcases List.mem_cons.mp h with rfl | h
    · exact ⟨le_rfl, by simp only; omega⟩
    · have := ih h
      omega

lemma exists_of_mem_placed {n : Nat} {ps : List Piece} {q : Nat × Piece} (h : q ∈ placed n ps) :
    ∃ before behind, ps = before ++ q.2 :: behind ∧ q.1 = n + (spell before).bytes := by
  induction ps generalizing n with
  | nil => simp [placed] at h
  | cons p ps ih =>
    rcases List.mem_cons.mp h with rfl | h
    · exact ⟨[], ps, rfl, by simp⟩
    · obtain ⟨before, behind, rfl, hq⟩ := ih h
      exact ⟨p :: before, behind, rfl, by simp [hq, Nat.add_assoc]⟩

lemma bytes_pos_of_mem_placed {n : Nat} {ps : List Piece} (hne : ∀ p ∈ ps, p.text ≠ []) {q : Nat × Piece}
    (hq : q ∈ placed n ps) : 0 < q.2.text.bytes := by
  obtain ⟨a, b, hab, -⟩ := exists_of_mem_placed hq
  exact Text.bytes_pos (hne q.2 (by simp [hab]))

lemma eq_or_apart_of_mem_placed {n : Nat} {ps : List Piece} {q r : Nat × Piece} (hq : q ∈ placed n ps)
    (hr : r ∈ placed n ps) : q = r ∨ q.1 + q.2.text.bytes ≤ r.1 ∨ r.1 + r.2.text.bytes ≤ q.1 := by
  induction ps generalizing n with
  | nil => simp [placed] at hq
  | cons p ps ih =>
    rcases List.mem_cons.mp hq with rfl | hq' <;> rcases List.mem_cons.mp hr with rfl | hr'
    · exact .inl rfl
    · exact .inr (.inl (le_of_mem_placed hr').1)
    · exact .inr (.inr (le_of_mem_placed hq').1)
    · exact ih hq' hr'

lemma slice?_of_mem_placed {ps : List Piece} {q : Nat × Piece} (h : q ∈ placed 0 ps) :
    (spell ps).slice? (q.2.spanAt q.1) = some q.2.text := by
  obtain ⟨before, behind, rfl, hq⟩ := exists_of_mem_placed h
  rw [Nat.zero_add] at hq
  rw [Piece.spanAt, hq, spell_append, spell_cons, ← List.append_assoc]
  exact Text.slice?_bytes _ _ _

lemma rewritten_spell (es : List Edit) (n : Nat) (ps : List Piece) :
    Edit.rewritten es n (spell ps) = (placed n ps).flatMap fun q => Edit.rewritten es q.1 q.2.text := by
  induction ps generalizing n with
  | nil => rfl
  | cons p ps ih => rw [spell_cons, Edit.rewritten_append, ih, placed, List.flatMap_cons]

lemma rewritten_spell_of_pieces {es : List Edit} {n : Nat} {ps : List Piece} {g : Nat × Piece → Piece}
    (h : ∀ q ∈ placed n ps, Edit.rewritten es q.1 q.2.text = (g q).text) :
    Edit.rewritten es n (spell ps) = spell ((placed n ps).map g) := by
  rw [rewritten_spell, spell, List.flatMap_map]
  exact List.flatMap_congr h

lemma ordered_tokensAt {n : Nat} {ps : List Piece} (h : ∀ p ∈ ps, p.text ≠ []) :
    Parse.Ordered (tokensAt n ps) := by
  have hspan {q : Nat × Piece} {t : Token} (ht : q.2.tokenAt q.1 = some t) : t.span = q.2.spanAt q.1 := by
    obtain ⟨_, -, rfl⟩ := Option.map_eq_some_iff.mp ht
    rfl
  induction ps generalizing n with
  | nil => exact ⟨by simp, by simp⟩
  | cons p ps ih =>
    have hps := ih (n := n + p.text.bytes) fun q hq => h q (by simp [hq])
    rw [tokensAt_cons]
    cases hp : p.tokenAt n with
    | none => exact hps
    | some t =>
      have ht := hspan (q := (n, p)) hp
      have hpos := Text.bytes_pos (h p (by simp))
      constructor
      · rintro u (_ | ⟨_, hu⟩)
        · rw [ht]
          simp only [Piece.spanAt]
          omega
        · exact hps.nonempty u hu
      · refine List.pairwise_cons.mpr ⟨fun u hu => ?_, hps.apart⟩
        obtain ⟨q, hq, hqu⟩ := mem_tokensAt.mp hu
        rw [ht, hspan hqu]
        exact (le_of_mem_placed hq).1

lemma Run.kind_ne {ps : List Piece} (h : Run true ps) {n : Nat} : ∀ t ∈ tokensAt n ps, t.kind ≠ .endOfFile := by
  intro t ht
  obtain ⟨q, hq, hqt⟩ := mem_tokensAt.mp ht
  obtain ⟨before, behind, rfl, -⟩ := exists_of_mem_placed hq
  obtain ⟨b, hr⟩ := h.reads
  obtain ⟨⟨kind, value⟩, htoken, rfl⟩ := Option.map_eq_some_iff.mp hqt
  rw [Piece.Reads, htoken] at hr
  exact hr.kind_ne

end Token

namespace Source

open Token

theorem ofText_spell {ps : List Piece} (h : Run true ps) :
    Source.ofText (spell ps) =
      let parse := Parse.source (.caret (spell ps).bytes) (Parse.limitOf (tokensAt 0 ps)) (tokensAt 0 ps)
      ⟨parse, diagnosticsAt 0 ps ++ parse.diagnostics ++ parse.graph.elim [] Tree.check⟩ := by
  rw [Source.ofText, h.scan, Parse.ofTokens_concat h.kind_ne rfl]
  rfl

lemma fault_eq_none {ps : List Piece} (h : Run true ps)
    (hclean : ∀ d ∈ (ofText (spell ps)).diagnostics, d.phase ≠ .scan) : ∀ p ∈ ps, p.fault = none := by
  intro p hp
  by_contra hfault
  obtain ⟨f, hf⟩ := Option.ne_none_iff_exists'.mp hfault
  obtain ⟨before, behind, rfl⟩ := List.append_of_mem hp
  have hmem : ((spell before).bytes, p) ∈ placed 0 (before ++ p :: behind) := by simp [placed_append, placed]
  refine hclean (f.diagnostic (p.spanAt (spell before).bytes)) ?_ (by cases f <;> rfl)
  rw [ofText_spell h]
  apply List.mem_append_left
  apply List.mem_append_left
  exact List.mem_filterMap.mpr ⟨_, hmem, by simp [Piece.diagnosticAt, hf]⟩

end Source

end DotMend
