import DotMend.Proofs.Source.Blocks
import DotMend.Proofs.Text.Removal
import DotMend.Proofs.Token.Cutting
import DotMend.Proofs.Token.Gluing

namespace DotMend

namespace Token

lemma start_of_mem_tokensAt {n : Nat} {ps : List Piece} (hne : ∀ p ∈ ps, p.text ≠ []) {u : Token}
    (hu : u ∈ tokensAt n ps) : n ≤ u.span.start ∧ u.span.start < n + (spell ps).bytes := by
  obtain ⟨q, hq, hqu⟩ := mem_tokensAt.mp hu
  have hpos := bytes_pos_of_mem_placed hne hq
  have hle := le_of_mem_placed hq
  rw [(spanAt_of_tokenAt hqu).1]
  exact ⟨hle.1, by simp only [Piece.spanAt_start]; omega⟩

lemma not_holds_of_mem_tokensAt {n : Nat} {ps : List Piece} (hne : ∀ p ∈ ps, p.text ≠ []) {span : Span}
    (h : n + (spell ps).bytes ≤ span.start ∨ span.stop ≤ n) {u : Token} (hu : u ∈ tokensAt n ps) :
    span.holds u.span.start = false := by
  have := start_of_mem_tokensAt hne hu
  rw [← Bool.not_eq_true, Span.holds_iff]
  omega

lemma Placing.faces_eq {ps before mid behind : List Piece} {span : Span} (hp : Placing ps span before mid behind)
    (hne : ∀ p ∈ ps, p.text ≠ []) {n : Nat} (hn : (spell ps).bytes ≤ n) :
    ((tokensAt 0 ps ++ [endAt n]).filter fun u => span.holds u.span.start).map face = faces mid := by
  obtain ⟨rfl, -, rfl⟩ := hp
  have hbefore := @not_holds_of_mem_tokensAt 0 before (fun p hp => hne p (by simp [hp]))
    ⟨(spell before).bytes, (spell before).bytes + (spell mid).bytes⟩ (.inl (by simp))
  have hbehind :=
    @not_holds_of_mem_tokensAt (spell (before ++ mid)).bytes behind (fun p hp => hne p (by simp [hp]))
    ⟨(spell before).bytes, (spell before).bytes + (spell mid).bytes⟩ (.inr (by simp))
  have hmid : ∀ u ∈ tokensAt (spell before).bytes mid, Span.holds ⟨(spell before).bytes,
      (spell before).bytes + (spell mid).bytes⟩ u.span.start = true := fun u hu =>
    Span.holds_iff.mpr (start_of_mem_tokensAt (fun p hp => hne p (by simp [hp])) hu)
  have hend : Span.holds ⟨(spell before).bytes, (spell before).bytes + (spell mid).bytes⟩ (endAt n).span.start =
      false := by
    rw [← Bool.not_eq_true, Span.holds_iff]
    simp only [spell_append, Text.bytes_append] at hn
    simp only [endAt, Span.caret_start]
    omega
  rw [tokensAt_append, tokensAt_append, Nat.zero_add, Nat.zero_add, List.filter_append, List.filter_append,
    List.filter_append, List.filter_eq_nil_iff.mpr fun u hu => by simp [hbefore hu], List.filter_eq_self.mpr hmid,
    List.filter_eq_nil_iff.mpr fun u hu => by simp [hbehind hu], List.filter_singleton, hend]
  simp [map_face_tokensAt]

lemma flatMap_tokensAt_eq_faces_kept {rs : List Span} (gone : Nat → Bool) {n : Nat} {ps : List Piece}
    (h : ∀ q ∈ placed n ps, q.2.token ≠ none → gone q.1 = rs.any (·.holds q.1)) :
    ((tokensAt n ps).flatMap fun u => if gone u.span.start then [] else [face u]) = faces (kept rs n ps) := by
  induction ps generalizing n with
  | nil => rfl
  | cons p ps ih =>
    have hps := ih (n := n + p.text.bytes) fun q hq => h q (by simp [placed, hq])
    have hp := h (n, p) (by simp [placed])
    rw [tokensAt_cons, List.flatMap_append, hps, ← List.singleton_append, kept_append, faces_append]
    congr 1
    · cases htoken : p.token with
      | none => rcases kept_singleton rs n p with hk | hk <;> simp [hk, faces, Piece.tokenAt, htoken]
      | some kv =>
        have hgone : gone n = rs.any (·.holds n) := hp (by simp [htoken])
        by_cases hany : rs.any (·.holds n) = true
        · simp [Piece.tokenAt, htoken, kept, placed, hany, hgone, faces]
        · simp [Piece.tokenAt, htoken, kept, placed, hany, hgone, faces, face]
    · simp

lemma Run.sound {b : Bool} {ps : List Piece} (h : Run b ps) (hclean : ∀ p ∈ ps, p.fault = none) :
    ∀ p ∈ ps, p.Sound := by
  intro p hp
  obtain ⟨before, behind, rfl⟩ := List.append_of_mem hp
  obtain ⟨b', hr⟩ := h.reads
  exact ⟨hclean p hp, b', _, hr⟩

lemma Framed.part {mid : List Piece} (hf : Framed mid) (hchain : mid.IsChain fun p q => p.Beside q ∧ ¬ p.Joins q) :
    Part false mid where
  chain := hchain
  head := by
    intro p hmem hh
    obtain ⟨q, hq, htoken⟩ := hf.first
    obtain rfl := Option.some.inj (hmem.symm.trans hq)
    obtain ⟨kv, hkv⟩ := Option.isSome_iff_exists.mp htoken
    simp [Piece.isHash, hkv] at hh
  last := by
    intro p hmem
    obtain ⟨q, hq, htoken⟩ := hf.last
    obtain rfl := Option.some.inj (hmem.symm.trans hq)
    obtain ⟨kv, hkv⟩ := Option.isSome_iff_exists.mp htoken
    simp [Piece.isLine, Piece.isHash, hkv]

lemma Framed.part_before {b : Bool} {before mid behind : List Piece} (hf : Framed mid)
    (hrun : Run b (before ++ mid ++ behind))
    (hchain : (before ++ mid ++ behind).IsChain fun p q => p.Beside q ∧ ¬ p.Joins q) : Part b before where
  chain := hchain.left_of_append.left_of_append
  head := by
    intro p hmem
    obtain ⟨before, rfl⟩ := List.head?_eq_some_iff.mp hmem
    exact (run_cons_iff.mp hrun).1.suits.hash
  last := by
    intro p hmem
    obtain ⟨c, hc, hblank⟩ := hf.head_not_blank hrun
    obtain ⟨q, hq, -⟩ := hf.first
    obtain ⟨mid, rfl⟩ := List.head?_eq_some_iff.mp hq
    rw [List.append_assoc] at hchain
    have hbeside := ((List.isChain_append.mp hchain).2.2 p hmem q rfl).1
    rw [head?_spell_cons (hrun.ne_nil (by simp))] at hc
    rw [← Bool.not_eq_true]
    intro hl
    rw [hbeside.line hl] at hc
    obtain rfl := Option.some.inj hc
    simp [Lexeme.isBlank] at hblank

lemma Placing.part {ps before mid behind : List Piece} {span : Span} (hp : Placing ps span before mid behind)
    (hchain : ps.IsChain fun p q => p.Beside q ∧ ¬ p.Joins q) : Part false mid :=
  hp.framed.part (hp.split ▸ hchain).left_of_append.right_of_append

lemma Placing.part_before {ps before mid behind : List Piece} {span : Span}
    (hp : Placing ps span before mid behind)
    (hrun : Run true ps) (hchain : ps.IsChain fun p q => p.Beside q ∧ ¬ p.Joins q) : Part true before :=
  hp.framed.part_before (hp.split ▸ hrun) (hp.split ▸ hchain)

end Token

namespace Source

open Token

/-- A block of lexemes with the blanks that are removed together with it. -/
structure Excision (ps : List Piece) (span removal : Span) where
  before : List Piece
  lead : List Piece
  mid : List Piece
  trail : List Piece
  behind : List Piece
  split : ps = before ++ (lead ++ mid ++ trail) ++ behind
  span_eq : span = ⟨(spell (before ++ lead)).bytes, (spell (before ++ lead ++ mid)).bytes⟩
  removal_eq : removal = ⟨(spell before).bytes, (spell before).bytes + (spell (lead ++ mid ++ trail)).bytes⟩
  blank : ∀ p ∈ lead ++ trail, p.token = none
  removable : before ≠ [] → ∀ cur, Removable (before.getLastD cur) (lead ++ mid ++ trail)

lemma isBlank_of_isBlankChar {c : Char} (h : Consolidation.isBlankChar c = true) :
    Lexeme.isBlank c = true ∧ c ≠ '\n' := by
  have hc : c = ' ' ∨ c = '\t' := by simpa [Consolidation.isBlankChar] using h
  rcases hc with rfl | rfl <;> decide

lemma removable_of_spell {cur : Piece} {ms : List Piece} (hne : ∀ p ∈ ms, p.text ≠ []) (hms : ms ≠ [])
    (hhead : (spell ms).head? ≠ some '\n') (hlast : (spell ms).getLast? = some '\n' → cur.endsLine) :
    Removable cur ms where
  head := by
    obtain ⟨m, ms, rfl⟩ := List.exists_cons_of_ne_nil hms
    refine ⟨m, rfl, ?_⟩
    rwa [head?_spell_cons (hne m (by simp))] at hhead
  last := by
    intro m hm hends
    obtain ⟨ms, rfl⟩ := List.getLast?_eq_some_iff.mp hm
    apply hlast
    rw [getLast?_spell_concat (hne m (by simp))]
    exact beq_iff_eq.mp hends

namespace GraphReading

variable {t : Text} {ps : List Piece} {used : List Token} {graph s : Tree}

lemma exists_trimmed (h : GraphReading t ps used graph) (hs : s ∈ graph.preorder fun _ => true) :
    ∃ before lead mid trail behind, ps = before ++ (lead ++ mid ++ trail) ++ behind ∧ Framed mid ∧
      s.span = ⟨(spell (before ++ lead)).bytes, (spell (before ++ lead ++ mid)).bytes⟩ ∧
      Consolidation.removal t.utf8 s.span =
        ⟨(spell before).bytes, (spell before).bytes + (spell (lead ++ mid ++ trail)).bytes⟩ ∧
      (∀ p ∈ lead ++ trail, p.token = none) ∧ Consolidation.Trim (spell before) (spell lead) (spell trail) := by
  obtain ⟨front, mid, back, ⟨rfl, hframed, hspan⟩⟩ := h.exists_pieces hs
  obtain ⟨c, hc, hcb⟩ := hframed.head_not_blank h.run
  obtain ⟨before, lead, trail, behind, hfront, hback, htrim, hremoval⟩ :=
    Consolidation.exists_trim (spell front) (spell mid) (spell back)
  obtain ⟨hlead, htrail⟩ := htrim.blank
  -- In front this needs that the statement does not begin with a blank: a comment may end in blanks.
  have hmidhead : (spell (mid ++ back)).head? = some c := by rw [spell_append, List.head?_append, hc]; rfl
  obtain ⟨before, lead, rfl, rfl, rfl, hleadtoken⟩ :=
    (List.append_assoc front mid back ▸ h.run).split_blanks_behind hmidhead
    (by rintro rfl; simp [Lexeme.isBlank] at hcb) hfront fun e he => isBlank_of_isBlankChar (hlead e he)
  obtain ⟨b, hrun⟩ := h.run.right_of_append
  obtain ⟨trail, behind, rfl, rfl, rfl, htrailtoken⟩ := hrun.split_blanks hback fun e he => by
    rcases htrail e he with hb | rfl | rfl
    · exact (isBlank_of_isBlankChar hb).1
    · rfl
    · rfl
  refine ⟨before, lead, mid, trail, behind, by simp, hframed, ?_, ?_, ?_, htrim⟩
  · rw [hspan]
    simp [Nat.add_assoc]
  · have ht : spell (before ++ lead) ++ spell mid ++ spell (trail ++ behind) = t := by
      rw [← h.spelt]
      simp
    have hspan' : s.span = ⟨(spell (before ++ lead)).bytes, (spell (before ++ lead) ++ spell mid).bytes⟩ := by
      rw [hspan, Text.bytes_append]
    rw [hspan', ← ht, hremoval]
    simp
  · intro p hp
    exact (List.mem_append.mp hp).elim (hleadtoken p) (htrailtoken p)

theorem exists_excision (h : GraphReading t ps used graph) (hclean : ∀ p ∈ ps, p.fault = none)
    (hs : s ∈ graph.preorder fun _ => true) :
    Nonempty (Excision ps s.span (Consolidation.removal t.utf8 s.span)) := by
  obtain ⟨before, lead, mid, trail, behind, rfl, hframed, hspan, hremoval, hblank, htrim⟩ := h.exists_trimmed hs
  have hrun : Run true (before ++ lead ++ mid ++ (trail ++ behind)) := by simpa using h.run
  have hne : ∀ p ∈ before ++ (lead ++ mid ++ trail) ++ behind, p.text ≠ [] := fun p hp => h.run.ne_nil hp
  obtain ⟨c, hc, hcb⟩ := hframed.head_not_blank hrun
  obtain ⟨d, hd, hdb⟩ := hframed.last_not_blank hrun (.inr fun p hp => hclean p (by simp [hp]))
  have hlead := htrim.blank.1
  refine ⟨⟨before, lead, mid, trail, behind, rfl, hspan, hremoval, hblank, fun hbefore cur => ?_⟩⟩
  · apply removable_of_spell
    · intro p hp
      exact hne p (by simp only [List.mem_append] at hp ⊢; tauto)
    · rintro hnil
      simp only [List.append_eq_nil_iff] at hnil
      simp [hnil.1.2] at hc
    · intro hhead
      rw [spell_append, spell_append, List.append_assoc, List.head?_append, List.head?_append, hc] at hhead
      cases hl : (spell lead).head? with
      | none =>
        rw [hl] at hhead
        obtain rfl := Option.some.inj hhead
        simp [Lexeme.isBlank] at hcb
      | some e =>
        rw [hl] at hhead
        obtain rfl := Option.some.inj hhead
        exact (isBlank_of_isBlankChar (hlead _ (List.mem_of_head? hl))).2 rfl
    · intro hlast
      rw [spell_append, spell_append, List.getLast?_append, List.getLast?_append, hd] at hlast
      cases hl : (spell trail).getLast? with
      | none =>
        rw [hl] at hlast
        obtain rfl := Option.some.inj hlast
        simp [Lexeme.isBlank] at hdb
      | some e =>
        rw [hl] at hlast
        obtain rfl := Option.some.inj hlast
        obtain ⟨before, p, rfl⟩ := (List.eq_nil_or_concat' before).resolve_left hbefore
        have hstarts := htrim.starts_line hl
        rw [getLast?_spell_concat (hne p (by simp))] at hstarts
        rw [List.getLastD_concat, Piece.endsLine]
        cases hp : p.text.getLast? with
        | none => exact absurd (List.getLast?_eq_none_iff.mp hp) (hne p (by simp))
        | some e => simpa [hp] using hstarts

end GraphReading

lemma Excision.holds_iff {ps : List Piece} {span removal : Span} (x : Excision ps span removal)
    (hne : ∀ p ∈ ps, p.text ≠ []) {q : Nat × Piece}
    (hq : q ∈ placed 0 ps) (htoken : q.2.token ≠ none) : removal.holds q.1 = span.holds q.1 := by
  obtain ⟨before, lead, mid, trail, behind, rfl, rfl, rfl, hblank, -⟩ := x
  have hpos := bytes_pos_of_mem_placed hne hq
  rw [Bool.eq_iff_iff, Span.holds_iff, Span.holds_iff]
  have hnot {n : Nat} {bs : List Piece} (hbs : ∀ p ∈ bs, p.token = none) : q ∉ placed n bs := by
    intro hmem
    obtain ⟨a, b, hab, -⟩ := exists_of_mem_placed hmem
    exact htoken (hbs q.2 (by simp [hab]))
  simp only [placed_append, List.mem_append] at hq
  rcases hq with (hq | (hq | hq) | hq) | hq
  · have := le_of_mem_placed hq
    simp only [spell_append, Text.bytes_append] at this ⊢
    omega
  · exact absurd hq (hnot fun p hp => hblank p (by simp [hp]))
  · have := le_of_mem_placed hq
    simp only [spell_append, Text.bytes_append] at this ⊢
    omega
  · exact absurd hq (hnot fun p hp => hblank p (by simp [hp]))
  · have := le_of_mem_placed hq
    simp only [spell_append, Text.bytes_append] at this ⊢
    omega

end Source

end DotMend
