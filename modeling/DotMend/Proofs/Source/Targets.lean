import DotMend.Proofs.Parse.Targets
import DotMend.Proofs.Source.Excision
import DotMend.Proofs.Source.Marks
import DotMend.Proofs.Token.Grafting

namespace DotMend

namespace Token

open Grammar

lemma token_eq_none_of_tokensAt {n : Nat} {ps : List Piece} (h : tokensAt n ps = []) :
    ∀ p ∈ ps, p.token = none := by
  induction ps generalizing n with
  | nil => exact List.forall_mem_nil _
  | cons p ps ih =>
    rw [tokensAt_cons, List.append_eq_nil_iff] at h
    refine List.forall_mem_cons.mpr ⟨?_, ?_⟩
    · simpa [Piece.tokenAt] using h.1
    · exact ih h.2

lemma framed_grouped (mids : List (List Piece)) : Framed (grouped mids) where
  first := ⟨openPiece, rfl, rfl⟩
  last := ⟨closePiece, by simp [grouped, List.getLast?_cons], rfl⟩

lemma kinds_grouped (n : Nat) (mids : List (List Piece)) :
    (tokensAt n (grouped mids)).map Token.kind =
      .openBrace :: (mids.map fun xs => (faces xs).map Prod.fst).flatten ++ [.closeBrace] := by
  have hkinds : (tokensAt n (grouped mids)).map Token.kind = (faces (grouped mids)).map Prod.fst := by
    rw [← map_face_tokensAt n, List.map_map]
    rfl
  rw [hkinds, faces_grouped]
  simp [List.flatMap, List.map_flatten, Function.comp_def]

structure IsTarget (xs : List Piece) : Prop where
  part : Part false xs
  sound : ∀ p ∈ xs, p.Sound
  derives : Derives Form.endpoint ((faces xs).map Prod.fst)

theorem Run.group {b : Bool} {before gap mid behind qs : List Piece} {op : EdgeOp} {mids : List (List Piece)}
    (h : Run b (before ++ operatorPiece op :: gap ++ (mid ++ behind)))
    (hs : ∀ p ∈ operatorPiece op :: gap ++ mid, p.Sound) (hf : Framed mid)
    (hmids : ∀ xs ∈ mids, IsTarget xs) (hq : Run false qs) :
    Run b (before ++ operatorPiece op :: gap ++ (grouped mids ++ qs)) := by
  obtain ⟨c, d, htext⟩ : ∃ c d, (operatorPiece op).text = [c, d] := by cases op <;> exact ⟨_, _, rfl⟩
  rw [List.append_assoc, List.cons_append] at h ⊢
  apply h.exchange_behind htext
  intro b' hrun
  have hfront : Run b' (operatorPiece op :: gap ++ mid) := by
    rw [← List.append_assoc, ← List.cons_append, ← List.cons_append] at hrun
    exact hrun.left_of_sound hs
  have hpart : Part b' (operatorPiece op :: gap) := by
    have hchain := ((run_iff_isChain hs).mp hfront).2
    rw [← List.append_nil (operatorPiece op :: gap ++ mid)] at hfront hchain
    exact hf.part_before hfront hchain
  have hsound : ∀ p ∈ operatorPiece op :: gap ++ grouped mids, p.Sound := by
    refine List.forall_mem_append.mpr ⟨?_, ?_⟩
    · exact fun p hp => hs p (List.mem_append_left mid hp)
    · exact sound_grouped fun xs hxs => (hmids xs hxs).sound
  have hgrouped := hpart.append_grouped fun xs hxs => (hmids xs hxs).part
  have hgroup : Run b' (operatorPiece op :: gap ++ grouped mids) :=
    (run_iff_isChain hsound).mpr ⟨hgrouped.head, hgrouped.chain⟩
  -- The closing brace hides what follows the group.
  obtain ⟨inner, hinner⟩ : ∃ inner, grouped mids = inner ++ [closePiece] :=
    ⟨openPiece :: blankPiece :: List.intercalate [blankPiece] mids ++ [blankPiece], by simp [grouped]⟩
  rw [hinner, ← List.append_assoc] at hgroup hsound
  have hclosed :=
    @Run.exchange_of_sound b' (operatorPiece op :: gap ++ inner) [closePiece] (closePiece :: qs) hgroup
    (fun p hp => hsound p (List.mem_append_left _ hp)) (fun _ hc => hc)
    (fun _ _ => .cons (.mark rfl) hq)
  simpa [hinner] using hclosed

end Token

namespace Source

open Token Grammar

structure TargetReading (ps : List Piece) (c : Tree) (before : List Piece) (op : EdgeOp)
    (gap mid behind : List Piece) : Prop where
  split : ps = before ++ operatorPiece op :: gap ++ (mid ++ behind)
  bare : ∀ p ∈ gap, p.token = none
  framed : Framed mid
  span_eq : c.span = ⟨(spell (before ++ operatorPiece op :: gap)).bytes,
    (spell (before ++ operatorPiece op :: gap)).bytes + (spell mid).bytes⟩
  read : ∃ eof m, (Parse.target eof (tokensAt c.span.start (mid ++ behind)) m).value = some c ∧
    (Parse.target eof (tokensAt c.span.start (mid ++ behind)) m).rest = tokensAt c.span.stop behind

theorem GraphReading.exists_targetReading {t : Text} {ps : List Piece} {used : List Token} {graph s c : Tree}
    (h : GraphReading t ps used graph) (hs : s ∈ graph.preorder fun _ => true) (hc : c ∈ s.target?) :
    ∃ before op gap mid behind, TargetReading ps c before op gap mid behind := by
  have ho := ordered_tokensAt (n := 0) fun p hp => h.run.ne_nil hp
  have hparsed := h.parsed
  rw [← h.spelt, Source.graph, parse_spell h.run] at hparsed
  obtain ⟨u, us, m, ⟨lead, hlead⟩, hop, hvalue⟩ := ((Parse.source_aimed ho hparsed).of_mem_preorder hs).here c hc
  obtain ⟨op, hop⟩ := Option.isSome_iff_exists.mp hop
  rw [← hlead] at ho
  obtain ⟨v, block, hblock, hspan⟩ := Parse.target_span ho.right.tail hvalue
  obtain ⟨before, p, later, hps, -, hp, hus⟩ := split_tokensAt hlead.symm
  obtain rfl : p = operatorPiece op := by
    obtain ⟨b, hreads⟩ := (hps ▸ h.run).reads
    obtain ⟨⟨k, w⟩, hkw, rfl⟩ := Option.map_eq_some_iff.mp hp
    exact hreads.eq_operatorPiece hkw hop
  obtain ⟨gap, mid, behind, rfl, hframed, hgap, hmid, hbehind, hhull⟩ :=
    @exists_framed _ later [] block _ v (hus.trans hblock)
  have hstart : (spell (before ++ operatorPiece op :: gap)).bytes =
      0 + (spell before).bytes + (operatorPiece op).text.bytes + (spell gap).bytes := by
    simp [Nat.add_assoc]
  rw [← hstart] at hmid hbehind hhull
  have hc_span := hspan.trans hhull
  have htokens : tokensAt c.span.start (mid ++ behind) = us := by
    rw [hc_span, tokensAt_append, hmid, hbehind]
    exact hblock.symm
  refine ⟨before, op, gap, mid, behind, by simp [hps], token_eq_none_of_tokensAt hgap, hframed, hc_span,
    .caret (spell ps).bytes, m, ?_, ?_⟩
  · rw [htokens]
    exact hvalue
  · rw [htokens, hc_span]
    exact hbehind.symm

namespace TargetReading

variable {ps : List Piece} {c : Tree} {before gap mid behind : List Piece} {op : EdgeOp}

lemma spell_eq (h : TargetReading ps c before op gap mid behind) :
    spell ps = spell (before ++ operatorPiece op :: gap) ++ spell mid ++ spell behind := by
  rw [h.split, spell_append, spell_append mid, List.append_assoc]

lemma tokensAt_eq (h : TargetReading ps c before op gap mid behind) :
    tokensAt 0 ps = tokensAt 0 (before ++ operatorPiece op :: gap) ++ tokensAt c.span.start (mid ++ behind) := by
  rw [h.split, tokensAt_append, h.span_eq, Nat.zero_add]

lemma tokensAt_append_eq (h : TargetReading ps c before op gap mid behind) :
    tokensAt c.span.start (mid ++ behind) = tokensAt c.span.start mid ++ tokensAt c.span.stop behind := by
  rw [tokensAt_append, h.span_eq]

lemma clean (h : TargetReading ps c before op gap mid behind) (hrun : Run true ps) (hc : c.flagged = false) :
    (∀ u ∈ tokensAt c.span.start mid, u.faulty = false) ∧ Derives Form.endpoint ((faces mid).map Prod.fst) := by
  have ho := ordered_tokensAt (n := 0) fun p hp => hrun.ne_nil hp
  have hfaulty := hrun.kind_of_faulty
  rw [h.tokensAt_eq] at ho hfaulty
  obtain ⟨eof, m, hvalue, hrest⟩ := h.read
  obtain ⟨hnil, used, hused, hsound⟩ :=
    Parse.target_clean ho.right (fun u hu => hfaulty u (List.mem_append_right _ hu)) hvalue hc
  obtain ⟨used', hused', hderives⟩ := Parse.target_sound _ m hnil
  rw [hrest, h.tokensAt_append_eq] at hused hused'
  obtain rfl := List.append_cancel_right hused
  obtain rfl := List.append_cancel_right hused'
  refine ⟨hsound, ?_⟩
  rw [← map_face_tokensAt c.span.start mid, List.map_map]
  exact hderives

lemma sound (h : TargetReading ps c before op gap mid behind) (hrun : Run true ps) (hc : c.flagged = false) :
    ∀ p ∈ operatorPiece op :: gap ++ mid, p.Sound := by
  intro p hp
  obtain ⟨front, later, hsplit⟩ := List.append_of_mem hp
  have hps : ps = before ++ front ++ p :: (later ++ behind) := by
    rw [h.split, ← List.append_assoc, List.append_assoc before, hsplit]
    simp
  obtain ⟨b, hreads⟩ := (hps ▸ hrun).reads
  refine ⟨?_, b, _, hreads⟩
  by_contra hne
  obtain ⟨f, hfault⟩ := Option.ne_none_iff_exists'.mp hne
  rw [Piece.Reads, hfault] at hreads
  cases htoken : p.token with
  | none =>
    -- Such a lexeme ends the text, but the last lexeme of the target is a token.
    rw [htoken] at hreads
    obtain ⟨q, hq, hsome⟩ := h.framed.last
    have hlast : (front ++ p :: later).getLast? = some q := by
      rw [← hsplit, List.getLast?_append, hq]
      rfl
    have hlater : later = [] := by
      have hspell := hreads.rest_of_fault
      cases later with
      | nil => rfl
      | cons r later =>
        have hr : r.text ≠ [] := hrun.ne_nil (by simp [hps])
        simp [hr] at hspell
    rw [hlater, List.getLast?_concat] at hlast
    rw [← Option.some.inj hlast, htoken] at hsome
    cases hsome
  | some kv =>
    have hmem : p ∈ mid := by
      rcases List.mem_append.mp hp with hp | hp
      · rcases List.mem_cons.mp hp with rfl | hp
        · cases hfault
        · rw [h.bare p hp] at htoken
          cases htoken
      · exact hp
    obtain ⟨l, r, rfl⟩ := List.append_of_mem hmem
    have hfaulty := (h.clean hrun hc).1 ⟨kv.1, p.spanAt (c.span.start + (spell l).bytes), String.ofList kv.2, true⟩
    rw [tokensAt_append, tokensAt_cons, Piece.tokenAt, htoken] at hfaulty
    simp [hfault] at hfaulty

lemma isTarget (h : TargetReading ps c before op gap mid behind) (hrun : Run true ps) (hc : c.flagged = false) :
    IsTarget mid := by
  have hsound : ∀ p ∈ mid, p.Sound := fun p hp => h.sound hrun hc p (List.mem_append_right _ hp)
  obtain ⟨b, hbehind⟩ := (h.split ▸ hrun).right_of_append
  have hchain := ((run_iff_isChain hsound).mp (hbehind.left_of_sound hsound)).2
  exact ⟨h.framed.part hchain, hsound, (h.clean hrun hc).2⟩

theorem stop_of_group {front qs : List Piece} {mids : List (List Piece)}
    (h : TargetReading (front ++ (grouped mids ++ qs)) c before op gap mid behind)
    (hne : ∀ p ∈ front ++ (grouped mids ++ qs), p.text ≠ []) (hstart : c.span.start = (spell front).bytes)
    (hmids : ∀ xs ∈ mids, IsTarget xs) : c.span.stop = (spell front).bytes + (spell (grouped mids)).bytes := by
  have hkss := List.forall_mem_map.mpr fun xs hxs => (hmids xs hxs).derives
  have hbytes : (spell front).bytes = (spell (before ++ operatorPiece op :: gap)).bytes := by
    rw [← hstart, h.span_eq]
  obtain ⟨rfl, hsplit⟩ := eq_of_bytes_spell_eq h.split hne hbytes
  obtain ⟨eof, m, -, hrest⟩ := h.read
  have hkinds := kinds_grouped c.span.start mids
  cases htokens : tokensAt c.span.start (grouped mids) with
  | nil =>
    rw [htokens] at hkinds
    cases hkinds
  | cons u block =>
    rw [htokens] at hkinds
    have hmid : tokensAt c.span.start mid = u :: block := by
      have hsame := h.tokensAt_append_eq
      rw [← hrest, ← hsplit, tokensAt_append, htokens, Parse.target_of_group hkinds hkss] at hsame
      exact (List.append_cancel_right hsame).symm
    have hhull := hull_of_framed h.framed hmid
    rw [hull_of_framed (framed_grouped mids) htokens] at hhull
    rw [h.span_eq]
    have hstop := congrArg Span.stop hhull
    simp only at hstop ⊢
    omega

end TargetReading

end Source

end DotMend
