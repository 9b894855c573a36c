import DotMend.Proofs.Command.MergedEdges
import DotMend.Proofs.Source.Excision

namespace DotMend

open Token

namespace Text

lemma without_append (rs : List Span) (n : Nat) (s t : Text) :
    without rs n (s ++ t) = without rs n s ++ without rs (n + s.bytes) t := by
  induction s generalizing n with
  | nil => rfl
  | cons c s ih => simp [without, ih, Nat.add_assoc]

lemma without_eq_self {rs : List Span} {n : Nat} {s : Text} (h : ∀ r ∈ rs, n + s.bytes ≤ r.start) :
    without rs n s = s := by
  induction s generalizing n with
  | nil => rfl
  | cons c s ih =>
    have hpos := c.utf8Size_pos
    have hany : rs.any (·.holds n) = false := by
      rw [List.any_eq_false]
      intro r hr hholds
      have hstart := h r hr
      rw [bytes_cons] at hstart
      have := (Span.holds_iff.mp hholds).1
      omega
    rw [without, hany, ih]
    · rfl
    · intro r hr
      have hstart := h r hr
      rw [bytes_cons] at hstart
      omega

lemma without_eq_nil {rs : List Span} {n : Nat} {s : Text} {r : Span} (hr : r ∈ rs) (hstart : r.start ≤ n)
    (hstop : n + s.bytes ≤ r.stop) : without rs n s = [] := by
  induction s generalizing n with
  | nil => rfl
  | cons c s ih =>
    have hpos := c.utf8Size_pos
    rw [bytes_cons] at hstop
    have hany : rs.any (·.holds n) = true := List.any_eq_true.mpr ⟨r, hr, Span.holds_iff.mpr (by omega)⟩
    rw [without, hany, ih (by omega) (by omega)]
    rfl

lemma without_cons_of_le {rs : List Span} {n : Nat} {r : Span} (h : r.stop ≤ n) (s : Text) :
    without (r :: rs) n s = without rs n s := by
  induction s generalizing n with
  | nil => rfl
  | cons c s ih =>
    have hnot : r.holds n = false := by
      rw [← Bool.not_eq_true, Span.holds_iff]
      omega
    rw [without, without, List.any_cons, hnot, Bool.false_or, ih (by omega)]

lemma without_cons {rs : List Span} {n : Nat} {gap y : Text} (h : ∀ r ∈ rs, n + gap.bytes + y.bytes ≤ r.start)
    (rest : Text) : without (⟨n + gap.bytes, n + gap.bytes + y.bytes⟩ :: rs) n (gap ++ y ++ rest) =
      gap ++ without rs (n + gap.bytes + y.bytes) rest := by
  have hgap : without (⟨n + gap.bytes, n + gap.bytes + y.bytes⟩ :: rs) n gap = gap := by
    apply without_eq_self
    intro r hr
    rcases List.mem_cons.mp hr with rfl | hr
    · exact le_rfl
    · exact (Nat.le_add_right _ _).trans (h r hr)
  have hgone : without (⟨n + gap.bytes, n + gap.bytes + y.bytes⟩ :: rs) (n + gap.bytes) y = [] :=
    without_eq_nil List.mem_cons_self le_rfl le_rfl
  rw [without_append, without_append, hgap, hgone, List.append_nil, bytes_append, ← Nat.add_assoc,
    without_cons_of_le le_rfl]

end Text

namespace Consolidation

/-- The text `rest` behind `front` holds the statements of some candidates. Removing them, with what goes with each
of them, takes the given spans and leaves `kept`. -/
inductive Cleared : (front : Text) → List Candidate → List Span → (rest kept : Text) → Prop
  | nil {front rest} : Cleared front [] [] rest rest
  | cons {front gap lead x trail rest kept c cs spans} :
      c.statement = ⟨Text.bytes (front ++ gap ++ lead), Text.bytes (front ++ gap ++ lead ++ x)⟩ →
      Swept (front ++ gap) lead trail rest →
      Cleared (front ++ gap ++ lead ++ x ++ trail) cs spans rest kept →
      Cleared front (c :: cs)
        (⟨Text.bytes (front ++ gap), Text.bytes (front ++ gap ++ lead ++ x ++ trail)⟩ :: spans)
        (gap ++ (lead ++ x ++ trail) ++ rest) (gap ++ kept)

end Consolidation

lemma Token.Run.exists_eq_singleton {b : Bool} {ps : List Piece} (h : Run b ps) {p : Piece} (hp : p ∈ ps)
    (hblank : ∀ c ∈ p.text, Lexeme.isBlank c) : ∃ c, Lexeme.isBlank c ∧ p.text = [c] := by
  obtain ⟨before, behind, rfl⟩ := List.append_of_mem hp
  obtain ⟨b', hr⟩ := h.reads
  obtain ⟨c, hc⟩ := Option.ne_none_iff_exists'.mp (mt List.head?_eq_none_iff.mp (Lexeme.Read.ne_nil hr))
  have hcb := hblank c (List.mem_of_head? hc)
  exact ⟨c, hcb, (hr.eq_of_head_blank hc hcb).1⟩

namespace Source.GraphReading

variable {t : Text} {ps : List Piece} {used : List Token} {graph s : Tree}

lemma cleared (h : GraphReading t ps used graph) {es : List PlainEdge} {front rest : Text} (ht : t = front ++ rest)
    (hmem : ∀ e ∈ es, e.tree ∈ graph.preorder fun _ => true)
    (hfront : ∀ e ∈ es, front.bytes ≤ (Consolidation.removal t.utf8 e.info.span).start)
    (hordered : (es.map fun e => Consolidation.removal t.utf8 e.info.span).Pairwise fun a b => a.stop ≤ b.start) :
    Consolidation.Cleared front (es.map PlainEdge.candidate)
      (es.map fun e => Consolidation.removal t.utf8 e.info.span) rest
      (Text.without (es.map fun e => Consolidation.removal t.utf8 e.info.span) front.bytes rest) := by
  induction es generalizing front rest with
  | nil =>
    rw [List.map_nil, Text.without_eq_self (by simp)]
    exact .nil
  | cons e es ih =>
    obtain ⟨a, x, b, hsplit, hspan, -, -⟩ := h.exists_text (hmem e List.mem_cons_self)
    obtain ⟨before, lead, trail, behind, rfl, rfl, hswept, hremoval⟩ := Consolidation.exists_swept a x b
    rw [← hsplit, ← hspan, e.span_tree] at hremoval
    rw [List.map_cons, List.pairwise_cons, hremoval] at hordered
    -- The removal begins behind `front`, so a gap lies between them that nothing is taken from.
    have hle := hfront e List.mem_cons_self
    rw [hremoval] at hle
    have hsame : front ++ rest = before ++ ((lead ++ x ++ trail) ++ behind) := by
      rw [← ht, hsplit]
      simp
    obtain ⟨gap, rfl, rfl⟩ := Text.exists_append_of_bytes_le hsame hle
    have hrest := @ih (front ++ gap ++ lead ++ x ++ trail) behind (by rw [hsplit]; simp)
      (fun e he => hmem e (List.mem_cons_of_mem _ he)) (fun e he => hordered.1 _ (List.mem_map_of_mem he))
      hordered.2
    have hbytes : Text.bytes (front ++ gap ++ lead ++ x ++ trail) =
        front.bytes + gap.bytes + Text.bytes (lead ++ x ++ trail) := by
      simp only [Text.bytes_append]
      omega
    have hkept := @Text.without_cons (es.map fun e => Consolidation.removal t.utf8 e.info.span) front.bytes gap
      (lead ++ x ++ trail) (fun r hr => hbytes ▸ hordered.1 r hr) behind
    rw [← hbytes, ← Text.bytes_append front gap] at hkept
    rw [List.map_cons, List.map_cons, hremoval, ← List.append_assoc gap, hkept]
    exact .cons hspan hswept hrest

lemma inside_or_apart (h : GraphReading t ps used graph) (hs : s ∈ graph.preorder fun _ => true) {q : Nat × Piece}
    (hq : q ∈ placed 0 ps) (hsolid : ∀ c, Lexeme.isBlank c → q.2.text ≠ [c]) :
    (s.span.start ≤ q.1 ∧ q.1 + q.2.text.bytes ≤ s.span.stop) ∨
      (Consolidation.removal t.utf8 s.span).stop ≤ q.1 ∨
      q.1 + q.2.text.bytes ≤ (Consolidation.removal t.utf8 s.span).start := by
  have hrun := h.run
  obtain ⟨before, lead, mid, trail, behind, rfl, -, hspan, hremoval, -, htrim⟩ := h.exists_trimmed hs
  have hnot {n : Nat} {bs : List Piece} (hbs : ∀ p ∈ bs, p ∈ before ++ (lead ++ mid ++ trail) ++ behind)
      (hblank : ∀ c ∈ spell bs, Lexeme.isBlank c) : q ∉ placed n bs := by
    intro hmem
    obtain ⟨xs, ys, rfl, -⟩ := exists_of_mem_placed hmem
    obtain ⟨c, hc, htext⟩ := hrun.exists_eq_singleton (hbs q.2 (by simp)) fun c hc => hblank c (by simp [hc])
    exact hsolid c hc htext
  rw [hremoval, hspan]
  simp only [placed_append, List.mem_append] at hq
  rcases hq with (hq | (hq | hq) | hq) | hq
  · have := le_of_mem_placed hq
    right
    right
    simpa using this.2
  · refine absurd hq (hnot (fun p hp => by simp [hp]) fun c hc => ?_)
    exact (isBlank_of_isBlankChar (htrim.blank.1 c hc)).1
  · have := le_of_mem_placed hq
    left
    simp only [spell_append, Text.bytes_append] at this ⊢
    omega
  · refine absurd hq (hnot (fun p hp => by simp [hp]) fun c hc => ?_)
    rcases htrim.blank.2 c hc with hb | rfl | rfl
    · exact (isBlank_of_isBlankChar hb).1
    · rfl
    · rfl
  · have := le_of_mem_placed hq
    right
    left
    simp only [spell_append, Text.bytes_append] at this ⊢
    omega

lemma removal_around (h : GraphReading t ps used graph) (hs : s ∈ graph.preorder fun _ => true) :
    (Consolidation.removal t.utf8 s.span).start ≤ s.span.start ∧
      s.span.stop ≤ (Consolidation.removal t.utf8 s.span).stop := by
  obtain ⟨before, lead, mid, trail, behind, -, -, hspan, hremoval, -⟩ := h.exists_trimmed hs
  rw [hremoval, hspan]
  simp only [spell_append, Text.bytes_append]
  omega

end Source.GraphReading

namespace Action

variable {t : Text} {request : Span} {action : Action}

/-- A consolidation puts a group in the place of the first target and removes the statements that join it. With
each of them goes its line, if it has one of its own, and else only the blanks behind it. All other text stays as
it is and where it is, in particular every lexeme outside the joined statements but the blanks. -/
theorem consolidated_text (ha : consolidate? t (Source.ofText t) request = some action) :
    ∃ seed rest group spans t' head target tail kept ps,
      action.command = .consolidate ⟨true, seed :: rest⟩ ∧
      Command.execute action.command.id t (Source.ofText t) action.command.arguments =
        .ok (⟨seed.target, group, "Group edge targets"⟩ :: spans.map
        (.delete · "Remove consolidated edge statement")) ∧
      Edit.applyAll t (⟨seed.target, group, "Group edge targets"⟩ ::
        spans.map (.delete · "Remove consolidated edge statement")) = .ok t' ∧
      (seed.target :: spans).Pairwise (fun a b => a.stop ≤ b.start) ∧
      seed.target = ⟨head.bytes, (head ++ target).bytes⟩ ∧ t = head ++ target ++ tail ∧
      t' = head ++ group.toList ++ kept ∧
      Consolidation.Cleared (head ++ target) rest spans tail kept ∧
      Run true ps ∧ spell ps = t ∧
      ∀ q ∈ placed 0 ps, (∀ c, Lexeme.isBlank c → q.2.text ≠ [c]) →
        (∃ c ∈ seed :: rest, c.statement.start ≤ q.1 ∧ q.1 + q.2.text.bytes ≤ c.statement.stop) ∨
          ∀ r ∈ seed.target :: spans, r.stop ≤ q.1 ∨ q.1 + q.2.text.bytes ≤ r.start := by
  obtain ⟨ps, used, graph, m, h, hcommand, hedits, happly⟩ := exists_merged ha
  have hseed : m.seed ∈ m.edges := List.mem_cons_self
  obtain ⟨head, target, tail, ht, hspan, -, -⟩ :=
    h.exists_text (Tree.mem_preorder_trans (m.mem_preorder hseed) m.seed.target_mem_preorder)
  have hstop : m.seed.target.span.stop = (head ++ target).bytes := congrArg Span.stop hspan
  have hrewritten := m.rewritten_edits_eq h ht (by rw [hspan, Text.bytes_append])
  rw [← Text.bytes_append, m.rewritten_behind hstop.le tail] at hrewritten
  refine ⟨m.seed.candidate, m.rest.map PlainEdge.candidate, m.grouping.replacement, m.removals, _, head, target,
    tail, _, ps, hcommand, Command.execute_arguments hedits, happly, ?_, hspan, ht, hrewritten, ?_, h.run, h.spelt,
    ?_⟩
  · exact List.pairwise_cons.mpr ⟨m.target_le_removals h, m.removals_ordered h⟩
  · apply h.cleared ht
    · intro e he
      exact m.mem_preorder (List.mem_cons_of_mem _ he)
    · intro e he
      rw [← hstop]
      exact m.target_le_removals h _ (List.mem_map_of_mem he)
    · exact m.removals_ordered h
  · intro q hq hsolid
    by_cases hin : ∃ e ∈ m.edges, e.info.span.start ≤ q.1 ∧ q.1 + q.2.text.bytes ≤ e.info.span.stop
    · obtain ⟨e, he, hinside⟩ := hin
      exact .inl ⟨e.candidate, List.mem_map_of_mem he, hinside⟩
    right
    have hapart (e : PlainEdge) (he : e ∈ m.edges) :=
      (h.inside_or_apart (m.mem_preorder he) hq hsolid).resolve_left fun hinside => hin ⟨e, he, hinside⟩
    refine List.forall_mem_cons.mpr ⟨?_, ?_⟩
    · -- the target is part of the first statement, of which nothing is in the way either
      have haround := h.removal_around (m.mem_preorder hseed)
      have hinside := m.target_inside h.wellPlaced hseed
      have := hapart m.seed hseed
      rw [m.seed.span_tree] at haround this
      simp only [PlainEdge.candidate]
      omega
    · intro r hr
      obtain ⟨e, he, rfl⟩ := List.mem_map.mp hr
      exact hapart e (List.mem_cons_of_mem _ he)

theorem consolidated_text_shared_line :
    let t : Text := "graph \x7b\n  a -- b; // x \n  a -- c;\t\r\n  /* y */ a -- d; a -- e\n\x7d".toList
    ∃ action, consolidate? t (Source.ofText t) (.caret 10) = some action ∧
    ∃ seed rest group spans t' head target tail kept,
      action.command = .consolidate ⟨true, seed :: rest⟩ ∧ spans = [⟨24, 36⟩, ⟨46, 54⟩, ⟨54, 60⟩] ∧
      Edit.applyAll t (⟨seed.target, group, "Group edge targets"⟩ ::
        spans.map (.delete · "Remove consolidated edge statement")) = .ok t' ∧
      t = head ++ target ++ tail ∧ t' = head ++ group.toList ++ kept ∧
      t' = "graph \x7b\n  a -- \x7b b c d e \x7d; // x \n  /* y */ \n\x7d".toList ∧
      Consolidation.Cleared (head ++ target) rest spans tail kept := by
  intro t
  let removed : List Span := [⟨24, 36⟩, ⟨46, 54⟩, ⟨54, 60⟩]
  let edits : List Edit := ⟨⟨15, 16⟩, "\x7b b c d e \x7d", "Group edge targets"⟩ ::
    removed.map (.delete · "Remove consolidated edge statement")
  let candidates : List Candidate := [⟨⟨10, 17⟩, ⟨10, 11⟩, ⟨15, 16⟩⟩, ⟨⟨26, 33⟩, ⟨26, 27⟩, ⟨31, 32⟩⟩,
    ⟨⟨46, 53⟩, ⟨46, 47⟩, ⟨51, 52⟩⟩, ⟨⟨54, 60⟩, ⟨54, 55⟩, ⟨59, 60⟩⟩]
  obtain ⟨action, ha, -, hedits, happly⟩ := @exists_consolidated t
    "graph \x7b\n  a -- \x7b b c d e \x7d; // x \n  /* y */ \n\x7d".toList (.caret 10) ⟨true, candidates⟩ edits
    (by decide +kernel) (by decide +kernel) (by decide +kernel)
  obtain ⟨seed, rest, group, spans, t', head, target, tail, kept, ps, hcommand, hexecute, hresult, -, -, ht, ht',
      hcleared, -⟩ :=
    consolidated_text ha
  have hsame := Except.ok.inj (hexecute.symm.trans (Command.execute_arguments hedits))
  obtain rfl : spans = removed := by
    have hspans := congrArg (fun es : List Edit => (es.map Edit.span).tail) (hsame : _ = edits)
    simpa [Edit.delete, Function.comp_def, edits] using hspans
  have hwritten := Except.ok.inj (hresult.symm.trans (hsame ▸ happly))
  exact ⟨action, ha, seed, rest, group, removed, t', head, target, tail, kept, hcommand, rfl, hresult, ht, ht',
    hwritten, hcleared⟩

end Action

end DotMend
