import DotMend.Proofs.Action.Offers
import DotMend.Proofs.Command.Conversion
import DotMend.Proofs.Command.OperatorReplay
import DotMend.Proofs.Command.StaleOperators
import DotMend.Proofs.Source.Targets

/-! No action can be carried out twice: each changes something that it looks for. An operator or a keyword is spelt
differently afterwards, and the first target of a consolidation gives way to a longer one. -/

namespace DotMend

open Token

def Command.Once (t : Text) (c : Command) : Prop :=
  ∃ edits t', c.edits t (Source.ofText t) = .ok edits ∧ Edit.applyAll t edits = .ok t' ∧
    ∃ s, c.edits t' (Source.ofText t') = .error s

lemma Command.once_intro {t t' : Text} {c : Command} {edits : List Edit}
    (h : c.edits t (Source.ofText t) = .ok edits)
    (happly : Edit.applyAll t edits = .ok t') (hstale : ∀ again, c.edits t' (Source.ofText t') ≠ .ok again) :
    c.Once t := by
  refine ⟨edits, t', h, happly, ?_⟩
  cases hagain : c.edits t' (Source.ofText t') with
  | ok again => exact absurd hagain (hstale again)
  | error s => exact ⟨s, rfl⟩

namespace Merge

open Grammar

variable {t : Text} {ps : List Piece} {used : List Token} {graph : Tree} (m : Merge t graph)

lemma exists_targetReading (h : Source.GraphReading t ps used graph) {e : PlainEdge} (he : e ∈ m.edges) :
    ∃ before op gap mid behind, Source.TargetReading ps e.target before op gap mid behind ∧
      spell mid = targetText t e ∧
      (∀ p ∈ operatorPiece op :: gap ++ mid, p.Sound) ∧ IsTarget mid := by
  have hrhs := Tree.mem_preorder_trans (m.mem_preorder he) e.rhs_mem_preorder
  obtain ⟨before, op, gap, mid, behind, hr⟩ := h.exists_targetReading hrhs rfl
  have hflagged := Tree.flagged_of_mem_preorder (m.faultless e he) e.target_mem_preorder
  have hslice : t.slice? e.target.span = some (spell mid) := by
    rw [← h.spelt, hr.span_eq, hr.spell_eq]
    exact Text.slice?_bytes _ _ _
  refine ⟨before, op, gap, mid, behind, hr, ?_, hr.sound h.run hflagged, hr.isTarget h.run hflagged⟩
  exact Option.some.inj (hslice.symm.trans (m.slice_target h he))

lemma exists_run_rewritten (h : Source.GraphReading t ps used graph) :
    ∃ front mids qs, Run true (front ++ (grouped mids ++ qs)) ∧
      spell (front ++ (grouped mids ++ qs)) = Edit.rewritten m.edits 0 t ∧ (∀ xs ∈ mids, IsTarget xs) ∧
      m.seed.target.span.start = (spell front).bytes ∧
      m.seed.target.span.stop < (spell front).bytes + (spell (grouped mids)).bytes := by
  have hpieces : ∀ e ∈ m.edges, ∃ xs, spell xs = targetText t e ∧ IsTarget xs := by
    intro e he
    obtain ⟨before, op, gap, mid, behind, -, hspell, -, htarget⟩ := m.exists_targetReading h he
    exact ⟨mid, hspell, htarget⟩
  choose! pieces hspell htarget using hpieces
  obtain ⟨before, op, gap, mid, behind, hr, hmid, hsound, -⟩ := m.exists_targetReading h List.mem_cons_self
  obtain ⟨qs, hqs, hrest⟩ := exists_run false (Edit.rewritten m.edits m.seed.target.span.stop (spell behind))
  have hrun := (hr.split ▸ h.run).group hsound hr.framed (List.forall_mem_map.mpr htarget) hqs
  refine ⟨before ++ operatorPiece op :: gap, m.edges.map pieces, qs, hrun, ?_, List.forall_mem_map.mpr htarget, ?_,
    ?_⟩
  · rw [m.rewritten_edits_eq h (h.spelt.symm.trans hr.spell_eq) hr.span_eq, m.grouping_eq_spell hspell,
      spell_append, spell_append (grouped _), hrest, hr.span_eq, List.append_assoc]
  · rw [hr.span_eq]
  · have hlt := bytes_lt_grouped (pieces m.seed) (m.rest.map pieces)
    rw [hspell m.seed List.mem_cons_self, ← hmid] at hlt
    rw [hr.span_eq]
    exact Nat.add_lt_add_left hlt _

theorem edits_stale (h : Source.GraphReading t ps used graph) (again : List Edit) :
    m.consolidation.edits (Edit.rewritten m.edits 0 t) (Source.ofText (Edit.rewritten m.edits 0 t)) ≠
      .ok again := by
  intro hok
  obtain ⟨front, mids, qs, hrun, hspell, hmids, hstart, hstop⟩ := m.exists_run_rewritten h
  obtain ⟨seed, rest, texts, hcandidates, -, htargets, -⟩ := Consolidation.edits_eq_ok_iff.mp hok
  obtain ⟨rfl, -⟩ := List.cons.inj hcandidates
  obtain ⟨x, y, others, hseed, -⟩ := Consolidation.targets_eq_ok_iff.mp htargets
  obtain ⟨hverify, -⟩ := Consolidation.target_eq_ok_iff.mp hseed
  cases hg : (Source.ofText (Edit.rewritten m.edits 0 t)).graph with
  | none =>
    rw [Candidate.verify, hg] at hverify
    cases hverify
  | some graph' =>
    obtain ⟨ps', used', h'⟩ := Source.exists_graphReading hg
    obtain rfl := h'.run.unique hrun (h'.spelt.trans hspell.symm)
    obtain ⟨⟨e, hmem, hat⟩, -⟩ := (Candidate.verify_eq_ok_iff h').mp hverify
    have hspan : e.target.span = m.seed.target.span := congrArg Candidate.target hat
    obtain ⟨before, op, gap, mid, behind, hr⟩ :=
      h'.exists_targetReading (Tree.mem_preorder_trans hmem e.rhs_mem) rfl
    have hend := hr.stop_of_group (fun p hp => hrun.ne_nil hp) (hspan ▸ hstart) hmids
    rw [hspan] at hend
    omega

end Merge

lemma GraphKind.map_toLower_of_ofText? {x : Text} {kind : GraphKind} (h : GraphKind.ofText? x = some kind) :
    x.map Char.toLower = kind.keyword.toList := by
  unfold GraphKind.ofText? at h
  split at h
  · rename_i hword
    obtain rfl := Option.some.inj h
    exact beq_iff_eq.mp hword
  split at h
  · rename_i hword
    obtain rfl := Option.some.inj h
    exact beq_iff_eq.mp hword
  · cases h

lemma GraphKind.eq_of_head? {kind kind' : GraphKind} {c : Char} (h : kind.keyword.toList.head? = some c.toLower)
    (h' : kind'.keyword.toList.head? = some c) : kind = kind' := by
  cases kind <;> cases kind'
  · rfl
  · obtain rfl := Option.some.inj h'
    exact absurd h (by decide)
  · obtain rfl := Option.some.inj h'
    exact absurd h (by decide)
  · rfl

namespace OperatorChange

lemma once {t : Text} {graph o : Tree} (hg : (Source.ofText t).graph = some graph) (ho : o ∈ graph.edgeOperations)
    {op wanted : EdgeOp} (hop : o.edgeOp? = some op) (hne : op ≠ wanted) :
    (Command.changeOperator ⟨o.span, op, wanted⟩).Once t := by
  obtain ⟨ps, used, h⟩ := Source.exists_graphReading hg
  obtain ⟨op', hop', hslice⟩ := h.slice_operation ho
  obtain rfl : op' = op := Option.some.inj (hop'.symm.trans hop)
  obtain ⟨a, b, rfl, hspan⟩ := Text.slice?_eq_some_iff.mp hslice
  obtain ⟨edits, t', hedits, happly⟩ := @Action.executable_changeOperator _ graph hg o ho op' wanted hop
  obtain ⟨_, -, hedits'⟩ := bind_eq_ok_iff.mp hedits
  obtain rfl := Except.ok.inj hedits'
  have hne' : op'.text.toList ≠ [] := by cases op' <;> decide
  rw [Edit.applyAll_singleton hne' hspan] at happly
  obtain rfl := Except.ok.inj happly
  refine Command.once_intro hedits (Edit.applyAll_singleton hne' hspan) fun again hagain => hne ?_
  have hfound := (Command.slice_of_edits hagain (o.span, op') (List.mem_singleton_self _)).1
  have hbytes : Text.bytes op'.text.toList = Text.bytes wanted.text.toList :=
    (bytes_operatorPiece op').trans (bytes_operatorPiece wanted).symm
  rw [hspan, hbytes, Text.slice?_bytes] at hfound
  exact (EdgeOp.text_inj (Option.some.inj hfound)).symm

end OperatorChange

namespace GraphFix

variable {t : Text} {graph : Tree} {f : GraphFix} {ps : List Piece} {wanted : GraphKind}

lemma Offered.mem_placed_respell (h : Offered t graph wanted f ps) {q : Nat × Piece} (hq : q ∈ placed 0 ps) :
    (f.place q.1, f.respell q) ∈ placed 0 ((placed 0 ps).map f.respell) := by
  rw [placed_respell h.run h.fits]
  exact List.mem_map_of_mem hq

lemma Offered.edits_stale_of_operation (h : Offered t graph wanted f ps) (hsame : f.current = f.wanted) {s : Span}
    (hs : s ∈ f.operations) (source : Source) (again : List Edit) :
    f.edits (spell ((placed 0 ps).map f.respell)) source ≠ .ok again := by
  intro hok
  obtain ⟨q, hq, rfl, hop⟩ := h.fits.operations s hs
  have hfound := (Command.slice_of_edits (c := .fixGraph f) hok (_, _) (List.mem_map_of_mem hs)).1
  have hslice := slice?_of_mem_placed (h.mem_placed_respell hq)
  have hspan : (operatorPiece f.wanted.allowedOp).spanAt q.1 = q.2.spanAt q.1 := by
    rw [hop, Piece.spanAt, Piece.spanAt, bytes_operatorPiece, bytes_operatorPiece]
  rw [respell_of_mem h.run h.fits hs, place_eq_self hsame h.fits (h.fits.clears_of_mem_placed hq).1, hspan, hfound]
    at hslice
  exact EdgeOp.opposite_ne _ (EdgeOp.text_inj (Option.some.inj hslice))

lemma Offered.edits_stale_of_keyword (h : Offered t graph wanted f ps) (hne : f.current ≠ f.wanted)
    (source : Source) (again : List Edit) : f.edits (spell ((placed 0 ps).map f.respell)) source ≠ .ok again := by
  intro hok
  obtain ⟨y, hverify, -⟩ := bind_eq_ok_iff.mp hok
  obtain ⟨hslice, hkind, -⟩ := of_verifyKeyword hverify
  have hlower := GraphKind.map_toLower_of_ofText? hkind
  obtain ⟨r, hr, hspan, -⟩ := h.fits.keyword
  have hmem := h.mem_placed_respell hr
  rw [respell, if_pos hspan.symm, if_neg hne, place_of_le h.fits.lt (by rw [hspan]; rfl)] at hmem
  obtain ⟨before, behind, hsplit, hstart⟩ := exists_of_mem_placed hmem
  obtain ⟨a, b, hab, hspan'⟩ := Text.slice?_eq_some_iff.mp hslice
  rw [hsplit, spell_append, spell_cons, List.append_assoc] at hab
  have hbytes : a.bytes = (spell before).bytes := by
    rw [← Nat.zero_add (spell before).bytes, ← hstart]
    exact (congrArg Span.start (hspan'.symm.trans hspan) :)
  obtain ⟨-, hrest⟩ := Text.append_inj_of_bytes_eq hab hbytes.symm
  have hhead : (y ++ b).head? = f.wanted.keyword.toList.head? := by
    rw [← hrest]
    cases f.wanted <;> rfl
  cases y with
  | nil => cases hcurrent : f.current <;> rw [hcurrent] at hlower <;> cases hlower
  | cons c y =>
    rw [List.cons_append, List.head?_cons] at hhead
    have hfirst := congrArg List.head? hlower
    rw [List.map_cons, List.head?_cons] at hfirst
    exact hne (GraphKind.eq_of_head? hfirst.symm hhead.symm)

lemma Offered.once (h : Offered t graph wanted f ps) (hne : f.current ≠ f.wanted ∨ f.operations ≠ []) :
    (Command.fixGraph f).Once t := by
  obtain ⟨edits, hedits, happly⟩ := h.applied
  refine @Command.once_intro t _ (.fixGraph f) edits hedits happly fun again => ?_
  by_cases hsame : f.current = f.wanted
  · obtain ⟨s, hs⟩ := List.exists_mem_of_ne_nil _ (hne.resolve_left (not_not.mpr hsame))
    exact h.edits_stale_of_operation hsame hs _ again
  · exact h.edits_stale_of_keyword hsame _ again

end GraphFix

namespace Action

variable {t : Text} {graph : Tree} {kind wanted : GraphKind} {request : Span} {action : Action}

lemma once_fixGraph? (hg : (Source.ofText t).graph = some graph) (hkind : graph.graphKind? = some kind)
    (ha : fixGraph? graph wanted = some action) (hne : kind ≠ wanted ∨ graph.invalidOperations wanted ≠ []) :
    action.command.Once t := by
  obtain ⟨f, ps, h⟩ := GraphFix.exists_offered hg wanted
  obtain ⟨title, hf⟩ := h.offered
  obtain rfl := Option.some.inj (hf.symm.trans ha)
  apply h.once
  rw [h.wanted_eq, h.operations_eq, ← Option.some.inj (hkind.symm.trans h.current_eq)]
  exact hne.imp_right fun hops => by simpa using hops

lemma mem_invalidOperations (hg : (Source.ofText t).graph = some graph) (hkind : graph.graphKind? = some kind)
    {d : Diagnostic} (hd : d ∈ (Source.ofText t).diagnostics) (hcode : d.code = .invalidEdgeOperation) {o : Tree}
    (ho : o ∈ graph.edgeOperations) (hspan : o.span = d.span) : o ∈ graph.invalidOperations kind := by
  have hwrong : d ∈ wrongOperators t := List.mem_filter.mpr ⟨hd, by simpa using hcode⟩
  rw [wrongOperators_eq_check hg, Tree.check, hkind] at hwrong
  obtain ⟨o', ho', rfl⟩ := List.mem_map.mp hwrong
  obtain ⟨ho', hne⟩ := List.mem_filter.mp ho'
  obtain ⟨ps, used, h⟩ := Source.exists_graphReading hg
  obtain ⟨op, hop, hslice⟩ := h.slice_operation ho
  obtain ⟨op', hop', hslice'⟩ := h.slice_operation ho'
  -- Both operators are at one place, so they are spelt alike.
  have hsame : op = op' := by
    rw [show o.span = o'.span from hspan, hslice'] at hslice
    exact (EdgeOp.text_inj (Option.some.inj hslice)).symm
  exact List.mem_filter.mpr ⟨ho, by rwa [hop, hsame, ← hop']⟩

lemma once_quickFixes (ha : action ∈ quickFixes (Source.ofText t) request) : action.command.Once t := by
  obtain ⟨d, hd, ha⟩ := List.mem_flatMap.mp ha
  unfold fixesFor at ha
  split at ha
  · rename_i graph hcode hg
    unfold operatorFixes at ha
    split at ha
    · rename_i current offending hkind hfind
      obtain ⟨o, ho, hop⟩ := Option.bind_eq_some_iff.mp hfind
      have hspan : o.span = d.span := by simpa using List.find?_some ho
      have hmem := List.mem_of_find?_eq_some ho
      have hwrong := mem_invalidOperations hg hkind (List.mem_of_mem_filter hd) hcode hmem hspan
      have hne : offending ≠ current.allowedOp := by
        simpa [hop] using (List.mem_filter.mp hwrong).2
      simp only [List.cons_append, List.mem_cons, List.mem_append, Option.mem_toList] at ha
      rcases ha with rfl | ha | ha
      · exact hspan ▸ OperatorChange.once hg hmem hop hne
      · exact once_fixGraph? hg hkind ha (.inr (List.ne_nil_of_mem hwrong))
      · apply once_fixGraph? hg hkind ha
        left
        rintro rfl
        exact hne (by cases offending <;> rfl)
    · cases ha
  · cases ha

lemma once_convertGraph? (ha : convertGraph? (Source.ofText t) request = some action) : action.command.Once t := by
  unfold convertGraph? at ha
  split at ha
  · rename_i graph hg
    split at ha
    · split at ha
      · obtain ⟨kind, hkind, ha⟩ := Option.bind_eq_some_iff.mp ha
        obtain ⟨fix, hfix, ha⟩ := Option.bind_eq_some_iff.mp ha
        obtain rfl := Option.some.inj ha
        have honce : fix.command.Once t := once_fixGraph? hg hkind hfix (.inl kind.opposite_ne.symm)
        exact honce
      · cases ha
    · cases ha
  · cases ha

lemma once_consolidate? (ha : consolidate? t (Source.ofText t) request = some action) : action.command.Once t := by
  obtain ⟨ps, used, graph, m, h, hcommand, hedits, happly⟩ := exists_merged ha
  apply Command.once_intro hedits happly
  rw [hcommand]
  exact m.edits_stale h

/-- No action that is offered for a text can be carried out twice: sent to the text that it made, its command finds
that it has become stale. -/
theorem stale_of_mem_offers (t : Text) (request : Span) :
    ∀ action ∈ offers t (Source.ofText t) request, ∃ edits t',
      Command.execute action.command.id t (Source.ofText t) action.command.arguments = .ok edits ∧
        Edit.applyAll t edits = .ok t' ∧
          ∃ s, Command.execute action.command.id t' (Source.ofText t') action.command.arguments =
          .error (.stale s) := by
  intro action ha
  have honce : action.command.Once t := by
    rcases List.mem_append.mp ha with ha | ha
    · exact once_quickFixes ha
    · rcases List.mem_append.mp ha with ha | ha
      · exact once_convertGraph? (Option.mem_toList.mp ha)
      · exact once_consolidate? (Option.mem_toList.mp ha)
  obtain ⟨edits, t', hedits, happly, s, hstale⟩ := honce
  refine ⟨edits, t', Command.execute_arguments hedits, happly, s, ?_⟩
  rw [Command.execute, Command.decode_arguments]
  simp only [bind, Except.bind, hstale]
  rfl

theorem stale_of_mem_offers_subgraph :
    let t : Text := "graph \x7b a -- b; a -- \x7bc d\x7d \x7d".toList
    ∃ action ∈ offers t (Source.ofText t) (.caret 8),
      action.command = .consolidate ⟨true, [⟨⟨8, 15⟩, ⟨8, 9⟩, ⟨13, 14⟩⟩, ⟨⟨16, 26⟩, ⟨16, 17⟩, ⟨21, 26⟩⟩]⟩ ∧
      ∃ edits t', Command.execute action.command.id t (Source.ofText t) action.command.arguments = .ok edits ∧
        Edit.applyAll t edits = .ok t' ∧
          ∃ s, Command.execute action.command.id t' (Source.ofText t') action.command.arguments =
          .error (.stale s) := by
  intro t
  have hmem : Command.consolidate ⟨true, [⟨⟨8, 15⟩, ⟨8, 9⟩, ⟨13, 14⟩⟩, ⟨⟨16, 26⟩, ⟨16, 17⟩, ⟨21, 26⟩⟩]⟩ ∈
      (offers t (Source.ofText t) (.caret 8)).map Action.command := by
    decide +kernel
  obtain ⟨action, ha, hcommand⟩ := List.mem_map.mp hmem
  exact ⟨action, ha, hcommand, stale_of_mem_offers t _ action ha⟩

end Action

end DotMend
