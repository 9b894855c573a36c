import DotMend.Proofs.Action.Merge
import DotMend.Proofs.Command.Candidate
import DotMend.Proofs.Text.Removal
import DotMend.Proofs.Token.Gluing

namespace DotMend

open Token

@[simp] lemma PlainEdge.span_tree (e : PlainEdge) : e.tree.span = e.info.span := rfl

def PlainEdge.single (e : PlainEdge) : SingleEdge :=
  ⟨e.info, e.sourceInfo, e.name, e.rhsInfo, e.operation, e.target, [], e.terminator⟩

lemma PlainEdge.rhs_mem_preorder (e : PlainEdge) :
    .edgeRhs e.rhsInfo e.operation (some e.target) ∈ e.tree.preorder fun _ => true := e.single.rhs_mem

lemma PlainEdge.target_mem_preorder (e : PlainEdge) : e.target ∈ e.tree.preorder fun _ => true :=
  e.single.target_mem

namespace Merge

variable {t : Text} {ps : List Piece} {used : List Token} {graph : Tree} (m : Merge t graph)

lemma mem_children {e : PlainEdge} (he : e ∈ m.edges) : e.tree ∈ m.holder.children := by
  rw [m.children_eq]
  rcases List.mem_cons.mp he with rfl | he
  · simp
  · have := m.rest_sublist.subset (List.mem_map_of_mem he)
    simp [this]

lemma mem_preorder {e : PlainEdge} (he : e ∈ m.edges) : e.tree ∈ graph.preorder fun _ => true :=
  Tree.mem_preorder_child m.holder_mem (m.mem_children he)

lemma ordered (hp : graph.Everywhere Tree.Placed) :
    m.edges.Pairwise fun a b => a.info.span.stop ≤ b.info.span.start := by
  have happ := (hp.of_mem_preorder m.holder_mem).here.apart
  rw [m.children_eq] at happ
  have hsub : (m.edges.map PlainEdge.tree).Sublist (m.seed.tree :: m.later) := m.rest_sublist.cons_cons _
  exact List.pairwise_map.mp ((List.pairwise_append.mp happ).2.1.sublist hsub)

lemma target_inside (hp : graph.Everywhere Tree.Placed) {e : PlainEdge} (he : e ∈ m.edges) :
    e.info.span.start ≤ e.target.span.start ∧ e.target.span.stop ≤ e.info.span.stop := by
  have hin := (hp.of_mem_preorder (m.mem_preorder he))
  exact ⟨(hin.inside e.target_mem_preorder).1, (hin.inside e.target_mem_preorder).2.1⟩

def targetText (t : Text) (e : PlainEdge) : Text := (t.slice? e.target.span).getD []

lemma slice_target (h : Source.GraphReading t ps used graph) {e : PlainEdge} (he : e ∈ m.edges) :
    t.slice? e.target.span = some (targetText t e) := by
  obtain ⟨x, -, hx⟩ := h.exists_slice (Tree.mem_preorder_trans (m.mem_preorder he) e.target_mem_preorder)
  rw [targetText, hx]
  rfl

lemma target_eq (h : Source.GraphReading t ps used graph) {e : PlainEdge} (he : e ∈ m.edges) {seed : Option Text}
    (hseed : ∀ s ∈ seed, m.text = s) :
    Consolidation.target t (Source.ofText t) seed e.candidate = .ok (m.text, targetText t e) := by
  have hat : e.single.IsAt graph e.candidate := ⟨m.mem_preorder he, rfl⟩
  have hverify := (Candidate.verify_eq_ok_iff h).mpr ⟨⟨e.single, hat⟩, m.slice_name e he⟩
  exact Consolidation.target_eq_ok_iff.mpr ⟨hverify, hseed, m.slice_target h he⟩

def removals (m : Merge t graph) : List Span := m.rest.map fun e => Consolidation.removal t.utf8 e.info.span

lemma removals_eq : (m.rest.map PlainEdge.candidate).map (fun r => Consolidation.removal t.utf8 r.statement) =
    m.removals := by
  rw [List.map_map]
  rfl

def grouping (m : Merge t graph) : Edit :=
  ⟨m.seed.target.span, Consolidation.group (m.edges.map (targetText t)), "Group edge targets"⟩

lemma grouping_eq_spell {pieces : PlainEdge → List Piece} (h : ∀ e ∈ m.edges, spell (pieces e) = targetText t e) :
    m.grouping.replacement.toList = spell (grouped (m.edges.map pieces)) := by
  have htexts : (m.edges.map pieces).map spell = m.edges.map (targetText t) := by
    rw [List.map_map]
    exact List.map_congr_left h
  rw [spell_grouped, htexts]
  simp [grouping, Consolidation.group]

def edits (m : Merge t graph) : List Edit :=
  m.grouping :: m.removals.map (.delete · "Remove consolidated edge statement")

theorem consolidation_edits (h : Source.GraphReading t ps used graph) :
    m.consolidation.edits t (Source.ofText t) = .ok m.edits := by
  have hseed := @target_eq t ps used graph m h m.seed (by simp [Merge.edges]) none (by simp)
  have hothers : (m.rest.map PlainEdge.candidate).mapM (Consolidation.target t (Source.ofText t) (some m.text)) =
      .ok (m.rest.map fun e => (m.text, targetText t e)) := by
    rw [List.mapM_map]
    apply mapM_eq_ok
    intro e he
    exact m.target_eq h (by simp [Merge.edges, he]) (by simp)
  have htargets : m.consolidation.targets t (Source.ofText t) m.seed.candidate (m.rest.map PlainEdge.candidate) =
      .ok (m.edges.map (targetText t)) :=
    Consolidation.targets_eq_ok_iff.mpr ⟨_, _, _, hseed, hothers, by simp [Merge.edges]⟩
  refine Consolidation.edits_eq_ok_iff.mpr ⟨_, _, _, rfl, ?_, htargets, ?_⟩
  · simpa using m.rest_ne_nil
  · simp [Merge.edits, Merge.grouping, Merge.removals, PlainEdge.candidate]

lemma edits_fit (h : Source.GraphReading t ps used graph) : ∀ e ∈ m.edits, e.Fits t := by
  have hremoval {s : Tree} (hs : s ∈ graph.preorder fun _ => true) :
      ∃ x, x ≠ [] ∧ t.slice? (Consolidation.removal t.utf8 s.span) = some x := by
    obtain ⟨a, x, b, rfl, hspan, ⟨c, hc, -⟩, -⟩ := h.exists_text hs
    obtain ⟨before, lead, trail, behind, rfl, rfl, -, hremoval⟩ := Consolidation.exists_trim a x b
    refine ⟨lead ++ x ++ trail, by rintro hx; simp at hx; simp [hx] at hc, ?_⟩
    have := Text.slice?_bytes before (lead ++ x ++ trail) behind
    rw [hspan, hremoval]
    simpa [Nat.add_assoc] using this
  intro e he
  rcases List.mem_cons.mp he with rfl | he
  · exact h.exists_slice (Tree.mem_preorder_trans (m.mem_preorder List.mem_cons_self) m.seed.target_mem_preorder)
  · obtain ⟨r, hr, rfl⟩ := List.mem_map.mp he
    obtain ⟨d, hd, rfl⟩ := List.mem_map.mp hr
    have := hremoval (m.mem_preorder (List.mem_cons_of_mem _ hd))
    rwa [d.span_tree] at this

lemma solid_of_not_isBlank {c : Char} (h : Lexeme.isBlank c = false) :
    Consolidation.isBlankChar c = false ∧ c ≠ '\r' ∧ c ≠ '\n' := by
  rw [← Bool.not_eq_true, Lexeme.isBlank_iff] at h
  simp only [not_or] at h
  exact ⟨by simp [Consolidation.isBlankChar, h.1, h.2.1], h.2.2.1, h.2.2.2.1⟩

lemma removal_apart (h : Source.GraphReading t ps used graph) {s s' : Tree} (hs : s ∈ graph.preorder fun _ => true)
    (hs' : s' ∈ graph.preorder fun _ => true) (hle : s.span.stop ≤ s'.span.start) :
    s.span.stop ≤ (Consolidation.removal t.utf8 s'.span).start ∧
      (Consolidation.removal t.utf8 s.span).stop ≤ (Consolidation.removal t.utf8 s'.span).start := by
  obtain ⟨a, x, b, ht, hspan, -, hlast⟩ := h.exists_text hs
  obtain ⟨a', x', b', ht', hspan', ⟨d, hd, hdb⟩, -⟩ := h.exists_text hs'
  rw [hspan, hspan'] at hle ⊢
  obtain ⟨g, rfl, hb⟩ := Text.exists_append_of_bytes_le (ht.symm.trans (by rw [ht', List.append_assoc])) hle
  obtain ⟨c, hc, hcb⟩ := hlast (by rw [hb]; intro hnil; simp at hnil; simp [hnil] at hd)
  obtain ⟨before, lead, trail, behind, ha, hb', htrim, hremoval⟩ := Consolidation.exists_trim a x b
  obtain ⟨before', lead', trail', behind', ha', -, htrim', hremoval'⟩ :=
    Consolidation.exists_trim (a ++ x ++ g) x' b'
  rw [← ht] at hremoval
  rw [← ht'] at hremoval'
  have hlastc : (a ++ x).getLast? = some c := by simp [List.getLast?_append, hc]
  have hheadd : (x' ++ b').head? = some d := by simp [List.head?_append, hd]
  -- Between the two stands `g`, which both may take from: the one in front up to a line break, the other only
  -- blanks.
  obtain ⟨g₂, hg, rfl⟩ := htrim'.exists_lead ha'.symm fun e he =>
    Option.some.inj (hlastc.symm.trans he) ▸ (solid_of_not_isBlank hcb).1
  obtain ⟨g₁, hg', -⟩ := htrim.exists_trail (hb'.symm.trans hb) fun e he =>
    Option.some.inj (hheadd.symm.trans he) ▸ solid_of_not_isBlank hdb
  have hbytes := htrim.bytes_le htrim' hg' hg rfl ⟨c, hlastc, (solid_of_not_isBlank hcb).2.2⟩
  rw [hremoval, hremoval', ← ha]
  simp only [Text.bytes_append] at hbytes ⊢
  omega

lemma target_le_removals (h : Source.GraphReading t ps used graph) :
    ∀ r ∈ m.removals, m.seed.target.span.stop ≤ r.start := by
  intro r hr
  obtain ⟨d, hd, rfl⟩ := List.mem_map.mp hr
  have hle := (List.pairwise_cons.mp (m.ordered h.wellPlaced)).1 d hd
  have hin := (m.target_inside h.wellPlaced (e := m.seed) List.mem_cons_self).2
  exact (removal_apart h (Tree.mem_preorder_trans (m.mem_preorder List.mem_cons_self) m.seed.target_mem_preorder)
    (m.mem_preorder (List.mem_cons_of_mem _ hd)) (hin.trans hle)).1

lemma removals_ordered (h : Source.GraphReading t ps used graph) :
    m.removals.Pairwise fun a b => a.stop ≤ b.start := by
  refine List.pairwise_map.mpr ((List.pairwise_cons.mp (m.ordered h.wellPlaced)).2.imp_of_mem ?_)
  intro e e' he he' hle
  exact (removal_apart h (m.mem_preorder (List.mem_cons_of_mem _ he)) (m.mem_preorder (List.mem_cons_of_mem _ he'))
    hle).2

lemma edits_apart (h : Source.GraphReading t ps used graph) : m.edits.Pairwise Edit.Apart := by
  refine List.pairwise_cons.mpr ⟨?_, List.pairwise_map.mpr ((m.removals_ordered h).imp Or.inl)⟩
  intro e he
  obtain ⟨r, hr, rfl⟩ := List.mem_map.mp he
  exact .inl (m.target_le_removals h r hr)

lemma rewritten_edits_eq (h : Source.GraphReading t ps used graph) {a x b : Text} (ht : t = a ++ x ++ b)
    (hspan : m.seed.target.span = ⟨a.bytes, a.bytes + x.bytes⟩) :
    Edit.rewritten m.edits 0 t =
      a ++ m.grouping.replacement.toList ++ Edit.rewritten m.edits (a.bytes + x.bytes) b := by
  have hstart : m.grouping.span.start = a.bytes := congrArg Span.start hspan
  have hstop : m.grouping.span.stop = a.bytes + x.bytes := congrArg Span.stop hspan
  have hlt := (m.edits_fit h m.grouping List.mem_cons_self).lt
  have hfront : Edit.rewritten m.edits 0 a = a := by
    apply Edit.rewritten_of_not_covers
    rintro e he n - hn ⟨hge, -⟩
    have hle : m.grouping.span.start ≤ e.span.start := by
      rcases List.mem_cons.mp he with rfl | he
      · exact le_rfl
      · obtain ⟨r, hr, rfl⟩ := List.mem_map.mp he
        exact hlt.le.trans (m.target_le_removals h r hr)
    omega
  have htarget : Edit.rewritten m.edits a.bytes x = m.grouping.replacement.toList := by
    rw [← hstart]
    apply Edit.rewritten_start (m.edits_apart h) List.mem_cons_self
    · rintro rfl
      simp only [Text.bytes_nil] at hstop
      omega
    · omega
  calc Edit.rewritten m.edits 0 t
    _ = Edit.rewritten m.edits 0 (a ++ x ++ b) := congrArg _ ht
    _ = _ := by rw [Edit.rewritten_append, Edit.rewritten_append, hfront, Nat.zero_add, Nat.zero_add, htarget,
        Text.bytes_append]

end Merge

theorem Action.exists_merged {t : Text} {request : Span} {action : Action}
    (ha : consolidate? t (Source.ofText t) request = some action) :
    ∃ ps used graph, ∃ m : Merge t graph, Source.GraphReading t ps used graph ∧
      action.command = .consolidate m.consolidation ∧ action.command.edits t (Source.ofText t) = .ok m.edits ∧
      Edit.applyAll t m.edits = .ok (Edit.rewritten m.edits 0 t) := by
  cases hg : (Source.ofText t).graph with
  | none => simp [consolidate?, seedAt?, hg] at ha
  | some graph =>
    obtain ⟨ps, used, h⟩ := Source.exists_graphReading hg
    obtain ⟨m, hcommand⟩ := exists_merge h ha
    refine ⟨ps, used, graph, m, h, hcommand, ?_, Edit.applyAll_eq_rewritten (m.edits_fit h) (m.edits_apart h)⟩
    rw [hcommand]
    exact m.consolidation_edits h

lemma Action.exists_consolidated {t t' : Text} {request : Span} {c : Consolidation} {edits : List Edit}
    (hoffer : (consolidate? t (Source.ofText t) request).map Action.command = some (.consolidate c))
    (hedits : (c.edits t (Source.ofText t)).toOption = some edits) (ht' : Edit.rewritten edits 0 t = t') :
    ∃ action, consolidate? t (Source.ofText t) request = some action ∧ action.command = .consolidate c ∧
      action.command.edits t (Source.ofText t) = .ok edits ∧ Edit.applyAll t edits = .ok t' := by
  obtain ⟨action, ha, hcommand⟩ := Option.map_eq_some_iff.mp hoffer
  obtain ⟨ps, used, graph, m, -, -, hm, happly⟩ := exists_merged ha
  have hsame : c.edits t (Source.ofText t) = .ok m.edits := by rwa [hcommand] at hm
  obtain rfl : m.edits = edits := by simpa [hsame, Except.toOption] using hedits
  exact ⟨action, ha, hcommand, hm, ht' ▸ happly⟩

end DotMend
