import DotMend.Editor.Shape
import DotMend.Proofs.Action.Repetition
import DotMend.Proofs.Source.Closing
import DotMend.Proofs.Text.Positions

namespace DotMend

open Token

namespace Text

def Keeps (t : Text) (s : Span) : Prop := t.spanOf (t.regionOf s) = s

lemma keeps_of_slice {t x : Text} {s : Span} (h : t.slice? s = some x) (hhead : ∃ c, x.head? = some c ∧ c ≠ '\n')
    (hlast : x.getLast? ≠ some '\r') : t.Keeps s := by
  obtain ⟨a, b, rfl, rfl⟩ := slice?_eq_some_iff.mp h
  obtain ⟨c, hc, hne⟩ := hhead
  obtain ⟨x, rfl⟩ := List.head?_eq_some_iff.mp hc
  rw [Keeps, ← bytes_append]
  apply spanOf_regionOf
  · exact fun _ => ⟨c, rfl, hne⟩
  · intro hreturn
    rw [List.getLast?_append, List.getLast?_eq_some_getLast (List.cons_ne_nil c x)] at hreturn
    rw [List.getLast?_eq_some_getLast (List.cons_ne_nil c x)] at hlast
    exact absurd hreturn hlast

end Text

namespace Edit

def bare (e : Edit) : Edit := ⟨e.span, e.replacement, ""⟩

lemma applyFrom_map_bare (source head done : Text) (es : List Edit) :
    applyFrom source head done (es.map bare) = applyFrom source head done es := by
  induction es generalizing head done with
  | nil => rfl
  | cons e es ih =>
    simp only [List.map_cons, applyFrom, ih]
    rfl

lemma applyAll_map_bare (t : Text) (es : List Edit) : applyAll t (es.map bare) = applyAll t es := by
  have hsort : (es.mergeSort notBefore).map bare = (es.map bare).mergeSort notBefore :=
    List.map_mergeSort fun _ _ _ _ => rfl
  rw [applyAll, ← hsort, applyFrom_map_bare, applyAll]

end Edit

namespace Editor

def TextEdit.toEdit (t : Text) (e : TextEdit) : Edit := ⟨t.spanOf e.region, e.newText, ""⟩

def applyAll (t : Text) (es : List TextEdit) : Except EditError Text :=
  Edit.applyAll t (es.map (TextEdit.toEdit t))

lemma applyAll_ofEdit {t : Text} {es : List Edit} (h : ∀ e ∈ es, t.Keeps e.span) :
    applyAll t (es.map (TextEdit.ofEdit t)) = Edit.applyAll t es := by
  have hedits : (es.map (TextEdit.ofEdit t)).map (TextEdit.toEdit t) = es.map Edit.bare := by
    rw [List.map_map]
    apply List.map_congr_left
    intro e he
    rw [Function.comp, TextEdit.toEdit, TextEdit.ofEdit, h e he]
    rfl
  rw [applyAll, hedits, Edit.applyAll_map_bare]

end Editor

section Operators

variable {t : Text} {source : Source} {edits : List Edit}

lemma keeps_of_verifyOperator {s : Span} {op : EdgeOp} (h : verifyOperator t s op = .ok ()) : t.Keeps s := by
  apply Text.keeps_of_slice (slice_of_verifyOperator h)
  · cases op <;> exact ⟨'-', rfl, by decide⟩
  · cases op <;> decide

lemma keeps_of_verifyKeyword {f : GraphFix} {y : Text} (h : f.verifyKeyword t source = .ok y) :
    t.Keeps f.keyword := by
  obtain ⟨hslice, hkind, -⟩ := GraphFix.of_verifyKeyword h
  have hlower := GraphKind.map_toLower_of_ofText? hkind
  have hhead : (y.map Char.toLower).head? ≠ none ∧ (y.map Char.toLower).head? ≠ some '\n' := by
    rw [hlower]
    cases f.current <;> decide
  have hlast : (y.map Char.toLower).getLast? ≠ some '\r' := by
    rw [hlower]
    cases f.current <;> decide
  apply Text.keeps_of_slice hslice
  · cases y with
    | nil => simp at hhead
    | cons c y =>
      refine ⟨c, rfl, ?_⟩
      rintro rfl
      exact hhead.2 rfl
  · intro hreturn
    rw [List.getLast?_map, hreturn] at hlast
    exact hlast rfl

lemma OperatorChange.keeps_of_edits {c : OperatorChange} (h : c.edits t = .ok edits) :
    ∀ e ∈ edits, t.Keeps e.span := by
  obtain ⟨_, hverify, h⟩ := bind_eq_ok_iff.mp h
  obtain rfl := Except.ok.inj h
  exact List.forall_mem_singleton.mpr (keeps_of_verifyOperator hverify)

lemma GraphFix.keeps_of_edits {f : GraphFix} (h : f.edits t source = .ok edits) : ∀ e ∈ edits, t.Keeps e.span := by
  obtain ⟨spelling, hkeyword, h⟩ := bind_eq_ok_iff.mp h
  obtain ⟨operators, hoperators, h⟩ := bind_eq_ok_iff.mp h
  obtain rfl := Except.ok.inj h
  refine List.forall_mem_append.mpr
    ⟨fun e he => ?_, List.forall_mem_singleton.mpr (keeps_of_verifyKeyword hkeyword)⟩
  obtain ⟨s, -, hedit⟩ := (exists_of_mapM_eq_ok hoperators).2 e he
  obtain ⟨_, hverify, hedit⟩ := bind_eq_ok_iff.mp hedit
  obtain rfl := Except.ok.inj hedit
  exact keeps_of_verifyOperator hverify

end Operators

namespace Consolidation

lemma keeps_removal {a x b : Text} (hhead : ∃ c, x.head? = some c ∧ Lexeme.isBlank c = false)
    (hlast : ∃ c, x.getLast? = some c ∧ Lexeme.isBlank c = false) :
    (a ++ x ++ b).Keeps (removal (a ++ x ++ b).utf8 ⟨a.bytes, (a ++ x).bytes⟩) := by
  obtain ⟨before, lead, trail, behind, rfl, rfl, htrim, hremoval⟩ := exists_trim a x b
  obtain ⟨c, hc, hcb⟩ := hhead
  obtain ⟨d, hd, hdb⟩ := hlast
  have hslice : (before ++ lead ++ x ++ (trail ++ behind)).slice?
      (removal (before ++ lead ++ x ++ (trail ++ behind)).utf8
        ⟨(before ++ lead).bytes, (before ++ lead ++ x).bytes⟩) =
      some (lead ++ x ++ trail) := by
    rw [hremoval]
    apply Text.slice?_eq_some_iff.mpr
    exact ⟨before, behind, by simp, by simp⟩
  have hblank := htrim.blank.1
  apply Text.keeps_of_slice hslice
  · cases lead with
    | nil => exact ⟨c, by simp [List.head?_append, hc], (Merge.solid_of_not_isBlank hcb).2.2⟩
    | cons e lead =>
      refine ⟨e, rfl, ?_⟩
      rintro rfl
      have := hblank '\n' (by simp)
      simp [isBlankChar] at this
  · cases htail : trail.getLast? with
    | none =>
      rw [List.getLast?_append, htail, List.getLast?_append, hd]
      simpa using (Merge.solid_of_not_isBlank hdb).2.1
    | some e =>
      rw [List.getLast?_append, htail]
      rcases htrim.trail_blank_or with hblanks | hfeed
      · rintro he
        obtain rfl : e = '\r' := by simpa using he
        have := hblanks '\r' (List.mem_of_getLast? htail)
        simp [isBlankChar] at this
      · rw [htail] at hfeed
        obtain rfl := Option.some.inj hfeed
        simp

end Consolidation

lemma Merge.keeps_of_edits {t : Text} {graph : Tree} (m : Merge t graph)
    (hg : (Source.ofText t).graph = some graph) : ∀ e ∈ m.edits, t.Keeps e.span := by
  have hflagged {e : PlainEdge} (he : e ∈ m.edges) {s : Tree} (hs : s ∈ e.tree.preorder fun _ => true) :
      s.flagged = false := Tree.flagged_of_mem_preorder (m.faultless e he) hs
  refine List.forall_mem_cons.mpr ⟨?_, fun e he => ?_⟩
  · have hseed : m.seed ∈ m.edges := List.mem_cons_self
    obtain ⟨a, x, b, rfl, hspan, ⟨c, hc, hcb⟩, d, hd, hdb⟩ := Source.exists_solid_text hg
      (Tree.mem_preorder_trans (m.mem_preorder hseed) m.seed.target_mem_preorder)
      (hflagged hseed m.seed.target_mem_preorder)
    have hslice : (a ++ x ++ b).slice? m.seed.target.span = some x := by
      rw [hspan, Text.bytes_append]
      exact Text.slice?_bytes a x b
    apply Text.keeps_of_slice hslice
    · exact ⟨c, hc, (solid_of_not_isBlank hcb).2.2⟩
    · rw [hd]
      simpa using (solid_of_not_isBlank hdb).2.1
  · obtain ⟨r, hr, rfl⟩ := List.mem_map.mp he
    obtain ⟨d, hd, rfl⟩ := List.mem_map.mp hr
    have hmem : d ∈ m.edges := List.mem_cons_of_mem _ hd
    obtain ⟨a, x, b, rfl, hspan, hhead, hlast⟩ := Source.exists_solid_text hg (m.mem_preorder hmem)
      (hflagged hmem (Tree.mem_preorder_self _))
    rw [PlainEdge.span_tree] at hspan
    rw [Edit.delete, hspan]
    exact Consolidation.keeps_removal hhead hlast

namespace Action

variable {t : Text} {source : Source} {request : Span} {action : Action} {edits : List Edit}

lemma exists_fixGraph {graph : Tree} {wanted : GraphKind} (h : fixGraph? graph wanted = some action) :
    ∃ f, action.command = .fixGraph f := by
  unfold fixGraph? at h
  split at h
  · obtain ⟨current, -, h⟩ := Option.bind_eq_some_iff.mp h
    obtain rfl := Option.some.inj h
    exact ⟨_, rfl⟩
  · cases h

lemma keeps_of_fixGraph? {graph : Tree} {wanted : GraphKind} (h : fixGraph? graph wanted = some action)
    (hedits : action.command.edits t source = .ok edits) : ∀ e ∈ edits, t.Keeps e.span := by
  obtain ⟨f, hf⟩ := exists_fixGraph h
  rw [hf] at hedits
  exact f.keeps_of_edits hedits

lemma keeps_of_quickFixes (ha : action ∈ quickFixes source request)
    (hedits : action.command.edits t source = .ok edits) : ∀ e ∈ edits, t.Keeps e.span := by
  obtain ⟨d, -, ha⟩ := List.mem_flatMap.mp ha
  unfold fixesFor at ha
  split at ha
  · unfold operatorFixes at ha
    split at ha
    · simp only [List.cons_append, List.mem_cons, List.mem_append, Option.mem_toList] at ha
      rcases ha with rfl | ha | ha
      · exact OperatorChange.keeps_of_edits hedits
      · exact keeps_of_fixGraph? ha hedits
      · exact keeps_of_fixGraph? ha hedits
    · cases ha
  · cases ha

lemma keeps_of_convertGraph? (ha : convertGraph? source request = some action)
    (hedits : action.command.edits t source = .ok edits) : ∀ e ∈ edits, t.Keeps e.span := by
  unfold convertGraph? at ha
  split at ha
  · split at ha
    · split at ha
      · obtain ⟨kind, -, ha⟩ := Option.bind_eq_some_iff.mp ha
        obtain ⟨fix, hfix, ha⟩ := Option.bind_eq_some_iff.mp ha
        obtain rfl := Option.some.inj ha
        exact keeps_of_fixGraph? hfix hedits
      · cases ha
    · cases ha
  · cases ha

lemma keeps_of_consolidate? (ha : consolidate? t (Source.ofText t) request = some action)
    (hedits : action.command.edits t (Source.ofText t) = .ok edits) : ∀ e ∈ edits, t.Keeps e.span := by
  obtain ⟨ps, used, graph, m, h, -, hm, -⟩ := exists_merged ha
  obtain rfl := Except.ok.inj (hm.symm.trans hedits)
  exact m.keeps_of_edits h.parsed

/-- The edits of an action that is offered come back from lines and columns as they went, so that an editor which
carries them out there arrives at the same text. -/
theorem applyAll_of_mem_offers (t : Text) (request : Span) :
    ∀ action ∈ offers t (Source.ofText t) request, ∃ edits t',
      Command.execute action.command.id t (Source.ofText t) action.command.arguments = .ok edits ∧
        (∀ e ∈ edits, t.spanOf (t.regionOf e.span) = e.span) ∧
          Edit.applyAll t edits = .ok t' ∧ Editor.applyAll t (edits.map (Editor.TextEdit.ofEdit t)) = .ok t' := by
  intro action ha
  have hoffer : Executable t action.command ∧ ∀ edits, action.command.edits t (Source.ofText t) = .ok edits →
      ∀ e ∈ edits, t.Keeps e.span := by
    rcases List.mem_append.mp ha with ha | ha
    · exact ⟨executable_quickFixes ha, fun _ => keeps_of_quickFixes ha⟩
    · rcases List.mem_append.mp ha with ha | ha
      · have ha := Option.mem_toList.mp ha
        exact ⟨executable_convertGraph? ha, fun _ => keeps_of_convertGraph? ha⟩
      · have ha := Option.mem_toList.mp ha
        exact ⟨executable_consolidate? ha, fun _ => keeps_of_consolidate? ha⟩
  obtain ⟨⟨edits, t', hedits, happly⟩, hkeeps⟩ := hoffer
  have hplaces := hkeeps edits hedits
  exact ⟨edits, t', Command.execute_arguments hedits, hplaces, happly,
    (Editor.applyAll_ofEdit hplaces).trans happly⟩

theorem applyAll_of_mem_offers_lines :
    let t : Text := "graph \x7b\r\n  é -- b;\r\n  é -- c;\r\n\x7d".toList
    ∃ action ∈ offers t (Source.ofText t) (.caret 12),
      action.command = .consolidate ⟨true, [⟨⟨11, 19⟩, ⟨11, 13⟩, ⟨17, 18⟩⟩, ⟨⟨23, 31⟩, ⟨23, 25⟩, ⟨29, 30⟩⟩]⟩ ∧
      ∃ edits t', Command.execute action.command.id t (Source.ofText t) action.command.arguments = .ok edits ∧
        (∀ e ∈ edits, t.spanOf (t.regionOf e.span) = e.span) ∧
          Edit.applyAll t edits = .ok t' ∧ Editor.applyAll t (edits.map (Editor.TextEdit.ofEdit t)) = .ok t' := by
  intro t
  have hmem : Command.consolidate ⟨true, [⟨⟨11, 19⟩, ⟨11, 13⟩, ⟨17, 18⟩⟩, ⟨⟨23, 31⟩, ⟨23, 25⟩, ⟨29, 30⟩⟩]⟩ ∈
      (offers t (Source.ofText t) (.caret 12)).map Action.command := by
    decide +kernel
  obtain ⟨action, ha, hcommand⟩ := List.mem_map.mp hmem
  exact ⟨action, ha, hcommand, applyAll_of_mem_offers t _ action ha⟩

end Action

end DotMend
