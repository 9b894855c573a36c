import DotMend.Proofs.Command.Consolidation
import DotMend.Proofs.Command.GraphFix
import DotMend.Proofs.Command.Wire

namespace DotMend.Action

open Token

def Executable (t : Text) (c : Command) : Prop :=
  ∃ edits t', c.edits t (Source.ofText t) = .ok edits ∧ Edit.applyAll t edits = .ok t'

variable {t : Text} {graph : Tree} {request : Span} {action : Action}

lemma executable_fixGraph? (hg : (Source.ofText t).graph = some graph) {wanted : GraphKind}
    (ha : fixGraph? graph wanted = some action) : Executable t action.command := by
  obtain ⟨f, ps, ⟨title, hf⟩, -, -, -, ⟨edits, hedits, happly⟩, -⟩ := GraphFix.exists_offered hg wanted
  obtain rfl := Option.some.inj (hf.symm.trans ha)
  exact ⟨edits, _, hedits, happly⟩

lemma executable_changeOperator (hg : (Source.ofText t).graph = some graph) {o : Tree}
    (ho : o ∈ graph.edgeOperations) {op wanted : EdgeOp} (hop : o.edgeOp? = some op) :
    Executable t (.changeOperator ⟨o.span, op, wanted⟩) := by
  obtain ⟨ps, used, h⟩ := Source.exists_graphReading hg
  obtain ⟨op', hop', hslice⟩ := h.slice_operation ho
  obtain rfl : op' = op := Option.some.inj (hop'.symm.trans hop)
  refine ⟨[⟨o.span, wanted.text, OperatorChange.title op' wanted⟩], _, ?_, Edit.applyAll_eq_rewritten ?_ (by simp)⟩
  · have hverify : verifyOperator t o.span op' = .ok () := by
      simp [verifyOperator, hslice, EdgeOp.ofText?_eq_some_iff]
    simp only [Command.edits, OperatorChange.edits, hverify]
    rfl
  · intro e he
    obtain rfl := List.mem_singleton.mp he
    exact ⟨_, by cases op' <;> simp [EdgeOp.text], hslice⟩

lemma executable_quickFixes (ha : action ∈ quickFixes (Source.ofText t) request) :
    Executable t action.command := by
  obtain ⟨d, -, ha⟩ := List.mem_flatMap.mp ha
  unfold fixesFor at ha
  split at ha
  · rename_i graph _ hg
    unfold operatorFixes at ha
    split at ha
    · rename_i current offending _ hfind
      obtain ⟨o, ho, hop⟩ := Option.bind_eq_some_iff.mp hfind
      have hspan : o.span = d.span := by simpa using List.find?_some ho
      simp only [List.cons_append, List.mem_cons, List.mem_append, Option.mem_toList] at ha
      rcases ha with rfl | ha | ha
      · exact hspan ▸ executable_changeOperator hg (List.mem_of_find?_eq_some ho) hop
      · exact executable_fixGraph? hg ha
      · exact executable_fixGraph? hg ha
    · simp at ha
  · simp at ha

lemma executable_convertGraph? (ha : convertGraph? (Source.ofText t) request = some action) :
    Executable t action.command := by
  unfold convertGraph? at ha
  split at ha
  · rename_i graph hg
    split at ha
    · split at ha
      · obtain ⟨kind, -, ha⟩ := Option.bind_eq_some_iff.mp ha
        obtain ⟨fix, hfix, ha⟩ := Option.bind_eq_some_iff.mp ha
        obtain rfl := Option.some.inj ha
        have hfixed : Executable t fix.command := executable_fixGraph? hg hfix
        exact hfixed
      · simp at ha
    · simp at ha
  · simp at ha

lemma executable_consolidate? (ha : consolidate? t (Source.ofText t) request = some action) :
    Executable t action.command := by
  obtain ⟨ps, used, graph, m, -, -, hedits, happly⟩ := exists_merged ha
  exact ⟨m.edits, _, hedits, happly⟩

/-- No action that is offered for a text is refused by it: sent by its name and its payload, its command finds
everything where it expects it, and its edits neither overlap nor leave the text. -/
theorem execute_of_mem_offers (t : Text) (request : Span) :
    ∀ action ∈ offers t (Source.ofText t) request, ∃ edits t',
      Command.execute action.command.id t (Source.ofText t) action.command.arguments = .ok edits ∧
        Edit.applyAll t edits = .ok t' := by
  intro action ha
  have hexecutable : Executable t action.command := by
    rcases List.mem_append.mp ha with ha | ha
    · exact executable_quickFixes ha
    · rcases List.mem_append.mp ha with ha | ha
      · exact executable_convertGraph? (Option.mem_toList.mp ha)
      · exact executable_consolidate? (Option.mem_toList.mp ha)
  obtain ⟨edits, t', hedits, happly⟩ := hexecutable
  exact ⟨edits, t', Command.execute_arguments hedits, happly⟩

theorem execute_of_mem_offers_lines :
    let t : Text := "graph \x7b\na--b;a->c;\n\ta--d;\n\x7d".toList
    ∃ action ∈ offers t (Source.ofText t) (.caret 9),
      action.command = .consolidate ⟨true, [⟨⟨8, 13⟩, ⟨8, 9⟩, ⟨11, 12⟩⟩, ⟨⟨13, 18⟩, ⟨13, 14⟩, ⟨16, 17⟩⟩,
        ⟨⟨20, 25⟩, ⟨20, 21⟩, ⟨23, 24⟩⟩]⟩ ∧
      ∃ edits t', Command.execute action.command.id t (Source.ofText t) action.command.arguments = .ok edits ∧
        Edit.applyAll t edits = .ok t' := by
  intro t
  have hmem : Command.consolidate ⟨true, [⟨⟨8, 13⟩, ⟨8, 9⟩, ⟨11, 12⟩⟩, ⟨⟨13, 18⟩, ⟨13, 14⟩, ⟨16, 17⟩⟩,
      ⟨⟨20, 25⟩, ⟨20, 21⟩, ⟨23, 24⟩⟩]⟩ ∈ (offers t (Source.ofText t) (.caret 9)).map Action.command := by
    decide +kernel
  obtain ⟨action, ha, hcommand⟩ := List.mem_map.mp hmem
  exact ⟨action, ha, hcommand, execute_of_mem_offers t _ action ha⟩

end DotMend.Action
