import DotMend.Mend
import DotMend.Proofs.Command.Wire

namespace DotMend.Command

open Json Json.Decoder

def answer (document : Text) (source : Source) (c : Command) : Except ExecuteError (List Edit) :=
  (c.edits document source).mapError .stale

def returned? (v : Json) : Option (String × List Json) :=
  match v.field? "command", v.field? "arguments" with
  | some (.string id), some (.array items) => some (id, items)
  | _, _ => none

def applied (document : Text) (answer : Except ExecuteError (List Edit)) :
    Except MendError (List Edit × Text) := do
  let edits ← answer.mapError .execute
  let text ← (Edit.applyAll document edits).mapError .edit
  pure (edits, text)

lemma variant_payloads (r : Reading) (c : Command) :
    ∃ payload, variant payloads r (.string c.id) = .ok payload ∧ ∀ r', payload r' c.arguments = .ok c := by
  cases c with
  | changeOperator c => exact ⟨_, rfl, fun r' => congrArg (Except.map _) (OperatorChange.decoder_toJson r' c)⟩
  | fixGraph f => exact ⟨_, rfl, fun r' => congrArg (Except.map _) (GraphFix.decoder_toJson r' f)⟩
  | consolidate c => exact ⟨_, rfl, fun r' => congrArg (Except.map _) (Consolidation.decoder_toJson r' c)⟩

lemma decoder_toJson (r : Reading) (c : Command) : Command.decoder r c.toJson = .ok c := by
  obtain ⟨payload, hpayload, hdecode⟩ := variant_payloads r c
  simp [Command.decoder, Command.toJson, tag_eq_id, variants_eq_payloads, tagged, hpayload, bind, Except.bind,
    hdecode]

lemma execute_eq_answer (document : Text) (source : Source) (c : Command) :
    execute c.id document source c.arguments = c.answer document source := by
  rw [execute, decode_arguments]
  rfl

lemma returned?_toEditorJson (title : String) (c : Command) :
    returned? (c.toEditorJson title) = some (c.id, [c.arguments]) := rfl

lemma apply_eq_applied (document : Text) (source : Source) (c : Command) :
    c.apply document source = applied document (c.answer document source) := by
  rw [apply, applied, answer]
  cases c.edits document source <;> rfl

lemma runCommand_array (t : Text) (c : Command) :
    runCommand t c.id (.array [c.arguments]) = (applied t (c.answer t (Source.ofText t))).map Prod.snd := by
  have hedits : executeList c.id t (Source.ofText t) [c.arguments] = c.answer t (Source.ofText t) :=
    execute_eq_answer t _ c
  rw [runCommand, hedits, applied]
  cases c.answer t (Source.ofText t) with
  | error e => rfl
  | ok edits =>
    cases h : Edit.applyAll t edits <;> simp [Except.mapError, bind, Except.bind, h, Except.map, pure, Except.pure]

lemma runCommand_payload (t : Text) (c : Command) :
    runCommand t c.id c.arguments = runCommand t c.id (.array [c.arguments]) := by
  cases c <;> rfl

/-- Wherever a command comes from, the same is made of it: it is decoded to itself, and sent by its name and
payload, kept by an editor or carried out from its own data it yields the same edits or the same error for every
text and every tree. So does the command line, which takes the payload alone or in an array and applies the
edits. -/
theorem routes_agree (c : Command) :
    Command.decoder .direct c.toJson = .ok c ∧
    (∀ document source,
      execute c.id document source c.arguments = c.answer document source ∧
      (∀ title, ∃ id items, returned? (c.toEditorJson title) = some (id, items) ∧
        executeList id document source items = c.answer document source) ∧
      c.apply document source = applied document (c.answer document source)) ∧
    ∀ t, runCommand t c.id c.arguments = (applied t (c.answer t (Source.ofText t))).map Prod.snd ∧
      runCommand t c.id (.array [c.arguments]) = (applied t (c.answer t (Source.ofText t))).map Prod.snd := by
  refine ⟨decoder_toJson .direct c, fun document source => ⟨execute_eq_answer document source c, fun title => ?_,
    apply_eq_applied document source c⟩, fun t => ?_⟩
  · exact ⟨c.id, [c.arguments], returned?_toEditorJson title c, execute_eq_answer document source c⟩
  · exact ⟨(runCommand_payload t c).trans (runCommand_array t c), runCommand_array t c⟩

end DotMend.Command
