import DotMend.Command.Execute
import DotMend.Proofs.Text.Replacement

namespace DotMend

open Json Json.Decoder

@[simp] lemma natural_nat (r : Reading) (n : Nat) : natural r (Json.nat n) = .ok n := by
  simp [natural, Json.nat]

@[simp] lemma boolean_bool (r : Reading) (b : Bool) : boolean r (.bool b) = .ok b := rfl

@[simp] lemma variant_edgeOp (r : Reading) (op : EdgeOp) : variant EdgeOp.names r (.string op.name) = .ok op := by
  cases op <;> rfl

@[simp] lemma variant_graphKind (r : Reading) (k : GraphKind) :
    variant GraphKind.names r (.string k.keyword) = .ok k := by
  cases k <;> rfl

lemma sequence_array {α : Type} {d : Decoder α} {toJson : α → Json} {r : Reading} (h : ∀ a, d r (toJson a) = .ok a)
    (items : List α) : Decoder.sequence d r (.array (items.map toJson)) = .ok items := by
  have hitems : items.mapM (d r ∘ toJson) = .ok (items.map id) := mapM_eq_ok fun a _ => h a
  rw [Decoder.sequence, List.mapM_map, hitems, List.map_id]

@[simp] lemma Span.decoder_toJson (r : Reading) (s : Span) : Span.decoder r s.toJson = .ok s := by
  simp [Span.decoder, Span.toJson, record, Fields.and, Fields.all, Fields.field]

@[simp] lemma Candidate.decoder_toJson (r : Reading) (c : Candidate) : Candidate.decoder r c.toJson = .ok c := by
  simp [Candidate.decoder, Candidate.toJson, record, Fields.and, Fields.all, Fields.field]

lemma OperatorChange.decoder_toJson (r : Reading) (c : OperatorChange) :
    OperatorChange.decoder r c.toJson = .ok c := by
  simp [OperatorChange.decoder, OperatorChange.toJson, record, Fields.and, Fields.all, Fields.field]

lemma GraphFix.decoder_toJson (r : Reading) (f : GraphFix) : GraphFix.decoder r f.toJson = .ok f := by
  simp [GraphFix.decoder, GraphFix.toJson, record, Fields.and, Fields.all, Fields.field,
    sequence_array (Span.decoder_toJson r)]

lemma Consolidation.decoder_toJson (r : Reading) (c : Consolidation) :
    Consolidation.decoder r c.toJson = .ok c := by
  simp [Consolidation.decoder, Consolidation.toJson, record, Fields.and, Fields.all, Fields.field,
    sequence_array (Candidate.decoder_toJson r)]

theorem Command.decode_arguments (c : Command) : Command.decode c.id c.arguments = .ok c := by
  cases c with
  | changeOperator c =>
    simp [decode, payloads, decoders, ids, id, arguments, OperatorChange.decoder_toJson, Except.map,
      Except.mapError]
  | fixGraph f =>
    simp [decode, payloads, decoders, ids, id, arguments, OperatorChange.id, GraphFix.id, GraphFix.decoder_toJson,
      Except.map, Except.mapError]
  | consolidate c =>
    simp [decode, payloads, decoders, ids, id, arguments, OperatorChange.id, GraphFix.id, Consolidation.id,
      Consolidation.decoder_toJson, Except.map, Except.mapError]

lemma Command.execute_arguments {c : Command} {t : Text} {source : Source} {edits : List Edit}
    (h : c.edits t source = .ok edits) : Command.execute c.id t source c.arguments = .ok edits := by
  rw [Command.execute, Command.decode_arguments]
  simp only [bind, Except.bind, h]
  rfl

end DotMend
