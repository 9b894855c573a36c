import DotMend.Proofs.Parse.Layout

namespace DotMend

namespace Tree

def operators (t : Tree) : List Tree := (t.preorder fun _ => true).filter (·.kind.isEdgeOp)

lemma operators_eq (t : Tree) :
    t.operators = (if t.kind.isEdgeOp then [t] else []) ++ t.children.flatMap operators := by
  rw [operators, preorder_eq, List.filter_cons, List.filter_flatMap]
  cases t.kind.isEdgeOp <;> rfl

lemma Proper.eq_token {t : Tree} (h : t.Proper) (hk : t.kind.isEdgeOp) : ∃ i k, t = .token i k := by
  cases t with
  | token i k => exact ⟨i, k, rfl⟩
  | identifier i k text =>
    simp only [Proper, kind] at h hk
    cases k <;> simp [Kind.isIdentifier, Kind.isEdgeOp, Kind.edgeOp?] at h hk
  | _ => simp [kind, Kind.isEdgeOp, Kind.edgeOp?] at hk

lemma exclusive_of_isEdgeOp {k : Kind} (h : k.isEdgeOp = true) :
    k.isIdentifier = false ∧ k.isStatement = false ∧ k.isEndpoint = false ∧ Parse.isSubject k = false ∧
      Parse.endsAttr k = false ∧ k.graphKind?.isSome = false ∧
      k ∉ [.strictKeyword, .attrList, .semicolon, .edgeRhs, .nodeId, .subgraph, .subgraphKeyword, .port,
      .attr] := by
  cases k <;> simp [Kind.isEdgeOp, Kind.edgeOp?] at h
  · decide
  · decide

lemma Proper.not_isEdgeOp {t c : Tree} (h : t.Proper) (ht : t.operation? = none) (hc : c ∈ t.children) :
    c.kind.isEdgeOp = false := by
  by_contra hop
  have hop := exclusive_of_isEdgeOp (Bool.not_eq_false _ ▸ hop)
  simp only [List.mem_cons, not_or] at hop
  rw [children_eq] at hc
  cases t with
  | token | identifier => simp at hc
  | edgeRhs => simp [operation?] at ht
  | _ =>
    simp only [Proper, List.mem_append, List.mem_cons, Option.mem_toList] at h hc
    grind

theorem edgeOperations_eq_operators {t : Tree} (h : t.Everywhere Proper) :
    t.edgeOperations = if t.kind.isEdgeOp then [] else t.operators := by
  induction t using induction_on_children with
  | h t ih =>
    have ih : ∀ c ∈ t.children, c.edgeOperations = if c.kind.isEdgeOp then [] else c.operators :=
      fun c hc => ih c hc (h.child hc)
    rw [edgeOperations_eq, operators_eq]
    cases hop : t.operation? with
    | none =>
      have hkids : t.children.flatMap edgeOperations = t.children.flatMap operators :=
        List.flatMap_congr fun c hc => by rw [ih c hc, h.here.not_isEdgeOp hop hc]; rfl
      rw [hkids]
      split
      · rename_i hk
        obtain ⟨i, k, rfl⟩ := h.here.eq_token hk
        simp [children_eq]
      · rfl
    | some op =>
      obtain ⟨i, target, rfl⟩ : ∃ i target, t = .edgeRhs i op target := by
        cases t <;> simp [operation?] at hop
        exact ⟨_, _, by rw [hop]⟩
      obtain ⟨hk, htarget⟩ := h.here
      have hchildren : (edgeRhs i op target).children = op :: target.toList := children_eq _
      rw [hchildren] at ih ⊢
      obtain ⟨j, k, rfl⟩ := (h.child (by simp [hchildren])).here.eq_token hk
      have hfirst : (token j k).operators = [.token j k] := by
        rw [operators_eq, if_pos hk, children_eq]
        rfl
      have hrest : target.toList.flatMap edgeOperations = target.toList.flatMap operators := by
        refine List.flatMap_congr fun c hc => ?_
        have he := htarget c (Option.mem_toList.mp hc)
        rw [ih c (by simp [hc]), if_neg]
        intro hc
        simp [(exclusive_of_isEdgeOp hc).2.2.1] at he
      rw [List.flatMap_cons, List.flatMap_cons, hfirst, hrest, ih _ (by simp), if_pos hk]
      rfl

end Tree

namespace Parse

theorem Laid.operators_sublist {f : List Tree} {us : List Token} (h : Laid f us)
    (hp : ∀ c ∈ f, c.Everywhere Tree.Proper) :
    ((f.flatMap Tree.operators).map fun o => (o.span, o.kind)).Sublist (us.map fun t => (t.span, t.kind)) := by
  induction h with
  | nil => exact .slnil
  | gap _ ih => exact (ih hp).cons _
  | @tree c t block f us _ hl _ _ ihc ih =>
    rw [List.flatMap_cons, List.map_append, List.map_append]
    refine List.Sublist.append ?_ (ih fun d hd => hp d (by simp [hd]))
    have hc := hp c (by simp)
    rw [Tree.operators_eq]
    split
    · rename_i hk
      obtain ⟨i, k, rfl⟩ := hc.here.eq_token hk
      obtain ⟨hs, rfl, rfl⟩ := hl
      simp [Tree.children_eq, Tree.span, Tree.info, Tree.kind, hs]
    · exact ihc fun d hd => hc.child hd

end Parse

end DotMend
