import DotMend.Proofs.Parse.Relocation
import DotMend.Proofs.Source.Reading
import DotMend.Proofs.Token.Respelling
import DotMend.Proofs.Tree.Operators

namespace DotMend

def GraphKind.kind : GraphKind → Kind
  | graph => .graphKeyword
  | digraph => .digraphKeyword

lemma Kind.eq_of_graphKind? {k : Kind} {g : GraphKind} (h : k.graphKind? = some g) : k = g.kind := by
  cases k <;> simp [graphKind?] at h <;> subst h <;> rfl

lemma Kind.eq_of_edgeOp? {k : Kind} {op : EdgeOp} (h : k.edgeOp? = some op) : k = op.kind := by
  cases k <;> simp [edgeOp?] at h <;> subst h <;> rfl

namespace Source

open Token

/-- How the graph of a text was read: through the run `ps` of the text, from the tokens `used`. -/
structure GraphReading (t : Text) (ps : List Piece) (used : List Token) (graph : Tree) : Prop where
  run : Run true ps
  spelt : spell ps = t
  parsed : (ofText t).graph = some graph
  used_le : used <+: tokensAt 0 ps
  laid : Parse.Laid [graph] used
  proper : graph.Everywhere Tree.Proper
  numbered : graph.Everywhere Tree.Numbered
  loose : (ofText t).parse.loose = none
  phases : ∀ d ∈ (ofText t).parse.diagnostics, d.phase = .parse

lemma parse_spell {ps : List Piece} (h : Run true ps) : (ofText (spell ps)).parse =
    Parse.source (.caret (spell ps).bytes) (Parse.limitOf (tokensAt 0 ps)) (tokensAt 0 ps) := by
  rw [ofText_spell h]

theorem exists_graphReading {t : Text} {graph : Tree} (h : (ofText t).graph = some graph) :
    ∃ ps used, GraphReading t ps used graph := by
  obtain ⟨ps, hrun, rfl⟩ := exists_run true t
  have ho := ordered_tokensAt (n := 0) fun p hp => hrun.ne_nil hp
  have hgraph := h
  rw [Source.graph, parse_spell hrun] at hgraph
  obtain ⟨rest, m, cs, hs, -, -, hdiag, hloose⟩ := Parse.source_traced ho hgraph
  obtain ⟨used, hused, hlaid, -⟩ := hs.laid
  refine ⟨ps, used, hrun, rfl, h, ⟨rest, hused.symm⟩, hlaid, hs.proper graph (by simp),
    hs.numbered.2.2.2 graph (by simp), by rw [parse_spell hrun, hloose], ?_⟩
  rw [parse_spell hrun, hdiag]
  refine List.forall_mem_append.mpr ⟨hs.phase_eq, ?_⟩
  cases rest <;> simp [Parse.trailing, Diagnostic.phase, Diagnostic.error, Code.phase]

namespace GraphReading

variable {t : Text} {ps : List Piece} {used : List Token} {graph : Tree}

lemma ordered (h : GraphReading t ps used graph) : Parse.Ordered used := by
  obtain ⟨rest, hrest⟩ := h.used_le
  have := ordered_tokensAt (n := 0) fun p hp => h.run.ne_nil hp
  rw [← hrest] at this
  exact this.left

lemma wellPlaced (h : GraphReading t ps used graph) : graph.Everywhere Tree.Placed :=
  h.laid.placed h.ordered graph (by simp)

lemma filter_diagnostics (h : GraphReading t ps used graph) :
    (ofText t).diagnostics.filter (·.phase ≠ .check) = diagnosticsAt 0 ps ++ (ofText t).parse.diagnostics := by
  have hd : (ofText t).diagnostics = diagnosticsAt 0 ps ++ (ofText t).parse.diagnostics ++ graph.check := by
    have hg := h.parsed
    rw [← h.spelt, Source.graph] at hg
    rw [← h.spelt, show graph.check = (ofText (spell ps)).parse.graph.elim [] Tree.check by rw [hg]; rfl,
      ofText_spell h.run]
  have hscan : ∀ d ∈ diagnosticsAt 0 ps, d.phase ≠ .check := by
    intro d hd
    obtain ⟨q, -, hq⟩ := List.mem_filterMap.mp hd
    obtain ⟨fault, -, rfl⟩ := Option.map_eq_some_iff.mp hq
    cases fault <;> exact nofun
  have hcheck : ∀ d ∈ graph.check, d.phase = .check := by
    intro d hd
    rw [Tree.check] at hd
    split at hd
    · simp at hd
    · obtain ⟨o, -, rfl⟩ := List.mem_map.mp hd
      rfl
  rw [hd, List.filter_append, List.filter_append, List.filter_eq_self.mpr (by simpa using hscan),
    List.filter_eq_self.mpr (fun d hd => by simp [h.phases d hd]),
    List.filter_eq_nil_iff.mpr (fun d hd => by simp [hcheck d hd]), List.append_nil]

lemma exists_piece (h : GraphReading t ps used graph) {u : Token} (hu : u ∈ tokensAt 0 ps) :
    ∃ q ∈ placed 0 ps, ∃ b rest v, u.span = q.2.spanAt q.1 ∧ q.2.token = some (u.kind, v) ∧ q.2.Reads b rest := by
  obtain ⟨q, hq, hqu⟩ := mem_tokensAt.mp hu
  obtain ⟨⟨k, v⟩, htoken, rfl⟩ := Option.map_eq_some_iff.mp hqu
  obtain ⟨before, behind, hps, -⟩ := exists_of_mem_placed hq
  obtain ⟨b, hr⟩ := Run.reads (hps ▸ h.run)
  exact ⟨q, hq, b, _, v, rfl, htoken, hr⟩

lemma header (h : GraphReading t ps used graph) :
    ∃ lead k rest, tokensAt 0 ps = lead ++ k :: rest ∧ Parse.Header lead k ∧
      ∃ (kind : GraphKind) (i : Tree.Info) (strict : Option Tree) (j : Tree.Info) (name : Option Tree)
        (statements : List Tree), graph = .graph i strict (.token j kind.kind) name statements ∧ j.span = k.span ∧
        ∃ q ∈ placed 0 ps, k.span = q.2.spanAt q.1 ∧ IsKeyword kind.kind q.2 := by
  have hg := h.parsed
  rw [← h.spelt, Source.graph, parse_spell h.run] at hg
  obtain ⟨lead, k, rest, htokens, hheader, i, strict, j, name, statements, rfl, hj⟩ := Parse.exists_header hg
  have hkind : k.kind.graphKind?.isSome := h.proper.here.2.1
  obtain ⟨kind, hk⟩ := Option.isSome_iff_exists.mp hkind
  obtain ⟨q, hq, b, behind, v, hspan, htoken, hr⟩ := h.exists_piece (u := k) (by simp [htokens])
  have hkey := hr.isKeyword htoken hkind
  rw [Kind.eq_of_graphKind? hk] at hkey ⊢
  exact ⟨lead, k, rest, htokens, hheader, kind, i, strict, j, name, statements, rfl, hj, q, hq, hspan, hkey⟩

lemma kind (h : GraphReading t ps used graph) : graph.kind = .graph := by
  obtain ⟨_, _, _, -, -, _, _, _, _, _, _, rfl, -⟩ := h.header
  rfl

lemma exists_graphKind (h : GraphReading t ps used graph) : ∃ kind, graph.graphKind? = some kind := by
  obtain ⟨-, -, -, -, -, kind, i, strict, j, name, statements, rfl, -⟩ := h.header
  exact ⟨kind, by cases kind <;> rfl⟩

lemma edgeOperations_eq (h : GraphReading t ps used graph) : graph.edgeOperations = graph.operators := by
  rw [Tree.edgeOperations_eq_operators h.proper, h.kind]
  rfl

lemma operations (h : GraphReading t ps used graph) :
    (graph.edgeOperations.Pairwise fun a b => a.span.stop ≤ b.span.start) ∧
      ∀ o ∈ graph.edgeOperations, ∃ q ∈ placed 0 ps, ∃ op i, o = .token i op.kind ∧ o.span = q.2.spanAt q.1 ∧
        q.2 = operatorPiece op := by
  have hops := h.edgeOperations_eq
  have hsub := h.laid.operators_sublist fun c hc => List.mem_singleton.mp hc ▸ h.proper
  rw [List.flatMap_cons, List.flatMap_nil, List.append_nil, ← hops] at hsub
  constructor
  · have hp : (used.map fun t => (t.span, t.kind)).Pairwise fun a b => a.1.stop ≤ b.1.start :=
      List.pairwise_map.mpr h.ordered.apart
    exact List.pairwise_map.mp (hp.sublist hsub)
  · intro o ho
    obtain ⟨u, hu, hou⟩ := List.mem_map.mp (hsub.subset (List.mem_map_of_mem ho))
    obtain ⟨hspan, hkind⟩ := Prod.mk.inj hou
    obtain ⟨q, hq, b, rest, v, hq', htoken, hr⟩ := h.exists_piece (h.used_le.subset hu)
    rw [hops, Tree.operators, List.mem_filter] at ho
    obtain ⟨i, k, rfl⟩ := (h.proper.of_mem_preorder ho.1).here.eq_token ho.2
    obtain ⟨op, hop⟩ := Option.isSome_iff_exists.mp ho.2
    obtain rfl : u.kind = k := hkind
    refine ⟨q, hq, op, i, ?_, hspan ▸ hq', hr.eq_operatorPiece htoken hop⟩
    rw [show u.kind = op.kind from Kind.eq_of_edgeOp? hop]

lemma slice_operation (h : GraphReading t ps used graph) {o : Tree} (ho : o ∈ graph.edgeOperations) :
    ∃ op : EdgeOp, o.edgeOp? = some op ∧ t.slice? o.span = some op.text.toList := by
  obtain ⟨q, hq, op, i, rfl, hspan, hpiece⟩ := h.operations.2 o ho
  refine ⟨op, by cases op <;> rfl, ?_⟩
  rw [hspan, ← h.spelt, slice?_of_mem_placed hq, hpiece]
  rfl

end GraphReading

end Source

end DotMend
