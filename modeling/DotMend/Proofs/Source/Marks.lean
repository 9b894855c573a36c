import DotMend.Proofs.Source.Nodes

namespace DotMend

namespace Token

lemma Lexeme.Read.kind_of_fault {b : Bool} {x rest v : Text} {k : Kind} {f : Fault}
    (h : Lexeme.Read b x rest (some (k, v)) (some f)) : Parse.isBare k = false ∧ k ≠ .plus := by
  generalize ht : some (k, v) = token at h
  cases h with
  | openBlock => cases ht
  | openQuoted | openHtml | stray =>
    obtain ⟨rfl, -⟩ := Prod.mk.inj (Option.some.inj ht)
    decide

lemma Lexeme.Read.rest_of_fault {b : Bool} {x rest : Text} {f : Fault} (h : Lexeme.Read b x rest none (some f)) :
    rest = [] := by
  cases h with
  | openBlock => rfl

variable {ps : List Piece}

lemma Run.kind_of_faulty (h : Run true ps) :
    ∀ u ∈ tokensAt 0 ps, u.faulty → Parse.isBare u.kind = false ∧ u.kind ≠ .plus := by
  intro u hu hfaulty
  obtain ⟨q, hq, hqu⟩ := mem_tokensAt.mp hu
  obtain ⟨⟨k, v⟩, htoken, rfl⟩ := Option.map_eq_some_iff.mp hqu
  obtain ⟨f, hfault⟩ := Option.isSome_iff_exists.mp hfaulty
  obtain ⟨before, behind, rfl, -⟩ := exists_of_mem_placed hq
  obtain ⟨b, hr⟩ := h.reads
  rw [Piece.Reads, htoken, hfault] at hr
  exact hr.kind_of_fault

lemma exists_diagnostic {u : Token} (hu : u ∈ tokensAt 0 ps) (hfaulty : u.faulty) :
    ∃ d ∈ diagnosticsAt 0 ps, d.span = u.span := by
  obtain ⟨q, hq, hqu⟩ := mem_tokensAt.mp hu
  obtain ⟨⟨k, v⟩, -, rfl⟩ := Option.map_eq_some_iff.mp hqu
  obtain ⟨f, hfault⟩ := Option.isSome_iff_exists.mp hfaulty
  exact ⟨_, List.mem_filterMap.mpr ⟨q, hq, by rw [Piece.diagnosticAt, hfault]; rfl⟩, rfl⟩

lemma Run.bytes_of_fault (h : Run true ps) {q : Nat × Piece} (hq : q ∈ placed 0 ps) (htoken : q.2.token = none)
    {f : Fault} (hfault : q.2.fault = some f) : (spell ps).bytes = q.1 + q.2.text.bytes := by
  obtain ⟨before, behind, rfl, hq1⟩ := exists_of_mem_placed hq
  obtain ⟨b, hreads⟩ := h.reads
  rw [Piece.Reads, htoken, hfault] at hreads
  rw [spell_append, spell_cons, hreads.rest_of_fault, hq1, List.append_nil, Text.bytes_append, Nat.zero_add]

lemma Run.faulty_or_behind (h : Run true ps) {d : Diagnostic} (hd : d ∈ diagnosticsAt 0 ps) :
    (∃ u ∈ tokensAt 0 ps, u.faulty ∧ u.span = d.span) ∨ ∀ u ∈ tokensAt 0 ps, u.span.stop ≤ d.span.start := by
  obtain ⟨q, hq, hqd⟩ := List.mem_filterMap.mp hd
  obtain ⟨f, hfault, rfl⟩ := Option.map_eq_some_iff.mp hqd
  cases htoken : q.2.token with
  | some kv =>
    left
    refine ⟨_, mem_tokensAt.mpr ⟨q, hq, by rw [Piece.tokenAt, htoken]; rfl⟩, ?_, rfl⟩
    rw [hfault]
    rfl
  | none =>
    right
    intro u hu
    obtain ⟨r, hr, hru⟩ := mem_tokensAt.mp hu
    obtain ⟨kv, hkv, rfl⟩ := Option.map_eq_some_iff.mp hru
    have hend := h.bytes_of_fault hq htoken hfault
    have hpos := bytes_pos_of_mem_placed (fun p hp => h.ne_nil hp) hr
    have hle := (le_of_mem_placed hr).2
    rcases eq_or_apart_of_mem_placed hr hq with rfl | hapart
    · rw [htoken] at hkv
      cases hkv
    · change r.1 + r.2.text.bytes ≤ q.1
      omega

end Token

namespace Parse

variable {g : Tree} {eof : Span} {ts rest : List Token} {m : Trail} {cs : List Diagnostic}

lemma exists_graph_end (hs : Steps eof ts .start [g] false rest m cs) (hstop : g.span.stop = m.lastEnd)
    (ho : Ordered ts) :
    ∃ used, ts = used ++ rest ∧ (∃ u ∈ used, u.span.stop = g.span.stop) ∧ (∀ u ∈ used, u.span.stop ≤ g.span.stop) ∧
      ∀ v ∈ rest, g.span.stop ≤ v.span.start := by
  obtain ⟨used, rfl, hlaid, hend⟩ := hs.laid
  cases used with
  | nil => cases hlaid
  | cons t us =>
    rw [endOf_cons] at hend
    rw [hstop, hend]
    have hlast : (t :: us).getLast (by simp) ∈ t :: us := List.getLast_mem _
    exact ⟨t :: us, rfl, ⟨_, hlast, rfl⟩, fun u hu => (hull_bounds ho.left hu).2,
      (List.pairwise_append.mp ho.apart).2.2 _ hlast⟩

end Parse

namespace Source

open Token

lemma passesOn_of_mem_forest {t : Text} : ∀ c ∈ (ofText t).parse.forest, c.Everywhere Tree.PassesOn := by
  intro c hc
  rcases List.mem_append.mp hc with hc | hc
  · obtain ⟨u, rfl, -⟩ := exists_leaf_of_loose (Option.mem_toList.mp hc)
    refine .intro ?_ ?_
    · simp [Tree.PassesOn, Parse.Trail.leaf, Tree.children_eq]
    · simp [Parse.Trail.leaf, Tree.children_eq]
  · obtain ⟨ps, rest, m, cs, h⟩ := exists_graphWay (Option.mem_toList.mp hc)
    exact h.steps.passesOn h.ordered c (by simp)

lemma flagged_eq_containsErrors {t : Text} : ∀ n ∈ (ofText t).parse.nodes, n.2.flagged = n.2.containsErrors := by
  intro n hn
  obtain ⟨c, hc, hn⟩ := List.mem_flatMap.mp hn
  have hmem := (c.postorder_perm none).mem_iff.mp (List.mem_map_of_mem hn)
  exact ((passesOn_of_mem_forest c hc).of_mem_preorder hmem).flagged_eq

namespace GraphWay

variable {t : Text} {g : Tree} {ps : List Piece} {rest : List Token} {m : Parse.Trail} {cs : List Diagnostic}

lemma expectationFailed_iff (h : GraphWay t g ps rest m cs) :
    (∃ d ∈ (ofText t).diagnostics, d.code = .expectationFailed) ↔ cs ≠ [] := by
  constructor
  · rintro ⟨d, hd, hcode⟩ rfl
    rcases h.mem_diagnostics hd with ⟨-, hd⟩ | ⟨hd, -⟩ | hd | ⟨-, hd⟩
    · rw [Diagnostic.phase, hcode] at hd
      cases hd
    · cases hd
    · rw [hcode] at hd
      cases hd
    · rw [hcode] at hd
      cases hd
  · intro hne
    obtain ⟨d, cs, rfl⟩ := List.exists_cons_of_ne_nil hne
    refine ⟨d, ?_, h.code_of_mem d (by simp)⟩
    rw [h.diagnostics, h.complaints]
    simp

lemma mem_diagnosticsAt_of_scan (h : GraphWay t g ps rest m cs) {d : Diagnostic} (hd : d ∈ (ofText t).diagnostics)
    (hphase : d.phase = .scan) : d ∈ diagnosticsAt 0 ps := by
  rcases h.mem_diagnostics hd with ⟨hd, -⟩ | ⟨-, hcode⟩ | hcode | ⟨-, hcode⟩
  · exact hd
  all_goals
    rw [Diagnostic.phase, hcode] at hphase
    cases hphase

lemma scan_iff (h : GraphWay t g ps rest m cs) {used : List Token} (hused : tokensAt 0 ps = used ++ rest) :
    (∃ d ∈ (ofText t).diagnostics, d.phase = .scan ∧ d.span.start < g.span.stop) ↔ used.any Token.faulty := by
  obtain ⟨used', hused', ⟨v, hv, hvstop⟩, hin, hout⟩ := Parse.exists_graph_end h.steps h.stop h.ordered
  obtain rfl : used = used' := List.append_cancel_right (hused.symm.trans hused')
  rw [List.any_eq_true]
  constructor
  · rintro ⟨d, hd, hphase, hlt⟩
    rcases h.run.faulty_or_behind (h.mem_diagnosticsAt_of_scan hd hphase) with ⟨u, hu, hfaulty, hspan⟩ | hbehind
    · rw [hused] at hu
      rcases List.mem_append.mp hu with hu | hu
      · exact ⟨u, hu, hfaulty⟩
      · have := hout u hu
        rw [hspan] at this
        omega
    · have := hbehind v (by simp [hused, hv])
      omega
  · rintro ⟨u, hu, hfaulty⟩
    have hmem : u ∈ tokensAt 0 ps := by simp [hused, hu]
    obtain ⟨d, hd, hspan⟩ := exists_diagnostic hmem hfaulty
    refine ⟨d, by simp [h.diagnostics, hd], phase_of_mem_diagnosticsAt d hd, ?_⟩
    have := hin u hu
    have := h.ordered.nonempty u hmem
    rw [hspan]
    omega

end GraphWay

/-- The marks of a text's nodes agree with those below them, and the graph is marked exactly if the reader
complained or a lexeme in front of the graph's end is at fault. -/
theorem flagged_iff (t : Text) :
    (∀ n ∈ (ofText t).parse.nodes, n.2.flagged = n.2.containsErrors) ∧
      ∀ g, (ofText t).graph = some g → (g.flagged ↔
        (∃ d ∈ (ofText t).diagnostics, d.code = .expectationFailed) ∨
          ∃ d ∈ (ofText t).diagnostics, d.phase = .scan ∧ d.span.start < g.span.stop) := by
  refine ⟨flagged_eq_containsErrors, fun g hg => ?_⟩
  obtain ⟨ps, rest, m, cs, h⟩ := exists_graphWay hg
  obtain ⟨used, hused, hmarks⟩ := h.steps.marks h.run.kind_of_faulty
  rw [h.expectationFailed_iff, h.scan_iff hused]
  simp only [Bool.false_or, List.any_cons, List.any_nil, Bool.or_false] at hmarks
  rw [hmarks, Bool.or_eq_true]
  simp

theorem flagged_iff_openString :
    (∃ n ∈ (ofText "graph \x7b a -- ; b \"c \x7d".toList).parse.nodes, n.2.flagged = n.2.containsErrors) ∧
      ∃ g, (ofText "graph \x7b a -- ; b \"c \x7d".toList).graph = some g ∧ (g.flagged ↔
        (∃ d ∈ (ofText "graph \x7b a -- ; b \"c \x7d".toList).diagnostics, d.code = .expectationFailed) ∨
          ∃ d ∈ (ofText "graph \x7b a -- ; b \"c \x7d".toList).diagnostics, d.phase = .scan ∧
          d.span.start < g.span.stop) := by
  have hnodes : 0 < (ofText "graph \x7b a -- ; b \"c \x7d".toList).parse.nodes.length := by decide +kernel
  have hsome : (ofText "graph \x7b a -- ; b \"c \x7d".toList).graph.isSome := by decide +kernel
  obtain ⟨n, hn⟩ := List.exists_mem_of_length_pos hnodes
  obtain ⟨g, hg⟩ := Option.isSome_iff_exists.mp hsome
  exact ⟨⟨n, hn, (flagged_iff _).1 n hn⟩, g, hg, (flagged_iff _).2 g hg⟩

end Source

end DotMend
