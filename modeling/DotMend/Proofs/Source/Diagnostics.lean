import DotMend.Proofs.Source.Operators

namespace DotMend

structure Text.OnCharacters (t : Text) (s : Span) : Prop where
  ordered : s.start ≤ s.stop
  inside : s.stop ≤ t.bytes
  start : (t.cut? s.start).isSome
  stop : (t.cut? s.stop).isSome

lemma Text.onCharacters_of_append (before x behind : Text) :
    (before ++ x ++ behind).OnCharacters ⟨before.bytes, before.bytes + x.bytes⟩ where
  ordered := Nat.le_add_right _ _
  inside := by simp
  start := by rw [List.append_assoc, Text.cut?_bytes]; rfl
  stop := by rw [← Text.bytes_append, Text.cut?_bytes]; rfl

namespace Parse

variable {eof : Span} {ts ts' us : List Token} {m m' : Trail} {kids : List Tree} {faults : Bool}
  {cs : List Diagnostic}

lemma placeOf_le_of_suffix (ho : Ordered ts) (he : ∀ u ∈ ts, u.span.start ≤ eof.start) (h : us <:+ ts) :
    (placeOf eof ts).start ≤ (placeOf eof us).start := by
  obtain ⟨used, rfl⟩ := h
  cases used with
  | nil => exact le_rfl
  | cons v used =>
    cases us with
    | nil => exact he v (by simp)
    | cons u us =>
      have hv := ho.nonempty v (by simp)
      have hu := ho.behind u (by simp)
      change v.span.start ≤ u.span.start
      omega

lemma Steps.complaint_between (h : Steps eof ts m kids faults ts' m' cs) :
    ∀ d ∈ cs, ∃ us, ts' <:+ us ∧ us <:+ ts ∧ d.span = placeOf eof us := by
  induction h with
  | stay | pass | leaf => simp
  | @complain ts => exact List.forall_mem_singleton.mpr ⟨ts, List.suffix_rfl, List.suffix_rfl, rfl⟩
  | @stray t ts => exact List.forall_mem_singleton.mpr ⟨t :: ts, List.suffix_cons t ts, List.suffix_rfl, rfl⟩
  | @identifier t part ts _ _ faults =>
    cases faults with
    | false => simp
    | true => exact List.forall_mem_singleton.mpr ⟨ts, List.suffix_rfl, List.suffix_append _ _, rfl⟩
  | node _ _ _ _ _ ih => exact ih
  | seq hs hs' ih ih' =>
    refine List.forall_mem_append.mpr ⟨fun d hd => ?_, fun d hd => ?_⟩
    · obtain ⟨us, hle, hus, hd⟩ := ih d hd
      exact ⟨us, hs'.suffix.trans hle, hus, hd⟩
    · obtain ⟨us, hle, hus, hd⟩ := ih' d hd
      exact ⟨us, hle, hus.trans hs.suffix, hd⟩

theorem Steps.complaints_sorted (h : Steps eof ts m kids faults ts' m' cs) (ho : Ordered ts)
    (he : ∀ u ∈ ts, u.span.start ≤ eof.start) : cs.Pairwise fun a b => a.span.start ≤ b.span.start := by
  induction h with
  | stay | pass | leaf => exact .nil
  | complain | stray => exact List.pairwise_singleton _ _
  | identifier _ faults => cases faults <;> simp
  | node _ _ _ _ _ ih => exact ih ho he
  | @seq ts m kids faults ts' m' cs kids' faults' ts'' m'' cs' hs hs' ih ih' =>
    have ho' := hs.ordered ho
    have he' : ∀ u ∈ ts', u.span.start ≤ eof.start := fun u hu => he u (hs.suffix.subset hu)
    refine List.pairwise_append.mpr ⟨ih ho he, ih' ho' he', fun a ha b hb => ?_⟩
    -- the first part of the way ends where the second begins
    obtain ⟨us, hus, hus', ha⟩ := hs.complaint_between a ha
    obtain ⟨vs, -, hvs, hb⟩ := hs'.complaint_between b hb
    obtain ⟨used, hused⟩ := hus'
    have hous : Ordered us := by rw [← hused] at ho; exact ho.right
    rw [ha, hb]
    calc (placeOf eof us).start
        ≤ (placeOf eof ts').start :=
          placeOf_le_of_suffix hous (fun u hu => he u (hused ▸ List.mem_append_right used hu)) hus
      _ ≤ (placeOf eof vs).start := placeOf_le_of_suffix ho' he' hvs

end Parse

namespace Token

variable {ps : List Piece}

lemma onCharacters_of_mem_placed {q : Nat × Piece} (hq : q ∈ placed 0 ps) :
    (spell ps).OnCharacters (q.2.spanAt q.1) := by
  obtain ⟨before, behind, rfl, hoffset⟩ := exists_of_mem_placed hq
  rw [Piece.spanAt, hoffset, Nat.zero_add, spell_append, spell_cons, ← List.append_assoc]
  exact Text.onCharacters_of_append _ _ _

lemma onCharacters_of_mem_tokensAt {u : Token} (hu : u ∈ tokensAt 0 ps) : (spell ps).OnCharacters u.span := by
  obtain ⟨q, hq, hqu⟩ := mem_tokensAt.mp hu
  obtain ⟨_, -, rfl⟩ := Option.map_eq_some_iff.mp hqu
  exact onCharacters_of_mem_placed hq

lemma onCharacters_placeOf {us : List Token} (hus : us <:+ tokensAt 0 ps) :
    (spell ps).OnCharacters (Parse.placeOf (.caret (spell ps).bytes) us) := by
  cases us with
  | nil =>
    change (spell ps).OnCharacters ⟨(spell ps).bytes, (spell ps).bytes⟩
    simpa using Text.onCharacters_of_append (spell ps) [] []
  | cons u us => exact onCharacters_of_mem_tokensAt (hus.subset List.mem_cons_self)

lemma diagnosticsAt_onCharacters : ∀ d ∈ diagnosticsAt 0 ps, (spell ps).OnCharacters d.span := by
  intro d hd
  obtain ⟨q, hq, hqd⟩ := List.mem_filterMap.mp hd
  obtain ⟨_, -, rfl⟩ := Option.map_eq_some_iff.mp hqd
  exact onCharacters_of_mem_placed hq

lemma diagnosticsAt_increasing {n : Nat} (hne : ∀ p ∈ ps, p.text ≠ []) :
    (diagnosticsAt n ps).Pairwise fun a b => a.span.start < b.span.start := by
  induction ps generalizing n with
  | nil => exact .nil
  | cons p ps ih =>
    rw [diagnosticsAt_cons]
    refine List.pairwise_append.mpr ⟨by cases p.diagnosticAt n <;> simp, ih fun q hq => hne q (by simp [hq]), ?_⟩
    intro a ha b hb
    obtain ⟨f, -, rfl⟩ := Option.map_eq_some_iff.mp (Option.mem_toList.mp ha)
    obtain ⟨q, hq, hqb⟩ := List.mem_filterMap.mp hb
    obtain ⟨f', -, rfl⟩ := Option.map_eq_some_iff.mp hqb
    have hle := (le_of_mem_placed hq).1
    have hpos := Text.bytes_pos (hne p List.mem_cons_self)
    change n < q.1
    omega

end Token

namespace Source

open Token Parse

structure Complaints (ps : List Piece) (cs : List Diagnostic) (rest : List Token) : Prop where
  diagnostics : (ofText (spell ps)).parse.diagnostics = cs ++ trailing (limitOf (tokensAt 0 ps)) rest
  sorted : cs.Pairwise fun a b => a.span.start ≤ b.span.start
  placed : ∀ d ∈ cs, d.code = .expectationFailed ∧
    ∃ us, rest <:+ us ∧ us <:+ tokensAt 0 ps ∧ d.span = placeOf (.caret (spell ps).bytes) us
  behind : rest ≠ [] → ∃ g used, (ofText (spell ps)).graph = some g ∧ tokensAt 0 ps = used ++ rest ∧
    (∀ u ∈ used, u.span.stop ≤ g.span.stop) ∧ ∀ u ∈ rest, g.span.stop ≤ u.span.start

variable {ps : List Piece} {cs : List Diagnostic} {rest : List Token} {g : Tree} {m : Trail}

lemma start_le_bytes {u : Token} (hu : u ∈ tokensAt 0 ps) : u.span.start ≤ (spell ps).bytes :=
  (onCharacters_of_mem_tokensAt hu).ordered.trans (onCharacters_of_mem_tokensAt hu).inside

lemma GraphWay.toComplaints (h : GraphWay (spell ps) g ps rest m cs) : Complaints ps cs rest where
  diagnostics := h.complaints
  sorted := h.steps.complaints_sorted h.ordered fun u hu => start_le_bytes hu
  placed d hd := ⟨h.code_of_mem d hd, h.steps.complaint_between d hd⟩
  behind _ := by
    obtain ⟨used, hused, -, hin, hout⟩ := exists_graph_end h.steps h.stop h.ordered
    exact ⟨g, used, h.parsed, hused, hin, hout⟩

lemma complaints_of_graph_eq_none {eof : Span} {limit : Nat} {ts : List Token}
    (h : (source eof limit ts).graph = none) : (source eof limit ts).diagnostics = [] ∨
      ∃ us, us <:+ ts ∧ (source eof limit ts).diagnostics = [expected eof .graphKeyword us] := by
  cases ts with
  | nil => exact .inl rfl
  | cons t ts =>
    right
    have hsuffix := (optional_traced eof (t :: ts) .start (@isToken_of_eq .strictKeyword rfl)).steps.suffix
    simp only [source] at h ⊢
    generalize (optional (· = .strictKeyword) (t :: ts) .start).rest = rest at h hsuffix ⊢
    cases rest with
    | nil => exact ⟨[], List.nil_suffix, rfl⟩
    | cons k rest =>
      simp only at h ⊢
      split at h
      · cases h
      · rename_i hk
        rw [if_neg hk]
        exact ⟨k :: rest, hsuffix, rfl⟩

theorem exists_complaints (hrun : Run true ps) : ∃ cs rest, Complaints ps cs rest := by
  cases hg : (ofText (spell ps)).graph with
  | some g =>
    obtain ⟨rest, m, cs, h⟩ := exists_graphWay_spell hrun hg
    exact ⟨cs, rest, h.toComplaints⟩
  | none =>
    rw [Source.graph, parse_spell hrun] at hg
    rcases complaints_of_graph_eq_none hg with hds | ⟨us, hus, hds⟩
    · exact ⟨[], [], by rw [parse_spell hrun, hds]; rfl, .nil, by simp, fun h => absurd rfl h⟩
    · exact ⟨[_], [], by rw [parse_spell hrun, hds]; rfl, List.pairwise_singleton _ _,
        List.forall_mem_singleton.mpr ⟨rfl, us, List.nil_suffix, hus, rfl⟩, fun h => absurd rfl h⟩

namespace Complaints

lemma start_le (h : Complaints ps cs rest) (ho : Ordered (tokensAt 0 ps)) {d : Diagnostic} (hd : d ∈ cs) :
    d.span.start ≤ (placeOf (.caret (spell ps).bytes) rest).start := by
  obtain ⟨-, us, hrest, ⟨used, hused⟩, hspan⟩ := h.placed d hd
  have hous : Ordered us := by rw [← hused] at ho; exact ho.right
  rw [hspan]
  exact placeOf_le_of_suffix hous (fun u hu => start_le_bytes (hused ▸ List.mem_append_right used hu)) hrest

lemma diagnostics_sorted (h : Complaints ps cs rest) (ho : Ordered (tokensAt 0 ps)) :
    (ofText (spell ps)).parse.diagnostics.Pairwise fun a b => a.span.start ≤ b.span.start := by
  rw [h.diagnostics]
  cases rest with
  | nil => simpa [trailing] using h.sorted
  | cons first others =>
    refine List.pairwise_append.mpr ⟨h.sorted, List.pairwise_singleton _ _, fun a ha b hb => ?_⟩
    obtain rfl := List.mem_singleton.mp hb
    exact h.start_le ho ha

lemma hull_of_rest {first : Token} {others : List Token} (h : Complaints ps cs (first :: others)) :
    (⟨first.span.start, limitOf (tokensAt 0 ps)⟩ : Span) = hull first others := by
  obtain ⟨g, used, -, htokens, -⟩ := h.behind (by simp)
  rw [htokens, limitOf, List.getLast?_append_of_ne_nil _ (by simp), List.getLast?_eq_some_getLast (by simp)]
  rfl

lemma onCharacters (h : Complaints ps cs rest) (ho : Ordered (tokensAt 0 ps)) :
    ∀ d ∈ (ofText (spell ps)).parse.diagnostics, (spell ps).OnCharacters d.span := by
  rw [h.diagnostics]
  refine List.forall_mem_append.mpr ⟨fun d hd => ?_, fun d hd => ?_⟩
  · obtain ⟨-, us, -, hus, hspan⟩ := h.placed d hd
    rw [hspan]
    exact onCharacters_placeOf hus
  · cases rest with
    | nil => cases hd
    | cons first others =>
      obtain rfl := List.mem_singleton.mp hd
      obtain ⟨g, used, -, htokens, -⟩ := h.behind (by simp)
      have hmem : first ∈ tokensAt 0 ps ∧ (first :: others).getLast (by simp) ∈ tokensAt 0 ps := by
        rw [htokens]
        exact ⟨by simp, List.mem_append_right used (List.getLast_mem _)⟩
      have hfirst := onCharacters_of_mem_tokensAt hmem.1
      have hlast := onCharacters_of_mem_tokensAt hmem.2
      rw [htokens] at ho
      have hlt := hull_lt ho.right
      change (spell ps).OnCharacters ⟨first.span.start, limitOf (tokensAt 0 ps)⟩
      rw [h.hull_of_rest]
      exact ⟨hlt.le, hlast.inside, hfirst.start, hlast.stop⟩

lemma phase_eq (h : Complaints ps cs rest) : ∀ d ∈ (ofText (spell ps)).parse.diagnostics, d.phase = .parse := by
  rw [h.diagnostics]
  refine List.forall_mem_append.mpr ⟨fun d hd => ?_, fun d hd => ?_⟩
  · rw [Diagnostic.phase, (h.placed d hd).1]
    rfl
  · rw [Diagnostic.phase, code_of_mem_trailing d hd]
    rfl

lemma eq_trailing (h : Complaints ps cs rest) {d : Diagnostic} (hd : d ∈ (ofText (spell ps)).parse.diagnostics)
    (hcode : d.code = .trailingData) :
    ∃ first others, rest = first :: others ∧ d.span = hull first others ∧
      (ofText (spell ps)).parse.diagnostics = cs ++ [d] := by
  have hds := h.diagnostics
  rw [hds, List.mem_append] at hd
  rcases hd with hd | hd
  · rw [(h.placed d hd).1] at hcode
    cases hcode
  · cases rest with
    | nil => cases hd
    | cons first others =>
      obtain rfl := List.mem_singleton.mp hd
      exact ⟨first, others, rfl, h.hull_of_rest, hds⟩

end Complaints

section Check

variable {t : Text}

lemma exists_of_mem_check {d : Diagnostic} (hd : d ∈ g.check) : ∃ o ∈ g.edgeOperations, d.span = o.span := by
  rw [Tree.check] at hd
  split at hd
  · cases hd
  · obtain ⟨o, ho, rfl⟩ := List.mem_map.mp hd
    exact ⟨o, (List.mem_filter.mp ho).1, rfl⟩

lemma check_increasing (hg : (ofText t).graph = some g) :
    g.check.Pairwise fun a b => a.span.start < b.span.start := by
  rw [Tree.check]
  split
  · exact .nil
  · apply List.pairwise_map.mpr
    exact ((edgeOperations_increasing hg).filter _).imp fun h => h.1

lemma check_onCharacters (hg : (ofText t).graph = some g) : ∀ d ∈ g.check, t.OnCharacters d.span := by
  intro d hd
  obtain ⟨o, ho, hspan⟩ := exists_of_mem_check hd
  obtain ⟨ps, used, h⟩ := exists_graphReading hg
  obtain ⟨q, hq, -, -, -, hplace, -⟩ := h.operations.2 o ho
  rw [hspan, hplace, ← h.spelt]
  exact onCharacters_of_mem_placed hq

end Check

def checked (t : Text) : List Diagnostic := (ofText t).graph.elim [] Tree.check

lemma checked_spec (t : Text) :
    ((checked t).Pairwise fun a b => a.span.start < b.span.start) ∧ ∀ d ∈ checked t, t.OnCharacters d.span ∧
      d.code = .invalidEdgeOperation := by
  rw [checked]
  cases hg : (ofText t).graph with
  | none => exact ⟨.nil, by simp⟩
  | some g => exact ⟨check_increasing hg, fun d hd => ⟨check_onCharacters hg d hd, code_of_mem_check d hd⟩⟩

lemma diagnostics_spell (hrun : Run true ps) :
    (ofText (spell ps)).diagnostics =
      diagnosticsAt 0 ps ++ (ofText (spell ps)).parse.diagnostics ++ checked (spell ps) := by
  rw [checked, Source.graph, ofText_spell hrun]

lemma filter_phase_eq {ds : List Diagnostic} {p : Phase} (h : ∀ d ∈ ds, d.phase = p) (q : Phase) :
    ds.filter (·.phase = q) = if p = q then ds else [] := by
  split
  · rename_i hpq
    exact List.filter_eq_self.mpr fun d hd => by simp [h d hd, hpq]
  · rename_i hpq
    exact List.filter_eq_nil_iff.mpr fun d hd => by simp [h d hd, hpq]

lemma pairwise_number_le {ds : List Diagnostic} {p : Phase} (h : ∀ d ∈ ds, d.phase = p) :
    ds.Pairwise fun a b => a.phase.number ≤ b.phase.number :=
  List.pairwise_of_forall_mem_list fun a ha b hb => by rw [h a ha, h b hb]

lemma phase_of_mem_checked {t : Text} : ∀ d ∈ checked t, d.phase = .check := by
  intro d hd
  rw [Diagnostic.phase, ((checked_spec t).2 d hd).2]
  rfl

namespace Complaints

lemma phases_ordered (h : Complaints ps cs rest) (hrun : Run true ps) :
    (ofText (spell ps)).diagnostics.Pairwise fun a b => a.phase.number ≤ b.phase.number := by
  rw [diagnostics_spell hrun]
  refine List.pairwise_append.mpr ⟨List.pairwise_append.mpr ⟨pairwise_number_le phase_of_mem_diagnosticsAt,
    pairwise_number_le h.phase_eq, fun a ha b hb => ?_⟩, pairwise_number_le phase_of_mem_checked,
    fun a ha b hb => ?_⟩
  · rw [phase_of_mem_diagnosticsAt a ha, h.phase_eq b hb]
    decide
  · rw [phase_of_mem_checked b hb]
    cases a.phase <;> decide

lemma filter_phase (h : Complaints ps cs rest) (hrun : Run true ps) (q : Phase) :
    (ofText (spell ps)).diagnostics.filter (·.phase = q) =
      (if .scan = q then diagnosticsAt 0 ps else []) ++
        (if .parse = q then (ofText (spell ps)).parse.diagnostics else []) ++
        (if .check = q then checked (spell ps) else []) := by
  rw [diagnostics_spell hrun, List.filter_append, List.filter_append, filter_phase_eq phase_of_mem_diagnosticsAt,
    filter_phase_eq h.phase_eq, filter_phase_eq phase_of_mem_checked]

lemma code_ne_trailing (h : Complaints ps cs rest) :
    ∀ e ∈ diagnosticsAt 0 ps ++ cs ++ checked (spell ps), e.code ≠ .trailingData := by
  intro e he hcode
  rw [List.append_assoc, List.mem_append, List.mem_append] at he
  rcases he with he | he | he
  · have := phase_of_mem_diagnosticsAt e he
    rw [Diagnostic.phase, hcode] at this
    cases this
  · rw [(h.placed e he).1] at hcode
    cases hcode
  · rw [((checked_spec _).2 e he).2] at hcode
    cases hcode

lemma exists_of_trailing (h : Complaints ps cs rest) (hrun : Run true ps) {d : Diagnostic}
    (hd : d ∈ (ofText (spell ps)).diagnostics) (hcode : d.code = .trailingData) :
    ∃ first others, rest = first :: others ∧
      d.span = ⟨first.span.start, ((first :: others).getLast (by simp)).span.stop⟩ ∧
      (ofText (spell ps)).diagnostics = diagnosticsAt 0 ps ++ cs ++ d :: checked (spell ps) := by
  have hphase : d.phase = .parse := by rw [Diagnostic.phase, hcode]; rfl
  have hfound : d ∈ (ofText (spell ps)).diagnostics.filter (·.phase = .parse) :=
    List.mem_filter.mpr ⟨hd, decide_eq_true hphase⟩
  rw [h.filter_phase hrun] at hfound
  obtain ⟨first, others, rfl, hspan, hread⟩ := h.eq_trailing (by simpa using hfound) hcode
  exact ⟨first, others, rfl, hspan, by rw [diagnostics_spell hrun, hread]; simp⟩

end Complaints

/-- The diagnostics of a text come phase by phase and, within each, in the order of the text, where only complaints
of the reader can begin at the same place; they stand on whole characters. At most one is about what follows the
graph: it is the reader's last, and it goes from the first token behind the graph's end to the last token of
all. -/
theorem diagnostics_placed (t : Text) :
    ((ofText t).diagnostics.Pairwise fun a b => a.phase.number ≤ b.phase.number) ∧
      (((ofText t).diagnostics.filter (·.phase = .scan)).Pairwise fun a b => a.span.start < b.span.start) ∧
      (((ofText t).diagnostics.filter (·.phase = .parse)).Pairwise fun a b => a.span.start ≤ b.span.start) ∧
      (((ofText t).diagnostics.filter (·.phase = .check)).Pairwise fun a b => a.span.start < b.span.start) ∧
      (∀ d ∈ (ofText t).diagnostics, t.OnCharacters d.span) ∧
      ∀ d ∈ (ofText t).diagnostics, d.code = .trailingData →
        ∃ front behind, (ofText t).diagnostics = front ++ d :: behind ∧
          (∀ e ∈ front ++ behind, e.code ≠ .trailingData) ∧ (∀ e ∈ behind, e.phase = .check) ∧
          ∃ g used first others, (ofText t).graph = some g ∧
            (scan t).tokens = used ++ first :: others ++ [endAt t.bytes] ∧
            (∀ u ∈ used, u.span.stop ≤ g.span.stop) ∧ g.span.stop ≤ first.span.start ∧
            d.span = ⟨first.span.start, ((first :: others).getLast (by simp)).span.stop⟩ := by
  obtain ⟨ps, hrun, rfl⟩ := exists_run true t
  obtain ⟨cs, rest, h⟩ := exists_complaints hrun
  have hne : ∀ p ∈ ps, p.text ≠ [] := fun p hp => hrun.ne_nil hp
  have ho : Ordered (tokensAt 0 ps) := ordered_tokensAt hne
  obtain ⟨hincreasing, hcheck⟩ := checked_spec (spell ps)
  refine ⟨h.phases_ordered hrun, ?_, ?_, ?_, ?_, fun d hd hcode => ?_⟩
  · rw [h.filter_phase hrun]
    simpa using diagnosticsAt_increasing hne
  · rw [h.filter_phase hrun]
    simpa using h.diagnostics_sorted ho
  · rw [h.filter_phase hrun]
    simpa using hincreasing
  · rw [diagnostics_spell hrun]
    exact List.forall_mem_append.mpr ⟨List.forall_mem_append.mpr ⟨diagnosticsAt_onCharacters, h.onCharacters ho⟩,
      fun d hd => (hcheck d hd).1⟩
  · obtain ⟨first, others, rfl, hspan, hds⟩ := h.exists_of_trailing hrun hd hcode
    obtain ⟨g, used, hg, htokens, hin, hout⟩ := h.behind (by simp)
    exact ⟨diagnosticsAt 0 ps ++ cs, checked (spell ps), hds, h.code_ne_trailing, phase_of_mem_checked, g, used,
      first, others, hg, by rw [hrun.scan, htokens], hin, hout first (by simp), hspan⟩

theorem diagnostics_placed_trailing :
    let t : Text := "graph \x7b é -> @ \x7d b ->".toList
    ∃ d ∈ (ofText t).diagnostics, d.code = .trailingData ∧ d.span = ⟨18, 22⟩ ∧
      (ofText t).diagnostics.map (fun e => (e.code, e.span)) =
        [(.unexpectedCharacter, ⟨14, 15⟩), (.expectationFailed, ⟨14, 15⟩), (.expectationFailed, ⟨14, 15⟩),
          (.trailingData, ⟨18, 22⟩), (.invalidEdgeOperation, ⟨11, 13⟩)] ∧
      t.OnCharacters d.span ∧
      ∃ front behind, (ofText t).diagnostics = front ++ d :: behind ∧
        (∀ e ∈ front ++ behind, e.code ≠ .trailingData) ∧ (∀ e ∈ behind, e.phase = .check) ∧
        ∃ g used first others, (ofText t).graph = some g ∧
          (scan t).tokens = used ++ first :: others ++ [endAt t.bytes] ∧
          (∀ u ∈ used, u.span.stop ≤ g.span.stop) ∧ g.span.stop ≤ first.span.start ∧
          d.span = ⟨first.span.start, ((first :: others).getLast (by simp)).span.stop⟩ := by
  intro t
  have hall : (ofText t).diagnostics.map (fun e => (e.code, e.span)) =
      [(.unexpectedCharacter, ⟨14, 15⟩), (.expectationFailed, ⟨14, 15⟩), (.expectationFailed, ⟨14, 15⟩),
        (.trailingData, ⟨18, 22⟩), (.invalidEdgeOperation, ⟨11, 13⟩)] := by decide +kernel
  have hmem : (Code.trailingData, (⟨18, 22⟩ : Span)) ∈ (ofText t).diagnostics.map (fun e => (e.code, e.span)) := by
    rw [hall]
    simp
  obtain ⟨d, hd, hvalues⟩ := List.mem_map.mp hmem
  obtain ⟨hcode, hspan⟩ := Prod.mk.inj hvalues
  obtain ⟨-, -, -, -, hplaced, htrailing⟩ := diagnostics_placed t
  exact ⟨d, hd, hcode, hspan, hall, hplaced d hd, htrailing d hd hcode⟩

end Source

end DotMend
