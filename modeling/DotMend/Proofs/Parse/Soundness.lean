import DotMend.Proofs.Parse.Grammar
import DotMend.Proofs.Parse.Trace

namespace DotMend.Parse

open Grammar Grammar.Form

variable {eof : Span} {t : Token} {ts : List Token} {m : Trail}

lemma nextIs_eq_false {ks : List Kind} {p : Kind → Bool} (h : Avoids ks ts) (hp : ∀ k, p k → k ∈ ks) :
    nextIs p ts = false := by
  cases ts with
  | nil => rfl
  | cons t ts => exact Bool.eq_false_iff.mpr fun hk => avoids_cons.mp h (hp _ hk)

lemma mem_of_isEdgeOp {k : Kind} (h : k.isEdgeOp) : k ∈ [Kind.directedOp, .undirectedOp] := by
  cases k <;> simp [Kind.isEdgeOp, Kind.edgeOp?] at h ⊢

lemma optional_sound {wanted : Kind → Bool} {a : Form}
    (h : ∀ (t : Token) ts, wanted t.kind → Takes a (t :: ts) ts) :
    Takes (opt a) ts (optional wanted ts m).rest := by
  unfold optional
  split
  · split
    · rename_i hw
      exact takes_opt_iff.mpr (.inl (h _ _ hw))
    · exact takes_opt_iff.mpr (.inr rfl)
  · exact takes_opt_iff.mpr (.inr rfl)

lemma takes_idToken_cons {us : List Token} : Takes idToken (t :: ts) us ↔ t.kind.isIdentifier ∧ ts = us := by
  simp only [idToken, takes_orElse_iff, takes_token_cons]
  constructor
  · rintro (⟨h, rfl⟩ | ⟨h, rfl⟩ | ⟨h, rfl⟩ | ⟨h, rfl⟩) <;> exact ⟨by rw [h]; rfl, rfl⟩
  · rintro ⟨h, rfl⟩
    generalize t.kind = k at h ⊢
    cases k <;> simp [Kind.isIdentifier] at h ⊢

lemma takes_identifier_cons {us : List Token} : Takes (part .identifier) (t :: ts) us ↔
    t.kind.isIdentifier ∧ if t.kind = .quoted then Takes (many joint) ts us else ts = us := by
  simp only [takes_part_iff, rule, takes_orElse_iff, takes_append_iff, takes_token_cons]
  split
  · rename_i h
    simp [h, Kind.isIdentifier]
  · rename_i h
    simp only [h, false_and, exists_false, or_false]
    rw [← takes_idToken_cons, idToken]
    simp [h]

lemma joined_sound {j : Joined} (h : (joined eof j ts m).complaints = []) :
    Takes (many joint) ts (joined eof j ts m).rest := by
  fun_induction joined eof j ts m with
  | case1 => exact .stop
  | case2 => cases h
  | case3 j m p hp q ts hq r ih =>
    have hjoint : Takes joint (p :: q :: ts) ts := by simp [joint, hp, hq]
    exact hjoint.more (ih h)
  | case4 => cases h
  | case5 => exact .stop

lemma identifier_sound (ht : t.kind.isIdentifier) (h : (identifier eof t ts m).complaints = []) :
    Takes (part .identifier) (t :: ts) (identifier eof t ts m).rest := by
  rw [takes_identifier_cons]
  refine ⟨ht, ?_⟩
  simp only [identifier] at h ⊢
  split
  · rename_i hq
    rw [if_pos hq] at h
    exact joined_sound h
  · rfl

lemma requireIdentifier_sound {what : Expectation} (h : (requireIdentifier eof what ts m).complaints = []) :
    Takes (part .identifier) ts (requireIdentifier eof what ts m).rest ∧
      (requireIdentifier eof what ts m).value.isSome := by
  unfold requireIdentifier at h ⊢
  split at h
  · split at h
    · rename_i hid
      simp only [hid, if_true]
      exact ⟨identifier_sound hid h, rfl⟩
    · cases h
  · cases h

lemma optionalIdentifier_sound (h : (optionalIdentifier eof ts m).complaints = []) :
    Takes (opt (part .identifier)) ts (optionalIdentifier eof ts m).rest := by
  unfold optionalIdentifier at h ⊢
  rw [takes_opt_iff]
  split
  · rename_i hid
    rw [if_pos hid] at h
    exact .inl (requireIdentifier_sound h).1
  · exact .inr rfl

lemma compass_sound (h : (compass eof ts m).complaints = []) :
    Takes (opt Form.compass) ts (compass eof ts m).rest := by
  unfold compass at h ⊢
  rw [takes_opt_iff]
  split
  · split
    · rename_i hc
      simp only [hc, if_true] at h
      exact .inl (.seq (by simp [hc]) (requireIdentifier_sound h).1)
    · exact .inr rfl
  · exact .inr rfl

lemma port_sound (ht : t.kind = .colon) (h : (port eof t ts m).complaints = []) :
    Takes Form.port (t :: ts) (port eof t ts m).rest := by
  simp only [port, List.append_eq_nil_iff] at h ⊢
  obtain ⟨hname, hpoint⟩ := h
  obtain ⟨hid, hsome⟩ := requireIdentifier_sound hname
  simp only [hsome, if_true] at hpoint ⊢
  exact .seq (.seq (by simp [ht]) hid) (compass_sound hpoint)

lemma optionalPort_sound (h : (optionalPort eof ts m).complaints = []) :
    Takes (opt Form.port) ts (optionalPort eof ts m).rest := by
  unfold optionalPort at h ⊢
  rw [takes_opt_iff]
  split
  · split
    · rename_i hc
      simp only [hc, if_true] at h
      exact .inl (port_sound hc h)
    · exact .inr rfl
  · exact .inr rfl

lemma nodeId_sound (ht : t.kind.isIdentifier) (h : (nodeId eof t ts m).complaints = []) :
    Takes (part .nodeId) (t :: ts) (nodeId eof t ts m).rest := by
  simp only [nodeId, List.append_eq_nil_iff] at h ⊢
  rw [takes_part_iff]
  exact .seq (identifier_sound ht h.1) (optionalPort_sound h.2)

lemma attrValue_sound (h : (attrValue eof ts m).complaints = []) :
    Takes (token .equals ++ part .identifier) ts (attrValue eof ts m).rest := by
  unfold attrValue at h ⊢
  split at h
  · split at h
    · rename_i he
      simp only [he, if_true]
      exact .seq (by simp [he]) (requireIdentifier_sound h).1
    · cases h
  · cases h

lemma attr_sound (ht : t.kind.isIdentifier) (h : (attr eof t ts m).complaints = []) :
    Takes Form.attr (t :: ts) (attr eof t ts m).rest := by
  simp only [attr, List.append_eq_nil_iff] at h ⊢
  obtain ⟨⟨hleft, hright⟩, -⟩ := h
  obtain ⟨vs, hequals, hid⟩ := takes_append_iff.mp (attrValue_sound hright)
  refine .seq (.seq (.seq (identifier_sound ht hleft) hequals) hid) (optional_sound fun t ts hw => ?_)
  simpa [endsAttr] using hw

lemma attrs_sound (h : (attrs eof ts m).complaints = []) :
    Takes (many Form.attr ++ token .closeBracket) ts (attrs eof ts m).rest := by
  fun_induction attrs eof ts m with
  | case1 => cases h
  | case2 m t ts hc => exact .seq .stop (by simp [hc])
  | case3 => cases h
  | case4 m t ts _ _ hid a r ih =>
    simp only [List.append_eq_nil_iff] at h
    obtain ⟨vs, hattrs, hclose⟩ := takes_append_iff.mp (ih h.2)
    exact .seq (.more (attr_sound hid h.1) hattrs) hclose
  | case5 => cases h

lemma attrList_sound (ht : t.kind = .openBracket) (h : (attrList eof t ts m).complaints = []) :
    Takes (part .attrList) (t :: ts) (attrList eof t ts m).rest := by
  rw [takes_part_iff]
  obtain ⟨vs, hattrs, hclose⟩ := takes_append_iff.mp (attrs_sound h)
  exact .seq (.seq (by simp [ht]) hattrs) hclose

lemma attrLists_sound (h : (attrLists eof ts m).complaints = []) :
    Takes (many (part .attrList)) ts (attrLists eof ts m).rest := by
  fun_induction attrLists eof ts m with
  | case1 m t ts hopen a r ih =>
    simp only [List.append_eq_nil_iff] at h
    exact .more (attrList_sound hopen h.1) (ih h.2)
  | case2 => exact .stop
  | case3 => exact .stop

lemma avoids_attrLists (eof : Span) (ts : List Token) (m : Trail) :
    Avoids [.openBracket] (attrLists eof ts m).rest := by
  fun_induction attrLists eof ts m with
  | case1 m t ts hopen a r ih => exact ih
  | case2 m t ts hopen => simpa [skip] using hopen
  | case3 => exact avoids_nil

lemma terminator_sound : Takes Form.terminator ts (terminator ts m).rest :=
  optional_sound fun t ts hw => by simpa using hw

lemma takes_subject_cons {us : List Token} : Takes subject (t :: ts) us ↔ isSubject t.kind ∧ ts = us := by
  simp only [subject, takes_orElse_iff, takes_token_cons, isSubject, Bool.or_eq_true, decide_eq_true_eq]
  tauto

lemma takes_edgeOp_cons {us : List Token} : Takes edgeOp (t :: ts) us ↔ t.kind.isEdgeOp ∧ ts = us := by
  simp only [edgeOp, takes_orElse_iff, takes_token_cons]
  generalize t.kind = k
  cases k <;> simp [Kind.isEdgeOp, Kind.edgeOp?]

lemma attrStatement_sound (ht : isSubject t.kind) (h : (attrStatement eof t ts m).complaints = []) :
    Takes (part .statement) (t :: ts) (attrStatement eof t ts m).rest := by
  simp only [attrStatement, List.append_eq_nil_iff] at h ⊢
  obtain ⟨⟨hbare, hlists⟩, -⟩ := h
  have hmany1 : Takes (many1 (part .attrList)) ts (attrLists eof ts (m.pass t).grown).rest := by
    apply (attrLists_sound hlists).many1
    intro he
    have havoids := avoids_attrLists eof ts (m.pass t).grown
    rw [← he] at havoids
    simp [nextIs_eq_false (p := (· = .openBracket)) havoids (by simp)] at hbare
  simp only [takes_part_iff, rule, takes_orElse_iff]
  exact .inl (.seq (.seq (takes_subject_cons.mpr ⟨ht, rfl⟩) hmany1) terminator_sound)

lemma equation_sound {e : Token} (ht : t.kind.isIdentifier) (he : e.kind = .equals)
    (h : (equation eof t e ts m).complaints = []) :
    Takes (part .statement) (t :: e :: ts) (equation eof t e ts m).rest := by
  simp only [equation, List.append_eq_nil_iff] at h ⊢
  simp only [takes_part_iff, rule, takes_orElse_iff]
  refine .inr (.inl
    (.seq (.seq (.seq (takes_idToken_cons.mpr ⟨ht, rfl⟩) ?_) (requireIdentifier_sound h.1).1) terminator_sound))
  exact takes_token_cons.mpr ⟨he, rfl⟩

lemma nodeStatement_sound {start : Nat} {node : Tree} (h : (nodeStatement eof start node ts m).complaints = []) :
    Takes (many (part .attrList) ++ Form.terminator) ts (nodeStatement eof start node ts m).rest := by
  simp only [nodeStatement, List.append_eq_nil_iff] at h ⊢
  exact .seq (attrLists_sound h.1) terminator_sound

theorem avoids_chain (eof : Span) (ts : List Token) (m : Trail) :
    Avoids [.directedOp, .undirectedOp] (chain eof ts m).rest := by
  cases ts with
  | nil =>
    rw [chain]
    exact avoids_nil
  | cons t ts =>
    rw [chain]
    split
    · have := (target eof ts (m.pass t).grown).fits
      exact avoids_chain eof _ _
    · rename_i hop
      rw [skip, avoids_cons]
      intro hk
      simp only [List.mem_cons, List.not_mem_nil, or_false] at hk
      rcases hk with hk | hk <;> exact hop (by rw [hk]; rfl)
  termination_by ts.length
  decreasing_by all_goals subst_vars; simp only [List.length_cons]; omega

lemma edgeStatement_sound {start : Nat} {source : Tree} (hop : nextIs Kind.isEdgeOp ts)
    (hchain : (chain eof ts m).complaints = [] → Takes (many edge) ts (chain eof ts m).rest)
    (h : (edgeStatement eof start source ts m).complaints = []) :
    Takes (many1 edge ++ many (part .attrList) ++ Form.terminator) ts
      (edgeStatement eof start source ts m).rest := by
  rw [edgeStatement] at h ⊢
  simp only [List.append_eq_nil_iff] at h
  refine .seq (.seq ((hchain h.1.1).many1 ?_) (attrLists_sound h.1.2)) terminator_sound
  intro he
  have havoids := avoids_chain eof ts m
  rw [← he] at havoids
  rw [nextIs_eq_false havoids fun _ => mem_of_isEdgeOp] at hop
  cases hop

lemma takes_edges {start : List Token} {us : List Token} (hstart : Takes endpoint start ts)
    (h : Takes (many1 edge ++ many (part .attrList) ++ Form.terminator) ts us) :
    Takes (part .statement) start us := by
  obtain ⟨ws, hws, hstop⟩ := takes_append_iff.mp h
  obtain ⟨vs, hedges, hlists⟩ := takes_append_iff.mp hws
  simp only [takes_part_iff, rule, takes_orElse_iff]
  exact .inr (.inr (.inr (.inl (.seq (.seq (.seq hstart hedges) hlists) hstop))))

mutual

theorem statements_sound (ts : List Token) (m : Trail) (h : (statements eof ts m).complaints = []) :
    Takes (many item) ts (statements eof ts m).rest := by
  cases ts with
  | nil =>
    rw [statements]
    exact .stop
  | cons t ts =>
    rw [statements] at h ⊢
    split at h
    · rename_i hclose
      rw [if_pos hclose]
      exact .stop
    rename_i hclose
    rw [if_neg hclose]
    split at h
    · rename_i hsemi
      rw [if_pos hsemi]
      refine .more ?_ (statements_sound ts (m.pass t) h)
      exact takes_orElse_iff.mpr (.inl (takes_token_cons.mpr ⟨hsemi, rfl⟩))
    rename_i hsemi
    rw [if_neg hsemi]
    split at h
    · rename_i hstarts
      rw [if_pos hstarts]
      simp only [List.append_eq_nil_iff] at h
      have hfits := (statement eof t ts m).fits
      refine .more ?_ (statements_sound _ _ h.2)
      exact takes_orElse_iff.mpr (.inr (statement_sound t ts m hstarts h.1))
    · cases h
  termination_by 8 * ts.length + 4
  decreasing_by all_goals subst_vars; simp only [List.length_cons]; omega

theorem statement_sound (t : Token) (ts : List Token) (m : Trail) (ht : startsStatement t.kind)
    (h : (statement eof t ts m).complaints = []) :
    Takes (part .statement) (t :: ts) (statement eof t ts m).rest := by
  rw [statement.eq_def] at h ⊢
  split at h
  · rename_i hsubject
    rw [if_pos hsubject]
    exact attrStatement_sound hsubject h
  rename_i hsubject
  rw [if_neg hsubject]
  split at h
  · rename_i hbody
    rw [if_pos hbody]
    simp only [List.append_eq_nil_iff] at h ⊢
    have hsub := subgraph_sound t ts m hbody h.1
    have hfits := (subgraph eof t ts m).fits
    split
    · rename_i hop
      rw [if_pos hop] at h
      exact takes_edges (takes_orElse_iff.mpr (.inr hsub)) (edgeStatement_sound hop (chain_sound _ _) h.2)
    · simp only [takes_part_iff, rule, takes_orElse_iff]
      exact .inr (.inr (.inr (.inr (.seq hsub terminator_sound))))
  rename_i hbody
  rw [if_neg hbody]
  have hid := isIdentifier_of_startsStatement ht (by simpa using hsubject) (by simpa using hbody)
  cases ts with
  | nil => exact namedStatement_sound t [] m hid h
  | cons e ts =>
    simp only at h ⊢
    split at h
    · rename_i he
      rw [if_pos he]
      exact equation_sound hid he h
    · rename_i he
      rw [if_neg he]
      exact namedStatement_sound t (e :: ts) m hid h
  termination_by 8 * ts.length + 11
  decreasing_by all_goals subst_vars; omega

theorem namedStatement_sound (t : Token) (ts : List Token) (m : Trail) (ht : t.kind.isIdentifier)
    (h : (namedStatement eof t ts m).complaints = []) :
    Takes (part .statement) (t :: ts) (namedStatement eof t ts m).rest := by
  rw [namedStatement] at h ⊢
  simp only [List.append_eq_nil_iff] at h ⊢
  have hnode := nodeId_sound ht h.1
  have hfits := (nodeId eof t ts m).fits
  split
  · rename_i hop
    rw [if_pos hop] at h
    exact takes_edges (takes_orElse_iff.mpr (.inl hnode)) (edgeStatement_sound hop (chain_sound _ _) h.2)
  · rename_i hop
    rw [if_neg hop] at h
    obtain ⟨vs, hlists, hstop⟩ := takes_append_iff.mp (nodeStatement_sound h.2)
    simp only [takes_part_iff, rule, takes_orElse_iff]
    exact .inr (.inr (.inl (.seq (.seq hnode hlists) hstop)))
  termination_by 8 * ts.length + 10
  decreasing_by omega

theorem chain_sound (ts : List Token) (m : Trail) (h : (chain eof ts m).complaints = []) :
    Takes (many edge) ts (chain eof ts m).rest := by
  cases ts with
  | nil =>
    rw [chain]
    exact .stop
  | cons t ts =>
    rw [chain] at h ⊢
    split at h
    · rename_i hop
      rw [if_pos hop]
      simp only [List.append_eq_nil_iff] at h
      have hfits := (target eof ts (m.pass t).grown).fits
      refine .more ?_ (chain_sound _ _ h.2)
      exact .seq (takes_edgeOp_cons.mpr ⟨hop, rfl⟩) (target_sound ts _ h.1)
    · rename_i hop
      rw [if_neg hop]
      exact .stop
  termination_by 8 * ts.length + 8
  decreasing_by all_goals subst_vars; simp only [List.length_cons]; omega

theorem target_sound (ts : List Token) (m : Trail) (h : (target eof ts m).complaints = []) :
    Takes endpoint ts (target eof ts m).rest := by
  cases ts with
  | nil =>
    rw [target] at h
    cases h
  | cons t ts =>
    rw [target] at h ⊢
    rw [endpoint, takes_orElse_iff]
    split at h
    · rename_i hbody
      rw [if_pos hbody]
      exact .inr (subgraph_sound t ts m hbody h)
    rename_i hbody
    rw [if_neg hbody]
    split at h
    · rename_i hid
      rw [if_pos hid]
      exact .inl (nodeId_sound hid h)
    · cases h
  termination_by 8 * ts.length + 3
  decreasing_by all_goals subst_vars; simp only [List.length_cons]; omega

theorem subgraph_sound (t : Token) (ts : List Token) (m : Trail) (ht : opensBody t.kind)
    (h : (subgraph eof t ts m).complaints = []) : Takes (part .subgraph) (t :: ts) (subgraph eof t ts m).rest := by
  rw [subgraph] at h ⊢
  simp only [takes_part_iff, rule]
  split at h
  · rename_i hkeyword
    rw [if_pos hkeyword]
    simp only [List.append_eq_nil_iff] at h
    have hfits := (optionalIdentifier eof ts (m.pass t).grown).fits
    refine .seq (takes_opt_iff.mpr (.inl (.seq ?_ (optionalIdentifier_sound h.1)))) (bracedBody_sound _ _ h.2)
    exact takes_token_cons.mpr ⟨hkeyword, rfl⟩
  · rename_i hkeyword
    rw [if_neg hkeyword]
    have hopen : t.kind = .openBrace := by simpa [opensBody, hkeyword] using ht
    obtain ⟨vs, hitems, hclose⟩ := takes_append_iff.mp (openedBody_sound ts (m.pass t) h)
    refine .seq (takes_opt_iff.mpr (.inr rfl)) (takes_part_iff.mpr (.seq (.seq ?_ hitems) hclose))
    exact takes_token_cons.mpr ⟨hopen, rfl⟩
  termination_by 8 * ts.length + 10
  decreasing_by all_goals omega

theorem bracedBody_sound (ts : List Token) (m : Trail) (h : (bracedBody eof ts m).complaints = []) :
    Takes (part .body) ts (bracedBody eof ts m).rest := by
  cases ts with
  | nil =>
    rw [bracedBody] at h
    cases h
  | cons t ts =>
    rw [bracedBody] at h ⊢
    split at h
    · rename_i hopen
      rw [if_pos hopen]
      obtain ⟨vs, hitems, hclose⟩ := takes_append_iff.mp (openedBody_sound ts (m.pass t) h)
      refine takes_part_iff.mpr (.seq (.seq ?_ hitems) hclose)
      exact takes_token_cons.mpr ⟨hopen, rfl⟩
    · cases h
  termination_by 8 * ts.length + 6
  decreasing_by all_goals subst_vars; simp only [List.length_cons]; omega

theorem openedBody_sound (ts : List Token) (m : Trail) (h : (openedBody eof ts m).complaints = []) :
    Takes (many item ++ token .closeBrace) ts (openedBody eof ts m).rest := by
  by_cases hclose : nextIs (· = .closeBrace) (statements eof ts m).rest
  · cases hrest : (statements eof ts m).rest with
    | nil =>
      rw [hrest] at hclose
      cases hclose
    | cons t rest =>
      rw [hrest] at hclose
      have hkind : t.kind = .closeBrace := of_decide_eq_true hclose
      obtain ⟨-, hbehind, -, hcomplaints⟩ := openedBody_of_closeBrace hrest hkind
      have hitems := statements_sound ts m (hcomplaints ▸ h)
      rw [hrest] at hitems
      rw [hbehind]
      exact .seq hitems (takes_token_cons.mpr ⟨hkind, rfl⟩)
  · obtain ⟨-, -, -, hcomplaints⟩ := openedBody_of_unclosed (Bool.eq_false_iff.mpr hclose)
    simp [hcomplaints] at h
  termination_by 8 * ts.length + 5
  decreasing_by omega

end

end DotMend.Parse
