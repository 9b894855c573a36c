import DotMend.Proofs.Parse.Soundness

/-! What the grammar has is read without a complaint. A reader takes as much as it can, so each of them is told
what may not come behind the tokens that it is to take. -/

namespace DotMend.Parse

open Grammar Grammar.Form

def Parsed.Leaves {n : Nat} {α : Type} (r : Parsed n α) (us : List Token) : Prop := r.complaints = [] ∧ r.rest = us

variable (eof : Span) {t : Token} {ts us vs : List Token}

lemma skip_leaves {α : Type} {value : α} {m : Trail} : (skip value ts m).Leaves ts := ⟨rfl, rfl⟩

lemma mem_first_identifier {k : Kind} : k ∈ Part.identifier.first ↔ k.isIdentifier := by
  cases k <;> simp [Part.first, Kind.isIdentifier]

lemma mem_first_subgraph {k : Kind} : k ∈ Part.subgraph.first ↔ opensBody k := by
  cases k <;> simp [Part.first, opensBody]

lemma mem_first_statement {k : Kind} : k ∈ Part.statement.first ↔ startsStatement k := by
  cases k <;> simp [Part.first, startsStatement, Kind.isIdentifier, isSubject, opensBody]

lemma optional_complete (wanted : Kind → Bool) (m : Trail) {a : Form}
    (ha : ∀ ts us, Takes a ts us → ∃ t, ts = t :: us ∧ wanted t.kind) (h : Takes (opt a) ts us)
    (hus : nextIs wanted us = false) : (optional wanted ts m).Leaves us := by
  rcases takes_opt_iff.mp h with h | rfl
  · obtain ⟨t, rfl, ht⟩ := ha _ _ h
    rw [optional, if_pos ht]
    exact ⟨rfl, rfl⟩
  · unfold optional
    split
    · rename_i t ts
      have ht : wanted t.kind = false := hus
      rw [if_neg (by simp [ht])]
      exact skip_leaves
    · exact skip_leaves

lemma joined_complete {j : Joined} {m : Trail} (h : Takes (many joint) ts us) (hus : Avoids [.plus] us) :
    (joined eof j ts m).Leaves us := by
  fun_induction joined eof j ts m with
  | case1 =>
    obtain rfl := h.many_stop rfl avoids_nil
    exact skip_leaves
  | case2 j m p hp =>
    obtain ⟨vs, hjoint, -⟩ := h.many_step hus (by simp [hp])
    simp [joint] at hjoint
  | case3 j m p hp q ts hq r ih =>
    obtain ⟨vs, hjoint, hmany⟩ := h.many_step hus (by simp [hp])
    simp only [joint, takes_append_iff, takes_token_cons] at hjoint
    obtain ⟨ws, ⟨-, rfl⟩, hws⟩ := hjoint
    obtain rfl := (takes_token_cons.mp hws).2
    exact ih hmany
  | case4 j m p hp q ts hq =>
    obtain ⟨vs, hjoint, -⟩ := h.many_step hus (by simp [hp])
    simp [joint, hq] at hjoint
  | case5 j m p ts hp =>
    obtain rfl := h.many_stop rfl (avoids_cons.mpr fun hk => hp (List.mem_singleton.mp hk))
    exact skip_leaves

lemma identifier_complete (m : Trail) (h : Takes (part .identifier) (t :: ts) us) (hus : Avoids [.plus] us) :
    (identifier eof t ts m).Leaves us := by
  obtain ⟨-, h⟩ := takes_identifier_cons.mp h
  simp only [Parsed.Leaves, identifier]
  split at h
  · rename_i hq
    simp only [hq, if_true]
    exact joined_complete eof h hus
  · rename_i hq
    simp only [hq, if_false]
    exact ⟨rfl, h⟩

lemma requireIdentifier_complete (what : Expectation) (m : Trail) (h : Takes (part .identifier) ts us)
    (hus : Avoids [.plus] us) :
    (requireIdentifier eof what ts m).Leaves us ∧ (requireIdentifier eof what ts m).value.isSome := by
  obtain ⟨t, ts, rfl, hfirst⟩ := h.exists_first rfl
  rw [requireIdentifier, if_pos (mem_first_identifier.mp hfirst)]
  exact ⟨identifier_complete eof m h hus, rfl⟩

lemma optionalIdentifier_complete (m : Trail) (h : Takes (opt (part .identifier)) ts us)
    (hus : Avoids [.plus, .word, .html, .numeral, .quoted] us) : (optionalIdentifier eof ts m).Leaves us := by
  rw [optionalIdentifier]
  rcases takes_opt_iff.mp h with h | rfl
  · obtain ⟨t, ts, rfl, hfirst⟩ := h.exists_first rfl
    have hnext : nextIs Kind.isIdentifier (t :: ts) := mem_first_identifier.mp hfirst
    rw [if_pos hnext]
    exact (requireIdentifier_complete eof _ m h (hus.mono (by decide))).1
  · rw [nextIs_eq_false hus fun k hk => List.mem_cons_of_mem _ (mem_first_identifier.mpr hk)]
    exact skip_leaves

lemma compass_complete (m : Trail) (h : Takes (opt Form.compass) ts us) (hus : Avoids [.plus, .colon] us) :
    (compass eof ts m).Leaves us := by
  unfold compass
  rcases takes_opt_iff.mp h with h | rfl
  · obtain ⟨vs, hcolon, hid⟩ := takes_append_iff.mp h
    obtain ⟨t, ts, rfl, -⟩ := hcolon.exists_first rfl
    obtain ⟨hkind, rfl⟩ := takes_token_cons.mp hcolon
    simp only [hkind, if_true]
    exact (requireIdentifier_complete eof _ _ hid (hus.mono (by decide))).1
  · split
    · rename_i t ts
      rw [if_neg fun hk => avoids_cons.mp hus (by simp [hk])]
      exact skip_leaves
    · exact skip_leaves

lemma port_complete (m : Trail) (h : Takes Form.port (t :: ts) us) (hus : Avoids [.plus, .colon] us) :
    (port eof t ts m).Leaves us := by
  obtain ⟨vs, hname, hpoint⟩ := takes_append_iff.mp h
  obtain ⟨ws, hcolon, hid⟩ := takes_append_iff.mp hname
  obtain ⟨-, rfl⟩ := takes_token_cons.mp hcolon
  have hvs : Avoids [.plus] vs := hpoint.avoids (by decide) fun _ => hus.mono (by decide)
  obtain ⟨⟨hnil, rfl⟩, hsome⟩ := requireIdentifier_complete eof .portName (m.pass t) hid hvs
  obtain ⟨hnil', hrest⟩ := compass_complete eof _ hpoint hus
  simp only [Parsed.Leaves, port, hsome, if_true, hnil, List.nil_append]
  exact ⟨hnil', hrest⟩

lemma optionalPort_complete (m : Trail) (h : Takes (opt Form.port) ts us) (hus : Avoids [.plus, .colon] us) :
    (optionalPort eof ts m).Leaves us := by
  unfold optionalPort
  rcases takes_opt_iff.mp h with h | rfl
  · obtain ⟨t, ts, rfl, hfirst⟩ := h.exists_first rfl
    have hkind : t.kind = .colon := List.mem_singleton.mp hfirst
    simp only [hkind, if_true]
    exact port_complete eof m h hus
  · split
    · rename_i t ts
      rw [if_neg fun hk => avoids_cons.mp hus (by simp [hk])]
      exact skip_leaves
    · exact skip_leaves

lemma nodeId_complete (m : Trail) (h : Takes (part .nodeId) (t :: ts) us) (hus : Avoids [.plus, .colon] us) :
    (nodeId eof t ts m).Leaves us := by
  obtain ⟨vs, hid, hport⟩ := takes_append_iff.mp (takes_part_iff.mp h)
  have hvs : Avoids [.plus] vs := hport.avoids (by decide) fun _ => hus.mono (by decide)
  obtain ⟨hnil, rfl⟩ := identifier_complete eof m hid hvs
  obtain ⟨hnil', hrest⟩ := optionalPort_complete eof (identifier eof t ts m).trail hport hus
  exact ⟨by simp [nodeId, hnil, hnil'], hrest⟩

lemma attrValue_complete (m : Trail) (h : Takes (token .equals ++ part .identifier) ts us)
    (hus : Avoids [.plus] us) : (attrValue eof ts m).Leaves us := by
  obtain ⟨vs, hequals, hid⟩ := takes_append_iff.mp h
  obtain ⟨t, ts, rfl, -⟩ := hequals.exists_first rfl
  obtain ⟨hkind, rfl⟩ := takes_token_cons.mp hequals
  simp only [attrValue, hkind, if_true]
  exact (requireIdentifier_complete eof _ _ hid hus).1

lemma attr_complete (m : Trail) (h : Takes Form.attr (t :: ts) us) (hus : Avoids [.plus, .semicolon, .comma] us) :
    (attr eof t ts m).Leaves us := by
  obtain ⟨ws, h, hstop⟩ := takes_append_iff.mp h
  obtain ⟨vs, h, hright⟩ := takes_append_iff.mp h
  obtain ⟨xs, hleft, hequals⟩ := takes_append_iff.mp h
  have hxs : Avoids [.plus] xs := hequals.avoids_of_not_nullable rfl (by decide)
  have hws : Avoids [.plus] ws := hstop.avoids (by decide) fun _ => hus.mono (by decide)
  obtain ⟨hnil, rfl⟩ := identifier_complete eof m hleft hxs
  obtain ⟨hnil', rfl⟩ := attrValue_complete eof (identifier eof t ts m).trail (.seq hequals hright) hws
  have hends : ∀ ts us, Takes (token .semicolon <|> token .comma) ts us → ∃ t, ts = t :: us ∧ endsAttr t.kind := by
    intro ts us h
    cases ts with
    | nil => simp at h
    | cons t ts =>
      simp only [takes_orElse_iff, takes_token_cons] at h
      rcases h with ⟨hk, rfl⟩ | ⟨hk, rfl⟩ <;> exact ⟨t, rfl, by rw [hk]; rfl⟩
  obtain ⟨hnil'', hrest⟩ :=
    optional_complete endsAttr (attrValue eof (identifier eof t ts m).rest (identifier eof t ts m).trail).trail
    hends hstop (nextIs_eq_false hus fun k => by cases k <;> simp [endsAttr])
  exact ⟨by simp [attr, hnil, hnil', hnil''], hrest⟩

lemma attrs_complete {m : Trail} (h : Takes (many Form.attr ++ token .closeBracket) ts us) :
    (attrs eof ts m).Leaves us := by
  obtain ⟨vs, hattrs, hclose⟩ := takes_append_iff.mp h
  clear h
  have hvs : Avoids Form.attr.first vs := hclose.avoids_of_not_nullable rfl (by decide)
  fun_induction attrs eof ts m with
  | case1 =>
    obtain rfl := hattrs.many_stop rfl avoids_nil
    simp at hclose
  | case2 m t ts hbracket =>
    obtain rfl := hattrs.many_stop rfl (avoids_cons.mpr (by rw [hbracket]; decide))
    exact ⟨rfl, (takes_token_cons.mp hclose).2⟩
  | case3 m t ts _ hbrace =>
    obtain rfl := hattrs.many_stop rfl (avoids_cons.mpr (by rw [hbrace]; decide))
    simp [hbrace] at hclose
  | case4 m t ts _ _ hid a r ih =>
    obtain ⟨ws, hattr, hattrs⟩ := hattrs.many_step hvs (mem_first_identifier.mpr hid)
    have hws : Avoids [.plus, .semicolon, .comma] ws := (hattrs.seq hclose).avoids_of_not_nullable rfl (by decide)
    obtain ⟨hnil, rfl⟩ := attr_complete eof m hattr hws
    obtain ⟨hnil', hrest⟩ := ih hattrs
    exact ⟨List.append_eq_nil_iff.mpr ⟨hnil, hnil'⟩, hrest⟩
  | case5 m t ts hbracket _ hid r ih =>
    obtain rfl := hattrs.many_stop rfl (avoids_cons.mpr fun hk => hid (mem_first_identifier.mp hk))
    exact absurd (takes_token_cons.mp hclose).1 hbracket

lemma attrList_complete (m : Trail) (h : Takes (part .attrList) (t :: ts) us) :
    (attrList eof t ts m).Leaves us := by
  obtain ⟨vs, h, hclose⟩ := takes_append_iff.mp (takes_part_iff.mp h)
  obtain ⟨ws, hopen, hattrs⟩ := takes_append_iff.mp h
  obtain ⟨-, rfl⟩ := takes_token_cons.mp hopen
  exact attrs_complete eof (m := m.pass t) (hattrs.seq hclose)

lemma attrLists_complete {m : Trail} (h : Takes (many (part .attrList)) ts us) (hus : Avoids [.openBracket] us) :
    (attrLists eof ts m).Leaves us := by
  fun_induction attrLists eof ts m with
  | case1 m t ts hopen a r ih =>
    obtain ⟨vs, hlist, hlists⟩ := h.many_step hus (by simp [hopen])
    obtain ⟨hnil, rfl⟩ := attrList_complete eof m hlist
    obtain ⟨hnil', hrest⟩ := ih hlists
    exact ⟨List.append_eq_nil_iff.mpr ⟨hnil, hnil'⟩, hrest⟩
  | case2 m t ts hopen =>
    obtain rfl := h.many_stop rfl (avoids_cons.mpr fun hk => hopen (List.mem_singleton.mp hk))
    exact skip_leaves
  | case3 =>
    obtain rfl := h.many_stop rfl avoids_nil
    exact skip_leaves

def behindTerminator : List Token → List Token
  | [] => []
  | t :: ts => if t.kind = .semicolon then ts else t :: ts

lemma terminator_leaves (ts : List Token) (m : Trail) : (terminator ts m).Leaves (behindTerminator ts) := by
  unfold terminator optional behindTerminator
  cases ts with
  | nil => exact skip_leaves
  | cons t ts =>
    by_cases hsemi : t.kind = .semicolon
    · simp only [hsemi, decide_true, if_true]
      exact ⟨rfl, rfl⟩
    · simp only [hsemi, decide_false, if_false]
      exact ⟨rfl, rfl⟩

def clause : Form :=
  subject ++ many1 (part .attrList) <|>
  idToken ++ token .equals ++ part .identifier <|>
  part .nodeId ++ many (part .attrList) <|>
  endpoint ++ many1 edge ++ many (part .attrList) <|>
  part .subgraph

def carriesOn : List Kind := [.plus, .colon, .equals, .openBracket, .directedOp, .undirectedOp]

lemma exists_clause (h : Takes (part .statement) ts us) :
    ∃ vs, Takes clause ts vs ∧ Takes Form.terminator vs us := by
  simp only [clause, takes_orElse_iff]
  rw [takes_part_iff] at h
  simp only [rule, takes_orElse_iff] at h
  rcases h with h | h | h | h | h
  all_goals obtain ⟨vs, h, hstop⟩ := takes_append_iff.mp h
  · exact ⟨vs, .inl h, hstop⟩
  · exact ⟨vs, .inr (.inl h), hstop⟩
  · exact ⟨vs, .inr (.inr (.inl h)), hstop⟩
  · exact ⟨vs, .inr (.inr (.inr (.inl h))), hstop⟩
  · exact ⟨vs, .inr (.inr (.inr (.inr h))), hstop⟩

lemma takes_behindTerminator (hstop : Takes Form.terminator ts vs) (h : Takes (many item) vs us)
    (hus : Avoids [.semicolon] us) : Takes (many item) (behindTerminator ts) us := by
  rcases takes_opt_iff.mp hstop with hsemi | rfl
  · obtain ⟨t, ts, rfl, -⟩ := hsemi.exists_first rfl
    obtain ⟨hkind, rfl⟩ := takes_token_cons.mp hsemi
    rwa [behindTerminator, if_pos hkind]
  · cases ts with
    | nil => exact h
    | cons t ts =>
      rw [behindTerminator]
      split
      · rename_i hkind
        obtain ⟨vs, hitem, hitems⟩ := h.many_step hus (by simp [hkind])
        rcases takes_orElse_iff.mp hitem with hitem | hitem
        · obtain ⟨-, rfl⟩ := takes_token_cons.mp hitem
          exact hitems
        · obtain ⟨u, rest, hcons, hfirst⟩ := hitem.exists_first rfl
          obtain ⟨rfl, rfl⟩ := List.cons.inj hcons
          rw [hkind] at hfirst
          exact absurd hfirst (by decide)
      · exact h

lemma attrStatement_complete (m : Trail) (h : Takes (subject ++ many1 (part .attrList)) (t :: ts) us)
    (hus : Avoids [.openBracket] us) : (attrStatement eof t ts m).Leaves (behindTerminator us) := by
  obtain ⟨vs, hsubject, hlists⟩ := takes_append_iff.mp h
  obtain ⟨-, rfl⟩ := takes_subject_cons.mp hsubject
  obtain ⟨u, us', rfl, hfirst⟩ := hlists.exists_first rfl
  have hopen : nextIs (· = .openBracket) (u :: us') := decide_eq_true (List.mem_singleton.mp hfirst)
  obtain ⟨vs, hlist, hmany⟩ := takes_append_iff.mp hlists
  obtain ⟨hnil, rfl⟩ := attrLists_complete eof (m := (m.pass t).grown) (.more hlist hmany) hus
  obtain ⟨hnil', hrest⟩ := terminator_leaves (attrLists eof (u :: us') (m.pass t).grown).rest
    (attrLists eof (u :: us') (m.pass t).grown).trail
  refine ⟨?_, hrest⟩
  simp only [attrStatement, hopen, hnil, hnil']
  rfl

lemma equation_complete (t e : Token) (m : Trail) (h : Takes (part .identifier) ts us) (hus : Avoids [.plus] us) :
    (equation eof t e ts m).Leaves (behindTerminator us) := by
  obtain ⟨⟨hnil, rfl⟩, -⟩ := requireIdentifier_complete eof .identifier (m.pass e).grown h hus
  obtain ⟨hnil', hrest⟩ := terminator_leaves (requireIdentifier eof .identifier ts (m.pass e).grown).rest
    (requireIdentifier eof .identifier ts (m.pass e).grown).trail
  exact ⟨by simp [equation, hnil, hnil'], hrest⟩

lemma nodeStatement_complete (start : Nat) (node : Tree) (m : Trail) (h : Takes (many (part .attrList)) ts us)
    (hus : Avoids [.openBracket] us) : (nodeStatement eof start node ts m).Leaves (behindTerminator us) := by
  obtain ⟨hnil, rfl⟩ := attrLists_complete eof (m := m) h hus
  obtain ⟨hnil', hrest⟩ := terminator_leaves (attrLists eof ts m).rest (attrLists eof ts m).trail
  exact ⟨by simp [nodeStatement, hnil, hnil'], hrest⟩

lemma edgeStatement_complete (start : Nat) (source : Tree) (m : Trail)
    (hchain : ∀ vs, Takes (many edge) ts vs → Avoids [.plus, .colon, .directedOp, .undirectedOp] vs →
      (chain eof ts m).Leaves vs)
    (h : Takes (many1 edge ++ many (part .attrList)) ts us) (hus : Avoids carriesOn us) :
    (edgeStatement eof start source ts m).Leaves (behindTerminator us) := by
  obtain ⟨vs, hedges, hlists⟩ := takes_append_iff.mp h
  obtain ⟨ws, hedge, hmany⟩ := takes_append_iff.mp hedges
  have hvs : Avoids [.plus, .colon, .directedOp, .undirectedOp] vs :=
    hlists.avoids (by decide) fun _ => hus.mono (by decide)
  obtain ⟨hnil, rfl⟩ := hchain vs (.more hedge hmany) hvs
  obtain ⟨hnil', rfl⟩ := attrLists_complete eof (m := (chain eof ts m).trail) hlists (hus.mono (by decide))
  obtain ⟨hnil'', hrest⟩ := terminator_leaves (attrLists eof (chain eof ts m).rest (chain eof ts m).trail).rest
    (attrLists eof (chain eof ts m).rest (chain eof ts m).trail).trail
  rw [edgeStatement]
  exact ⟨by simp [hnil, hnil', hnil''], hrest⟩

lemma avoids_of_takes_nodeId (h : Takes (part .nodeId) (t :: ts) us) (hus : Avoids [.equals] us) :
    Avoids [.equals] ts := by
  obtain ⟨vs, hid, hport⟩ := takes_append_iff.mp (takes_part_iff.mp h)
  have hvs : Avoids [.equals] vs := hport.avoids (by decide) fun _ => hus
  obtain ⟨-, hjoints⟩ := takes_identifier_cons.mp hid
  split at hjoints
  · exact hjoints.avoids (by decide) fun _ => hvs
  · rwa [hjoints]

lemma not_isSubject_of_isIdentifier {k : Kind} (h : k.isIdentifier) :
    isSubject k = false ∧ opensBody k = false := by
  cases k <;> simp [Kind.isIdentifier, isSubject, opensBody] at h ⊢

lemma not_isSubject_of_opensBody {k : Kind} (h : opensBody k) : isSubject k = false := by
  cases k <;> simp [isSubject, opensBody] at h ⊢

lemma isIdentifier_of_takes_nodeId (h : Takes (part .nodeId) (t :: ts) us) : t.kind.isIdentifier := by
  obtain ⟨vs, hid, -⟩ := takes_append_iff.mp (takes_part_iff.mp h)
  exact (takes_identifier_cons.mp hid).1

lemma opensBody_of_takes_subgraph (h : Takes (part .subgraph) (t :: ts) us) : opensBody t.kind := by
  obtain ⟨u, rest, hcons, hfirst⟩ := h.exists_first rfl
  obtain ⟨rfl, rfl⟩ := List.cons.inj hcons
  exact mem_first_subgraph.mp hfirst

lemma statement_of_named (m : Trail) (hid : t.kind.isIdentifier) (hts : Avoids [.equals] ts)
    (h : (namedStatement eof t ts m).Leaves us) : (statement eof t ts m).Leaves us := by
  obtain ⟨hsubject, hbody⟩ := not_isSubject_of_isIdentifier hid
  rw [statement.eq_def]
  simp only [hsubject, hbody, Bool.false_eq_true, if_false]
  cases ts with
  | nil => exact h
  | cons e ts =>
    simp only
    rw [if_neg fun he => avoids_cons.mp hts (by simp [he])]
    exact h

lemma statement_of_subgraph (m : Trail) (hbody : opensBody t.kind) (hnil : (subgraph eof t ts m).complaints = [])
    (h : (if nextIs Kind.isEdgeOp (subgraph eof t ts m).rest then
        edgeStatement eof t.span.start (subgraph eof t ts m).value (subgraph eof t ts m).rest
    (subgraph eof t ts m).trail
      else subgraphStatement t.span.start (subgraph eof t ts m).value (subgraph eof t ts m).rest
        (subgraph eof t ts m).trail).Leaves us) : (statement eof t ts m).Leaves us := by
  rw [statement.eq_def, if_neg (by simp [not_isSubject_of_opensBody hbody]), if_pos hbody]
  exact ⟨List.append_eq_nil_iff.mpr ⟨hnil, h.1⟩, h.2⟩

lemma nextIs_isEdgeOp (h : Takes (many1 edge ++ many (part .attrList)) ts us) : nextIs Kind.isEdgeOp ts := by
  obtain ⟨t, ts, rfl, hfirst⟩ := h.exists_first rfl
  have hkind : t.kind ∈ [Kind.directedOp, .undirectedOp] := hfirst
  simp only [List.mem_cons, List.not_mem_nil, or_false] at hkind
  rcases hkind with hkind | hkind <;> simp [nextIs, hkind, Kind.isEdgeOp, Kind.edgeOp?]

lemma avoids_of_takes_tail
    (h : Takes (many (part .attrList)) ts us ∨ Takes (many1 edge ++ many (part .attrList)) ts us)
    (hus : Avoids carriesOn us) : Avoids [.plus, .colon, .equals] ts := by
  rcases h with h | h
  · exact h.avoids (by decide) fun _ => hus.mono (by decide)
  · exact h.avoids_of_not_nullable rfl (by decide)

mutual

theorem statements_complete (ts : List Token) (m : Trail) {us : List Token} (h : Takes (many item) ts us)
    (hus : nextIs (· = .closeBrace) us) : (statements eof ts m).Leaves us := by
  have havoids {ks : List Kind} (hks : Kind.closeBrace ∉ ks) : Avoids ks us := by
    cases us with
    | nil => exact avoids_nil
    | cons u us =>
      rw [avoids_cons, show u.kind = .closeBrace from of_decide_eq_true hus]
      exact hks
  rcases takes_many_iff.mp h with rfl | ⟨vs, hitem, hitems⟩
  · cases ts with
    | nil => cases hus
    | cons t ts =>
      have hclose : t.kind = .closeBrace := of_decide_eq_true hus
      rw [statements, if_pos hclose]
      exact skip_leaves
  rcases takes_orElse_iff.mp hitem with hsemi | hstatement
  · obtain ⟨t, ts, rfl, -⟩ := hsemi.exists_first rfl
    obtain ⟨hkind, rfl⟩ := takes_token_cons.mp hsemi
    rw [statements, if_neg (by simp [hkind]), if_pos hkind]
    exact statements_complete ts (m.pass t) hitems hus
  · obtain ⟨t, ts, rfl, hfirst⟩ := hstatement.exists_first rfl
    obtain ⟨ws, hclause, hstop⟩ := exists_clause hstatement
    have hws : Avoids carriesOn ws := (hstop.seq hitems).avoids (by decide) fun _ => havoids (by decide)
    obtain ⟨hnil, hrest⟩ := statement_complete t ts m hclause hws
    have hfits := (statement eof t ts m).fits
    -- the reader takes a semicolon to the statement, whether the derivation does or has it as an item of its own
    have hbehind := takes_behindTerminator hstop hitems (havoids (by decide))
    rw [← hrest] at hbehind
    obtain ⟨hnil', hrest'⟩ := statements_complete _ (statement eof t ts m).trail hbehind hus
    rw [statements, if_neg (by rintro hk; rw [hk] at hfirst; exact absurd hfirst (by decide)),
      if_neg (by rintro hk; rw [hk] at hfirst; exact absurd hfirst (by decide)),
      if_pos (mem_first_statement.mp hfirst)]
    exact ⟨List.append_eq_nil_iff.mpr ⟨hnil, hnil'⟩, hrest'⟩
  termination_by 8 * ts.length + 4
  decreasing_by all_goals subst_vars; simp only [List.length_cons]; omega

theorem statement_complete (t : Token) (ts : List Token) (m : Trail) {us : List Token}
    (h : Takes clause (t :: ts) us)
    (hus : Avoids carriesOn us) : (statement eof t ts m).Leaves (behindTerminator us) := by
  simp only [clause, takes_orElse_iff] at h
  rcases h with h | h | h | h | h
  · have hsubject : isSubject t.kind := by
      obtain ⟨vs, hsubject, -⟩ := takes_append_iff.mp h
      exact (takes_subject_cons.mp hsubject).1
    rw [statement.eq_def, if_pos hsubject]
    exact attrStatement_complete eof m h (hus.mono (by decide))
  · obtain ⟨vs, h, hright⟩ := takes_append_iff.mp h
    obtain ⟨ws, hleft, hequals⟩ := takes_append_iff.mp h
    obtain ⟨hid, rfl⟩ := takes_idToken_cons.mp hleft
    obtain ⟨e, ts, rfl, -⟩ := hequals.exists_first rfl
    obtain ⟨he, rfl⟩ := takes_token_cons.mp hequals
    obtain ⟨hsubject, hbody⟩ := not_isSubject_of_isIdentifier hid
    rw [statement.eq_def]
    simp only [hsubject, hbody, Bool.false_eq_true, if_false, he, if_true]
    exact equation_complete eof t e m hright (hus.mono (by decide))
  -- a name that no equals sign follows is read as a node's, and the operator behind it decides the rest
  · obtain ⟨vs, hnode, hlists⟩ := takes_append_iff.mp h
    have hts := avoids_of_takes_nodeId hnode ((avoids_of_takes_tail (.inl hlists) hus).mono (by decide))
    exact statement_of_named eof m (isIdentifier_of_takes_nodeId hnode) hts
      (namedStatement_complete t ts m hnode (.inl hlists) hus)
  · obtain ⟨ws, h, hlists⟩ := takes_append_iff.mp h
    obtain ⟨vs, hend, hedges⟩ := takes_append_iff.mp h
    have htail := hedges.seq hlists
    rcases takes_orElse_iff.mp hend with hnode | hsub
    · have hts := avoids_of_takes_nodeId hnode ((avoids_of_takes_tail (.inr htail) hus).mono (by decide))
      exact statement_of_named eof m (isIdentifier_of_takes_nodeId hnode) hts
        (namedStatement_complete t ts m hnode (.inr htail) hus)
    · have hfits := (subgraph eof t ts m).fits
      obtain ⟨hnil, rfl⟩ := subgraph_complete t ts m hsub
      apply statement_of_subgraph eof m (opensBody_of_takes_subgraph hsub) hnil
      rw [if_pos (nextIs_isEdgeOp htail)]
      exact edgeStatement_complete eof _ _ _ (fun _ => chain_complete _ _) htail hus
  · obtain ⟨hnil, rfl⟩ := subgraph_complete t ts m h
    apply statement_of_subgraph eof m (opensBody_of_takes_subgraph h) hnil
    rw [nextIs_eq_false hus fun k hk =>
      (by decide : ∀ k ∈ [Kind.directedOp, .undirectedOp], k ∈ carriesOn) k (mem_of_isEdgeOp hk)]
    exact terminator_leaves _ _
  termination_by 8 * ts.length + 11
  decreasing_by all_goals subst_vars; omega

theorem namedStatement_complete (t : Token) (ts : List Token) (m : Trail) {us vs : List Token}
    (hnode : Takes (part .nodeId) (t :: ts) vs)
    (htail : Takes (many (part .attrList)) vs us ∨ Takes (many1 edge ++ many (part .attrList)) vs us)
    (hus : Avoids carriesOn us) : (namedStatement eof t ts m).Leaves (behindTerminator us) := by
  have hfits := (nodeId eof t ts m).fits
  obtain ⟨hnil, rfl⟩ := nodeId_complete eof m hnode ((avoids_of_takes_tail htail hus).mono (by decide))
  rw [namedStatement]
  rcases htail with hlists | hedges
  · have hop : nextIs Kind.isEdgeOp (nodeId eof t ts m).rest = false := by
      have hrest : Avoids [.directedOp, .undirectedOp] (nodeId eof t ts m).rest :=
        hlists.avoids (by decide) fun _ => hus.mono (by decide)
      exact nextIs_eq_false hrest fun _ => mem_of_isEdgeOp
    obtain ⟨hnil', hrest⟩ := nodeStatement_complete eof t.span.start (nodeId eof t ts m).value
      (nodeId eof t ts m).trail hlists (hus.mono (by decide))
    simp only [Parsed.Leaves, hop, Bool.false_eq_true, if_false, hnil, List.nil_append]
    exact ⟨hnil', hrest⟩
  · obtain ⟨hnil', hrest⟩ := edgeStatement_complete eof t.span.start (nodeId eof t ts m).value
      (nodeId eof t ts m).trail (fun _ => chain_complete _ _) hedges hus
    simp only [Parsed.Leaves, nextIs_isEdgeOp hedges, if_true, hnil, List.nil_append]
    exact ⟨hnil', hrest⟩
  termination_by 8 * ts.length + 10
  decreasing_by omega

theorem chain_complete (ts : List Token) (m : Trail) {us : List Token} (h : Takes (many edge) ts us)
    (hus : Avoids [.plus, .colon, .directedOp, .undirectedOp] us) : (chain eof ts m).Leaves us := by
  cases ts with
  | nil =>
    obtain rfl := h.many_stop rfl avoids_nil
    rw [chain]
    exact skip_leaves
  | cons t ts =>
    rw [chain]
    by_cases hop : t.kind.isEdgeOp
    · obtain ⟨vs, hedge, hedges⟩ := h.many_step (hus.mono (by decide)) (mem_of_isEdgeOp hop)
      obtain ⟨ws, hop', hend⟩ := takes_append_iff.mp hedge
      obtain ⟨-, rfl⟩ := takes_edgeOp_cons.mp hop'
      have hvs : Avoids [.plus, .colon] vs := hedges.avoids (by decide) fun _ => hus.mono (by decide)
      have hfits := (target eof ts (m.pass t).grown).fits
      obtain ⟨hnil, rfl⟩ := target_complete ts (m.pass t).grown hend hvs
      obtain ⟨hnil', hrest⟩ := chain_complete _ (target eof ts (m.pass t).grown).trail.grown hedges hus
      rw [if_pos hop]
      exact ⟨List.append_eq_nil_iff.mpr ⟨hnil, hnil'⟩, hrest⟩
    · have hfirst : t.kind ∉ edge.first := by
        intro hk
        have hkind : t.kind ∈ [Kind.directedOp, .undirectedOp] := hk
        simp only [List.mem_cons, List.not_mem_nil, or_false] at hkind
        rcases hkind with hkind | hkind <;> exact hop (by rw [hkind]; rfl)
      obtain rfl := h.many_stop rfl (avoids_cons.mpr hfirst)
      rw [if_neg hop]
      exact skip_leaves
  termination_by 8 * ts.length + 8
  decreasing_by all_goals subst_vars; simp only [List.length_cons]; omega

theorem target_complete (ts : List Token) (m : Trail) {us : List Token} (h : Takes endpoint ts us)
    (hus : Avoids [.plus, .colon] us) : (target eof ts m).Leaves us := by
  rcases takes_orElse_iff.mp h with hnode | hsub
  · obtain ⟨t, ts, rfl, -⟩ := hnode.exists_first rfl
    have hid := isIdentifier_of_takes_nodeId hnode
    rw [target, if_neg (by simp [(not_isSubject_of_isIdentifier hid).2]), if_pos hid]
    exact nodeId_complete eof m hnode hus
  · obtain ⟨t, ts, rfl, -⟩ := hsub.exists_first rfl
    rw [target, if_pos (opensBody_of_takes_subgraph hsub)]
    exact subgraph_complete t ts m hsub
  termination_by 8 * ts.length + 3
  decreasing_by all_goals subst_vars; simp only [List.length_cons]; omega

theorem subgraph_complete (t : Token) (ts : List Token) (m : Trail) {us : List Token}
    (h : Takes (part .subgraph) (t :: ts) us) : (subgraph eof t ts m).Leaves us := by
  obtain ⟨vs, hhead, hbody⟩ := takes_append_iff.mp (takes_part_iff.mp h)
  rcases takes_opt_iff.mp hhead with hhead | rfl
  · obtain ⟨ws, hkeyword, hname⟩ := takes_append_iff.mp hhead
    obtain ⟨hkind, rfl⟩ := takes_token_cons.mp hkeyword
    have hvs : Avoids [.plus, .word, .html, .numeral, .quoted] vs := hbody.avoids_of_not_nullable rfl (by decide)
    have hfits := (optionalIdentifier eof ts (m.pass t).grown).fits
    obtain ⟨hnil, rfl⟩ := optionalIdentifier_complete eof (m.pass t).grown hname hvs
    obtain ⟨hnil', hrest⟩ := bracedBody_complete _ (optionalIdentifier eof ts (m.pass t).grown).trail hbody
    rw [subgraph, if_pos hkind]
    exact ⟨List.append_eq_nil_iff.mpr ⟨hnil, hnil'⟩, hrest⟩
  · obtain ⟨ws, hitems, hclose⟩ := takes_append_iff.mp (takes_part_iff.mp hbody)
    obtain ⟨xs, hopen, hitems⟩ := takes_append_iff.mp hitems
    obtain ⟨hkind, rfl⟩ := takes_token_cons.mp hopen
    rw [subgraph, if_neg (by simp [hkind])]
    exact openedBody_complete ts (m.pass t) (hitems.seq hclose)
  termination_by 8 * ts.length + 10
  decreasing_by all_goals subst_vars; omega

theorem bracedBody_complete (ts : List Token) (m : Trail) {us : List Token} (h : Takes (part .body) ts us) :
    (bracedBody eof ts m).Leaves us := by
  obtain ⟨ws, hitems, hclose⟩ := takes_append_iff.mp (takes_part_iff.mp h)
  obtain ⟨xs, hopen, hitems⟩ := takes_append_iff.mp hitems
  obtain ⟨t, ts, rfl, -⟩ := hopen.exists_first rfl
  obtain ⟨hkind, rfl⟩ := takes_token_cons.mp hopen
  rw [bracedBody, if_pos hkind]
  exact openedBody_complete ts (m.pass t) (hitems.seq hclose)
  termination_by 8 * ts.length + 6
  decreasing_by all_goals subst_vars; simp only [List.length_cons]; omega

theorem openedBody_complete (ts : List Token) (m : Trail) {us : List Token}
    (h : Takes (many item ++ token .closeBrace) ts us) : (openedBody eof ts m).Leaves us := by
  obtain ⟨vs, hitems, hclose⟩ := takes_append_iff.mp h
  obtain ⟨c, vs, rfl, -⟩ := hclose.exists_first rfl
  obtain ⟨hkind, rfl⟩ := takes_token_cons.mp hclose
  obtain ⟨hnil, hrest⟩ := statements_complete ts m hitems (decide_eq_true hkind)
  obtain ⟨-, hbehind, -, hcomplaints⟩ := openedBody_of_closeBrace hrest hkind
  exact ⟨hcomplaints.trans hnil, hbehind⟩
  termination_by 8 * ts.length + 5
  decreasing_by omega

end

lemma takes_nil_iff {a : Form} : Takes a ts [] ↔ Derives a (ts.map Token.kind) := by
  constructor
  · rintro ⟨used, rfl, h⟩
    rwa [List.append_nil]
  · intro h
    exact ⟨ts, (List.append_nil ts).symm, h⟩

lemma trailing_eq_nil_iff {limit : Nat} : trailing limit ts = [] ↔ ts = [] := by cases ts <;> simp [trailing]

lemma graphFrom_diagnostics_iff {limit start : Nat} {strict : Option Tree} {k : Token} (m : Trail) :
    (graphFrom eof limit start strict k ts m).diagnostics = [] ↔
      Takes (opt (part .identifier) ++ part .body) ts [] := by
  simp only [graphFrom, List.append_eq_nil_iff, trailing_eq_nil_iff]
  constructor
  · rintro ⟨⟨hname, hbody⟩, hrest⟩
    have hbody := bracedBody_sound _ _ hbody
    rw [hrest] at hbody
    exact .seq (optionalIdentifier_sound hname) hbody
  · intro h
    obtain ⟨vs, hname, hbody⟩ := takes_append_iff.mp h
    obtain ⟨hnil, rfl⟩ := optionalIdentifier_complete eof (m.pass k).grown hname
      (hbody.avoids_of_not_nullable rfl (by decide))
    obtain ⟨hnil', hrest⟩ := bracedBody_complete eof _ (optionalIdentifier eof ts (m.pass k).grown).trail hbody
    exact ⟨⟨hnil, hnil'⟩, hrest⟩

lemma takes_keyword_cons {us : List Token} :
    Takes (token .graphKeyword <|> token .digraphKeyword) (t :: ts) us ↔ isGraphKeyword t.kind ∧ ts = us := by
  simp only [takes_orElse_iff, takes_token_cons, isGraphKeyword, Bool.or_eq_true, decide_eq_true_eq]
  tauto

lemma source_sound {limit : Nat} (hsome : (source eof limit ts).graph.isSome)
    (hnil : (source eof limit ts).diagnostics = []) : Takes (part .source) ts [] := by
  cases ts with
  | nil => cases hsome
  | cons t ts =>
    have hstrict : Takes (opt (token .strictKeyword)) (t :: ts)
        (optional (· = .strictKeyword) (t :: ts) .start).rest :=
      optional_sound fun t ts hk => takes_token_cons.mpr ⟨of_decide_eq_true hk, rfl⟩
    simp only [source] at hsome hnil
    generalize (optional (· = .strictKeyword) (t :: ts) .start).rest = vs at hsome hnil hstrict
    cases vs with
    | nil => cases hsome
    | cons k vs =>
      simp only at hsome hnil
      split at hsome
      · rename_i hk
        rw [if_pos hk, graphFrom_diagnostics_iff] at hnil
        obtain ⟨ws, hname, hbody⟩ := takes_append_iff.mp hnil
        exact takes_part_iff.mpr (.seq (.seq (.seq hstrict (takes_keyword_cons.mpr ⟨hk, rfl⟩)) hname) hbody)
      · cases hsome

lemma source_complete {limit : Nat} (h : Takes (part .source) ts []) :
    (source eof limit ts).graph.isSome ∧ (source eof limit ts).diagnostics = [] := by
  obtain ⟨t, ts, rfl, -⟩ := h.exists_first rfl
  obtain ⟨xs, h, hbody⟩ := takes_append_iff.mp (takes_part_iff.mp h)
  obtain ⟨ws, h, hname⟩ := takes_append_iff.mp h
  obtain ⟨vs, hstrict, hkeyword⟩ := takes_append_iff.mp h
  have hvs : Avoids [.strictKeyword] vs := hkeyword.avoids_of_not_nullable rfl (by decide)
  have hone : ∀ ts us, Takes (token .strictKeyword) ts us → ∃ t, ts = t :: us ∧
      decide (t.kind = .strictKeyword) := by
    intro ts us h
    cases ts with
    | nil => simp at h
    | cons t ts => simpa [and_comm] using h
  obtain ⟨-, hrest⟩ := optional_complete (· = .strictKeyword) .start hone hstrict (nextIs_eq_false hvs (by simp))
  obtain ⟨k, vs, rfl, -⟩ := hkeyword.exists_first rfl
  obtain ⟨hk, rfl⟩ := takes_keyword_cons.mp hkeyword
  simp only [source]
  rw [hrest]
  simp only [hk, if_true]
  exact ⟨rfl, (graphFrom_diagnostics_iff eof _).mpr (hname.seq hbody)⟩

/-- Of the token lists that end the file with their last token and not before, those that the grammar has are the
ones that are read as a graph with nothing to complain about. -/
theorem ofTokens_accepts_iff (ts : List Token) (e : Token) (hts : ∀ t ∈ ts, t.kind ≠ .endOfFile)
    (he : e.kind = .endOfFile) : ((ofTokens (ts ++ [e])).graph.isSome ∧ (ofTokens (ts ++ [e])).diagnostics = []) ↔
      Derives (part .source) (ts.map Token.kind) := by
  rw [ofTokens_concat hts he, ← takes_nil_iff]
  constructor
  · rintro ⟨hsome, hnil⟩
    exact source_sound _ hsome hnil
  · exact source_complete _

theorem ofTokens_accepts_iff_joined :
    let token (k : Kind) : Token := ⟨k, .caret 0, "", false⟩
    let edge := [Kind.graphKeyword, .openBrace, .quoted, .plus, .quoted, .directedOp, .openBrace, .word,
      .semicolon, .closeBrace, .openBracket, .word, .equals, .numeral, .comma, .closeBracket, .closeBrace]
    let equation := [Kind.graphKeyword, .openBrace, .quoted, .plus, .quoted, .equals, .word, .closeBrace]
    (∀ t ∈ edge.map token, t.kind ≠ .endOfFile) ∧ (∀ t ∈ equation.map token, t.kind ≠ .endOfFile) ∧
      (Token.endAt 0).kind = .endOfFile ∧ Derives (part .source) edge ∧ ¬ Derives (part .source) equation := by
  intro token edge equation
  have hedge : ∀ t ∈ edge.map token, t.kind ≠ .endOfFile := by decide
  have hequation : ∀ t ∈ equation.map token, t.kind ≠ .endOfFile := by decide
  refine ⟨hedge, hequation, rfl,
    (ofTokens_accepts_iff (edge.map token) (.endAt 0) hedge rfl).mp (by decide +kernel), ?_⟩
  intro h
  have haccepts := (ofTokens_accepts_iff (equation.map token) (.endAt 0) hequation rfl).mpr h
  exact absurd haccepts (by decide +kernel)

end DotMend.Parse
