import DotMend.Proofs.Parse.Completeness
import DotMend.Proofs.Parse.Splitting

namespace DotMend.Parse

variable {l f fine : Bool} {ts us : List Token} {t t' : Token} {m m' : Trail} {eof : Span} (eof' : Span)

/-- `r'` is what `r` is, read from cut tokens, or else there is a cut token that is not fine and a complaint about
it. -/
structure Parsed.Tracks (fine : Bool) (f : α → β) {n n' : Nat} (r : Parsed n α) (r' : Parsed n' α) : Prop where
  clean : fine = true → r'.complaints = []
  mirrors : r'.complaints = [] → r.Mirrors false fine f r'

namespace Parsed

lemma Mirrors.tracks {n n' : Nat} {g : α → β} {r : Parsed n α} {r' : Parsed n' α} (h : r.Mirrors false fine g r') :
    r.Tracks fine g r' := ⟨fun _ => h.complaints, fun _ => h⟩

lemma Tracks.map {n n' k k' : Nat} {α β γ δ : Type} {g : α → β} {g' : γ → δ} {r : Parsed n α} {r' : Parsed n' α}
    {s : Parsed k γ} {s' : Parsed k' γ} (h : r.Tracks fine g r') (hcs : s'.complaints = r'.complaints)
    (hs : r.Mirrors false fine g r' → s.Mirrors false fine g' s') : s.Tracks fine g' s' :=
  ⟨fun hfine => hcs.trans (h.clean hfine), fun hnil => hs (h.mirrors (hcs.symm.trans hnil))⟩

lemma Tracks.seq {n n' k k' i i' : Nat} {α β γ δ ε ζ : Type} {g : α → β} {g' : γ → δ} {g'' : ε → ζ}
    {r : Parsed n α}
    {r' : Parsed n' α} {s : Parsed k γ} {s' : Parsed k' γ} {u : Parsed i ε} {u' : Parsed i' ε}
    (hr : r.Tracks fine g r')
    (hs : r.Mirrors false fine g r' → s.Tracks fine g' s') (hcs : u'.complaints = r'.complaints ++ s'.complaints)
    (hu : r.Mirrors false fine g r' → s.Mirrors false fine g' s' → u.Mirrors false fine g'' u') :
    u.Tracks fine g'' u' := by
  constructor
  · intro hfine
    have hnil := hr.clean hfine
    rw [hcs, hnil, (hs (hr.mirrors hnil)).clean hfine]
    rfl
  · intro hnil
    rw [hcs, List.append_eq_nil_iff] at hnil
    have hr := hr.mirrors hnil.1
    exact hu hr ((hs hr).mirrors hnil.2)

end Parsed

open Grammar Grammar.Form in
lemma statement_of_joined {a p c e : Token} (ha : a.kind = .quoted) (hp : p.kind = .plus) (hc : c.kind = .quoted)
    (he : e.kind = .equals) (ts : List Token) (m : Trail) :
    (statement eof a (p :: c :: e :: ts) m).Leaves (e :: ts) := by
  have hjoint : Takes (many joint) (p :: c :: e :: ts) (e :: ts) := by
    apply Takes.more _ .stop
    simp [joint, hp, hc]
  have hid : Takes (part .identifier) (a :: p :: c :: e :: ts) (e :: ts) := by
    rw [takes_identifier_cons, if_pos ha]
    exact ⟨by rw [ha]; rfl, hjoint⟩
  have hnode : Takes (part .nodeId) (a :: p :: c :: e :: ts) (e :: ts) :=
    takes_part_iff.mpr (hid.seq (takes_opt_iff.mpr (.inr rfl)))
  obtain ⟨hnil, hrest⟩ := nodeId_complete eof m hnode (by simp [he])
  have hlists : Takes (many (part .attrList)) (nodeId eof a (p :: c :: e :: ts) m).rest (e :: ts) := by
    rw [hrest]
    exact .stop
  have hop : nextIs Kind.isEdgeOp (nodeId eof a (p :: c :: e :: ts) m).rest = false := by
    simp [hrest, nextIs, he, Kind.isEdgeOp, Kind.edgeOp?]
  obtain ⟨hnil', hrest'⟩ := nodeStatement_complete eof a.span.start (nodeId eof a (p :: c :: e :: ts) m).value
    (nodeId eof a (p :: c :: e :: ts) m).trail hlists (by simp [he])
  rw [behindTerminator, if_neg (by simp [he])] at hrest'
  apply statement_of_named eof m (by rw [ha]; rfl) (by simp [hp])
  rw [namedStatement]
  simp only [hop, Bool.false_eq_true, if_false]
  exact ⟨List.append_eq_nil_iff.mpr ⟨hnil, hnil'⟩, hrest'⟩

lemma complaints_of_joined {a p c e : Token} (ha : a.kind = .quoted) (hp : p.kind = .plus) (hc : c.kind = .quoted)
    (he : e.kind = .equals) (ts : List Token) (m : Trail) :
    (statements eof (a :: p :: c :: e :: ts) m).complaints ≠ [] := by
  have hequals (m : Trail) : (statements eof (e :: ts) m).complaints ≠ [] := by
    rw [statements, if_neg (by simp [he]), if_neg (by simp [he]),
      if_neg (by simp [he, startsStatement, isSubject, opensBody, Kind.isIdentifier])]
    exact List.cons_ne_nil _ _
  rw [statements, if_neg (by simp [ha]), if_neg (by simp [ha]),
    if_pos (by simp [ha, startsStatement, Kind.isIdentifier])]
  intro hnil
  rw [List.append_eq_nil_iff, (statement_of_joined ha hp hc he ts m).2] at hnil
  exact hequals _ hnil.2

lemma Split.of_plain (h : Split false f fine (t :: ts) us) (ht : t.kind ∉ [Kind.quoted, .equals, .openBracket]) :
    ∃ t' us', us = t' :: us' ∧ t'.kind = t.kind ∧ Split false false fine ts us' := by
  simp only [List.mem_cons, List.not_mem_nil, or_false, not_or] at ht
  obtain ⟨t', us', rfl, hk, -, h⟩ := h.of_token ht.1 fun he => absurd he ht.2.1
  rw [show listBehind t.kind false = false by simp [listBehind, ht.2.2]] at h
  exact ⟨t', us', rfl, hk, h⟩

lemma edgeStatement_tracks {start start' : Nat} {source source' : Tree} (m' : Trail)
    (hsource : source'.outline = source.outline) (hc : (edgeStatement eof start source ts m).complaints = [])
    (hchain : (chain eof ts m).complaints = [] →
      (chain eof ts m).Tracks fine (List.map Tree.outline) (chain eof' us m')) :
    (edgeStatement eof start source ts m).Tracks fine Tree.outline (edgeStatement eof' start' source' us m') := by
  rw [edgeStatement.eq_def eof] at hc ⊢
  rw [edgeStatement.eq_def eof']
  simp only [List.append_eq_nil_iff] at hc
  apply (hchain hc.1.1).seq
  · intro hrhs
    obtain ⟨_, hsplit⟩ := hrhs.split
    exact (attrLists_mirrors eof' (chain eof' us m').trail hsplit hc.1.2 hrhs.built).tracks
  · simp only [(terminator_leaves _ _).1, List.append_nil]
  · intro hrhs hlists
    obtain ⟨_, hsplit⟩ := hlists.split
    have hstop := terminator_mirrors hsplit hlists.built
    refine hstop.node (by rw [hrhs.complaints, hlists.complaints, hstop.complaints]; rfl) fun i i' hi => ?_
    simp only [Tree.map_edgeStatement, hsource, hrhs.value, hlists.value, hstop.value, Tree.Info.outline_congr hi]

lemma behindSource_tracks {n n' start start' : Nat} {node : Parsed n Tree} {node' : Parsed n' Tree}
    {single : Parsed node.rest.length Tree} {single' : Parsed node'.rest.length Tree}
    (h : node.Mirrors false fine Tree.outline node')
    (hc : (if nextIs Kind.isEdgeOp node.rest then edgeStatement eof start node.value node.rest node.trail
      else single).complaints = [])
    (hchain : (chain eof node.rest node.trail).complaints = [] →
      (chain eof node.rest node.trail).Tracks fine (List.map Tree.outline) (chain eof' node'.rest node'.trail))
    (hsingle : single.complaints = [] → single.Mirrors false fine Tree.outline single') :
    (if nextIs Kind.isEdgeOp node.rest then edgeStatement eof start node.value node.rest node.trail
      else single).Tracks fine
      Tree.outline
      (if nextIs Kind.isEdgeOp node'.rest then edgeStatement eof' start' node'.value node'.rest node'.trail
        else single') := by
  obtain ⟨_, hsplit⟩ := h.split
  rw [hsplit.nextIs]
  by_cases hop : nextIs Kind.isEdgeOp node.rest = true
  · rw [if_pos hop] at hc ⊢
    rw [if_pos hop]
    exact edgeStatement_tracks eof' _ h.value hc hchain
  · rw [if_neg hop] at hc ⊢
    rw [if_neg hop]
    exact (hsingle hc).tracks

lemma openedBody_tracks (m' : Trail) (hc : (openedBody eof ts m).complaints = [])
    (hs : (statements eof ts m).complaints = [] →
      (statements eof ts m).Tracks fine (fun v => v.1.map Tree.outline) (statements eof' us m')) :
    (openedBody eof ts m).Tracks fine (fun v => v.1.map Tree.outline) (openedBody eof' us m') := by
  by_cases hclose : nextIs (· = .closeBrace) (statements eof ts m).rest
  · cases hrest : (statements eof ts m).rest with
    | nil =>
      rw [hrest] at hclose
      cases hclose
    | cons c rest =>
      rw [hrest] at hclose
      have hkind : c.kind = .closeBrace := of_decide_eq_true hclose
      obtain ⟨hvalue, hbehind, htrail, hcomplaints⟩ := openedBody_of_closeBrace hrest hkind
      have hs := hs (hcomplaints ▸ hc)
      have hmirrors : (statements eof' us m').complaints = [] →
          (openedBody eof ts m).Mirrors false fine (fun v => v.1.map Tree.outline) (openedBody eof' us m') := by
        intro hnil
        have hr := hs.mirrors hnil
        obtain ⟨_, hsplit⟩ := hr.split
        rw [hrest] at hsplit
        obtain ⟨c', rest', hrest', hk, hsplit⟩ := hsplit.of_plain (by simp [hkind])
        obtain ⟨hvalue', hbehind', htrail', hcomplaints'⟩ := openedBody_of_closeBrace hrest' (hk.trans hkind)
        refine ⟨hcomplaints'.trans hnil, ?_, ?_, false, ?_⟩
        · rw [hvalue, hvalue']
          exact hr.value
        · rw [htrail, htrail']
          exact hr.built
        · rwa [hbehind, hbehind']
      constructor
      · intro hfine
        exact (hmirrors (hs.clean hfine)).complaints
      · intro hnil
        apply hmirrors
        by_cases hclose' : nextIs (· = .closeBrace) (statements eof' us m').rest
        · cases hrest' : (statements eof' us m').rest with
          | nil =>
            rw [hrest'] at hclose'
            cases hclose'
          | cons c' rest' =>
            rw [hrest'] at hclose'
            exact (openedBody_of_closeBrace hrest' (of_decide_eq_true hclose')).2.2.2.symm.trans hnil
        · rw [(openedBody_of_unclosed (Bool.eq_false_iff.mpr hclose')).2.2.2] at hnil
          exact (List.append_eq_nil_iff.mp hnil).1
  · rw [(openedBody_of_unclosed (Bool.eq_false_iff.mpr hclose)).2.2.2] at hc
    simp at hc

lemma not_special_of_isEdgeOp {k : Kind} (h : k.isEdgeOp) : k ∉ [Kind.quoted, .equals, .openBracket] := by
  cases k <;> simp [Kind.isEdgeOp, Kind.edgeOp?] at h ⊢

lemma not_special_of_opensBody {k : Kind} (h : opensBody k) : k ∉ [Kind.quoted, .equals, .openBracket] := by
  cases k <;> simp [opensBody] at h ⊢

lemma not_special_of_isSubject {k : Kind} (h : isSubject k) : k ∉ [Kind.quoted, .equals, .openBracket] := by
  cases k <;> simp [isSubject] at h ⊢

lemma Split.of_equation (h : Split false f fine (t :: ts) (t' :: us)) (hts : Parse.nextIs (· = .equals) ts = true)
    (hus : Parse.nextIs (· = .equals) us = false) :
    fine = false ∧ ∀ (eof : Span) (m : Trail), (statements eof (t' :: us) m).complaints ≠ [] := by
  cases h with
  | keep _ _ h =>
    rw [h.nextIs, hts] at hus
    cases hus
  | @cut _ _ _ _ _ p c _ us hcut h =>
    cases ts with
    | nil => cases hts
    | cons e ts =>
      have he : e.kind = .equals := of_decide_eq_true hts
      cases h with
      | cut hcut => exact absurd (he.symm.trans hcut.whole) (by simp)
      | @keep _ _ fine _ e' _ us hk =>
        refine ⟨by simp [he], fun eof m => ?_⟩
        exact complaints_of_joined hcut.left hcut.plus hcut.right (hk.trans he) us m

lemma statement_eq_named (hid : t.kind.isIdentifier) (hts : nextIs (· = .equals) ts = false) :
    statement eof t ts m = namedStatement eof t ts m := by
  obtain ⟨hsubject, hbody⟩ := not_isSubject_of_isIdentifier hid
  rw [statement.eq_def]
  simp only [hsubject, hbody, Bool.false_eq_true, if_false]
  cases ts with
  | nil => rfl
  | cons e ts =>
    have he : ¬ e.kind = .equals := of_decide_eq_false hts
    simp only [he, if_false]

lemma statement_eq_equation {e : Token} (hid : t.kind.isIdentifier) (he : e.kind = .equals) :
    statement eof t (e :: ts) m =
      let r := equation eof t e ts m
      ⟨r.value, r.rest, r.trail, r.complaints, Nat.le_succ_of_le r.fits⟩ := by
  obtain ⟨hsubject, hbody⟩ := not_isSubject_of_isIdentifier hid
  rw [statement.eq_def]
  simp only [hsubject, hbody, Bool.false_eq_true, if_false, he, if_true]

lemma statement_mirrors_of_equals (m' : Trail) (h : Split false f fine (t :: ts) (t' :: us))
    (hid : t.kind.isIdentifier) (hts : nextIs (· = .equals) ts = true) (hus : nextIs (· = .equals) us = true)
    (hc : (statement eof t ts m).complaints = []) (hm : m'.built = m.built) :
    (statement eof t ts m).Mirrors false fine Tree.outline (statement eof' t' us m') := by
  cases ts with
  | nil => cases hts
  | cons e ts =>
    have he : e.kind = .equals := of_decide_eq_true hts
    cases h with
    | cut hcut => simp [nextIs, hcut.plus] at hus
    | @keep _ _ fine _ _ _ _ hk hv h =>
      have hne : t.kind ≠ .equals ∧ listBehind t.kind false = false := by
        generalize t.kind = k at hid
        cases k <;> simp [Kind.isIdentifier, listBehind] at hid ⊢
      rw [hne.2] at h
      obtain ⟨e', us, rfl, hk', -, hsplit⟩ := h.of_token (by simp [he]) fun _ => .inr rfl
      rw [show listBehind e.kind false = false by simp [he, listBehind]] at hsplit
      rw [Split.of_keep_fine fun he => absurd he hne.1]
      rw [statement_eq_equation hid he] at hc ⊢
      rw [statement_eq_equation (hk ▸ hid) (hk'.trans he)]
      have hr := equation_mirrors eof' e' m' hk hv hsplit hc hm
      exact ⟨hr.complaints, hr.value, hr.built, hr.split⟩

lemma Split.nextIs_equals_eq_false (h : Split l f fine (t :: ts) (t' :: us))
    (hts : Parse.nextIs (· = .equals) ts = false) : Parse.nextIs (· = .equals) us = false := by
  cases h with
  | cut hcut => simp [Parse.nextIs, hcut.plus]
  | keep _ _ h => rwa [h.nextIs]

mutual

theorem statements_tracks (ts us : List Token) (m m' : Trail) {f : Bool} (h : Split false f fine ts us)
    (hc : (statements eof ts m).complaints = []) (hm : m'.built = m.built) :
    (statements eof ts m).Tracks fine (fun v => v.1.map Tree.outline) (statements eof' us m') := by
  cases ts with
  | nil =>
    obtain ⟨rfl, -⟩ := h.of_nil
    rw [statements.eq_def eof, statements.eq_def eof']
    exact (skip_mirrors h rfl hm).tracks
  | cons t ts =>
    obtain ⟨t', us, rfl, hk⟩ := h.of_cons
    by_cases hbad : nextIs (· = .equals) ts = true ∧ nextIs (· = .equals) us = false
    · obtain ⟨hfine, hcomplaints⟩ := h.of_equation hbad.1 hbad.2
      exact ⟨fun htrue => by simp [hfine] at htrue, fun hnil => absurd hnil (hcomplaints eof' m')⟩
    rw [statements.eq_def eof] at hc ⊢
    rw [statements.eq_def eof']
    simp only [hk] at hc ⊢
    by_cases hclose : t.kind = .closeBrace
    · rw [if_pos hclose, if_pos hclose]
      exact (skip_mirrors h rfl hm).tracks
    rw [if_neg hclose] at hc ⊢
    rw [if_neg hclose]
    by_cases hsemi : t.kind = .semicolon
    · rw [if_pos hsemi] at hc ⊢
      rw [if_pos hsemi]
      obtain ⟨_, _, hus, -, hsplit⟩ := h.of_plain (by simp [hsemi])
      obtain ⟨rfl, rfl⟩ := List.cons.inj hus
      refine (statements_tracks ts us (m.pass t) (m'.pass t') hsplit hc hm).map rfl fun hr => ?_
      exact ⟨hr.complaints, hr.value, hr.built, hr.split⟩
    rw [if_neg hsemi] at hc ⊢
    rw [if_neg hsemi]
    by_cases hstarts : startsStatement t.kind = true
    · rw [if_pos hstarts] at hc ⊢
      rw [if_pos hstarts]
      simp only [List.append_eq_nil_iff] at hc
      have hfits := (statement eof t ts m).fits
      have hgood : nextIs (· = .equals) ts = true → nextIs (· = .equals) us = true :=
        fun hts => Bool.not_eq_false _ ▸ fun hus => hbad ⟨hts, hus⟩
      refine (statement_tracks t t' ts us m m' h hstarts hgood hc.1 hm).seq
        (fun hs => statements_tracks _ _ _ _ hs.split.choose_spec hc.2 hs.built) rfl fun hs hr => ?_
      refine ⟨by simp only [hs.complaints, hr.complaints, List.append_nil], ?_, hr.built, hr.split⟩
      simp only [List.map_cons, hs.value]
      exact congrArg _ hr.value
    · rw [if_neg hstarts] at hc
      cases hc
  termination_by 8 * ts.length + 4
  decreasing_by all_goals subst_vars; simp only [List.length_cons]; omega

theorem statement_tracks (t t' : Token) (ts us : List Token) (m m' : Trail) {f : Bool}
    (h : Split false f fine (t :: ts) (t' :: us)) (ht : startsStatement t.kind)
    (hgood : nextIs (· = .equals) ts = true → nextIs (· = .equals) us = true)
    (hc : (statement eof t ts m).complaints = []) (hm : m'.built = m.built) :
    (statement eof t ts m).Tracks fine Tree.outline (statement eof' t' us m') := by
  obtain ⟨_, _, hus, hk⟩ := h.of_cons
  obtain ⟨rfl, rfl⟩ := List.cons.inj hus
  by_cases hid : t.kind.isIdentifier = true
  · by_cases hequals : nextIs (· = .equals) ts = true
    · exact (statement_mirrors_of_equals eof' m' h hid hequals (hgood hequals) hc hm).tracks
    · have hts := Bool.eq_false_iff.mpr hequals
      rw [statement_eq_named hid hts] at hc ⊢
      rw [statement_eq_named (hk ▸ hid) (h.nextIs_equals_eq_false hts)]
      exact namedStatement_tracks t t' ts us m m' h hid hc hm
  rw [statement.eq_def eof] at hc ⊢
  rw [statement.eq_def eof']
  simp only [hk] at hc ⊢
  by_cases hsubject : isSubject t.kind = true
  · rw [if_pos hsubject] at hc ⊢
    rw [if_pos hsubject]
    obtain ⟨_, _, hus, -, hsplit⟩ := h.of_plain (not_special_of_isSubject hsubject)
    obtain ⟨rfl, rfl⟩ := List.cons.inj hus
    exact (attrStatement_mirrors eof' m' hk hsplit hc hm).tracks
  have hbody : opensBody t.kind = true := by simpa [startsStatement, hid, hsubject] using ht
  rw [if_neg hsubject, if_pos hbody] at hc ⊢
  rw [if_neg hsubject, if_pos hbody]
  simp only [List.append_eq_nil_iff] at hc
  have hfits := (subgraph eof t ts m).fits
  obtain ⟨_, _, hus, -, hsplit⟩ := h.of_plain (not_special_of_opensBody hbody)
  obtain ⟨rfl, rfl⟩ := List.cons.inj hus
  refine (subgraph_tracks t t' ts us m m' hk hsplit hc.1 hm).seq (fun hs => behindSource_tracks eof' hs hc.2
    (fun hchain => chain_tracks _ _ _ _ hs.split.choose_spec hchain hs.built)
    fun _ => subgraphStatement_mirrors hs.value hs.split.choose_spec hs.built) rfl fun hs hr => ?_
  exact ⟨by simp only [hs.complaints, hr.complaints, List.append_nil], hr.value, hr.built, hr.split⟩
  termination_by 8 * ts.length + 11
  decreasing_by all_goals subst_vars; omega

theorem namedStatement_tracks (t t' : Token) (ts us : List Token) (m m' : Trail) {f : Bool}
    (h : Split false f fine (t :: ts) (t' :: us)) (ht : t.kind.isIdentifier)
    (hc : (namedStatement eof t ts m).complaints = []) (hm : m'.built = m.built) :
    (namedStatement eof t ts m).Tracks fine Tree.outline (namedStatement eof' t' us m') := by
  rw [namedStatement.eq_def eof] at hc ⊢
  rw [namedStatement.eq_def eof']
  simp only [List.append_eq_nil_iff] at hc
  have hfits := (nodeId eof t ts m).fits
  have hnode := nodeId_mirrors eof' m' h ht hc.1 hm
  obtain ⟨_, hsplit⟩ := hnode.split
  refine hnode.tracks.seq (fun _ => behindSource_tracks eof' hnode hc.2
    (fun hchain => chain_tracks _ _ _ _ hsplit hchain hnode.built)
    fun hsingle => nodeStatement_mirrors eof' _ hnode.value hsplit hsingle hnode.built) rfl fun _ hr => ?_
  exact ⟨by simp only [hnode.complaints, hr.complaints, List.append_nil], hr.value, hr.built, hr.split⟩
  termination_by 8 * ts.length + 10
  decreasing_by omega

theorem chain_tracks (ts us : List Token) (m m' : Trail) {f : Bool} (h : Split false f fine ts us)
    (hc : (chain eof ts m).complaints = []) (hm : m'.built = m.built) :
    (chain eof ts m).Tracks fine (List.map Tree.outline) (chain eof' us m') := by
  rw [chain.eq_def eof] at hc ⊢
  rw [chain.eq_def eof']
  cases ts with
  | nil =>
    obtain ⟨rfl, -⟩ := h.of_nil
    exact (skip_mirrors h rfl hm).tracks
  | cons t ts =>
    obtain ⟨t', us, rfl, hk⟩ := h.of_cons
    simp only [hk] at hc ⊢
    by_cases hop : t.kind.isEdgeOp = true
    · rw [if_pos hop] at hc ⊢
      rw [if_pos hop]
      simp only [List.append_eq_nil_iff] at hc
      have hfits := (target eof ts (m.pass t).grown).fits
      obtain ⟨_, _, hus, -, hsplit⟩ := h.of_plain (not_special_of_isEdgeOp hop)
      obtain ⟨rfl, rfl⟩ := List.cons.inj hus
      refine (target_tracks ts us _ (m'.pass t').grown hsplit hc.1 (congrArg (· + 1) hm)).seq
        (fun htip => chain_tracks _ _ _ _ htip.split.choose_spec hc.2 (congrArg (· + 1) htip.built)) rfl
        fun htip hr => ?_
      refine ⟨by simp only [htip.complaints, hr.complaints, List.append_nil], ?_, hr.built, hr.split⟩
      simp only [List.map_cons, hr.value]
      refine congrArg (· :: _) (outline_node htip.built fun i i' hi => ?_)
      simp only [Tree.map_edgeRhs, outline_leaf hm hk, htip.value, Tree.Info.outline_congr hi]
    · rw [if_neg hop, if_neg hop]
      exact (skip_mirrors h rfl hm).tracks
  termination_by 8 * ts.length + 8
  decreasing_by all_goals subst_vars; simp only [List.length_cons]; omega

theorem target_tracks (ts us : List Token) (m m' : Trail) {f : Bool} (h : Split false f fine ts us)
    (hc : (target eof ts m).complaints = []) (hm : m'.built = m.built) :
    (target eof ts m).Tracks fine (Option.map Tree.outline) (target eof' us m') := by
  rw [target.eq_def eof] at hc ⊢
  rw [target.eq_def eof']
  cases ts with
  | nil => cases hc
  | cons t ts =>
    obtain ⟨t', us, rfl, hk⟩ := h.of_cons
    simp only [hk] at hc ⊢
    by_cases hbody : opensBody t.kind = true
    · rw [if_pos hbody] at hc ⊢
      rw [if_pos hbody]
      obtain ⟨_, _, hus, -, hsplit⟩ := h.of_plain (not_special_of_opensBody hbody)
      obtain ⟨rfl, rfl⟩ := List.cons.inj hus
      refine (subgraph_tracks t t' ts us m m' hk hsplit hc hm).map rfl fun hr => ?_
      exact ⟨hr.complaints, congrArg some hr.value, hr.built, hr.split⟩
    rw [if_neg hbody] at hc ⊢
    rw [if_neg hbody]
    by_cases hid : t.kind.isIdentifier = true
    · rw [if_pos hid] at hc ⊢
      rw [if_pos hid]
      refine (nodeId_mirrors eof' m' h hid hc hm).tracks.map rfl fun hr => ?_
      exact ⟨hr.complaints, congrArg some hr.value, hr.built, hr.split⟩
    · rw [if_neg hid] at hc
      cases hc
  termination_by 8 * ts.length + 3
  decreasing_by all_goals subst_vars; simp only [List.length_cons]; omega

theorem subgraph_tracks (t t' : Token) (ts us : List Token) (m m' : Trail) {f : Bool} (hk : t'.kind = t.kind)
    (h : Split false f fine ts us) (hc : (subgraph eof t ts m).complaints = []) (hm : m'.built = m.built) :
    (subgraph eof t ts m).Tracks fine Tree.outline (subgraph eof' t' us m') := by
  rw [subgraph.eq_def eof] at hc ⊢
  rw [subgraph.eq_def eof']
  simp only [hk] at hc ⊢
  by_cases hkeyword : t.kind = .subgraphKeyword
  · rw [if_pos hkeyword] at hc ⊢
    rw [if_pos hkeyword]
    simp only [List.append_eq_nil_iff] at hc
    have hfits := (optionalIdentifier eof ts (m.pass t).grown).fits
    have hname := optionalIdentifier_mirrors eof' (m'.pass t').grown h hc.1 (congrArg (· + 1) hm)
    obtain ⟨_, hsplit⟩ := hname.split
    refine hname.tracks.seq (fun _ => bracedBody_tracks _ _ _ _ hsplit hc.2 hname.built) rfl fun _ hbody => ?_
    refine hbody.node (by rw [hname.complaints, hbody.complaints]; rfl) fun i i' hi => ?_
    simp only [Tree.map_subgraph, Option.map_some, outline_leaf hm hk, hname.value,
      hbody.value, Tree.Info.outline_congr hi]
  · rw [if_neg hkeyword] at hc ⊢
    rw [if_neg hkeyword]
    have hopened := openedBody_tracks eof' (m'.pass t') hc fun hs =>
      statements_tracks ts us (m.pass t) (m'.pass t') h hs hm
    refine hopened.map rfl fun hbody => hbody.node hbody.complaints fun i i' hi => ?_
    simp only [Tree.map_subgraph, hbody.value, Tree.Info.outline_congr hi]
  termination_by 8 * ts.length + 10
  decreasing_by all_goals omega

theorem bracedBody_tracks (ts us : List Token) (m m' : Trail) {f : Bool} (h : Split false f fine ts us)
    (hc : (bracedBody eof ts m).complaints = []) (hm : m'.built = m.built) :
    (bracedBody eof ts m).Tracks fine (fun v => v.1.map Tree.outline) (bracedBody eof' us m') := by
  rw [bracedBody.eq_def eof] at hc ⊢
  rw [bracedBody.eq_def eof']
  cases ts with
  | nil => cases hc
  | cons t ts =>
    obtain ⟨t', us, rfl, hk⟩ := h.of_cons
    simp only [hk] at hc ⊢
    by_cases hopen : t.kind = .openBrace
    · rw [if_pos hopen] at hc ⊢
      rw [if_pos hopen]
      obtain ⟨_, _, hus, -, hsplit⟩ := h.of_plain (by simp [hopen])
      obtain ⟨rfl, rfl⟩ := List.cons.inj hus
      have hopened := openedBody_tracks eof' (m'.pass t') hc fun hs =>
        statements_tracks ts us (m.pass t) (m'.pass t') hsplit hs hm
      exact hopened.map rfl fun hr => ⟨hr.complaints, hr.value, hr.built, hr.split⟩
    · rw [if_neg hopen] at hc
      cases hc
  termination_by 8 * ts.length + 6
  decreasing_by all_goals subst_vars; simp only [List.length_cons]; omega

end

section Source

variable {limit start : Nat} (limit' start' : Nat) {g : Tree}

lemma graphFrom_split {strict strict' : Option Tree} {k k' : Token}
    (hstrict : strict'.map Tree.outline = strict.map Tree.outline)
    (hk : k'.kind = k.kind) (h : Split false f fine ts us) (hm : m'.built = m.built)
    (hg : (graphFrom eof limit start strict k ts m).graph = some g)
    (hd : (graphFrom eof limit start strict k ts m).diagnostics = []) :
    ((graphFrom eof' limit' start' strict' k' us m').diagnostics = [] ↔ fine = true) ∧
      (fine = true → ∃ g', (graphFrom eof' limit' start' strict' k' us m').graph = some g' ∧
      g'.outline = g.outline) := by
  simp only [graphFrom, List.append_eq_nil_iff, trailing_eq_nil_iff] at hd ⊢
  have hname := optionalIdentifier_mirrors eof' (m'.pass k').grown h hd.1.1 (congrArg (· + 1) hm)
  obtain ⟨_, hsplit⟩ := hname.split
  have hbody := bracedBody_tracks eof' _ _ _ _ hsplit hd.1.2 hname.built
  refine ⟨⟨fun hnil => ?_, fun hfine => ?_⟩, fun hfine => ⟨_, rfl, ?_⟩⟩
  · obtain ⟨_, hrest⟩ := (hbody.mirrors hnil.1.2).split
    rw [hd.2] at hrest
    exact hrest.of_nil.2
  · have hnil := hbody.clean hfine
    obtain ⟨_, hrest⟩ := (hbody.mirrors hnil).split
    rw [hd.2] at hrest
    exact ⟨⟨hname.complaints, hnil⟩, hrest.of_nil.1⟩
  · have hr := hbody.mirrors (hbody.clean hfine)
    obtain rfl := Option.some.inj hg
    refine outline_node hr.built fun i i' hi => ?_
    simp only [Tree.map_graph, hstrict, outline_leaf hm hk, hname.value, hr.value, Tree.Info.outline_congr hi]

lemma source_split (h : Split false false fine ts us) (hg : (source eof limit ts).graph = some g)
    (hd : (source eof limit ts).diagnostics = []) :
    ((source eof' limit' us).diagnostics = [] ↔ fine = true) ∧
      (fine = true → ∃ g', (source eof' limit' us).graph = some g' ∧ g'.outline = g.outline) := by
  have hstrict (k : Kind) (hk : decide (k = .strictKeyword) = true) :
      k ∈ [Kind.semicolon, .comma, .strictKeyword] := by
    simp [of_decide_eq_true hk]
  cases ts with
  | nil => cases hg
  | cons t ts =>
    obtain ⟨t', us, rfl, hk⟩ := h.of_cons
    have hopt := optional_mirrors (m := .start) hstrict h rfl
    obtain ⟨_, hsplit⟩ := hopt.split
    simp only [source] at hg hd ⊢
    cases hrest : (optional (· = .strictKeyword) (t :: ts) .start).rest with
    | nil =>
      rw [hrest] at hd
      cases hd
    | cons k rest =>
      rw [hrest] at hsplit
      simp only [hrest] at hg hd
      split at hd
      · rename_i hkeyword
        rw [if_pos hkeyword] at hg
        have hplain : k.kind ∉ [Kind.quoted, .equals, .openBracket] := by
          generalize k.kind = kind at hkeyword
          cases kind <;> simp [isGraphKeyword] at hkeyword ⊢
        obtain ⟨k', rest', hrest', hk', hsplit⟩ := hsplit.of_plain hplain
        simp only [hrest', hk', hkeyword, if_true]
        exact graphFrom_split eof' limit' _ hopt.value hk' hsplit hopt.built hg hd
      · cases hd

end Source

def listOpen (ts : List Token) (inList : Bool) : Bool := ts.foldl (fun l t => listBehind t.kind l) inList

namespace Split

lemma refl_of {l f : Bool} (ts : List Token) : Split l f (!(f && !l && Parse.nextIs (· = .equals) ts)) ts ts := by
  induction ts generalizing l f with
  | nil =>
    rw [Parse.nextIs, Bool.and_false]
    exact .nil
  | cons t ts ih =>
    have hts := @keep l f _ t t ts ts rfl rfl (@ih (listBehind t.kind l) false)
    simpa [Parse.nextIs] using hts

lemma of_cutsTo {q a p c : Token} (hcut : CutsTo q a p c) (before behind : List Token) (l : Bool) :
    Split l false (!(!listOpen before l && Parse.nextIs (· = .equals) behind)) (before ++ q :: behind)
      (before ++ a :: p :: c :: behind) := by
  induction before generalizing l with
  | nil => simpa [listOpen] using @cut l false _ q a p c behind behind hcut (refl_of behind)
  | cons t before ih =>
    have hts := @keep l false _ t t _ _ rfl rfl (ih (listBehind t.kind l))
    simpa [listOpen] using hts

end Split

lemma takeWhile_closed (tokens : List Token) :
    (closed tokens).takeWhile (!endsFile ·) = tokens.takeWhile (!endsFile ·) := by
  have hconcat (e : Token) (he : endsFile e = true) :
      (tokens ++ [e]).takeWhile (!endsFile ·) = tokens.takeWhile (!endsFile ·) := by
    induction tokens with
    | nil => simp [he]
    | cons t ts ih => simp [List.takeWhile_cons, ih]
  rw [closed]
  split
  · rename_i hlast
    rw [List.getLast?_eq_none_iff.mp hlast]
    rfl
  · split
    · rfl
    · exact hconcat _ rfl

lemma exists_source (tokens : List Token) :
    ∃ eof limit, ofTokens tokens = source eof limit (tokens.takeWhile (!endsFile ·)) := by
  rw [← takeWhile_closed]
  exact ⟨_, _, rfl⟩

lemma takeWhile_append_of_mem {ts us : List Token} {e : Token} (he : e ∈ ts) (hends : endsFile e = true) :
    (ts ++ us).takeWhile (!endsFile ·) = ts.takeWhile (!endsFile ·) := by
  induction ts with
  | nil => cases he
  | cons t ts ih =>
    rw [List.cons_append, List.takeWhile_cons, List.takeWhile_cons]
    rcases List.mem_cons.mp he with rfl | he
    · simp [hends]
    · rw [ih he]

lemma nextIs_takeWhile (ts : List Token) :
    nextIs (· = .equals) (ts.takeWhile (!endsFile ·)) = nextIs (· = .equals) ts := by
  cases ts with
  | nil => rfl
  | cons t ts =>
    by_cases ht : t.kind = .endOfFile <;> simp [nextIs, endsFile, ht]

def LeftOfEquation (before behind : List Token) : Prop :=
  (∀ u ∈ before, u.kind ≠ .endOfFile) ∧ listOpen before false = false ∧ nextIs (· = .equals) behind = true

/-- A quoted token can be cut in two anywhere in a file that is read without a complaint, and the tree keeps its
outline, unless the token is the left side of an equation: then, and only then, there is something to complain
about. -/
theorem ofTokens_cut_iff {before behind : List Token} {q a p c : Token} {g : Tree} (hcut : CutsTo q a p c)
    (hg : (ofTokens (before ++ q :: behind)).graph = some g)
    (hd : (ofTokens (before ++ q :: behind)).diagnostics = []) :
    ((ofTokens (before ++ a :: p :: c :: behind)).diagnostics = [] ↔ ¬ LeftOfEquation before behind) ∧
      (¬ LeftOfEquation before behind →
        ∃ g', (ofTokens (before ++ a :: p :: c :: behind)).graph = some g' ∧ g'.outline = g.outline) := by
  obtain ⟨eof, limit, hwhole⟩ := exists_source (before ++ q :: behind)
  obtain ⟨eof', limit', hparts⟩ := exists_source (before ++ a :: p :: c :: behind)
  rw [hwhole] at hg hd
  rw [hparts]
  by_cases hbefore : ∀ u ∈ before, u.kind ≠ .endOfFile
  · have hnot : ∀ u ∈ before, (!endsFile u) = true := fun u hu => by simp [endsFile, hbefore u hu]
    have hq : (q :: behind).takeWhile (!endsFile ·) = q :: behind.takeWhile (!endsFile ·) := by
      simp [endsFile, hcut.whole]
    have hapc : (a :: p :: c :: behind).takeWhile (!endsFile ·) =
        a :: p :: c :: behind.takeWhile (!endsFile ·) := by
      simp [endsFile, hcut.left, hcut.plus, hcut.right]
    have hfine : (!(!listOpen before false && nextIs (· = .equals) (behind.takeWhile (!endsFile ·)))) = true ↔
        ¬ LeftOfEquation before behind := by
      rw [nextIs_takeWhile, LeftOfEquation, and_iff_right hbefore, Bool.not_eq_true', ← Bool.not_eq_true,
        Bool.and_eq_true, Bool.not_eq_true']
    rw [List.takeWhile_append_of_pos hnot, hq] at hg hd
    rw [List.takeWhile_append_of_pos hnot, hapc, ← hfine]
    exact source_split eof' limit' (Split.of_cutsTo hcut before _ false) hg hd
  · push Not at hbefore
    obtain ⟨e, he, hends⟩ := hbefore
    have hleft : ¬ LeftOfEquation before behind := fun h => h.1 e he hends
    rw [takeWhile_append_of_mem he (decide_eq_true hends)] at hg hd ⊢
    have hsplit := source_split eof' limit' (@Split.refl_of false false (before.takeWhile (!endsFile ·))) hg hd
    simp only [Bool.false_and, Bool.not_false, iff_true, true_implies] at hsplit
    exact ⟨by simp [hsplit.1, hleft], fun _ => hsplit.2⟩

theorem ofTokens_cut_iff_attribute :
    let token (k : Kind) (value : String) : Token := ⟨k, .caret 0, value, false⟩
    let before := [token .graphKeyword "", token .openBrace "", token .word "n", token .openBracket ""]
    let behind := [token .equals "", token .word "v", token .closeBracket "", token .closeBrace "", .endAt 0]
    ∃ g g', (ofTokens (before ++ token .quoted "ab" :: behind)).graph = some g ∧
      (ofTokens (before ++ token .quoted "ab" :: behind)).diagnostics = [] ∧
      (ofTokens (before ++ token .quoted "a" :: token .plus "" :: token .quoted "b" :: behind)).diagnostics = [] ∧
      (ofTokens (before ++ token .quoted "a" :: token .plus "" :: token .quoted "b" :: behind)).graph = some g' ∧
      g'.outline = g.outline := by
  intro token before behind
  have hcut : CutsTo (token .quoted "ab") (token .quoted "a") (token .plus "") (token .quoted "b") :=
    ⟨rfl, rfl, rfl, rfl, by decide⟩
  obtain ⟨g, hg⟩ : ∃ g, (ofTokens (before ++ token .quoted "ab" :: behind)).graph = some g :=
    Option.isSome_iff_exists.mp (by decide +kernel)
  have hd : (ofTokens (before ++ token .quoted "ab" :: behind)).diagnostics = [] := by decide +kernel
  have hlist : ¬ LeftOfEquation before behind := fun h => absurd h.2.1 (by decide)
  obtain ⟨hiff, hsame⟩ := ofTokens_cut_iff hcut hg hd
  obtain ⟨g', hg', houtline⟩ := hsame hlist
  exact ⟨g, g', hg, hd, hiff.mpr hlist, hg', houtline⟩

/-- The left side of an equation may not be a joined string, though any other identifier may. -/
theorem ofTokens_cut_equation :
    let token (k : Kind) (value : String) : Token := ⟨k, .caret 0, value, false⟩
    let before := [token .graphKeyword "", token .openBrace ""]
    let behind := [token .equals "", token .word "c", token .closeBrace "", .endAt 0]
    (ofTokens (before ++ token .quoted "ab" :: behind)).graph.isSome ∧
      (ofTokens (before ++ token .quoted "ab" :: behind)).diagnostics = [] ∧
      CutsTo (token .quoted "ab") (token .quoted "a") (token .plus "") (token .quoted "b") ∧
      (ofTokens (before ++ token .quoted "a" :: token .plus "" :: token .quoted "b" :: behind)).diagnostics ≠
        [] := by
  intro token before behind
  exact ⟨by decide +kernel, by decide +kernel, ⟨rfl, rfl, rfl, rfl, by decide⟩, by decide +kernel⟩

end DotMend.Parse
