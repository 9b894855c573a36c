import DotMend.Proofs.Parse.Completeness
import DotMend.Proofs.Parse.Nodes

namespace DotMend

namespace Kind

def holdsEdges : Kind → Bool
  | graph | subgraph | subgraphStatement | edgeStatement | edgeRhs => true
  | _ => false

variable {k : Kind}

lemma not_holdsEdges_of_isIdentifier (h : k.isIdentifier) : k.holdsEdges = false := by
  cases k <;> simp [isIdentifier, holdsEdges] at *

lemma not_holdsEdges_of_isSubject (h : Parse.isSubject k) : k.holdsEdges = false := by
  cases k <;> simp [Parse.isSubject, holdsEdges] at *

lemma not_holdsEdges_of_endsAttr (h : Parse.endsAttr k) : k.holdsEdges = false := by
  cases k <;> simp [Parse.endsAttr, holdsEdges] at *

lemma not_holdsEdges_of_isEdgeOp (h : k.isEdgeOp) : k.holdsEdges = false := by
  cases k <;> simp [isEdgeOp, edgeOp?, holdsEdges] at *

lemma not_holdsEdges_of_graphKind? (h : k.graphKind?.isSome) : k.holdsEdges = false := by
  cases k <;> simp [graphKind?, holdsEdges] at *

end Kind

namespace Tree

def target? : Tree → Option Tree
  | edgeRhs _ _ target => target
  | _ => none

lemma Proper.not_holdsEdges {t c : Tree} (h : t.Proper) (hk : t.kind.holdsEdges = false) (hc : c ∈ t.children) :
    c.kind.holdsEdges = false := by
  cases t with
  | graph | subgraph | subgraphStatement | edgeStatement | edgeRhs => cases hk
  | token | identifier => simp [children_eq] at hc
  | attrStatement =>
    obtain ⟨hsubject, hlists, hstop⟩ := h
    simp only [children_eq, List.cons_append, List.mem_cons, List.mem_append, Option.mem_toList] at hc
    rcases hc with rfl | hc | hc
    · exact Kind.not_holdsEdges_of_isSubject hsubject
    · rw [hlists c hc]
      rfl
    · rw [hstop c hc]
      rfl
  | nodeStatement =>
    obtain ⟨hnode, hlists, hstop⟩ := h
    simp only [children_eq, List.cons_append, List.mem_cons, List.mem_append, Option.mem_toList] at hc
    rcases hc with rfl | hc | hc
    · rw [hnode]
      rfl
    · rw [hlists c hc]
      rfl
    · rw [hstop c hc]
      rfl
  | equation =>
    obtain ⟨hleft, hright, hstop⟩ := h
    simp only [children_eq, List.cons_append, List.mem_cons, List.mem_append, Option.mem_toList] at hc
    rcases hc with rfl | hc | hc
    · exact Kind.not_holdsEdges_of_isIdentifier hleft
    · exact Kind.not_holdsEdges_of_isIdentifier (hright c hc)
    · rw [hstop c hc]
      rfl
  | nodeId =>
    obtain ⟨hname, hport⟩ := h
    simp only [children_eq, List.mem_cons, Option.mem_toList] at hc
    rcases hc with rfl | hc
    · exact Kind.not_holdsEdges_of_isIdentifier hname
    · rw [hport c hc]
      rfl
  | port =>
    obtain ⟨hname, hcompass⟩ := h
    simp only [children_eq, List.mem_append, Option.mem_toList] at hc
    rcases hc with hc | hc
    · exact Kind.not_holdsEdges_of_isIdentifier (hname c hc)
    · exact Kind.not_holdsEdges_of_isIdentifier (hcompass c hc)
  | attrList =>
    rw [children_eq] at hc
    rw [h c hc]
    rfl
  | attr =>
    obtain ⟨hleft, hright, hstop⟩ := h
    simp only [children_eq, List.cons_append, List.mem_cons, List.mem_append, Option.mem_toList] at hc
    rcases hc with rfl | hc | hc
    · exact Kind.not_holdsEdges_of_isIdentifier hleft
    · exact Kind.not_holdsEdges_of_isIdentifier (hright c hc)
    · exact Kind.not_holdsEdges_of_endsAttr (hstop c hc)

end Tree

namespace Grammar

open Form

lemma Derives.item {ks : List Kind} (h : Derives endpoint ks) : Derives Form.item ks := by
  have hnil : Derives Form.terminator [] := .right .empty
  cases h with
  | left h =>
    have hstatement : Derives (rule .statement) (ks ++ [] ++ []) :=
      .right (.right (.left (.seq (.seq h .stop) hnil)))
    simp only [List.append_nil] at hstatement
    exact .right (.part hstatement)
  | right h =>
    have hstatement : Derives (rule .statement) (ks ++ []) := .right (.right (.right (.right (.seq h hnil))))
    rw [List.append_nil] at hstatement
    exact .right (.part hstatement)

theorem derives_group {kss : List (List Kind)} (h : ∀ ks ∈ kss, Derives endpoint ks) :
    Derives (part .subgraph) (.openBrace :: kss.flatten ++ [.closeBrace]) := by
  have hitems : Derives (many Form.item) kss.flatten := by
    induction kss with
    | nil => exact .stop
    | cons ks kss ih =>
      rw [List.flatten_cons]
      apply Derives.more
      · exact (h ks List.mem_cons_self).item
      · exact ih fun ls hls => h ls (List.mem_cons_of_mem ks hls)
  have hbody : Derives (rule .body) ([.openBrace] ++ kss.flatten ++ [.closeBrace]) :=
    .seq (.seq .token hitems) .token
  have hsubgraph : Derives (rule .subgraph) ([] ++ ([.openBrace] ++ kss.flatten ++ [.closeBrace])) :=
    .seq (.right .empty) (.part hbody)
  exact .part hsubgraph

end Grammar

namespace Parse

open Grammar

def Aimed (eof : Span) (ts : List Token) (s : Tree) : Prop :=
  ∀ c ∈ s.target?, ∃ u us m, u :: us <:+ ts ∧ u.kind.isEdgeOp ∧ (target eof us m).value = some c

variable {eof : Span} {ts us : List Token} {m : Trail} {s : Tree}

lemma Aimed.mono (h : Aimed eof us s) (hle : us <:+ ts) : Aimed eof ts s := by
  intro c hc
  obtain ⟨u, vs, m, hvs, hread⟩ := h c hc
  exact ⟨u, vs, m, hvs.trans hle, hread⟩

lemma aimed_of_target?_eq_none (h : s.target? = none) : Aimed eof ts s := by
  intro c hc
  rw [h] at hc
  cases hc

lemma everywhere_aimed_of_not_holdsEdges (hp : s.Everywhere Tree.Proper) (hk : s.kind.holdsEdges = false) :
    s.Everywhere (Aimed eof ts) := by
  induction hp with
  | @intro s hs _ ih =>
    apply Tree.Everywhere.intro
    · apply aimed_of_target?_eq_none
      cases s with
      | edgeRhs => cases hk
      | _ => rfl
    · intro c hc
      exact ih c hc (hs.not_holdsEdges hk hc)

lemma everywhere_aimed_intro (hp : s.Everywhere Tree.Proper) (hs : Aimed eof ts s)
    (hkids : ∀ c ∈ s.children, c.kind.holdsEdges → c.Everywhere (Aimed eof ts)) : s.Everywhere (Aimed eof ts) := by
  apply Tree.Everywhere.intro hs
  intro c hc
  by_cases hk : c.kind.holdsEdges
  · exact hkids c hc hk
  · exact everywhere_aimed_of_not_holdsEdges (hp.child hc) (Bool.not_eq_true _ ▸ hk)

lemma everywhere_aimed_mono (hle : us <:+ ts) (h : s.Everywhere (Aimed eof us)) : s.Everywhere (Aimed eof ts) :=
  h.imp fun _ hs => hs.mono hle

lemma edgeStatement_aimed {start : Nat} {source : Tree}
    (hp : (edgeStatement eof start source ts m).value.Everywhere Tree.Proper)
    (hsource : source.kind.holdsEdges → source.Everywhere (Aimed eof us))
    (hchain : ∀ r ∈ (chain eof ts m).value, r.Everywhere (Aimed eof us)) :
    (edgeStatement eof start source ts m).value.Everywhere (Aimed eof us) := by
  rw [edgeStatement] at hp ⊢
  apply everywhere_aimed_intro hp (aimed_of_target?_eq_none rfl)
  intro c hc hk
  obtain ⟨-, -, -, hlists, hstop⟩ := hp.here
  simp only [Trail.node, Tree.children_eq, List.cons_append, List.append_assoc, List.mem_cons, List.mem_append,
    Option.mem_toList] at hc
  rcases hc with rfl | hc | hc | hc
  · exact hsource hk
  · exact hchain c hc
  · rw [hlists c hc] at hk
    cases hk
  · rw [hstop c hc] at hk
    cases hk

lemma subgraphStatement_aimed {start : Nat} {body : Tree}
    (hp : (subgraphStatement start body ts m).value.Everywhere Tree.Proper)
    (hbody : body.Everywhere (Aimed eof us)) :
    (subgraphStatement start body ts m).value.Everywhere (Aimed eof us) := by
  apply everywhere_aimed_intro hp (aimed_of_target?_eq_none rfl)
  intro c hc hk
  obtain ⟨-, hstop⟩ := hp.here
  simp only [subgraphStatement, Trail.node, Tree.children_eq, List.mem_cons, Option.mem_toList] at hc
  rcases hc with rfl | hc
  · exact hbody
  · rw [hstop c hc] at hk
    cases hk

mutual

theorem statements_aimed (ts : List Token) (m : Trail) (ho : Ordered ts) :
    ∀ s ∈ (statements eof ts m).value.1, s.Everywhere (Aimed eof ts) := by
  cases ts with
  | nil =>
    rw [statements]
    exact List.forall_mem_nil _
  | cons t ts =>
    have hrest (s : Tree) (hs : s ∈ (statements eof ts (m.pass t)).value.1) : s.Everywhere (Aimed eof (t :: ts)) :=
      everywhere_aimed_mono (List.suffix_cons t ts) (statements_aimed ts (m.pass t) ho.tail s hs)
    rw [statements]
    split
    · exact List.forall_mem_nil _
    split
    · exact hrest
    split
    · rename_i hstarts
      have hsteps := (@statement_traced eof t ts m ho hstarts).steps
      have hfits := (statement eof t ts m).fits
      refine List.forall_mem_cons.mpr ⟨?_, ?_⟩
      · exact statement_aimed t ts m ho hstarts
      · intro s hs
        exact everywhere_aimed_mono hsteps.suffix (statements_aimed _ _ (hsteps.ordered ho) s hs)
    · exact hrest
  termination_by 8 * ts.length + 4
  decreasing_by all_goals subst_vars; simp only [List.length_cons]; omega

theorem statement_aimed (t : Token) (ts : List Token) (m : Trail) (ho : Ordered (t :: ts))
    (ht : startsStatement t.kind) : (statement eof t ts m).value.Everywhere (Aimed eof (t :: ts)) := by
  have hp := (@statement_traced eof t ts m ho ht).steps.proper _ (List.mem_singleton_self _)
  rw [statement.eq_def] at hp ⊢
  split at hp
  · rename_i hsubject
    rw [if_pos hsubject]
    exact everywhere_aimed_of_not_holdsEdges hp rfl
  rename_i hsubject
  rw [if_neg hsubject]
  split at hp
  · rename_i hbody
    rw [if_pos hbody]
    have hsub := subgraph_aimed t ts m ho hbody
    have hsteps := (@subgraph_traced eof t ts m ho hbody).steps
    have hfits := (subgraph eof t ts m).fits
    simp only at hp ⊢
    split at hp
    · rename_i hop
      rw [if_pos hop]
      apply edgeStatement_aimed hp (fun _ => hsub)
      intro r hr
      exact everywhere_aimed_mono hsteps.suffix (chain_aimed _ _ (hsteps.ordered ho) r hr)
    · rename_i hop
      rw [if_neg hop]
      exact subgraphStatement_aimed hp hsub
  rename_i hbody
  rw [if_neg hbody]
  have hid := isIdentifier_of_startsStatement ht (by simpa using hsubject) (by simpa using hbody)
  cases ts with
  | nil => exact namedStatement_aimed t [] m ho hid
  | cons e ts =>
    simp only at hp ⊢
    split at hp
    · rename_i he
      rw [if_pos he]
      exact everywhere_aimed_of_not_holdsEdges hp rfl
    · rename_i he
      rw [if_neg he]
      exact namedStatement_aimed t (e :: ts) m ho hid
  termination_by 8 * ts.length + 11
  decreasing_by all_goals subst_vars; omega

theorem namedStatement_aimed (t : Token) (ts : List Token) (m : Trail) (ho : Ordered (t :: ts))
    (ht : t.kind.isIdentifier) : (namedStatement eof t ts m).value.Everywhere (Aimed eof (t :: ts)) := by
  have hp := (@namedStatement_traced eof t ts m ho ht).steps.proper _ (List.mem_singleton_self _)
  have hnode := nodeId_traced eof m ho ht
  have hfits := (nodeId eof t ts m).fits
  rw [namedStatement] at hp ⊢
  simp only at hp ⊢
  split at hp
  · rename_i hop
    rw [if_pos hop]
    apply edgeStatement_aimed hp
    · intro hk
      rw [hnode.kinds _ (List.mem_singleton_self _)] at hk
      cases hk
    · intro r hr
      exact everywhere_aimed_mono hnode.steps.suffix (chain_aimed _ _ (hnode.steps.ordered ho) r hr)
  · rename_i hop
    rw [if_neg hop]
    exact everywhere_aimed_of_not_holdsEdges hp rfl
  termination_by 8 * ts.length + 10
  decreasing_by omega

theorem chain_aimed (ts : List Token) (m : Trail) (ho : Ordered ts) :
    ∀ r ∈ (chain eof ts m).value, r.Everywhere (Aimed eof ts) := by
  have hp := (@chain_traced eof ts m ho).steps.proper
  cases ts with
  | nil =>
    rw [chain]
    exact List.forall_mem_nil _
  | cons t ts =>
    have htip := (@target_traced eof ts (m.pass t).grown ho.tail).steps
    have hfits := (target eof ts (m.pass t).grown).fits
    rw [chain] at hp ⊢
    split at hp
    · rename_i hop
      rw [if_pos hop]
      have hsuffix := htip.suffix.trans (List.suffix_cons t ts)
      refine List.forall_mem_cons.mpr ⟨?_, ?_⟩
      · apply everywhere_aimed_intro (hp _ List.mem_cons_self)
        · intro c hc
          exact ⟨t, ts, _, List.suffix_rfl, hop, hc⟩
        · intro c hc hk
          simp only [Trail.node, Tree.children_eq, List.mem_cons, Option.mem_toList] at hc
          rcases hc with rfl | hc
          · exact absurd hk (by simp [Trail.leaf, Tree.kind, Kind.not_holdsEdges_of_isEdgeOp hop])
          · exact everywhere_aimed_mono (List.suffix_cons t ts) (target_aimed ts _ ho.tail c hc)
      · intro r hr
        exact everywhere_aimed_mono hsuffix (chain_aimed _ _ (htip.ordered ho.tail) r hr)
    · rename_i hop
      rw [if_neg hop]
      exact List.forall_mem_nil _
  termination_by 8 * ts.length + 8
  decreasing_by all_goals subst_vars; simp only [List.length_cons]; omega

theorem target_aimed (ts : List Token) (m : Trail) (ho : Ordered ts) :
    ∀ c ∈ (target eof ts m).value, c.Everywhere (Aimed eof ts) := by
  cases ts with
  | nil =>
    rw [target]
    exact nofun
  | cons t ts =>
    rw [target]
    split
    · rename_i hbody
      rintro c ⟨rfl⟩
      exact subgraph_aimed t ts m ho hbody
    split
    · rename_i hid
      rintro c ⟨rfl⟩
      have hnode := nodeId_traced eof m ho hid
      exact everywhere_aimed_of_not_holdsEdges (hnode.steps.proper _ (List.mem_singleton_self _)) rfl
    · exact nofun
  termination_by 8 * ts.length + 3
  decreasing_by all_goals subst_vars; simp only [List.length_cons]; omega

theorem subgraph_aimed (t : Token) (ts : List Token) (m : Trail) (ho : Ordered (t :: ts)) (ht : opensBody t.kind) :
    (subgraph eof t ts m).value.Everywhere (Aimed eof (t :: ts)) := by
  have hp := (@subgraph_traced eof t ts m ho ht).steps.proper _ (List.mem_singleton_self _)
  rw [subgraph] at hp ⊢
  split at hp
  · rename_i hkeyword
    rw [if_pos hkeyword]
    have hname := (optionalIdentifier_traced eof (m.pass t).grown ho.tail).steps
    have hfits := (optionalIdentifier eof ts (m.pass t).grown).fits
    have hsuffix := hname.suffix.trans (List.suffix_cons t ts)
    apply everywhere_aimed_intro hp (aimed_of_target?_eq_none rfl)
    intro c hc hk
    obtain ⟨hleaf, hid, -⟩ := hp.here
    simp only [Trail.node, Tree.children_eq, List.append_assoc, List.mem_append, Option.mem_toList] at hc
    rcases hc with hc | hc | hc
    · rw [hleaf c hc] at hk
      cases hk
    · rw [Kind.not_holdsEdges_of_isIdentifier (hid c hc)] at hk
      cases hk
    · exact everywhere_aimed_mono hsuffix (bracedBody_aimed _ _ (hname.ordered ho.tail) c hc)
  · rename_i hkeyword
    rw [if_neg hkeyword]
    apply everywhere_aimed_intro hp (aimed_of_target?_eq_none rfl)
    intro c hc hk
    simp only [Trail.node, Tree.children_eq, Option.toList_none, List.nil_append] at hc
    exact everywhere_aimed_mono (List.suffix_cons t ts) (openedBody_aimed ts _ ho.tail c hc)
  termination_by 8 * ts.length + 10
  decreasing_by all_goals omega

theorem bracedBody_aimed (ts : List Token) (m : Trail) (ho : Ordered ts) :
    ∀ s ∈ (bracedBody eof ts m).value.1, s.Everywhere (Aimed eof ts) := by
  cases ts with
  | nil =>
    rw [bracedBody]
    exact List.forall_mem_nil _
  | cons t ts =>
    rw [bracedBody]
    split
    · intro s hs
      exact everywhere_aimed_mono (List.suffix_cons t ts) (openedBody_aimed ts _ ho.tail s hs)
    · exact List.forall_mem_nil _
  termination_by 8 * ts.length + 6
  decreasing_by all_goals subst_vars; simp only [List.length_cons]; omega

theorem openedBody_aimed (ts : List Token) (m : Trail) (ho : Ordered ts) :
    ∀ s ∈ (openedBody eof ts m).value.1, s.Everywhere (Aimed eof ts) := by
  rw [openedBody_trees]
  exact statements_aimed ts m ho
  termination_by 8 * ts.length + 5
  decreasing_by omega

end

theorem source_aimed {limit : Nat} {graph : Tree} (ho : Ordered ts)
    (h : (source eof limit ts).graph = some graph) : graph.Everywhere (Aimed eof ts) := by
  obtain ⟨_, _, _, hway, -⟩ := source_traced ho h
  have hp := hway.proper graph (List.mem_singleton_self _)
  cases ts with
  | nil => cases h
  | cons t ts =>
    have hlead := (optional_traced eof (t :: ts) .start (@isToken_of_eq .strictKeyword rfl)).steps
    simp only [source] at h
    generalize optional (· = .strictKeyword) (t :: ts) .start = lead at h hlead
    obtain ⟨strict, rest, m, cs, hfits⟩ := lead
    cases rest with
    | nil => cases h
    | cons k rest =>
      simp only at h hlead
      split at h
      · obtain rfl := Option.some.inj h
        have hok := hlead.ordered ho
        have hname := (optionalIdentifier_traced eof (m.pass k).grown hok.tail).steps
        have hsuffix := (hname.suffix.trans (List.suffix_cons k rest)).trans hlead.suffix
        apply everywhere_aimed_intro hp (aimed_of_target?_eq_none rfl)
        intro c hc hk
        obtain ⟨hstrict, hkeyword, hid, -⟩ := hp.here
        simp only [Trail.node, Tree.children_eq, List.append_assoc, List.cons_append, List.mem_append,
          List.mem_cons, Option.mem_toList] at hc
        rcases hc with hc | rfl | hc | hc
        · rw [hstrict c hc] at hk
          cases hk
        · exact absurd hk (by simp [Kind.not_holdsEdges_of_graphKind? hkeyword])
        · rw [Kind.not_holdsEdges_of_isIdentifier (hid c hc)] at hk
          cases hk
        · exact everywhere_aimed_mono hsuffix (bracedBody_aimed _ _ (hname.ordered hok.tail) c hc)
      · cases h

lemma Steps.span_eq {t : Token} {ts' : List Token} {m' : Trail} {kids : List Tree} {faults : Bool}
    {cs : List Diagnostic} (h : Steps eof (t :: ts) m kids faults ts' m' cs) (hlen : ts'.length ≤ ts.length) :
    ∃ block, t :: ts = t :: block ++ ts' ∧ (⟨t.span.start, m'.lastEnd⟩ : Span) = hull t block := by
  obtain ⟨used, hused, -, hend⟩ := h.laid
  cases used with
  | nil =>
    have := congrArg List.length hused
    simp only [List.length_cons, List.nil_append] at this
    omega
  | cons u block =>
    obtain ⟨rfl, -⟩ := List.cons.inj hused
    rw [endOf_cons] at hend
    exact ⟨block, hused, by rw [hend]; rfl⟩

theorem target_span (ho : Ordered ts) {c : Tree} (h : (target eof ts m).value = some c) :
    ∃ u block, ts = u :: block ++ (target eof ts m).rest ∧ c.span = hull u block := by
  cases ts with
  | nil =>
    rw [target] at h
    cases h
  | cons t ts =>
    rw [target] at h ⊢
    split at h
    · rename_i hbody
      rw [if_pos hbody]
      obtain rfl := Option.some.inj h
      obtain ⟨block, hblock, hspan⟩ :=
        (@subgraph_traced eof t ts m ho hbody).steps.span_eq (subgraph eof t ts m).fits
      refine ⟨t, block, hblock, ?_⟩
      rw [← hspan, subgraph]
      split <;> rfl
    rename_i hbody
    rw [if_neg hbody]
    split at h
    · rename_i hid
      rw [if_pos hid]
      obtain rfl := Option.some.inj h
      obtain ⟨block, hblock, hspan⟩ := (nodeId_traced eof m ho hid).steps.span_eq (nodeId eof t ts m).fits
      exact ⟨t, block, hblock, hspan⟩
    · cases h

theorem target_clean (ho : Ordered ts) (hf : ∀ t ∈ ts, t.faulty → isBare t.kind = false ∧ t.kind ≠ .plus)
    {c : Tree} (h : (target eof ts m).value = some c) (hc : c.flagged = false) :
    (target eof ts m).complaints = [] ∧ ∃ used, ts = used ++ (target eof ts m).rest ∧
      ∀ u ∈ used, u.faulty = false := by
  have hsteps := (@target_traced eof ts m ho).steps
  rw [h] at hsteps
  obtain ⟨used, hused, hmarks⟩ := hsteps.marks hf
  simp only [Option.isNone_some, Option.toList_some, List.any_cons, List.any_nil, hc, Bool.or_self] at hmarks
  obtain ⟨hempty, hany⟩ := Bool.or_eq_false_iff.mp hmarks.symm
  refine ⟨by simpa using hempty, used, hused, fun u hu => ?_⟩
  simpa using List.any_eq_false.mp hany u hu

theorem target_of_group {u : Token} {block rest : List Token} {kss : List (List Kind)}
    (h : (u :: block).map Token.kind = .openBrace :: kss.flatten ++ [.closeBrace])
    (hkss : ∀ ks ∈ kss, Derives Form.endpoint ks) : (target eof (u :: block ++ rest) m).rest = rest := by
  have hopen : opensBody u.kind := by
    rw [(List.cons.inj h).1]
    rfl
  have htakes : Takes (.part .subgraph) (u :: block ++ rest) rest := ⟨u :: block, rfl, h ▸ derives_group hkss⟩
  rw [List.cons_append, target, if_pos hopen]
  exact (subgraph_complete eof u (block ++ rest) m htakes).2

end Parse

end DotMend
