import DotMend.Proofs.Parse.Trace
import DotMend.Proofs.Tree.Map

/-! Reading tokens of which quoted ones are cut in two. Wherever an identifier is read its parts are put together
again; only in front of the equals sign of an equation no reader looks for them. -/

namespace DotMend.Parse

def listBehind (k : Kind) (inList : Bool) : Bool := (inList || k = .openBracket) && k ≠ .closeBracket

structure CutsTo (q a p c : Token) : Prop where
  whole : q.kind = .quoted
  left : a.kind = .quoted
  plus : p.kind = .plus
  right : c.kind = .quoted
  value : a.value ++ c.value = q.value

/-- The second list is the first with some quoted tokens cut. The flags say whether an attribute list is open at
the start, whether the token in front was cut, and whether no cut token has an equals sign behind it outside of
lists. -/
inductive Split : (inList fresh fine : Bool) → List Token → List Token → Prop
  | nil {l f} : Split l f true [] []
  | keep {l f fine t t' ts us} : t'.kind = t.kind → t'.value = t.value →
    Split (listBehind t.kind l) false fine ts us →
      Split l f (fine && !(f && !l && t.kind = .equals)) (t :: ts) (t' :: us)
  | cut {l f fine q a p c ts us} : CutsTo q a p c → Split l true fine ts us →
    Split l f fine (q :: ts) (a :: p :: c :: us)

variable {l f fine : Bool} {ts us : List Token} {t t' : Token} {m m' : Trail} {eof : Span} (eof' : Span)

namespace Split

lemma of_nil (h : Split l f fine [] us) : us = [] ∧ fine = true := by
  cases h with
  | nil => exact ⟨rfl, rfl⟩

lemma of_cons (h : Split l f fine (t :: ts) us) : ∃ t' us', us = t' :: us' ∧ t'.kind = t.kind := by
  cases h with
  | keep hk => exact ⟨_, _, rfl, hk⟩
  | cut hcut => exact ⟨_, _, rfl, hcut.left.trans hcut.whole.symm⟩

lemma nextIs (h : Split l f fine ts us) (p : Kind → Bool) : nextIs p us = nextIs p ts := by
  cases ts with
  | nil => rw [h.of_nil.1]
  | cons t ts =>
    obtain ⟨t', us', rfl, hk⟩ := h.of_cons
    rw [Parse.nextIs, Parse.nextIs, hk]

lemma of_keep_fine {k : Kind} (he : k = .equals → l = true ∨ f = false) :
    (fine && !(f && !l && decide (k = .equals))) = fine := by
  by_cases hk : k = .equals
  · rcases he hk with rfl | rfl <;> simp
  · simp [hk]

lemma of_token (h : Split l f fine (t :: ts) us) (hq : t.kind ≠ .quoted)
    (he : t.kind = .equals → l = true ∨ f = false) :
    ∃ t' us', us = t' :: us' ∧ t'.kind = t.kind ∧ t'.value = t.value ∧
      Split (listBehind t.kind l) false fine ts us' := by
  cases h with
  | cut hcut => exact absurd hcut.whole hq
  | @keep _ _ fine _ t' _ us' hk hv h =>
    rw [of_keep_fine he]
    exact ⟨t', us', rfl, hk, hv, h⟩

lemma of_quoted (h : Split l f fine (t :: ts) us) (hq : t.kind = .quoted) :
    (∃ t' us', us = t' :: us' ∧ t'.kind = .quoted ∧ t'.value = t.value ∧ Split l false fine ts us') ∨
      ∃ a p c us', us = a :: p :: c :: us' ∧ CutsTo t a p c ∧ Split l true fine ts us' := by
  cases h with
  | @cut _ _ _ _ a p c _ us' hcut h => exact .inr ⟨a, p, c, us', rfl, hcut, h⟩
  | @keep _ _ fine _ t' _ us' hk hv h =>
    have hl : listBehind t.kind l = l := by simp [hq, listBehind]
    rw [hl] at h
    rw [of_keep_fine (by simp [hq])]
    exact .inl ⟨t', us', rfl, hk.trans hq, hv, h⟩

end Split

structure Parsed.Mirrors (l fine : Bool) (f : α → β) {n n' : Nat} (r : Parsed n α) (r' : Parsed n' α) : Prop where
  complaints : r'.complaints = []
  value : f r'.value = f r.value
  built : r'.trail.built = r.trail.built
  split : ∃ fresh, Split l fresh fine r.rest r'.rest

lemma skip_mirrors {g : α → β} {v v' : α} (h : Split l f fine ts us) (hv : g v' = g v) (hm : m'.built = m.built) :
    (skip v ts m).Mirrors l fine g (skip v' us m') := ⟨rfl, hv, hm, f, h⟩

lemma outline_node {start start' : Nat} {faulty faulty' : Bool} {make make' : Tree.Info → Tree}
    (hm : m'.built = m.built) (h : ∀ i i', i'.number = i.number → (make' i').outline = (make i).outline) :
    (m'.node start' faulty' make').outline = (m.node start faulty make).outline := h _ _ hm

lemma outline_leaf (hm : m'.built = m.built) (hk : t'.kind = t.kind) :
    (m'.leaf t').outline = (m.leaf t).outline := by
  simp only [Trail.leaf, Tree.map_token, hk]
  exact congrArg (Tree.token · t.kind) (Tree.Info.outline_congr hm)

lemma Parsed.Mirrors.node {n n' k k' : Nat} {g : α → β} {r : Parsed n α} {r' : Parsed n' α}
    (h : r.Mirrors l fine g r')
    {start start' : Nat} {faulty faulty' : Bool} {make make' : Tree.Info → Tree} {cs cs' : List Diagnostic}
    {hk : r.rest.length ≤ k} {hk' : r'.rest.length ≤ k'} (hcs : cs' = [])
    (hmake : ∀ i i', i'.number = i.number → (make' i').outline = (make i).outline) :
    Parsed.Mirrors l fine Tree.outline ⟨r.trail.node start faulty make, r.rest, r.trail.grown, cs, hk⟩
      ⟨r'.trail.node start' faulty' make', r'.rest, r'.trail.grown, cs', hk'⟩ :=
  ⟨hcs, outline_node h.built hmake, congrArg (· + 1) h.built, h.split⟩

lemma optional_mirrors {wanted : Kind → Bool} (hw : ∀ k, wanted k → k ∈ [Kind.semicolon, .comma, .strictKeyword])
    (h : Split l f fine ts us) (hm : m'.built = m.built) :
    (optional wanted ts m).Mirrors l fine (Option.map Tree.outline) (optional wanted us m') := by
  cases ts with
  | nil =>
    obtain ⟨rfl, -⟩ := h.of_nil
    exact skip_mirrors h rfl hm
  | cons t ts =>
    by_cases ht : wanted t.kind = true
    · have hkind := hw _ ht
      have hplain : t.kind ≠ .quoted ∧ t.kind ≠ .equals ∧ listBehind t.kind l = l := by
        simp only [List.mem_cons, List.not_mem_nil, or_false] at hkind
        rcases hkind with hkind | hkind | hkind <;> simp [hkind, listBehind]
      obtain ⟨t', us, rfl, hk, -, hus⟩ := h.of_token hplain.1 fun he => absurd he hplain.2.1
      rw [hplain.2.2] at hus
      simp only [optional, hk, ht, if_true]
      exact ⟨rfl, congrArg some (outline_leaf hm hk), congrArg (· + 1) hm, false, hus⟩
    · obtain ⟨t', us, rfl, hk⟩ := h.of_cons
      simp only [optional, hk, ht]
      exact skip_mirrors h rfl hm

lemma joined_part {p c : Token} (hp : p.kind = .plus) (hc : c.kind = .quoted) (j : Joined) :
    let r := joined eof ⟨j.text ++ c.value, j.span.cover c.span, j.faulty || c.faulty⟩ ts (m.pass c)
    joined eof j (p :: c :: ts) m =
      ⟨r.value, r.rest, r.trail, r.complaints, Nat.le_succ_of_le (Nat.le_succ_of_le r.fits)⟩ := by
  rw [joined]
  simp only [hp, hc, if_true]

lemma joined_mirrors {j : Joined} (j' : Joined) (m' : Trail) (h : Split l f fine ts us)
    (hc : (joined eof j ts m).complaints = []) (hj : j'.text = j.text) (hm : m'.built = m.built) :
    (joined eof j ts m).Mirrors l fine Joined.text (joined eof' j' us m') := by
  fun_induction joined eof j ts m generalizing j' us m' f with
  | case1 j m =>
    obtain ⟨rfl, -⟩ := h.of_nil
    exact skip_mirrors h hj hm
  | case2 => cases hc
  | case3 j m p hp q ts hq r =>
    rename_i ih
    obtain ⟨p', us, rfl, hp', -, hus⟩ := h.of_token (by simp [hp]) (by simp [hp])
    rw [show listBehind p.kind l = l by simp [hp, listBehind]] at hus
    rcases hus.of_quoted hq with ⟨q', us, rfl, hq', hv, hus⟩ | ⟨a, p₂, c, us, rfl, hcut, hus⟩
    · rw [joined_part (hp'.trans hp) hq']
      have hr := ih ⟨j'.text ++ q'.value, j'.span.cover q'.span, j'.faulty || q'.faulty⟩ (m'.pass q') hus hc
        (by simp [hj, hv]) hm
      exact ⟨hr.complaints, hr.value, hr.built, hr.split⟩
    · rw [joined_part (hp'.trans hp) hcut.left, joined_part hcut.plus hcut.right]
      have hr := ih
        ⟨j'.text ++ a.value ++ c.value, (j'.span.cover a.span).cover c.span, j'.faulty || a.faulty || c.faulty⟩
        ((m'.pass a).pass c) hus hc (by simp [hj, ← hcut.value, String.append_assoc]) hm
      exact ⟨hr.complaints, hr.value, hr.built, hr.split⟩
  | case4 => cases hc
  | case5 j m p ts hp =>
    obtain ⟨p', us, rfl, hk⟩ := h.of_cons
    rw [joined.eq_def]
    simp only [hk, hp, if_false]
    exact skip_mirrors h hj hm

def parts (eof : Span) (t : Token) (ts : List Token) (m : Trail) : Parsed ts.length Joined :=
  if t.kind = .quoted then joined eof ⟨t.value, t.span, t.faulty⟩ ts (m.pass t)
  else skip ⟨t.value, t.span, t.faulty⟩ ts (m.pass t)

lemma parts_mirrors (m' : Trail) (h : Split l f fine (t :: ts) (t' :: us)) (ht : t.kind.isIdentifier)
    (hc : (parts eof t ts m).complaints = []) (hm : m'.built = m.built) :
    (parts eof t ts m).Mirrors l fine Joined.text (parts eof' t' us m') := by
  by_cases hq : t.kind = .quoted
  · rw [parts, if_pos hq] at hc ⊢
    rcases h.of_quoted hq with ⟨_, _, hus, hq', hv, hsplit⟩ | ⟨_, p, c, us, hus, hcut, hsplit⟩
    · obtain ⟨rfl, rfl⟩ := List.cons.inj hus
      rw [parts, if_pos hq']
      exact joined_mirrors eof' _ _ hsplit hc hv hm
    · obtain ⟨rfl, rfl⟩ := List.cons.inj hus
      rw [parts, if_pos hcut.left, joined_part hcut.plus hcut.right]
      have hr := joined_mirrors eof' ⟨t'.value ++ c.value, t'.span.cover c.span, t'.faulty || c.faulty⟩
        ((m'.pass t').pass c) hsplit hc hcut.value hm
      exact ⟨hr.complaints, hr.value, hr.built, hr.split⟩
  · have hplain : t.kind ≠ .equals ∧ listBehind t.kind l = l := by
      generalize t.kind = k at ht
      cases k <;> simp [Kind.isIdentifier, listBehind] at ht ⊢
    obtain ⟨_, _, hus, hk, hv, hsplit⟩ := h.of_token hq fun he => absurd he hplain.1
    obtain ⟨rfl, rfl⟩ := List.cons.inj hus
    rw [hplain.2] at hsplit
    rw [parts, parts, if_neg hq, if_neg (hk ▸ hq)]
    exact skip_mirrors hsplit hv hm

lemma identifier_mirrors (m' : Trail) (h : Split l f fine (t :: ts) (t' :: us)) (ht : t.kind.isIdentifier)
    (hc : (identifier eof t ts m).complaints = []) (hm : m'.built = m.built) :
    (identifier eof t ts m).Mirrors l fine Tree.outline (identifier eof' t' us m') := by
  have hr : (parts eof t ts m).Mirrors l fine Joined.text (parts eof' t' us m') := parts_mirrors eof' m' h ht hc hm
  obtain ⟨_, _, hus, hk⟩ := h.of_cons
  obtain ⟨rfl, rfl⟩ := List.cons.inj hus
  refine ⟨hr.complaints, ?_, congrArg (· + 1) hr.built, hr.split⟩
  change (Tree.identifier _ t'.kind (parts eof' t' us m').value.text).outline =
    (Tree.identifier _ t.kind (parts eof t ts m).value.text).outline
  simp only [Tree.map_identifier, hk, hr.value]
  exact congrArg (Tree.identifier · _ _) (Tree.Info.outline_congr hm)

lemma requireIdentifier_mirrors {what : Expectation} (m' : Trail) (h : Split l f fine ts us)
    (hc : (requireIdentifier eof what ts m).complaints = []) (hm : m'.built = m.built) :
    (requireIdentifier eof what ts m).Mirrors l fine (Option.map Tree.outline)
      (requireIdentifier eof' what us m') := by
  cases ts with
  | nil => cases hc
  | cons t ts =>
    obtain ⟨t', us, rfl, hk⟩ := h.of_cons
    simp only [requireIdentifier, hk] at hc ⊢
    split at hc
    · rename_i ht
      rw [if_pos ht, if_pos ht]
      have hr := identifier_mirrors eof' m' h ht hc hm
      exact ⟨hr.complaints, congrArg some hr.value, hr.built, hr.split⟩
    · cases hc

lemma optionalIdentifier_mirrors (m' : Trail) (h : Split l f fine ts us)
    (hc : (optionalIdentifier eof ts m).complaints = []) (hm : m'.built = m.built) :
    (optionalIdentifier eof ts m).Mirrors l fine (Option.map Tree.outline) (optionalIdentifier eof' us m') := by
  rw [optionalIdentifier] at hc ⊢
  rw [optionalIdentifier, h.nextIs]
  split
  · rename_i hid
    rw [if_pos hid] at hc
    exact requireIdentifier_mirrors eof' m' h hc hm
  · exact skip_mirrors h rfl hm

lemma compass_mirrors (m' : Trail) (h : Split l f fine ts us) (hc : (compass eof ts m).complaints = [])
    (hm : m'.built = m.built) :
    (compass eof ts m).Mirrors l fine (fun v => v.1.map Tree.outline) (compass eof' us m') := by
  cases ts with
  | nil =>
    obtain ⟨rfl, -⟩ := h.of_nil
    exact skip_mirrors h rfl hm
  | cons t ts =>
    by_cases ht : t.kind = .colon
    · obtain ⟨t', us, rfl, hk, -, h⟩ := h.of_token (by simp [ht]) (by simp [ht])
      rw [show listBehind t.kind l = l by simp [ht, listBehind]] at h
      simp only [compass, hk, ht, if_true] at hc ⊢
      have hr := requireIdentifier_mirrors eof' (m'.pass t') h hc hm
      exact ⟨hr.complaints, hr.value, hr.built, hr.split⟩
    · obtain ⟨t', us, rfl, hk⟩ := h.of_cons
      simp only [compass, hk, ht, if_false]
      exact skip_mirrors h rfl hm

lemma isSome_of_map_eq {v v' : Option Tree} (h : v'.map Tree.outline = v.map Tree.outline) :
    v'.isSome = v.isSome := by
  rw [← Option.isSome_map (f := Tree.outline), h, Option.isSome_map]

lemma point_mirrors {n n' : Nat} {name : Parsed n (Option Tree)} {name' : Parsed n' (Option Tree)}
    (h : name.Mirrors l fine (Option.map Tree.outline) name')
    (hc : (if name.value.isSome then compass eof name.rest name.trail
      else skip (none, false) name.rest name.trail).complaints = []) :
    (if name.value.isSome then compass eof name.rest name.trail
      else skip (none, false) name.rest name.trail).Mirrors l fine
      (fun v => v.1.map Tree.outline)
      (if name'.value.isSome then compass eof' name'.rest name'.trail
      else skip (none, false) name'.rest name'.trail) := by
  obtain ⟨fresh, hsplit⟩ := h.split
  rw [isSome_of_map_eq h.value]
  split
  · rename_i hsome
    rw [if_pos hsome] at hc
    exact compass_mirrors eof' _ hsplit hc h.built
  · exact skip_mirrors hsplit rfl h.built

lemma port_mirrors (t' : Token) (m' : Trail) (h : Split l f fine ts us) (hc : (port eof t ts m).complaints = [])
    (hm : m'.built = m.built) : (port eof t ts m).Mirrors l fine Tree.outline (port eof' t' us m') := by
  simp only [port, List.append_eq_nil_iff] at hc ⊢
  have hname := requireIdentifier_mirrors eof' (m'.pass t') h hc.1 hm
  have hpoint := point_mirrors eof' hname hc.2
  refine hpoint.node (by rw [hname.complaints, hpoint.complaints]; rfl) fun i i' hi => ?_
  simp only [Tree.map_port, hname.value, hpoint.value, Tree.Info.outline_congr hi]

lemma optionalPort_mirrors (m' : Trail) (h : Split l f fine ts us) (hc : (optionalPort eof ts m).complaints = [])
    (hm : m'.built = m.built) :
    (optionalPort eof ts m).Mirrors l fine (Option.map Tree.outline) (optionalPort eof' us m') := by
  cases ts with
  | nil =>
    obtain ⟨rfl, -⟩ := h.of_nil
    exact skip_mirrors h rfl hm
  | cons t ts =>
    by_cases ht : t.kind = .colon
    · obtain ⟨t', us, rfl, hk, -, h⟩ := h.of_token (by simp [ht]) (by simp [ht])
      rw [show listBehind t.kind l = l by simp [ht, listBehind]] at h
      simp only [optionalPort, hk, ht, if_true] at hc ⊢
      have hr := port_mirrors eof' t' m' h hc hm
      exact ⟨hr.complaints, congrArg some hr.value, hr.built, hr.split⟩
    · obtain ⟨t', us, rfl, hk⟩ := h.of_cons
      simp only [optionalPort, hk, ht, if_false]
      exact skip_mirrors h rfl hm

lemma nodeId_mirrors (m' : Trail) (h : Split l f fine (t :: ts) (t' :: us)) (ht : t.kind.isIdentifier)
    (hc : (nodeId eof t ts m).complaints = []) (hm : m'.built = m.built) :
    (nodeId eof t ts m).Mirrors l fine Tree.outline (nodeId eof' t' us m') := by
  simp only [nodeId, List.append_eq_nil_iff] at hc ⊢
  have hname := identifier_mirrors eof' m' h ht hc.1 hm
  obtain ⟨fresh, hsplit⟩ := hname.split
  have hplace := optionalPort_mirrors eof' _ hsplit hc.2 hname.built
  refine hplace.node (by rw [hname.complaints, hplace.complaints]; rfl) fun i i' hi => ?_
  simp only [Tree.map_nodeId, hname.value, hplace.value, Tree.Info.outline_congr hi]

section Attributes

lemma attrValue_mirrors (m' : Trail) (h : Split true f fine ts us) (hc : (attrValue eof ts m).complaints = [])
    (hm : m'.built = m.built) :
    (attrValue eof ts m).Mirrors true fine (Option.map Tree.outline) (attrValue eof' us m') := by
  cases ts with
  | nil => cases hc
  | cons t ts =>
    by_cases ht : t.kind = .equals
    · obtain ⟨t', us, rfl, hk, -, h⟩ := h.of_token (by simp [ht]) (by simp)
      rw [show listBehind t.kind true = true by simp [ht, listBehind]] at h
      simp only [attrValue, hk, ht, if_true] at hc ⊢
      have hr := requireIdentifier_mirrors eof' (m'.pass t') h hc hm
      exact ⟨hr.complaints, hr.value, hr.built, hr.split⟩
    · simp only [attrValue, ht, if_false] at hc
      cases hc

lemma attr_mirrors (m' : Trail) (h : Split true f fine (t :: ts) (t' :: us)) (ht : t.kind.isIdentifier)
    (hc : (attr eof t ts m).complaints = []) (hm : m'.built = m.built) :
    (attr eof t ts m).Mirrors true fine Tree.outline (attr eof' t' us m') := by
  simp only [attr, List.append_eq_nil_iff] at hc ⊢
  have hleft := identifier_mirrors eof' m' h ht hc.1.1 hm
  obtain ⟨_, hsplit⟩ := hleft.split
  have hright := attrValue_mirrors eof' _ hsplit hc.1.2 hleft.built
  obtain ⟨_, hsplit⟩ := hright.split
  have hends (k : Kind) (hk : endsAttr k = true) : k ∈ [Kind.semicolon, .comma, .strictKeyword] := by
    cases k <;> simp [endsAttr] at hk ⊢
  have hstop := optional_mirrors hends hsplit hright.built
  refine hstop.node (by rw [hleft.complaints, hright.complaints, hstop.complaints]; rfl) fun i i' hi => ?_
  simp only [Tree.map_attr, hleft.value, hright.value, hstop.value, Tree.Info.outline_congr hi]

lemma attrs_mirrors (m' : Trail) (h : Split true f fine ts us) (hc : (attrs eof ts m).complaints = [])
    (hm : m'.built = m.built) :
    (attrs eof ts m).Mirrors false fine (fun v => v.1.map Tree.outline) (attrs eof' us m') := by
  fun_induction attrs eof ts m generalizing us m' f with
  | case1 => cases hc
  | case2 m t ts ht =>
    obtain ⟨t', us, rfl, hk, -, h⟩ := h.of_token (by simp [ht]) (by simp)
    rw [show listBehind t.kind true = false by simp [ht, listBehind]] at h
    rw [attrs, if_pos (hk.trans ht)]
    exact ⟨rfl, rfl, hm, false, h⟩
  | case3 => cases hc
  | case4 m t ts hclose hbrace hid a r =>
    rename_i ih
    simp only [List.append_eq_nil_iff] at hc
    obtain ⟨t', us, rfl, hk⟩ := h.of_cons
    have ha := attr_mirrors eof' m' h hid hc.1 hm
    obtain ⟨_, hsplit⟩ := ha.split
    have hr := ih _ hsplit hc.2 ha.built
    rw [attrs, if_neg (hk ▸ hclose), if_neg (hk ▸ hbrace), if_pos (hk ▸ hid)]
    refine ⟨by simp only [ha.complaints, hr.complaints, List.append_nil], ?_, hr.built, hr.split⟩
    simp only [List.map_cons]
    rw [ha.value]
    exact congrArg _ hr.value
  | case5 => cases hc

lemma attrList_mirrors (t' : Token) (m' : Trail) (h : Split true f fine ts us)
    (hc : (attrList eof t ts m).complaints = [])
    (hm : m'.built = m.built) : (attrList eof t ts m).Mirrors false fine Tree.outline
      (attrList eof' t' us m') := by
  have hr := attrs_mirrors eof' (m'.pass t') h hc hm
  refine hr.node hr.complaints fun i i' hi => ?_
  simp only [Tree.map_attrList, hr.value, Tree.Info.outline_congr hi]

lemma attrLists_mirrors (m' : Trail) (h : Split false f fine ts us) (hc : (attrLists eof ts m).complaints = [])
    (hm : m'.built = m.built) :
    (attrLists eof ts m).Mirrors false fine (List.map Tree.outline) (attrLists eof' us m') := by
  fun_induction attrLists eof ts m generalizing us m' f with
  | case1 m t ts ht a r =>
    rename_i ih
    simp only [List.append_eq_nil_iff] at hc
    obtain ⟨t', us, rfl, hk, -, h⟩ := h.of_token (by simp [ht]) (by simp [ht])
    rw [show listBehind t.kind false = true by simp [ht, listBehind]] at h
    have ha := attrList_mirrors eof' t' m' h hc.1 hm
    obtain ⟨_, hsplit⟩ := ha.split
    have hr := ih _ hsplit hc.2 ha.built
    rw [attrLists, if_pos (hk.trans ht)]
    refine ⟨by simp only [ha.complaints, hr.complaints, List.append_nil], ?_, hr.built, hr.split⟩
    simp only [List.map_cons]
    rw [ha.value, hr.value]
  | case2 m t ts ht =>
    obtain ⟨t', us, rfl, hk⟩ := h.of_cons
    rw [attrLists, if_neg (hk ▸ ht)]
    exact skip_mirrors h rfl hm
  | case3 =>
    obtain ⟨rfl, -⟩ := h.of_nil
    rw [attrLists]
    exact skip_mirrors h rfl hm

end Attributes

lemma terminator_mirrors (h : Split l f fine ts us) (hm : m'.built = m.built) :
    (terminator ts m).Mirrors l fine (Option.map Tree.outline) (terminator us m') :=
  optional_mirrors (fun k hk => by simp [of_decide_eq_true hk]) h hm

lemma attrStatement_mirrors (m' : Trail) (hk : t'.kind = t.kind) (h : Split false f fine ts us)
    (hc : (attrStatement eof t ts m).complaints = []) (hm : m'.built = m.built) :
    (attrStatement eof t ts m).Mirrors false fine Tree.outline (attrStatement eof' t' us m') := by
  simp only [attrStatement, List.append_eq_nil_iff, h.nextIs] at hc ⊢
  have hlists := attrLists_mirrors eof' (m'.pass t').grown h hc.1.2 (congrArg (· + 1) hm)
  obtain ⟨_, hsplit⟩ := hlists.split
  have hstop := terminator_mirrors hsplit hlists.built
  have hbare : (!nextIs (· = .openBracket) ts) = false := by simpa using hc.1.1
  refine hstop.node (by rw [hbare, hlists.complaints, hstop.complaints]; rfl) fun i i' hi => ?_
  simp only [Tree.map_attrStatement, outline_leaf hm hk, hlists.value, hstop.value, Tree.Info.outline_congr hi]

lemma equation_mirrors {e : Token} (e' : Token) (m' : Trail) (hk : t'.kind = t.kind) (hv : t'.value = t.value)
    (h : Split false f fine ts us) (hc : (equation eof t e ts m).complaints = []) (hm : m'.built = m.built) :
    (equation eof t e ts m).Mirrors false fine Tree.outline (equation eof' t' e' us m') := by
  simp only [equation, List.append_eq_nil_iff] at hc ⊢
  have hright := requireIdentifier_mirrors eof' (m'.pass e').grown h hc.1 (congrArg (· + 1) hm)
  obtain ⟨_, hsplit⟩ := hright.split
  have hstop := terminator_mirrors hsplit hright.built
  have hleft : (⟨m'.built, t'.span, t'.faulty⟩ : Tree.Info).outline =
      (⟨m.built, t.span, t.faulty⟩ : Tree.Info).outline :=
    Tree.Info.outline_congr hm
  refine hstop.node (by rw [hright.complaints, hstop.complaints]; rfl) fun i i' hi => ?_
  simp only [Tree.map_equation, Tree.map_identifier, hleft, hk, hv, hright.value, hstop.value,
    Tree.Info.outline_congr hi]

lemma nodeStatement_mirrors {start start' : Nat} {node node' : Tree} (m' : Trail)
    (hnode : node'.outline = node.outline)
    (h : Split false f fine ts us) (hc : (nodeStatement eof start node ts m).complaints = [])
    (hm : m'.built = m.built) :
    (nodeStatement eof start node ts m).Mirrors false fine Tree.outline
      (nodeStatement eof' start' node' us m') := by
  simp only [nodeStatement, List.append_eq_nil_iff] at hc ⊢
  have hlists := attrLists_mirrors eof' m' h hc.1 hm
  obtain ⟨_, hsplit⟩ := hlists.split
  have hstop := terminator_mirrors hsplit hlists.built
  refine hstop.node (by rw [hlists.complaints, hstop.complaints]; rfl) fun i i' hi => ?_
  simp only [Tree.map_nodeStatement, hnode, hlists.value, hstop.value, Tree.Info.outline_congr hi]

lemma subgraphStatement_mirrors {start start' : Nat} {body body' : Tree} (hbody : body'.outline = body.outline)
    (h : Split false f fine ts us) (hm : m'.built = m.built) :
    (subgraphStatement start body ts m).Mirrors false fine Tree.outline
      (subgraphStatement start' body' us m') := by
  have hstop := terminator_mirrors h hm
  refine hstop.node hstop.complaints fun i i' hi => ?_
  simp only [Tree.map_subgraphStatement, hbody, hstop.value, Tree.Info.outline_congr hi]

end DotMend.Parse
