import DotMend.Proofs.Parse.Trace
import DotMend.Proofs.Tree.Relocation
import Mathlib.Order.MinMax
import Mathlib.Order.Nat

/-! Reading relocated tokens. A reader cannot tell the two edge operators apart, looks at one token behind those
that it uses, and does nothing with places but to copy them; so what it reads from relocated tokens is
relocated. -/

namespace DotMend

namespace Relocation

variable (φ : Relocation)

def trail (m : Parse.Trail) : Parse.Trail := ⟨m.built, φ.place m.lastEnd⟩

/-- A token keeps its kind, except that an operator may become the other one. -/
def Keeps (t : Token) : Prop := (φ.token t).kind = t.kind ∨ t.kind.isEdgeOp ∧ (φ.token t).kind.isEdgeOp

def joined (j : Parse.Joined) : Parse.Joined := ⟨j.text, φ.span j.span, j.faulty⟩

variable {φ} {t : Token}

lemma isEdgeOp_iff {k : Kind} : k.isEdgeOp = true ↔ k = .directedOp ∨ k = .undirectedOp := by
  cases k <;> simp [Kind.isEdgeOp, Kind.edgeOp?]

lemma Keeps.test (h : φ.Keeps t) {p : Kind → Bool} (hp : p .directedOp = p .undirectedOp) :
    p (φ.token t).kind = p t.kind := by
  rcases h with h | ⟨h, h'⟩
  · rw [h]
  · rcases isEdgeOp_iff.mp h with h | h <;> rcases isEdgeOp_iff.mp h' with h' | h' <;> simp [h, h', hp]

lemma Keeps.eq_iff (h : φ.Keeps t) {k : Kind} (hk : k.isEdgeOp = false) : (φ.token t).kind = k ↔ t.kind = k := by
  have := h.test (p := (· = k)) (by cases k <;> simp [Kind.isEdgeOp, Kind.edgeOp?] at hk ⊢)
  simpa using this

lemma Keeps.eq_of_isIdentifier (h : φ.Keeps t) (ht : t.kind.isIdentifier) : (φ.token t).kind = t.kind := by
  rcases h with h | ⟨h, -⟩
  · exact h
  · rcases isEdgeOp_iff.mp h with h | h <;> simp [h, Kind.isIdentifier] at ht

lemma pass_eq {m m' : Parse.Trail} (h : m' = φ.trail m) (t : Token) :
    m'.pass (φ.token t) = φ.trail (m.pass t) := by rw [h]; rfl

lemma grown_eq {m m' : Parse.Trail} (h : m' = φ.trail m) : m'.grown = φ.trail m.grown := by rw [h]; rfl

lemma leaf_eq {m m' : Parse.Trail} (h : m' = φ.trail m) (t : Token) : m'.leaf (φ.token t) = φ.tree (m.leaf t) := by
  rw [h]; rfl

lemma span_cover (a b : Span) : φ.span (a.cover b) = (φ.span a).cover (φ.span b) := by
  simp [span, Span.cover, Monotone.map_min φ.mono, Monotone.map_max φ.mono]

lemma node_eq {m m' : Parse.Trail} {faulty faulty' : Bool} {make make' : Tree.Info → Tree} (t : Token)
    (hm : m' = φ.trail m) (hf : faulty' = faulty) (h : ∀ i, make' (φ.info i) = φ.tree (make i)) :
    m'.node (φ.token t).span.start faulty' make' = φ.tree (m.node t.span.start faulty make) := by
  subst hm hf
  have hi (b : Bool) : (⟨m.built, ⟨(φ.token t).span.start, φ.place m.lastEnd⟩, b⟩ : Tree.Info) =
      φ.info ⟨m.built, ⟨t.span.start, m.lastEnd⟩, b⟩ := rfl
  simp only [Parse.Trail.node, trail, hi, h, children_tree, List.any_map]
  simp [Function.comp_def]

end Relocation

namespace Parse

variable {φ : Relocation} {rest rest' ts us : List Token} {m : Trail} {eof : Span} {t : Token}

/-- `us` relocates `ts` in front of `rest'` and `rest`, of which only the first tokens need to agree. -/
structure Tied (φ : Relocation) (rest rest' ts us : List Token) : Prop where
  head : rest'.head? = rest.head?.map φ.token
  keeps_head : ∀ t ∈ rest.head?, φ.Keeps t
  exists_used : ∃ used, ts = used ++ rest ∧ us = used.map φ.token ++ rest' ∧ ∀ t ∈ used, φ.Keeps t

namespace Tied

lemma nil (h : Tied φ rest rest' [] us) : us = [] := by
  obtain ⟨hh, -, used, he, rfl, -⟩ := h
  obtain ⟨rfl, rfl⟩ := List.append_eq_nil_iff.mp he.symm
  simpa using hh

lemma cons (h : Tied φ rest rest' (t :: ts) us) :
    ∃ us', us = φ.token t :: us' ∧ φ.Keeps t ∧ (rest.length ≤ ts.length → Tied φ rest rest' ts us') := by
  obtain ⟨hh, hk, used, he, rfl, hu⟩ := h
  cases used with
  | nil =>
    obtain rfl : rest = t :: ts := he.symm
    obtain ⟨us', rfl⟩ := List.head?_eq_some_iff.mp hh
    exact ⟨us', rfl, hk t rfl, fun hl => absurd hl (Nat.not_succ_le_self _)⟩
  | cons u used =>
    obtain ⟨rfl, rfl⟩ := List.cons.inj he
    exact ⟨_, rfl, hu t (by simp), fun _ => ⟨hh, hk, used, rfl, rfl, fun v hv => hu v (by simp [hv])⟩⟩

lemma expected (h : Tied φ rest rest' ts us) (what : Expectation) :
    expected (φ.span eof) what us = φ.diagnostic (expected eof what ts) := by
  cases ts with
  | nil => obtain rfl := h.nil; rfl
  | cons t ts => obtain ⟨us, rfl, -⟩ := h.cons; rfl

lemma nextIs (h : Tied φ rest rest' ts us) {p : Kind → Bool} (hp : p .directedOp = p .undirectedOp) :
    nextIs p us = nextIs p ts := by
  cases ts with
  | nil => obtain rfl := h.nil; rfl
  | cons t ts =>
    obtain ⟨us, rfl, hk, -⟩ := h.cons
    exact hk.test hp

end Tied

structure Parsed.Moved (φ : Relocation) (rest rest' : List Token) (f : α → α) {n n' : Nat} (r : Parsed n α)
    (r' : Parsed n' α) : Prop where
  value : r'.value = f r.value
  trail : r'.trail = φ.trail r.trail
  complaints : r'.complaints = r.complaints.map φ.diagnostic
  tied : Tied φ rest rest' r.rest r'.rest

lemma skip_moved {f : α → α} {a a' : α} {m' : Trail} (h : Tied φ rest rest' ts us) (ha : a' = f a)
    (hm : m' = φ.trail m) : (skip a ts m).Moved φ rest rest' f (skip a' us m') := ⟨ha, hm, rfl, h⟩

lemma miss_moved {f : α → α} {a a' : α} {m' : Trail} {what : Expectation} (h : Tied φ rest rest' ts us)
    (ha : a' = f a)
    (hm : m' = φ.trail m) : (miss eof what a ts m).Moved φ rest rest' f (miss (φ.span eof) what a' us m') :=
  ⟨ha, hm, by simp [miss, h.expected], h⟩

lemma optional_moved {wanted : Kind → Bool} {m' : Trail} (hw : wanted .directedOp = wanted .undirectedOp)
    (h : Tied φ rest rest' ts us) (hm : m' = φ.trail m)
    (hl : rest.length ≤ (optional wanted ts m).rest.length) :
    (optional wanted ts m).Moved φ rest rest' φ.option (optional wanted us m') := by
  subst hm
  cases ts with
  | nil =>
    obtain rfl := h.nil
    exact skip_moved h rfl rfl
  | cons t ts =>
    obtain ⟨us, rfl, hk, hn⟩ := h.cons
    simp only [optional, hk.test hw] at hl ⊢
    split
    · rename_i ht
      rw [if_pos ht] at hl
      exact ⟨rfl, rfl, rfl, hn hl⟩
    · exact skip_moved h rfl rfl

lemma joined_moved (eof : Span) {j : Joined} (h : Tied φ rest rest' ts us)
    (hl : rest.length ≤ (joined eof j ts m).rest.length) :
    (joined eof j ts m).Moved φ rest rest' φ.joined (joined (φ.span eof) (φ.joined j) us (φ.trail m)) := by
  fun_induction joined eof j ts m generalizing us with
  | case1 j m =>
    obtain rfl := h.nil
    exact skip_moved h rfl rfl
  | case2 j m p hp =>
    obtain ⟨us, rfl, hk, hn⟩ := h.cons
    have hn := hn hl
    obtain rfl := hn.nil
    rw [joined, if_pos ((hk.eq_iff rfl).mpr hp)]
    exact ⟨rfl, rfl, by simp [hn.expected], hn⟩
  | case3 j m p hp q ts hq r =>
    rename_i ih
    have hl' : rest.length ≤ ts.length := hl.trans r.fits
    obtain ⟨us, rfl, hk, hn⟩ := h.cons
    obtain ⟨us, rfl, hk', hn'⟩ := (hn (Nat.le_succ_of_le hl')).cons
    have hr := ih (hn' hl') hl
    rw [joined, if_pos ((hk.eq_iff rfl).mpr hp)]
    simp only [if_pos ((hk'.eq_iff rfl).mpr hq)]
    have hj : φ.joined ⟨j.text ++ q.value, j.span.cover q.span, j.faulty || q.faulty⟩ =
        ⟨(φ.joined j).text ++ (φ.token q).value, (φ.joined j).span.cover (φ.token q).span,
          (φ.joined j).faulty || (φ.token q).faulty⟩ := by
      simp only [Relocation.joined, Relocation.span_cover]
      rfl
    rw [hj] at hr
    exact ⟨hr.value, hr.trail, hr.complaints, hr.tied⟩
  | case4 j m p hp q ts hq =>
    obtain ⟨us, rfl, hk, hn⟩ := h.cons
    have hn := hn hl
    obtain ⟨us, rfl, hk', -⟩ := hn.cons
    rw [joined, if_pos ((hk.eq_iff rfl).mpr hp)]
    simp only [if_neg (mt (hk'.eq_iff rfl).mp hq)]
    exact ⟨rfl, rfl, by simp [hn.expected], hn⟩
  | case5 j m p ts hp =>
    obtain ⟨us, rfl, hk, hn⟩ := h.cons
    rw [joined.eq_def]
    simp only [if_neg (mt (hk.eq_iff rfl).mp hp)]
    exact skip_moved h rfl rfl

lemma identifier_moved (eof : Span) {m' : Trail} (h : Tied φ rest rest' ts us) (hm : m' = φ.trail m)
    (hk : φ.Keeps t) (ht : t.kind.isIdentifier) (hl : rest.length ≤ (identifier eof t ts m).rest.length) :
    (identifier eof t ts m).Moved φ rest rest' φ.tree (identifier (φ.span eof) (φ.token t) us m') := by
  subst hm
  have hkind := hk.eq_of_isIdentifier ht
  by_cases hq : t.kind = .quoted
  · simp only [identifier, hkind, hq, if_true] at hl ⊢
    have hr := joined_moved eof h hl
    exact ⟨congrArg (fun j : Joined => Tree.identifier ⟨m.built, j.span, j.faulty⟩ .quoted j.text) hr.value,
      congrArg Trail.grown hr.trail, hr.complaints, hr.tied⟩
  · simp only [identifier, hkind, hq, if_false] at hl ⊢
    exact ⟨rfl, rfl, rfl, h⟩

lemma requireIdentifier_moved {m' : Trail} {what : Expectation} (h : Tied φ rest rest' ts us) (hm : m' = φ.trail m)
    (hl : rest.length ≤ (requireIdentifier eof what ts m).rest.length) :
    (requireIdentifier eof what ts m).Moved φ rest rest' φ.option (requireIdentifier (φ.span eof) what us m') := by
  cases ts with
  | nil =>
    obtain rfl := h.nil
    exact miss_moved h rfl hm
  | cons t ts =>
    obtain ⟨us, rfl, hk, hn⟩ := h.cons
    simp only [requireIdentifier, hk.test (p := Kind.isIdentifier) rfl] at hl ⊢
    split
    · rename_i ht
      rw [if_pos ht] at hl
      have hr := identifier_moved eof (hn (hl.trans (identifier eof t ts m).fits)) hm hk ht hl
      exact ⟨congrArg some hr.value, hr.trail, hr.complaints, hr.tied⟩
    · exact miss_moved h rfl hm

lemma optionalIdentifier_moved (eof : Span) {m' : Trail} (h : Tied φ rest rest' ts us) (hm : m' = φ.trail m)
    (hl : rest.length ≤ (optionalIdentifier eof ts m).rest.length) :
    (optionalIdentifier eof ts m).Moved φ rest rest' φ.option (optionalIdentifier (φ.span eof) us m') := by
  simp only [optionalIdentifier, h.nextIs (p := Kind.isIdentifier) rfl] at hl ⊢
  split
  · rename_i hi
    rw [if_pos hi] at hl
    exact requireIdentifier_moved h hm hl
  · exact skip_moved h rfl hm

lemma compass_moved {m' : Trail} (h : Tied φ rest rest' ts us) (hm : m' = φ.trail m)
    (hl : rest.length ≤ (compass eof ts m).rest.length) :
    (compass eof ts m).Moved φ rest rest' (Prod.map φ.option id) (compass (φ.span eof) us m') := by
  cases ts with
  | nil =>
    obtain rfl := h.nil
    exact skip_moved h rfl hm
  | cons t ts =>
    obtain ⟨us, rfl, hk, hn⟩ := h.cons
    simp only [compass, hk.eq_iff (k := .colon) rfl] at hl ⊢
    split
    · rename_i ht
      rw [if_pos ht] at hl
      have hr := requireIdentifier_moved (hn (hl.trans (requireIdentifier eof _ ts (m.pass t)).fits))
        (Relocation.pass_eq hm t) hl
      exact ⟨by simp [hr.value], hr.trail, hr.complaints, hr.tied⟩
    · exact skip_moved h rfl hm

lemma node_moved {n n' : Nat} {m' : Trail} {faulty faulty' : Bool} {make make' : Tree.Info → Tree}
    {cs cs' : List Diagnostic} {hn : ts.length ≤ n} {hn' : us.length ≤ n'} (hm : m' = φ.trail m)
    (h : Tied φ rest rest' ts us) (hf : faulty' = faulty) (hmake : ∀ i, make' (φ.info i) = φ.tree (make i))
    (hcs : cs' = cs.map φ.diagnostic) :
    Parsed.Moved φ rest rest' φ.tree ⟨m.node t.span.start faulty make, ts, m.grown, cs, hn⟩
      ⟨m'.node (φ.token t).span.start faulty' make', us, m'.grown, cs', hn'⟩ :=
  ⟨Relocation.node_eq t hm hf hmake, Relocation.grown_eq hm, hcs, h⟩

lemma point_moved {n n' : Nat} {name : Parsed n (Option Tree)} {name' : Parsed n' (Option Tree)}
    (h : name.Moved φ rest rest' φ.option name')
    (hl : rest.length ≤ (if name.value.isSome then compass eof name.rest name.trail
      else skip (none, false) name.rest name.trail).rest.length) :
    (if name.value.isSome then compass eof name.rest name.trail
      else skip (none, false) name.rest name.trail).Moved φ rest rest' (Prod.map φ.option id)
      (if name'.value.isSome then compass (φ.span eof) name'.rest name'.trail
        else skip (none, false) name'.rest name'.trail) := by
  have hs : name'.value.isSome = name.value.isSome := by simp [h.value]
  rw [hs]
  split
  · rename_i hn
    rw [if_pos hn] at hl
    exact compass_moved h.tied h.trail hl
  · exact skip_moved h.tied rfl h.trail

lemma port_moved {m' : Trail} (h : Tied φ rest rest' ts us) (hm : m' = φ.trail m)
    (hl : rest.length ≤ (port eof t ts m).rest.length) :
    (port eof t ts m).Moved φ rest rest' φ.tree (port (φ.span eof) (φ.token t) us m') := by
  simp only [port] at hl ⊢
  have hname := requireIdentifier_moved h (Relocation.pass_eq hm t) (hl.trans (Parsed.fits _))
  have hpoint := point_moved hname hl
  refine node_moved hpoint.trail hpoint.tied ?_ (fun i => ?_) ?_
  · rw [hpoint.value, hname.value]
    simp
  · rw [hpoint.value, hname.value]
    rfl
  · rw [List.map_append, ← hname.complaints, ← hpoint.complaints]

lemma optionalPort_moved {m' : Trail} (h : Tied φ rest rest' ts us) (hm : m' = φ.trail m)
    (hl : rest.length ≤ (optionalPort eof ts m).rest.length) :
    (optionalPort eof ts m).Moved φ rest rest' φ.option (optionalPort (φ.span eof) us m') := by
  cases ts with
  | nil =>
    obtain rfl := h.nil
    exact skip_moved h rfl hm
  | cons t ts =>
    obtain ⟨us, rfl, hk, hn⟩ := h.cons
    simp only [optionalPort, hk.eq_iff (k := .colon) rfl] at hl ⊢
    split
    · rename_i ht
      rw [if_pos ht] at hl
      have hr := port_moved (t := t) (hn (hl.trans (port eof t ts m).fits)) hm hl
      exact ⟨congrArg some hr.value, hr.trail, hr.complaints, hr.tied⟩
    · exact skip_moved h rfl hm

lemma nodeId_moved {m' : Trail} (h : Tied φ rest rest' ts us) (hm : m' = φ.trail m) (hk : φ.Keeps t)
    (ht : t.kind.isIdentifier) (hl : rest.length ≤ (nodeId eof t ts m).rest.length) :
    (nodeId eof t ts m).Moved φ rest rest' φ.tree (nodeId (φ.span eof) (φ.token t) us m') := by
  simp only [nodeId] at hl ⊢
  have hname := identifier_moved eof h hm hk ht (hl.trans (Parsed.fits _))
  have hplace := optionalPort_moved hname.tied hname.trail hl
  refine node_moved hplace.trail hplace.tied rfl (fun i => ?_) ?_
  · rw [hname.value, hplace.value]
    rfl
  · rw [List.map_append, ← hname.complaints, ← hplace.complaints]

lemma attrValue_moved {m' : Trail} (h : Tied φ rest rest' ts us) (hm : m' = φ.trail m)
    (hl : rest.length ≤ (attrValue eof ts m).rest.length) :
    (attrValue eof ts m).Moved φ rest rest' φ.option (attrValue (φ.span eof) us m') := by
  cases ts with
  | nil =>
    obtain rfl := h.nil
    exact miss_moved h rfl hm
  | cons t ts =>
    obtain ⟨us, rfl, hk, hn⟩ := h.cons
    simp only [attrValue, hk.eq_iff (k := .equals) rfl] at hl ⊢
    split
    · rename_i ht
      rw [if_pos ht] at hl
      have hr := requireIdentifier_moved (hn (hl.trans (requireIdentifier eof _ ts (m.pass t)).fits))
        (Relocation.pass_eq hm t) hl
      exact ⟨hr.value, hr.trail, hr.complaints, hr.tied⟩
    · exact miss_moved h rfl hm

lemma attr_moved {m' : Trail} (h : Tied φ rest rest' ts us) (hm : m' = φ.trail m) (hk : φ.Keeps t)
    (ht : t.kind.isIdentifier) (hl : rest.length ≤ (attr eof t ts m).rest.length) :
    (attr eof t ts m).Moved φ rest rest' φ.tree (attr (φ.span eof) (φ.token t) us m') := by
  simp only [attr] at hl ⊢
  have hleft := identifier_moved eof h hm hk ht (hl.trans ((Parsed.fits _).trans (Parsed.fits _)))
  have hright := attrValue_moved hleft.tied hleft.trail (hl.trans (Parsed.fits _))
  have hstop := optional_moved rfl hright.tied hright.trail hl
  refine node_moved hstop.trail hstop.tied ?_ (fun i => ?_) ?_
  · rw [hright.value]
    simp
  · rw [hleft.value, hright.value, hstop.value]
    rfl
  · rw [List.map_append, List.map_append, ← hleft.complaints, ← hright.complaints, ← hstop.complaints]

lemma attrs_moved {m' : Trail} (h : Tied φ rest rest' ts us) (hm : m' = φ.trail m)
    (hl : rest.length ≤ (attrs eof ts m).rest.length) :
    (attrs eof ts m).Moved φ rest rest' (Prod.map φ.list id) (attrs (φ.span eof) us m') := by
  fun_induction attrs eof ts m generalizing us m' with
  | case1 m =>
    obtain rfl := h.nil
    rw [attrs]
    exact miss_moved h rfl hm
  | case2 m t ts ht =>
    obtain ⟨us, rfl, hk, hn⟩ := h.cons
    rw [attrs, if_pos ((hk.eq_iff rfl).mpr ht)]
    exact ⟨rfl, Relocation.pass_eq hm t, rfl, hn hl⟩
  | case3 m t ts hb ht =>
    obtain ⟨us, rfl, hk, hn⟩ := h.cons
    rw [attrs, if_neg (mt (hk.eq_iff rfl).mp hb), if_pos ((hk.eq_iff rfl).mpr ht)]
    exact miss_moved h rfl hm
  | case4 m t ts hb hc ht a r =>
    rename_i ih _
    obtain ⟨us, rfl, hk, hn⟩ := h.cons
    have ha := attr_moved (hn (hl.trans (r.fits.trans a.fits))) hm hk ht (hl.trans r.fits)
    have hr := ih ha.tied ha.trail hl
    rw [attrs, if_neg (mt (hk.eq_iff rfl).mp hb), if_neg (mt (hk.eq_iff rfl).mp hc),
      if_pos ((hk.test (p := Kind.isIdentifier) rfl).trans ht)]
    exact ⟨by simp only [ha.value, hr.value]; rfl, hr.trail, by
      rw [List.map_append, ← ha.complaints, ← hr.complaints], hr.tied⟩
  | case5 m t ts hb hc ht r =>
    rename_i ih
    obtain ⟨us, rfl, hk, hn⟩ := h.cons
    have hr := ih (hn (hl.trans r.fits)) (Relocation.pass_eq hm t) hl
    rw [attrs, if_neg (mt (hk.eq_iff rfl).mp hb), if_neg (mt (hk.eq_iff rfl).mp hc),
      if_neg (by rwa [hk.test (p := Kind.isIdentifier) rfl])]
    exact ⟨by simp only [hr.value]; rfl, hr.trail, congrArg₂ List.cons (h.expected _) hr.complaints, hr.tied⟩

lemma attrList_moved {m' : Trail} (h : Tied φ rest rest' ts us) (hm : m' = φ.trail m)
    (hl : rest.length ≤ (attrList eof t ts m).rest.length) :
    (attrList eof t ts m).Moved φ rest rest' φ.tree (attrList (φ.span eof) (φ.token t) us m') := by
  have hr := attrs_moved h (Relocation.pass_eq hm t) hl
  refine node_moved hr.trail hr.tied ?_ (fun i => ?_) hr.complaints
  · rw [hr.value]
    rfl
  · rw [hr.value]
    rfl

lemma attrLists_moved {m' : Trail} (h : Tied φ rest rest' ts us) (hm : m' = φ.trail m)
    (hl : rest.length ≤ (attrLists eof ts m).rest.length) :
    (attrLists eof ts m).Moved φ rest rest' φ.list (attrLists (φ.span eof) us m') := by
  fun_induction attrLists eof ts m generalizing us m' with
  | case1 m t ts ht a r =>
    rename_i ih _
    obtain ⟨us, rfl, hk, hn⟩ := h.cons
    have ha := attrList_moved (hn (hl.trans (r.fits.trans a.fits))) hm (hl.trans r.fits)
    have hr := ih ha.tied ha.trail hl
    rw [attrLists, if_pos ((hk.eq_iff rfl).mpr ht)]
    refine ⟨?_, hr.trail, ?_, hr.tied⟩
    · simp only [ha.value, hr.value]
      rfl
    · rw [List.map_append, ← ha.complaints, ← hr.complaints]
  | case2 m t ts ht =>
    obtain ⟨us, rfl, hk, hn⟩ := h.cons
    rw [attrLists, if_neg (mt (hk.eq_iff rfl).mp ht)]
    exact skip_moved h rfl hm
  | case3 m =>
    obtain rfl := h.nil
    rw [attrLists]
    exact skip_moved h rfl hm

lemma attrStatement_moved {m' : Trail} (h : Tied φ rest rest' ts us) (hm : m' = φ.trail m)
    (hl : rest.length ≤ (attrStatement eof t ts m).rest.length) :
    (attrStatement eof t ts m).Moved φ rest rest' φ.tree (attrStatement (φ.span eof) (φ.token t) us m') := by
  simp only [attrStatement, terminator] at hl ⊢
  have hlists := attrLists_moved h (Relocation.grown_eq (Relocation.pass_eq hm t)) (hl.trans (Parsed.fits _))
  have hstop := optional_moved rfl hlists.tied hlists.trail hl
  have hbare := h.nextIs (p := (· = .openBracket)) rfl
  refine node_moved hstop.trail hstop.tied (congrArg _ hbare) (fun i => ?_) ?_
  · rw [Relocation.leaf_eq hm, hlists.value, hstop.value]
    rfl
  · rw [List.map_append, List.map_append, ← hlists.complaints, ← hstop.complaints, hbare]
    cases nextIs (· = .openBracket) ts <;> simp [h.expected]

lemma equation_moved {e : Token} {m' : Trail} (h : Tied φ rest rest' ts us) (hm : m' = φ.trail m) (hk : φ.Keeps t)
    (ht : t.kind.isIdentifier) (hl : rest.length ≤ (equation eof t e ts m).rest.length) :
    (equation eof t e ts m).Moved φ rest rest' φ.tree (equation (φ.span eof) (φ.token t) (φ.token e) us m') := by
  simp only [equation, terminator] at hl ⊢
  have hright :=
    requireIdentifier_moved h (Relocation.grown_eq (Relocation.pass_eq hm e)) (hl.trans (Parsed.fits _))
  have hstop := optional_moved rfl hright.tied hright.trail hl
  refine node_moved hstop.trail hstop.tied ?_ (fun i => ?_) ?_
  · rw [hright.value]
    simp
  · rw [hright.value, hstop.value, hk.eq_of_isIdentifier ht, hm]
    rfl
  · rw [List.map_append, ← hright.complaints, ← hstop.complaints]

lemma nodeStatement_moved {node node' : Tree} {m' : Trail} (h : Tied φ rest rest' ts us) (hm : m' = φ.trail m)
    (hnode : node' = φ.tree node) (hl : rest.length ≤ (nodeStatement eof t.span.start node ts m).rest.length) :
    (nodeStatement eof t.span.start node ts m).Moved φ rest rest' φ.tree
      (nodeStatement (φ.span eof) (φ.token t).span.start node' us m') := by
  simp only [nodeStatement, terminator] at hl ⊢
  have hlists := attrLists_moved h hm (hl.trans (Parsed.fits _))
  have hstop := optional_moved rfl hlists.tied hlists.trail hl
  refine node_moved hstop.trail hstop.tied rfl (fun i => ?_) ?_
  · rw [hnode, hlists.value, hstop.value]
    rfl
  · rw [List.map_append, ← hlists.complaints, ← hstop.complaints]

lemma subgraphStatement_moved {body body' : Tree} {m' : Trail} (h : Tied φ rest rest' ts us) (hm : m' = φ.trail m)
    (hbody : body' = φ.tree body) (hl : rest.length ≤ (subgraphStatement t.span.start body ts m).rest.length) :
    (subgraphStatement t.span.start body ts m).Moved φ rest rest' φ.tree
      (subgraphStatement (φ.token t).span.start body' us m') := by
  simp only [subgraphStatement, terminator] at hl ⊢
  have hstop := optional_moved rfl h hm hl
  refine node_moved hstop.trail hstop.tied rfl (fun i => ?_) hstop.complaints
  rw [hbody, hstop.value]
  rfl

lemma edgeStatement_moved {source source' : Tree} {m' : Trail} (hsource : source' = φ.tree source)
    (hchain : rest.length ≤ (chain eof ts m).rest.length →
      (chain eof ts m).Moved φ rest rest' φ.list (chain (φ.span eof) us m'))
    (hl : rest.length ≤ (edgeStatement eof t.span.start source ts m).rest.length) :
    (edgeStatement eof t.span.start source ts m).Moved φ rest rest' φ.tree
      (edgeStatement (φ.span eof) (φ.token t).span.start source' us m') := by
  simp only [edgeStatement, terminator] at hl ⊢
  have hchain := hchain (hl.trans ((Parsed.fits _).trans (Parsed.fits _)))
  have hlists := attrLists_moved hchain.tied hchain.trail (hl.trans (Parsed.fits _))
  have hstop := optional_moved rfl hlists.tied hlists.trail hl
  refine node_moved hstop.trail hstop.tied rfl (fun i => ?_) ?_
  · rw [hsource, hchain.value, hlists.value, hstop.value]
    rfl
  · rw [List.map_append, List.map_append, ← hchain.complaints, ← hlists.complaints, ← hstop.complaints]

mutual

theorem statements_moved {m' : Trail} (ts us : List Token) (m : Trail) (h : Tied φ rest rest' ts us)
    (hm : m' = φ.trail m) (hl : rest.length ≤ (statements eof ts m).rest.length) :
    (statements eof ts m).Moved φ rest rest' (Prod.map φ.list id) (statements (φ.span eof) us m') := by
  cases ts with
  | nil =>
    obtain rfl := h.nil
    rw [statements, statements]
    exact skip_moved h rfl hm
  | cons t ts =>
    obtain ⟨us, rfl, hk, hn⟩ := h.cons
    rw [statements] at hl ⊢
    rw [statements]
    simp only [hk.eq_iff (k := .closeBrace) rfl, hk.eq_iff (k := .semicolon) rfl,
      hk.test (p := startsStatement) rfl]
    split
    · exact skip_moved h rfl hm
    rename_i hb
    rw [if_neg hb] at hl
    split
    · rename_i hs
      rw [if_pos hs] at hl
      have hr := statements_moved ts us (m.pass t) (hn (hl.trans (statements eof ts (m.pass t)).fits))
        (Relocation.pass_eq hm t) hl
      exact ⟨hr.value, hr.trail, hr.complaints, hr.tied⟩
    rename_i hs
    rw [if_neg hs] at hl
    split
    · rename_i ht
      rw [if_pos ht] at hl
      have hfits := (statement eof t ts m).fits
      have hfits' := (statements eof (statement eof t ts m).rest (statement eof t ts m).trail).fits
      have hst := statement_moved t ts us m (hn (hl.trans (hfits'.trans hfits))) hm hk ht (hl.trans hfits')
      have hr := statements_moved (statement eof t ts m).rest _ (statement eof t ts m).trail hst.tied hst.trail hl
      refine ⟨?_, hr.trail, ?_, hr.tied⟩
      · simp only [hst.value, hr.value]
        rfl
      · rw [List.map_append, ← hst.complaints, ← hr.complaints]
    · rename_i ht
      rw [if_neg ht] at hl
      have hr := statements_moved ts us (m.pass t) (hn (hl.trans (statements eof ts (m.pass t)).fits))
        (Relocation.pass_eq hm t) hl
      refine ⟨?_, hr.trail, congrArg₂ List.cons (h.expected _) hr.complaints, hr.tied⟩
      simp only [hr.value]
      rfl
  termination_by 8 * ts.length + 4
  decreasing_by all_goals subst_vars; simp only [List.length_cons]; omega

theorem statement_moved {m' : Trail} (t : Token) (ts us : List Token) (m : Trail) (h : Tied φ rest rest' ts us)
    (hm : m' = φ.trail m) (hk : φ.Keeps t) (ht : startsStatement t.kind)
    (hl : rest.length ≤ (statement eof t ts m).rest.length) :
    (statement eof t ts m).Moved φ rest rest' φ.tree (statement (φ.span eof) (φ.token t) us m') := by
  rw [statement.eq_def] at hl ⊢
  rw [statement.eq_def]
  simp only [hk.test (p := isSubject) rfl, hk.test (p := opensBody) rfl]
  split
  · rename_i hs
    rw [if_pos hs] at hl
    exact attrStatement_moved h hm hl
  rename_i hs
  rw [if_neg hs] at hl
  split
  · rename_i hb
    rw [if_pos hb] at hl
    have hfits := (subgraph eof t ts m).fits
    simp only at hl
    have hbody := subgraph_moved t ts us m h hm hk (hl.trans (Parsed.fits _))
    simp only [hbody.tied.nextIs (p := Kind.isEdgeOp) rfl] at hl ⊢
    split
    · rename_i hop
      rw [if_pos hop] at hl
      have hr := edgeStatement_moved (t := t) hbody.value
        (chain_moved (subgraph eof t ts m).rest _ (subgraph eof t ts m).trail hbody.tied hbody.trail) hl
      refine ⟨hr.value, hr.trail, ?_, hr.tied⟩
      rw [List.map_append, ← hbody.complaints, ← hr.complaints]
    · rename_i hop
      rw [if_neg hop] at hl
      have hr := subgraphStatement_moved (t := t) hbody.tied hbody.trail hbody.value hl
      refine ⟨hr.value, hr.trail, ?_, hr.tied⟩
      rw [List.map_append, ← hbody.complaints, ← hr.complaints]
  rename_i hb
  rw [if_neg hb] at hl
  have hid : t.kind.isIdentifier := by simpa [startsStatement, hs, hb] using ht
  cases ts with
  | nil =>
    obtain rfl := h.nil
    exact namedStatement_moved t [] [] m h hm hk hid hl
  | cons e ts =>
    obtain ⟨us, rfl, hke, hn⟩ := h.cons
    simp only [hke.eq_iff (k := .equals) rfl] at hl ⊢
    split
    · rename_i he
      rw [if_pos he] at hl
      have hr := equation_moved (hn (hl.trans (equation eof t e ts m).fits)) hm hk hid hl
      exact ⟨hr.value, hr.trail, hr.complaints, hr.tied⟩
    · rename_i he
      rw [if_neg he] at hl
      exact namedStatement_moved t (e :: ts) _ m h hm hk hid hl
  termination_by 8 * ts.length + 11
  decreasing_by all_goals subst_vars; omega

theorem namedStatement_moved {m' : Trail} (t : Token) (ts us : List Token) (m : Trail)
    (h : Tied φ rest rest' ts us) (hm : m' = φ.trail m) (hk : φ.Keeps t) (ht : t.kind.isIdentifier)
    (hl : rest.length ≤ (namedStatement eof t ts m).rest.length) :
    (namedStatement eof t ts m).Moved φ rest rest' φ.tree (namedStatement (φ.span eof) (φ.token t) us m') := by
  rw [namedStatement] at hl ⊢
  rw [namedStatement]
  have hfits := (nodeId eof t ts m).fits
  simp only at hl
  have hnode := nodeId_moved h hm hk ht (hl.trans (Parsed.fits _))
  simp only [hnode.tied.nextIs (p := Kind.isEdgeOp) rfl] at hl ⊢
  split
  · rename_i hop
    rw [if_pos hop] at hl
    have hr := edgeStatement_moved (t := t) hnode.value
      (chain_moved (nodeId eof t ts m).rest _ (nodeId eof t ts m).trail hnode.tied hnode.trail) hl
    refine ⟨hr.value, hr.trail, ?_, hr.tied⟩
    rw [List.map_append, ← hnode.complaints, ← hr.complaints]
  · rename_i hop
    rw [if_neg hop] at hl
    have hr := nodeStatement_moved (t := t) hnode.tied hnode.trail hnode.value hl
    refine ⟨hr.value, hr.trail, ?_, hr.tied⟩
    rw [List.map_append, ← hnode.complaints, ← hr.complaints]
  termination_by 8 * ts.length + 10
  decreasing_by omega

theorem chain_moved {m' : Trail} (ts us : List Token) (m : Trail) (h : Tied φ rest rest' ts us)
    (hm : m' = φ.trail m) (hl : rest.length ≤ (chain eof ts m).rest.length) :
    (chain eof ts m).Moved φ rest rest' φ.list (chain (φ.span eof) us m') := by
  cases ts with
  | nil =>
    obtain rfl := h.nil
    rw [chain, chain]
    exact skip_moved h rfl hm
  | cons t ts =>
    obtain ⟨us, rfl, hk, hn⟩ := h.cons
    rw [chain] at hl ⊢
    rw [chain]
    simp only [hk.test (p := Kind.isEdgeOp) rfl]
    split
    · rename_i hop
      rw [if_pos hop] at hl
      have hfits := (target eof ts (m.pass t).grown).fits
      have hfits' :=
        (chain eof (target eof ts (m.pass t).grown).rest (target eof ts (m.pass t).grown).trail.grown).fits
      have htip := target_moved ts us (m.pass t).grown (hn (hl.trans (hfits'.trans hfits)))
        (Relocation.grown_eq (Relocation.pass_eq hm t)) (hl.trans hfits')
      have hr := chain_moved (target eof ts (m.pass t).grown).rest _ (target eof ts (m.pass t).grown).trail.grown
        htip.tied (Relocation.grown_eq htip.trail) hl
      refine ⟨?_, hr.trail, ?_, hr.tied⟩
      · refine congrArg₂ List.cons (Relocation.node_eq t htip.trail ?_ fun i => ?_) hr.value
        · rw [htip.value]
          simp
        · rw [Relocation.leaf_eq hm, htip.value]
          rfl
      · rw [List.map_append, ← htip.complaints, ← hr.complaints]
    · exact skip_moved h rfl hm
  termination_by 8 * ts.length + 8
  decreasing_by all_goals subst_vars; simp only [List.length_cons]; omega

theorem target_moved {m' : Trail} (ts us : List Token) (m : Trail) (h : Tied φ rest rest' ts us)
    (hm : m' = φ.trail m) (hl : rest.length ≤ (target eof ts m).rest.length) :
    (target eof ts m).Moved φ rest rest' φ.option (target (φ.span eof) us m') := by
  cases ts with
  | nil =>
    obtain rfl := h.nil
    rw [target, target]
    exact miss_moved h rfl hm
  | cons t ts =>
    obtain ⟨us, rfl, hk, hn⟩ := h.cons
    rw [target] at hl ⊢
    rw [target]
    simp only [hk.test (p := opensBody) rfl, hk.test (p := Kind.isIdentifier) rfl]
    split
    · rename_i hb
      rw [if_pos hb] at hl
      have hr := subgraph_moved t ts us m (hn (hl.trans (subgraph eof t ts m).fits)) hm hk hl
      exact ⟨congrArg some hr.value, hr.trail, hr.complaints, hr.tied⟩
    rename_i hb
    rw [if_neg hb] at hl
    split
    · rename_i ht
      rw [if_pos ht] at hl
      have hr := nodeId_moved (hn (hl.trans (nodeId eof t ts m).fits)) hm hk ht hl
      exact ⟨congrArg some hr.value, hr.trail, hr.complaints, hr.tied⟩
    · exact miss_moved h rfl hm
  termination_by 8 * ts.length + 3
  decreasing_by all_goals subst_vars; simp only [List.length_cons]; omega

theorem subgraph_moved {m' : Trail} (t : Token) (ts us : List Token) (m : Trail) (h : Tied φ rest rest' ts us)
    (hm : m' = φ.trail m) (hk : φ.Keeps t) (hl : rest.length ≤ (subgraph eof t ts m).rest.length) :
    (subgraph eof t ts m).Moved φ rest rest' φ.tree (subgraph (φ.span eof) (φ.token t) us m') := by
  rw [subgraph] at hl ⊢
  rw [subgraph]
  simp only [hk.eq_iff (k := .subgraphKeyword) rfl]
  split
  · rename_i hs
    rw [if_pos hs] at hl
    have hfits := (optionalIdentifier eof ts (m.pass t).grown).fits
    have hname := optionalIdentifier_moved eof h (Relocation.grown_eq (Relocation.pass_eq hm t))
      (hl.trans (bracedBody eof _ _).fits)
    have hbody := bracedBody_moved (optionalIdentifier eof ts (m.pass t).grown).rest _
      (optionalIdentifier eof ts (m.pass t).grown).trail hname.tied hname.trail hl
    refine node_moved hbody.trail hbody.tied ?_ (fun i => ?_) ?_
    · rw [hbody.value]
      rfl
    · rw [Relocation.leaf_eq hm, hname.value, hbody.value]
      rfl
    · rw [List.map_append, ← hname.complaints, ← hbody.complaints]
  · rename_i hs
    rw [if_neg hs] at hl
    have hbody := openedBody_moved ts us (m.pass t) h (Relocation.pass_eq hm t) hl
    refine node_moved hbody.trail hbody.tied ?_ (fun i => ?_) hbody.complaints
    · rw [hbody.value]
      rfl
    · rw [hbody.value]
      rfl
  termination_by 8 * ts.length + 10
  decreasing_by all_goals omega

theorem bracedBody_moved {m' : Trail} (ts us : List Token) (m : Trail) (h : Tied φ rest rest' ts us)
    (hm : m' = φ.trail m) (hl : rest.length ≤ (bracedBody eof ts m).rest.length) :
    (bracedBody eof ts m).Moved φ rest rest' (Prod.map φ.list id) (bracedBody (φ.span eof) us m') := by
  cases ts with
  | nil =>
    obtain rfl := h.nil
    rw [bracedBody, bracedBody]
    exact miss_moved h rfl hm
  | cons t ts =>
    obtain ⟨us, rfl, hk, hn⟩ := h.cons
    rw [bracedBody] at hl ⊢
    rw [bracedBody]
    simp only [hk.eq_iff (k := .openBrace) rfl]
    split
    · rename_i hb
      rw [if_pos hb] at hl
      have hr := openedBody_moved ts us (m.pass t) (hn (hl.trans (openedBody eof ts (m.pass t)).fits))
        (Relocation.pass_eq hm t) hl
      exact ⟨hr.value, hr.trail, hr.complaints, hr.tied⟩
    · exact miss_moved h rfl hm
  termination_by 8 * ts.length + 6
  decreasing_by all_goals subst_vars; simp only [List.length_cons]; omega

theorem openedBody_moved {m' : Trail} (ts us : List Token) (m : Trail) (h : Tied φ rest rest' ts us)
    (hm : m' = φ.trail m) (hl : rest.length ≤ (openedBody eof ts m).rest.length) :
    (openedBody eof ts m).Moved φ rest rest' (Prod.map φ.list id) (openedBody (φ.span eof) us m') := by
  by_cases hc : nextIs (· = .closeBrace) (statements eof ts m).rest = true
  · obtain ⟨c, behind, hrest, hc⟩ : ∃ c behind, (statements eof ts m).rest = c :: behind ∧
        c.kind = .closeBrace := by
      cases hrest : (statements eof ts m).rest with
      | nil => simp [hrest, nextIs] at hc
      | cons c behind => exact ⟨c, behind, rfl, by simpa [hrest, nextIs] using hc⟩
    obtain ⟨hvalue, hbehind, htrail, hcs⟩ := openedBody_of_closeBrace hrest hc
    rw [hbehind] at hl
    have hr := statements_moved ts us m h hm (by rw [hrest]; exact Nat.le_succ_of_le hl)
    obtain ⟨us₁, hus, hk, hn⟩ := (hrest ▸ hr.tied).cons
    obtain ⟨hvalue', hbehind', htrail', hcs'⟩ := openedBody_of_closeBrace hus ((hk.eq_iff rfl).mpr hc)
    exact ⟨by rw [hvalue, hvalue', hr.value], by rw [htrail, htrail']; exact Relocation.pass_eq hr.trail c,
      by rw [hcs, hcs', hr.complaints], by rw [hbehind, hbehind']; exact hn hl⟩
  · obtain ⟨hvalue, hrest, htrail, hcs⟩ := openedBody_of_unclosed (Bool.eq_false_iff.mpr hc)
    rw [hrest] at hl
    have hr := statements_moved ts us m h hm hl
    obtain ⟨hvalue', hrest', htrail', hcs'⟩ := openedBody_of_unclosed
      (Bool.eq_false_iff.mpr (by rwa [hr.tied.nextIs (p := (· = .closeBrace)) rfl]))
    refine ⟨?_, by rw [htrail, htrail', hr.trail], ?_, by rw [hrest, hrest']; exact hr.tied⟩
    · rw [hvalue, hvalue', hr.value]
      rfl
    · rw [hcs, hcs', List.map_append, ← hr.complaints, List.map_singleton, ← hr.tied.expected]
  termination_by 8 * ts.length + 5
  decreasing_by all_goals omega

end

lemma tied_map (h : ∀ t ∈ ts, φ.Keeps t) : Tied φ [] [] ts (ts.map φ.token) :=
  ⟨rfl, by simp, ts, by simp, by simp, h⟩

lemma trailing_moved (limit : Nat) (h : Tied φ [] [] ts us) :
    trailing (φ.place limit) us = (trailing limit ts).map φ.diagnostic := by
  cases ts with
  | nil => obtain rfl := h.nil; rfl
  | cons t ts => obtain ⟨us, rfl, -⟩ := h.cons; rfl

lemma graphFrom_moved {k : Token} {strict strict' : Option Tree} {m' : Trail} (limit : Nat)
    (h : ∀ t ∈ ts, φ.Keeps t) (hm : m' = φ.trail m) (hs : strict' = φ.option strict) :
    graphFrom (φ.span eof) (φ.place limit) (φ.token t).span.start strict' (φ.token k) (ts.map φ.token) m' =
      ⟨(graphFrom eof limit t.span.start strict k ts m).graph.map φ.tree, none,
        (graphFrom eof limit t.span.start strict k ts m).diagnostics.map φ.diagnostic⟩ := by
  have hname := optionalIdentifier_moved eof (tied_map h) (Relocation.grown_eq (Relocation.pass_eq hm k))
    (Nat.zero_le _)
  have hbody := bracedBody_moved _ _ _ hname.tied hname.trail (Nat.zero_le (bracedBody eof _ _).rest.length)
  simp only [graphFrom, Option.map_some, Parse.mk.injEq, Option.some.injEq, true_and]
  constructor
  · refine Relocation.node_eq t hbody.trail ?_ fun i => ?_
    · rw [hbody.value]
      rfl
    · rw [hs, Relocation.leaf_eq hm, hname.value, hbody.value]
      rfl
  · rw [List.map_append, List.map_append, ← hname.complaints, ← hbody.complaints, trailing_moved limit hbody.tied]

inductive Header : List Token → Token → Prop
  | plain {k} : isGraphKeyword k.kind → Header [] k
  | strict {s k} : s.kind = .strictKeyword → isGraphKeyword k.kind → Header [s] k

lemma not_strict_of_isGraphKeyword {k : Kind} (h : isGraphKeyword k) : k ≠ .strictKeyword := by
  rintro rfl
  simp [isGraphKeyword] at h

lemma source_keyword {k : Token} (limit : Nat) (ts : List Token) (hk : isGraphKeyword k.kind) :
    source eof limit (k :: ts) = graphFrom eof limit k.span.start none k ts .start := by
  simp [source, optional, skip, not_strict_of_isGraphKeyword hk, hk]

lemma source_strict {s k : Token} (limit : Nat) (ts : List Token) (hs : s.kind = .strictKeyword)
    (hk : isGraphKeyword k.kind) :
    source eof limit (s :: k :: ts) =
      graphFrom eof limit s.span.start (some (Trail.start.leaf s)) k ts (Trail.start.pass s).grown := by
  simp [source, optional, hs, hk]

lemma exists_header {limit : Nat} {graph : Tree} (h : (source eof limit ts).graph = some graph) :
    ∃ lead k rest, ts = lead ++ k :: rest ∧ Header lead k ∧ ∃ i strict j name statements,
      graph = .graph i strict (.token j k.kind) name statements ∧ j.span = k.span := by
  cases ts with
  | nil => simp [source] at h
  | cons t ts =>
    by_cases ht : t.kind = .strictKeyword
    · cases ts with
      | nil => simp [source, optional, ht] at h
      | cons k rest =>
        have hk : isGraphKeyword k.kind := by
          by_contra hk
          simp [source, optional, ht, hk] at h
        rw [source_strict limit rest ht hk] at h
        exact ⟨[t], k, rest, rfl, .strict ht hk, _, _, _, _, _, (Option.some.inj h).symm, rfl⟩
    · have hk : isGraphKeyword t.kind := by
        by_contra hk
        simp [source, optional, ht, hk, skip] at h
      rw [source_keyword limit ts hk] at h
      exact ⟨[], t, ts, rfl, .plain hk, _, _, _, _, _, (Option.some.inj h).symm, rfl⟩

theorem source_moved {lead : List Token} {k : Token} (eof : Span) (limit : Nat) (hh : Header lead k)
    (hlead : ∀ t ∈ lead, φ.Keeps t) (hk : isGraphKeyword (φ.token k).kind) (hts : ∀ t ∈ ts, φ.Keeps t)
    (h0 : φ.place 0 = 0) :
    source (φ.span eof) (φ.place limit) ((lead ++ k :: ts).map φ.token) =
      ⟨(source eof limit (lead ++ k :: ts)).graph.map φ.tree, none,
        (source eof limit (lead ++ k :: ts)).diagnostics.map φ.diagnostic⟩ := by
  have hstart : Trail.start = φ.trail .start := by simp [Relocation.trail, h0, Trail.start]
  cases hh with
  | plain hk₀ =>
    rw [List.nil_append, List.map_cons, source_keyword limit ts hk₀, source_keyword _ _ hk]
    exact graphFrom_moved limit hts hstart rfl
  | @strict s _ hs hk₀ =>
    have hs' := ((hlead s (by simp)).eq_iff rfl).mpr hs
    rw [List.singleton_append, List.map_cons, List.map_cons, source_strict limit ts hs hk₀,
      source_strict _ _ hs' hk]
    exact graphFrom_moved limit hts (Relocation.grown_eq (Relocation.pass_eq hstart s))
      (congrArg some (Relocation.leaf_eq hstart s))

end Parse

end DotMend
