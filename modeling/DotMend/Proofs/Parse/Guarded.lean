import DotMend.Proofs.Parse.Cursor

/-! Parsing by indices into a list of tokens. Its loops count their rounds and its statements their depth, so that
one that does not end fails as well. No tokens that a text can have make it fail, and it yields what parsing them
from the front yields. -/

namespace DotMend.Parse.Guarded

section Reader

variable (tokens : List Token)

def joined : Nat → Joined → Reader Joined
  | 0, _ => fun _ => none
  | rounds + 1, j => do
    if ← sees tokens (· = .plus) then
      let _ ← bump tokens
      if ← sees tokens (· = .quoted) then
        let part ← bump tokens
        joined rounds ⟨j.text ++ part.value, j.span.cover part.span, j.faulty || part.faulty⟩
      else
        complain tokens .quotedPart
        let stop ← lastEnd tokens
        let span ← forward j.span.start stop
        return ⟨j.text, span, true⟩
    else return j

def whole (t : Token) : Reader Joined :=
  if t.kind = .quoted then joined tokens tokens.length ⟨t.value, t.span, t.faulty⟩
  else return ⟨t.value, t.span, t.faulty⟩

def identifier : Reader Tree := do
  let t ← bump tokens
  let j ← whole tokens t
  alloc j.span j.faulty (.identifier · t.kind j.text)

def requireIdentifier (what : Expectation) : Reader (Option Tree) := do
  if ← sees tokens Kind.isIdentifier then return some (← identifier tokens)
  else
    complain tokens what
    return none

def optionalIdentifier : Reader (Option Tree) := do
  if ← sees tokens Kind.isIdentifier then return some (← identifier tokens) else return none

def compass : Option Tree → Reader (Option Tree × Bool)
  | none => return (none, false)
  | some _ => do
    if ← sees tokens (· = .colon) then
      let _ ← bump tokens
      let point ← requireIdentifier tokens .compass
      return (point, point.isNone)
    else return (none, false)

def port : Reader Tree := do
  let start ← startAt tokens
  let _ ← bump tokens
  let name ← requireIdentifier tokens .portName
  let point ← compass tokens name
  node tokens start (name.isNone || point.2) (.port · name point.1)

def optionalPort : Reader (Option Tree) := do
  if ← sees tokens (· = .colon) then return some (← port tokens) else return none

def nodeId : Reader Tree := do
  let start ← startAt tokens
  let name ← identifier tokens
  let place ← optionalPort tokens
  node tokens start false (.nodeId · name place)

def attrValue : Reader (Option Tree) := do
  if ← sees tokens (· = .equals) then
    let _ ← bump tokens
    requireIdentifier tokens .attrValue
  else
    complain tokens .equals
    return none

def attr : Reader Tree := do
  let start ← startAt tokens
  let left ← identifier tokens
  let right ← attrValue tokens
  let stop ← optional tokens endsAttr
  node tokens start right.isNone (.attr · left right stop)

def attrs : Nat → Reader (List Tree × Bool)
  | 0 => fun _ => none
  | rounds + 1 => do
    let t ← current tokens
    if t.kind = .closeBracket then
      let _ ← bump tokens
      return ([], false)
    else if t.kind = .closeBrace ∨ t.kind = .endOfFile then
      complain tokens .closeBracket
      return ([], true)
    else if t.kind.isIdentifier then
      let a ← attr tokens
      let r ← attrs rounds
      return (a :: r.1, r.2)
    else
      complain tokens .attrName
      let _ ← bump tokens
      let r ← attrs rounds
      return (r.1, true)

def attrList : Reader Tree := do
  let start ← startAt tokens
  let _ ← bump tokens
  let r ← attrs tokens tokens.length
  node tokens start r.2 (.attrList · r.1)

def attrListsFrom : Nat → Reader (List Tree)
  | 0 => fun _ => none
  | rounds + 1 => do
    if ← sees tokens (· = .openBracket) then
      let a ← attrList tokens
      let r ← attrListsFrom rounds
      return a :: r
    else return []

def attrLists : Reader (List Tree) := attrListsFrom tokens tokens.length

def terminator : Reader (Option Tree) := optional tokens (· = .semicolon)

def complainUnless (fine : Bool) (what : Expectation) : Reader Unit :=
  if fine then return () else complain tokens what

def attrStatement (start : Nat) : Reader Tree := do
  let subject ← leaf tokens
  let listed ← sees tokens (· = .openBracket)
  complainUnless tokens listed .openBracket
  let lists ← attrLists tokens
  let stop ← terminator tokens
  node tokens start (!listed) (.attrStatement · subject lists stop)

def equation (start : Nat) : Reader Tree := do
  let left ← identifier tokens
  let _ ← bump tokens
  let right ← requireIdentifier tokens .identifier
  let stop ← terminator tokens
  node tokens start right.isNone (.equation · left right stop)

def nodeStatement (start : Nat) (name : Tree) : Reader Tree := do
  let lists ← attrLists tokens
  let stop ← terminator tokens
  node tokens start false (.nodeStatement · name lists stop)

def subgraphStatement (start : Nat) (body : Tree) : Reader Tree := do
  let stop ← terminator tokens
  node tokens start false (.subgraphStatement · body stop)

def subgraphName : Option Tree → Reader (Option Tree)
  | none => return none
  | some _ => optionalIdentifier tokens

mutual

def statements : Nat → Reader (List Tree × Bool)
  | 0 => fun _ => none
  | depth + 1 => do
    let t ← current tokens
    if t.kind = .closeBrace ∨ t.kind = .endOfFile then return ([], false)
    else if t.kind = .semicolon then
      let _ ← bump tokens
      statements depth
    else if startsStatement t.kind then
      let s ← statement depth
      let r ← statements depth
      return (s :: r.1, r.2)
    else
      complain tokens .statement
      let _ ← bump tokens
      let r ← statements depth
      return (r.1, true)

def statement : Nat → Reader Tree
  | 0 => fun _ => none
  | depth + 1 => do
    let t ← current tokens
    if isSubject t.kind then attrStatement tokens t.span.start
    else if opensBody t.kind then
      let body ← subgraph depth
      if ← sees tokens Kind.isEdgeOp then edgeStatement depth t.span.start body
      else subgraphStatement tokens t.span.start body
    else if (← secondKind tokens) = .equals then equation tokens t.span.start
    else
      let name ← nodeId tokens
      if ← sees tokens Kind.isEdgeOp then edgeStatement depth t.span.start name
      else nodeStatement tokens t.span.start name

def edgeStatement : Nat → Nat → Tree → Reader Tree
  | 0, _, _ => fun _ => none
  | depth + 1, start, source => do
    let rhs ← chain depth
    let lists ← attrLists tokens
    let stop ← terminator tokens
    node tokens start false (.edgeStatement · source rhs lists stop)

def chain : Nat → Reader (List Tree)
  | 0 => fun _ => none
  | depth + 1 => do
    if ← sees tokens Kind.isEdgeOp then
      let e ← edgeRhs depth
      let r ← chain depth
      return e :: r
    else return []

def edgeRhs : Nat → Reader Tree
  | 0 => fun _ => none
  | depth + 1 => do
    let start ← startAt tokens
    let operation ← leaf tokens
    let tip ← target depth
    node tokens start tip.isNone (.edgeRhs · operation tip)

def target : Nat → Reader (Option Tree)
  | 0 => fun _ => none
  | depth + 1 => do
    if ← sees tokens opensBody then return some (← subgraph depth)
    else if ← sees tokens Kind.isIdentifier then return some (← nodeId tokens)
    else
      complain tokens .endpoint
      return none

def subgraph : Nat → Reader Tree
  | 0 => fun _ => none
  | depth + 1 => do
    let start ← startAt tokens
    let keyword ← optional tokens (· = .subgraphKeyword)
    let name ← subgraphName tokens keyword
    let body ← bracedBody depth
    node tokens start body.2 (.subgraph · keyword name body.1)

def bracedBody : Nat → Reader (List Tree × Bool)
  | 0 => fun _ => none
  | depth + 1 => do
    if ← sees tokens (· = .openBrace) then
      let _ ← bump tokens
      openedBody depth
    else
      complain tokens .openBrace
      return ([], true)

def openedBody : Nat → Reader (List Tree × Bool)
  | 0 => fun _ => none
  | depth + 1 => do
    let r ← statements depth
    if ← sees tokens (· = .closeBrace) then
      let _ ← bump tokens
      return r
    else
      complain tokens .closeBrace
      return (r.1, true)

end

def trailing : Reader Unit := do
  let t ← current tokens
  if t.kind = .endOfFile then return ()
  else
    let last ← lastToken tokens
    let span ← forward t.span.start last.span.stop
    report (.error span .trailingData "Content after the end of the graph")

def graphFrom (start : Nat) (strict : Option Tree) : Reader (Option Tree × Option Tree) := do
  let keyword ← leaf tokens
  let name ← optionalIdentifier tokens
  -- deeper than the readers of a body call one another on these tokens
  let body ← bracedBody tokens (8 * tokens.length)
  let graph ← node tokens start body.2 (.graph · strict keyword name body.1)
  trailing tokens
  return (some graph, none)

def source : Reader (Option Tree × Option Tree) := do
  let t ← current tokens
  if t.kind = .endOfFile then return (none, none)
  else
    let strict ← optional tokens (· = .strictKeyword)
    if ← sees tokens isGraphKeyword then graphFrom tokens t.span.start strict
    else
      complain tokens .graphKeyword
      return (none, strict)

end Reader

def ofTokens (tokens : List Token) : Option (Parse × Nat) :=
  (source (closed tokens) ⟨0, 0, []⟩).map fun (r, s) => (⟨r.1, r.2, s.complaints⟩, s.built)

namespace Input

variable {i : Input} {ts : List Token} {t : Token} {m : Trail} {cs : List Diagnostic}

lemma joined_of_unquoted {j : Joined} {p : Token} (rounds : Nat) (h : i.Stands (p :: ts) m)
    (hj : j.span.start ≤ m.lastEnd) (hp : p.kind = .plus) (hq : nextIs (· = .quoted) ts = false) :
    joined i.tokens (rounds + 1) j (i.state (p :: ts) m cs) =
      some (⟨j.text, ⟨j.span.start, p.span.stop⟩, true⟩,
        i.state ts (m.pass p) (cs ++ [expected i.eof.span .quotedPart ts])) := by
  have hspan := h.ordered.nonempty p (by simp)
  have hle : j.span.start ≤ (m.pass p).lastEnd := Nat.le_trans hj (Nat.le_trans h.le_start hspan.le)
  rw [joined, run_bind (sees_eq h rfl), nextIs, if_pos (by simpa using hp), run_bind (bump_eq h),
    run_bind (sees_eq h.pass rfl), hq, if_neg (by simp), run_bind (complain_eq h.pass),
    run_bind (lastEnd_eq h.pass), run_bind (forward_eq hle)]
  rfl

lemma joined_agrees {j : Joined} {rounds : Nat} (h : i.Stands ts m) (hj : j.span.start ≤ m.lastEnd)
    (hr : ts.length < rounds) : i.Agrees (joined i.tokens rounds j) ts m (Parse.joined i.eof.span j ts m) := by
  induction rounds generalizing j ts m with
  | zero => exact absurd hr (Nat.not_lt_zero _)
  | succ rounds ih =>
    unfold Parse.joined
    cases ts with
    | nil =>
      rw [joined]
      exact .peek_nil h rfl (skip_agrees j h)
    | cons p ts =>
      simp only
      split
      · rename_i hp
        cases ts with
        | nil => exact ⟨fun _ => joined_of_unquoted rounds h hj hp rfl, h.pass⟩
        | cons q ts =>
          simp only
          split
          · rename_i hq
            have hspan := h.ordered.nonempty p (by simp)
            have hle : (j.span.cover q.span).start ≤ q.span.stop :=
              calc (j.span.cover q.span).start ≤ j.span.start := Nat.min_le_left _ _
                _ ≤ m.lastEnd := hj
                _ ≤ p.span.start := h.le_start
                _ ≤ p.span.stop := hspan.le
                _ ≤ q.span.start := h.pass.le_start
                _ ≤ q.span.stop := (h.ordered.nonempty q (by simp)).le
            have hrest := ih (j := ⟨j.text ++ q.value, j.span.cover q.span, j.faulty || q.faulty⟩) h.pass.pass hle
              (by rw [List.length_cons, List.length_cons] at hr; omega)
            refine ⟨fun cs => ?_, hrest.stands⟩
            rw [joined, run_bind (sees_eq h rfl), nextIs, if_pos (by simpa using hp), run_bind (bump_eq h),
              run_bind (sees_eq h.pass rfl), nextIs, if_pos (by simpa using hq), run_bind (bump_eq h.pass)]
            exact hrest.run cs
          · rename_i hq
            exact ⟨fun _ => joined_of_unquoted rounds h hj hp (by simpa [nextIs] using hq), h.pass⟩
      · rename_i hp
        refine ⟨fun cs => ?_, h⟩
        rw [joined, run_bind (sees_eq h rfl), nextIs, if_neg (by simpa using hp)]
        exact (skip_agrees j h).run cs

lemma whole_agrees (h : i.Stands (t :: ts) m) :
    i.Agrees (whole i.tokens t) ts (m.pass t)
      (if t.kind = .quoted then Parse.joined i.eof.span ⟨t.value, t.span, t.faulty⟩ ts (m.pass t)
        else skip ⟨t.value, t.span, t.faulty⟩ ts (m.pass t)) := by
  have hspan := h.ordered.nonempty t (by simp)
  rw [whole]
  split
  · exact joined_agrees h.pass hspan.le h.pass.length_lt
  · exact skip_agrees _ h.pass

lemma built_joined {eof : Span} {j : Joined} : (Parse.joined eof j ts m).trail.built = m.built := by
  fun_induction Parse.joined eof j ts m <;> first | rfl | assumption

lemma identifier_agrees (h : i.Stands (t :: ts) m) :
    i.Agrees (identifier i.tokens) (t :: ts) m (Parse.identifier i.eof.span t ts m) := by
  have hj := whole_agrees h
  refine ⟨fun cs => ?_, hj.stands⟩
  rw [identifier, run_bind (bump_eq h), run_bind (hj.run cs)]
  have hbuilt : (if t.kind = .quoted then Parse.joined i.eof.span ⟨t.value, t.span, t.faulty⟩ ts (m.pass t)
      else skip ⟨t.value, t.span, t.faulty⟩ ts (m.pass t)).trail.built = m.built := by
    split
    · exact built_joined
    · rfl
  apply alloc_eq
  · simp [Tree.children_eq, Parse.identifier, hbuilt]
  · simp [Tree.children_eq, Parse.identifier]

lemma requireIdentifier_agrees (what : Expectation) (h : i.Stands ts m) :
    i.Agrees (requireIdentifier i.tokens what) ts m (Parse.requireIdentifier i.eof.span what ts m) := by
  cases ts with
  | nil => exact .peek_nil h rfl (miss_agrees none h)
  | cons t ts =>
    exact .peek_cons h rfl Iff.rfl (fun _ => (identifier_agrees h).map some _) fun _ => miss_agrees none h

lemma optionalIdentifier_agrees (h : i.Stands ts m) :
    i.Agrees (optionalIdentifier i.tokens) ts m (Parse.optionalIdentifier i.eof.span ts m) := by
  cases ts with
  | nil => exact .peek_nil h rfl (skip_agrees none h)
  | cons t ts =>
    rw [Parse.optionalIdentifier, Parse.requireIdentifier]
    refine .peek_cons h rfl Iff.rfl (fun ht => ?_) fun _ => skip_agrees none h
    rw [if_pos (show t.kind.isIdentifier = true from ht)]
    exact (identifier_agrees h).map some _

lemma compass_agrees (name : Option Tree) (h : i.Stands ts m) :
    i.Agrees (compass i.tokens name) ts m
      (if name.isSome then Parse.compass i.eof.span ts m else skip (none, false) ts m) := by
  cases name with
  | none => exact skip_agrees (none, false) h
  | some name =>
    rw [Option.isSome_some, if_pos rfl]
    cases ts with
    | nil => exact .peek_nil h rfl (skip_agrees (none, false) h)
    | cons t ts =>
      have hr := (requireIdentifier_agrees .compass h.pass).map (fun p => (p, p.isNone)) (Parsed.fits _)
      have hb := Agrees.bump (f := fun _ => _) h hr (Nat.le_succ_of_le (Parsed.fits _))
      rw [Parse.compass]
      exact .peek_cons h rfl decide_eq_true_iff (fun _ => hb) fun _ => skip_agrees (none, false) h

lemma port_agrees (h : i.Stands (t :: ts) m) (ht : t.kind = .colon) :
    i.Agrees (port i.tokens) (t :: ts) m (Parse.port i.eof.span t ts m) := by
  have hname := requireIdentifier_agrees .portName h.pass
  have hpoint := compass_agrees (Parse.requireIdentifier i.eof.span .portName ts (m.pass t)).value hname.stands
  refine ⟨fun cs => ?_, hpoint.stands⟩
  rw [port, run_bind (startAt_eq h), run_bind (bump_eq h), run_bind (hname.run cs), run_bind (hpoint.run _),
    node_eq hpoint.stands rfl (fun _ => rfl) (port_traced i.eof.span m h.ordered ht).steps h.ordered]
  simp only [Parse.port, List.append_assoc]

lemma optionalPort_agrees (h : i.Stands ts m) :
    i.Agrees (optionalPort i.tokens) ts m (Parse.optionalPort i.eof.span ts m) := by
  cases ts with
  | nil => exact .peek_nil h rfl (skip_agrees none h)
  | cons t ts =>
    exact .peek_cons h rfl decide_eq_true_iff (fun ht => (port_agrees h ht).map some _) fun _ => skip_agrees none h

lemma nodeId_agrees (h : i.Stands (t :: ts) m) (ht : t.kind.isIdentifier) :
    i.Agrees (nodeId i.tokens) (t :: ts) m (Parse.nodeId i.eof.span t ts m) := by
  have hname := identifier_agrees h
  have hplace := optionalPort_agrees hname.stands
  refine ⟨fun cs => ?_, hplace.stands⟩
  rw [nodeId, run_bind (startAt_eq h), run_bind (hname.run cs), run_bind (hplace.run _),
    node_eq hplace.stands rfl (fun _ => rfl) (nodeId_traced i.eof.span m h.ordered ht).steps h.ordered]
  simp only [Parse.nodeId, List.append_assoc]

lemma attrValue_agrees (h : i.Stands ts m) :
    i.Agrees (attrValue i.tokens) ts m (Parse.attrValue i.eof.span ts m) := by
  cases ts with
  | nil => exact .peek_nil h rfl (miss_agrees none h)
  | cons t ts =>
    exact .peek_cons h rfl decide_eq_true_iff (fun _ => .bump h (requireIdentifier_agrees .attrValue h.pass) _)
      fun _ => miss_agrees none h

lemma attr_agrees (h : i.Stands (t :: ts) m) (ht : t.kind.isIdentifier) :
    i.Agrees (attr i.tokens) (t :: ts) m (Parse.attr i.eof.span t ts m) := by
  have hleft := identifier_agrees h
  have hright := attrValue_agrees hleft.stands
  have hstop := optional_agrees endsAttr hright.stands rfl
  refine ⟨fun cs => ?_, hstop.stands⟩
  rw [attr, run_bind (startAt_eq h), run_bind (hleft.run cs), run_bind (hright.run _), run_bind (hstop.run _),
    node_eq hstop.stands rfl (fun _ => rfl) (attr_traced i.eof.span m h.ordered ht).steps h.ordered]
  simp only [Parse.attr, List.append_assoc]

lemma attrs_agrees {rounds : Nat} (h : i.Stands ts m) (hr : ts.length < rounds) :
    i.Agrees (attrs i.tokens rounds) ts m (Parse.attrs i.eof.span ts m) := by
  induction rounds generalizing ts m with
  | zero => exact absurd hr (Nat.not_lt_zero _)
  | succ rounds ih =>
    cases ts with
    | nil =>
      rw [Parse.attrs]
      refine ⟨fun cs => ?_, h⟩
      rw [attrs, run_bind (current_eq h), List.headD_nil, if_neg (by simp [i.ends]), if_pos (.inr i.ends)]
      exact (miss_agrees ([], true) h).run cs
    | cons t ts =>
      have hlt : ts.length < rounds := Nat.lt_of_succ_lt_succ hr
      rw [Parse.attrs]
      split
      · rename_i ht
        refine ⟨fun cs => ?_, h.pass⟩
        rw [attrs, run_bind (current_eq h), List.headD_cons, if_pos ht, run_bind (bump_eq h), List.append_nil]
        rfl
      rename_i ht
      split
      · rename_i hc
        refine ⟨fun cs => ?_, h⟩
        rw [attrs, run_bind (current_eq h), List.headD_cons, if_neg ht, if_pos (.inl hc)]
        exact (miss_agrees ([], true) h).run cs
      rename_i hc
      have hgo : ¬ (t.kind = .closeBrace ∨ t.kind = .endOfFile) := by simp [hc, h.kind_ne]
      split
      · rename_i hid
        have ha := attr_agrees h hid
        have hrest := ih ha.stands (Nat.lt_of_le_of_lt (Parsed.fits _) hlt)
        refine ⟨fun cs => ?_, hrest.stands⟩
        rw [attrs, run_bind (current_eq h), List.headD_cons, if_neg ht, if_neg hgo, if_pos hid,
          run_bind (ha.run cs), run_bind (hrest.run _), List.append_assoc]
        rfl
      · rename_i hid
        have hrest := ih h.pass hlt
        refine ⟨fun cs => ?_, hrest.stands⟩
        rw [attrs, run_bind (current_eq h), List.headD_cons, if_neg ht, if_neg hgo, if_neg hid,
          run_bind (complain_eq h), run_bind (bump_eq h), run_bind (hrest.run _), List.append_assoc]
        rfl

lemma attrList_agrees (h : i.Stands (t :: ts) m) (ht : t.kind = .openBracket) :
    i.Agrees (attrList i.tokens) (t :: ts) m (Parse.attrList i.eof.span t ts m) := by
  have hr := attrs_agrees h.pass h.pass.length_lt
  refine ⟨fun cs => ?_, hr.stands⟩
  rw [attrList, run_bind (startAt_eq h), run_bind (bump_eq h), run_bind (hr.run cs),
    node_eq hr.stands rfl (fun _ => rfl) (attrList_traced i.eof.span m h.ordered ht).steps h.ordered]
  rfl

lemma attrListsFrom_agrees {rounds : Nat} (h : i.Stands ts m) (hr : ts.length < rounds) :
    i.Agrees (attrListsFrom i.tokens rounds) ts m (Parse.attrLists i.eof.span ts m) := by
  induction rounds generalizing ts m with
  | zero => exact absurd hr (Nat.not_lt_zero _)
  | succ rounds ih =>
    rw [attrListsFrom]
    cases ts with
    | nil =>
      rw [Parse.attrLists]
      exact .peek_nil h rfl (skip_agrees [] h)
    | cons t ts =>
      rw [Parse.attrLists]
      refine .peek_cons h rfl decide_eq_true_iff (fun ht => ?_) fun _ => skip_agrees [] h
      have ha := attrList_agrees h ht
      have hrest := ih ha.stands (Nat.lt_of_le_of_lt (Parsed.fits _) (Nat.lt_of_succ_lt_succ hr))
      refine ⟨fun cs => ?_, hrest.stands⟩
      rw [run_bind (ha.run cs), run_bind (hrest.run _), List.append_assoc]
      rfl

lemma attrLists_agrees (h : i.Stands ts m) :
    i.Agrees (attrLists i.tokens) ts m (Parse.attrLists i.eof.span ts m) :=
  attrListsFrom_agrees h h.length_lt

lemma terminator_agrees (h : i.Stands ts m) : i.Agrees (terminator i.tokens) ts m (Parse.terminator ts m) :=
  optional_agrees _ h rfl

lemma attrStatement_agrees (h : i.Stands (t :: ts) m) (ht : isSubject t.kind) :
    i.Agrees (attrStatement i.tokens t.span.start) (t :: ts) m (Parse.attrStatement i.eof.span t ts m) := by
  have hlists := attrLists_agrees h.pass.grown
  have hstop := terminator_agrees hlists.stands
  have hlisted (cs : List Diagnostic) :
      complainUnless i.tokens (nextIs (· = .openBracket) ts) .openBracket (i.state ts (m.pass t).grown cs) =
        some ((), i.state ts (m.pass t).grown
          (cs ++ if !nextIs (· = .openBracket) ts then [expected i.eof.span .openBracket ts] else [])) := by
    cases nextIs (· = .openBracket) ts with
    | true => exact (skip_agrees () h.pass.grown).run cs
    | false => exact complain_eq h.pass.grown
  refine ⟨fun cs => ?_, hstop.stands⟩
  rw [attrStatement, run_bind (leaf_eq h), run_bind (sees_eq h.pass.grown rfl), run_bind (hlisted cs),
    run_bind (hlists.run _), run_bind (hstop.run _),
    node_eq hstop.stands rfl (fun _ => rfl) (attrStatement_traced i.eof.span m h.ordered ht).steps h.ordered]
  simp only [Parse.attrStatement, List.append_assoc]

lemma identifier_of_equals {eof : Span} {e : Token} (he : e.kind = .equals) :
    Parse.identifier eof t (e :: ts) m =
      ⟨.identifier ⟨m.built, t.span, t.faulty⟩ t.kind t.value, e :: ts, (m.pass t).grown, [], Nat.le_refl _⟩ := by
  have hj (j : Joined) : Parse.joined eof j (e :: ts) (m.pass t) = skip j (e :: ts) (m.pass t) := by
    unfold Parse.joined
    simp [he]
  simp only [Parse.identifier, hj, ite_self]
  rfl

lemma equation_agrees {e : Token} (h : i.Stands (t :: e :: ts) m) (ht : t.kind.isIdentifier)
    (he : e.kind = .equals) :
    i.Agrees (equation i.tokens t.span.start) (t :: e :: ts) m (Parse.equation i.eof.span t e ts m) := by
  have hleft := identifier_agrees h
  rw [identifier_of_equals he] at hleft
  have hright := requireIdentifier_agrees .identifier hleft.stands.pass
  have hstop := terminator_agrees hright.stands
  refine ⟨fun cs => ?_, hstop.stands⟩
  rw [equation, run_bind (hleft.run cs), run_bind (bump_eq hleft.stands), run_bind (hright.run _),
    run_bind (hstop.run _),
    node_eq hstop.stands rfl (fun _ => rfl) (equation_traced i.eof.span m h.ordered ht he).steps h.ordered,
    List.append_nil, List.append_assoc]
  rfl

section Behind

variable {us : List Token} {m₀ : Trail} {n : Tree} {cs₀ : List Diagnostic}

lemma nodeStatement_agrees (h : i.Stands ts m) (hs : Steps i.eof.span (t :: us) m₀ [n] false ts m cs₀)
    (hk : n.kind = .nodeId) (hl : ts.length ≤ us.length) (ho : Ordered (t :: us)) :
    i.Agrees (nodeStatement i.tokens t.span.start n) ts m
      (Parse.nodeStatement i.eof.span t.span.start n ts m) := by
  have hlists := attrLists_agrees h
  have hstop := terminator_agrees hlists.stands
  refine ⟨fun cs => ?_, hstop.stands⟩
  rw [nodeStatement, run_bind (hlists.run cs), run_bind (hstop.run _),
    node_eq hstop.stands rfl (fun _ => rfl) (nodeStatement_traced hs hk hl ho) ho, List.append_assoc]
  rfl

lemma subgraphStatement_agrees (h : i.Stands ts m) (hs : Steps i.eof.span (t :: us) m₀ [n] false ts m cs₀)
    (hk : n.kind = .subgraph) (hl : ts.length ≤ us.length) (ho : Ordered (t :: us)) :
    i.Agrees (subgraphStatement i.tokens t.span.start n) ts m (Parse.subgraphStatement t.span.start n ts m) := by
  have hstop := terminator_agrees h
  refine ⟨fun cs => ?_, hstop.stands⟩
  rw [subgraphStatement, run_bind (hstop.run cs),
    node_eq hstop.stands rfl (fun _ => rfl) (subgraphStatement_traced hs hk hl) ho]
  rfl

lemma edgeStatement_agrees (h : i.Stands ts m) (hs : Steps i.eof.span (t :: us) m₀ [n] false ts m cs₀)
    (hk : n.kind.isEndpoint) (hl : ts.length ≤ us.length) (ho : Ordered (t :: us))
    {depth : Nat} (hrhs : i.Agrees (chain i.tokens depth) ts m (Parse.chain i.eof.span ts m))
    (hop : nextIs Kind.isEdgeOp ts) :
    i.Agrees (edgeStatement i.tokens (depth + 1) t.span.start n) ts m
      (Parse.edgeStatement i.eof.span t.span.start n ts m) := by
  have hlists := attrLists_agrees hrhs.stands
  have hstop := terminator_agrees hlists.stands
  have htraced := edgeStatement_traced hs hk hl ho (chain_traced ts m h.ordered) (chain_ne_nil hop)
  rw [Parse.edgeStatement] at htraced ⊢
  refine ⟨fun cs => ?_, hstop.stands⟩
  rw [edgeStatement, run_bind (hrhs.run cs), run_bind (hlists.run _), run_bind (hstop.run _),
    node_eq hstop.stands rfl (fun _ => rfl) htraced ho]
  simp only [List.append_assoc]

end Behind

lemma edgeRhs_eq {depth : Nat} (h : i.Stands (t :: ts) m) (hop : t.kind.isEdgeOp)
    (htip : i.Agrees (target i.tokens depth) ts (m.pass t).grown (Parse.target i.eof.span ts (m.pass t).grown)) :
    edgeRhs i.tokens (depth + 1) (i.state (t :: ts) m cs) =
      some ((Parse.target i.eof.span ts (m.pass t).grown).trail.node t.span.start
          (Parse.target i.eof.span ts (m.pass t).grown).value.isNone
          (.edgeRhs · (m.leaf t) (Parse.target i.eof.span ts (m.pass t).grown).value),
        i.state (Parse.target i.eof.span ts (m.pass t).grown).rest
          (Parse.target i.eof.span ts (m.pass t).grown).trail.grown
          (cs ++ (Parse.target i.eof.span ts (m.pass t).grown).complaints)) := by
  have htraced := @target_traced i.eof.span ts (m.pass t).grown h.pass.ordered
  have hfits := (Parse.target i.eof.span ts (m.pass t).grown).fits
  have hs := (@Steps.leaf i.eof.span t ts m (isToken_of_isEdgeOp hop)).seq htraced.steps
  have hn := hs.node (.edgeRhs · (m.leaf t) _) hfits
    (fun _ => ⟨rfl, Tree.children_eq _, trivial, hop, htraced.of_mem⟩) nofun
  rw [edgeRhs, run_bind (startAt_eq h), run_bind (leaf_eq h), run_bind (htip.run cs)]
  exact node_eq htip.stands rfl (fun _ => rfl) hn h.ordered

lemma namedStatement_run {depth : Nat} (h : i.Stands (t :: ts) m) (ht : t.kind.isIdentifier)
    (hrhs : i.Agrees (chain i.tokens depth) (Parse.nodeId i.eof.span t ts m).rest
      (Parse.nodeId i.eof.span t ts m).trail
      (Parse.chain i.eof.span (Parse.nodeId i.eof.span t ts m).rest (Parse.nodeId i.eof.span t ts m).trail)) :
    (do
      let name ← nodeId i.tokens
      if ← sees i.tokens Kind.isEdgeOp then edgeStatement i.tokens (depth + 1) t.span.start name
      else nodeStatement i.tokens t.span.start name : Reader Tree) (i.state (t :: ts) m cs) =
    some ((Parse.namedStatement i.eof.span t ts m).value,
      i.state (Parse.namedStatement i.eof.span t ts m).rest (Parse.namedStatement i.eof.span t ts m).trail
        (cs ++ (Parse.namedStatement i.eof.span t ts m).complaints)) := by
  have hname := nodeId_agrees h ht
  have htraced := nodeId_traced i.eof.span m h.ordered ht
  have hfits := (Parse.nodeId i.eof.span t ts m).fits
  have hk := htraced.kinds _ (List.mem_singleton_self _)
  rw [run_bind (hname.run cs), run_bind (sees_eq hname.stands rfl), Parse.namedStatement]
  simp only
  split
  · rename_i hop
    rw [(edgeStatement_agrees hname.stands htraced.steps (by simp [Kind.isEndpoint, hk]) hfits h.ordered hrhs
      hop).run, List.append_assoc]
  · rw [(nodeStatement_agrees hname.stands htraced.steps hk hfits h.ordered).run, List.append_assoc]

-- `depth` exceeds the measure by which the readers of the list of tokens end.
mutual

theorem statements_agrees (depth : Nat) (ts : List Token) (m : Trail) (h : i.Stands ts m)
    (hd : 8 * ts.length + 4 < depth) :
    i.Agrees (statements i.tokens depth) ts m (Parse.statements i.eof.span ts m) := by
  obtain ⟨depth, rfl⟩ := Nat.exists_eq_add_one_of_ne_zero (Nat.ne_zero_of_lt hd)
  cases ts with
  | nil =>
    rw [Parse.statements]
    refine ⟨fun cs => ?_, h⟩
    rw [statements, run_bind (current_eq h), List.headD_nil, if_pos (.inr i.ends)]
    exact (skip_agrees ([], false) h).run cs
  | cons t ts =>
    rw [List.length_cons] at hd
    rw [Parse.statements]
    split
    · rename_i hc
      refine ⟨fun cs => ?_, h⟩
      rw [statements, run_bind (current_eq h), List.headD_cons, if_pos (.inl hc)]
      exact (skip_agrees ([], false) h).run cs
    rename_i hc
    have hgo : ¬ (t.kind = .closeBrace ∨ t.kind = .endOfFile) := by simp [hc, h.kind_ne]
    split
    · rename_i hsemi
      have hr := statements_agrees depth ts (m.pass t) h.pass (by omega)
      refine ⟨fun cs => ?_, hr.stands⟩
      rw [statements, run_bind (current_eq h), List.headD_cons, if_neg hgo, if_pos hsemi, run_bind (bump_eq h)]
      exact hr.run cs
    rename_i hsemi
    split
    · rename_i ht
      have hst := statement_agrees depth t ts m h ht (by omega)
      have hfits := (Parse.statement i.eof.span t ts m).fits
      have hr := statements_agrees depth _ _ hst.stands (by omega)
      refine ⟨fun cs => ?_, hr.stands⟩
      rw [statements, run_bind (current_eq h), List.headD_cons, if_neg hgo, if_neg hsemi, if_pos ht,
        run_bind (hst.run cs), run_bind (hr.run _), List.append_assoc]
      rfl
    · rename_i ht
      have hr := statements_agrees depth ts (m.pass t) h.pass (by omega)
      refine ⟨fun cs => ?_, hr.stands⟩
      rw [statements, run_bind (current_eq h), List.headD_cons, if_neg hgo, if_neg hsemi, if_neg ht,
        run_bind (complain_eq h), run_bind (bump_eq h), run_bind (hr.run _), List.append_assoc]
      rfl
  termination_by depth
  decreasing_by all_goals subst_vars; omega

theorem statement_agrees (depth : Nat) (t : Token) (ts : List Token) (m : Trail) (h : i.Stands (t :: ts) m)
    (ht : startsStatement t.kind) (hd : 8 * ts.length + 11 < depth) :
    i.Agrees (statement i.tokens depth) (t :: ts) m (Parse.statement i.eof.span t ts m) := by
  obtain ⟨depth, rfl⟩ : ∃ k, depth = k + 2 := ⟨depth - 2, by omega⟩
  refine ⟨fun cs => ?_, h.of_steps (statement_traced t ts m h.ordered ht).steps⟩
  rw [statement, run_bind (current_eq h), List.headD_cons, Parse.statement.eq_def]
  split
  · rename_i hsub
    exact (attrStatement_agrees h hsub).run cs
  rename_i hsub
  split
  · rename_i hopen
    have hbody := subgraph_agrees (depth + 1) t ts m h hopen (by omega)
    have htraced := @subgraph_traced i.eof.span t ts m h.ordered hopen
    have hfits := (Parse.subgraph i.eof.span t ts m).fits
    have hk := htraced.kinds _ (List.mem_singleton_self _)
    rw [run_bind (hbody.run cs), run_bind (sees_eq hbody.stands rfl)]
    simp only
    split
    · rename_i hop
      have hrhs := chain_agrees depth _ _ hbody.stands (by omega)
      rw [(edgeStatement_agrees hbody.stands htraced.steps (by simp [Kind.isEndpoint, hk]) hfits h.ordered hrhs
        hop).run, List.append_assoc]
    · rw [(subgraphStatement_agrees hbody.stands htraced.steps hk hfits h.ordered).run, List.append_assoc]
  rename_i hopen
  have hid := isIdentifier_of_startsStatement ht (by simpa using hsub) (by simpa using hopen)
  have hfits := (Parse.nodeId i.eof.span t ts m).fits
  have hrhs := chain_agrees depth _ _ (nodeId_agrees h hid).stands (by omega)
  rw [run_bind (secondKind_eq h)]
  cases ts with
  | nil =>
    rw [List.headD_nil, if_neg (by simp [i.ends])]
    exact namedStatement_run h hid hrhs
  | cons e ts =>
    rw [List.headD_cons]
    simp only
    split
    · rename_i he
      exact (equation_agrees h hid he).run cs
    · exact namedStatement_run h hid hrhs
  termination_by depth
  decreasing_by all_goals subst_vars; omega

theorem chain_agrees (depth : Nat) (ts : List Token) (m : Trail) (h : i.Stands ts m)
    (hd : 8 * ts.length + 8 < depth) : i.Agrees (chain i.tokens depth) ts m (Parse.chain i.eof.span ts m) := by
  obtain ⟨depth, rfl⟩ : ∃ k, depth = k + 2 := ⟨depth - 2, by omega⟩
  refine ⟨fun cs => ?_, h.of_steps (chain_traced ts m h.ordered).steps⟩
  cases ts with
  | nil =>
    rw [chain, run_bind (sees_eq h rfl), Parse.chain]
    exact (skip_agrees [] h).run cs
  | cons t ts =>
    rw [List.length_cons] at hd
    rw [chain, run_bind (sees_eq h rfl), Parse.chain, nextIs]
    split
    · rename_i hop
      have htip := target_agrees depth ts (m.pass t).grown h.pass.grown (by omega)
      have hfits := (Parse.target i.eof.span ts (m.pass t).grown).fits
      have hr := chain_agrees (depth + 1) _ _ htip.stands.grown (by omega)
      rw [run_bind (edgeRhs_eq h hop htip), run_bind (hr.run _), List.append_assoc]
      rfl
    · exact (skip_agrees [] h).run cs
  termination_by depth
  decreasing_by all_goals subst_vars; omega

theorem target_agrees (depth : Nat) (ts : List Token) (m : Trail) (h : i.Stands ts m)
    (hd : 8 * ts.length + 3 < depth) : i.Agrees (target i.tokens depth) ts m (Parse.target i.eof.span ts m) := by
  obtain ⟨depth, rfl⟩ := Nat.exists_eq_add_one_of_ne_zero (Nat.ne_zero_of_lt hd)
  rw [target]
  cases ts with
  | nil =>
    rw [Parse.target]
    exact .peek_nil h rfl (.peek_nil h rfl (miss_agrees none h))
  | cons t ts =>
    rw [List.length_cons] at hd
    rw [Parse.target]
    exact .peek_cons h rfl Iff.rfl (fun ht => (subgraph_agrees depth t ts m h ht (by omega)).map some _) fun _ =>
      .peek_cons h rfl Iff.rfl (fun ht => (nodeId_agrees h ht).map some _) fun _ => miss_agrees none h
  termination_by depth
  decreasing_by all_goals subst_vars; omega

theorem subgraph_agrees (depth : Nat) (t : Token) (ts : List Token) (m : Trail) (h : i.Stands (t :: ts) m)
    (ht : opensBody t.kind) (hd : 8 * ts.length + 10 < depth) :
    i.Agrees (subgraph i.tokens depth) (t :: ts) m (Parse.subgraph i.eof.span t ts m) := by
  obtain ⟨depth, rfl⟩ : ∃ k, depth = k + 2 := ⟨depth - 2, by omega⟩
  have htraced := (@subgraph_traced i.eof.span t ts m h.ordered ht).steps
  refine ⟨fun cs => ?_, h.of_steps htraced⟩
  have hkeyword := optional_agrees (· = .subgraphKeyword) h rfl
  rw [subgraph, run_bind (startAt_eq h), run_bind (hkeyword.run cs)]
  rw [Parse.subgraph] at htraced ⊢
  by_cases hk : t.kind = .subgraphKeyword
  · rw [if_pos hk] at htraced ⊢
    simp only [Parse.optional, if_pos (decide_eq_true hk)]
    have hname := optionalIdentifier_agrees h.pass.grown
    have hfits := (Parse.optionalIdentifier i.eof.span ts (m.pass t).grown).fits
    have hbody := bracedBody_agrees (depth + 1) _ _ hname.stands (by omega)
    rw [subgraphName, run_bind (hname.run _), run_bind (hbody.run _),
      node_eq hbody.stands rfl (fun _ => rfl) htraced h.ordered]
    simp only [List.append_assoc, List.nil_append]
  · have hopen : t.kind = .openBrace := by simpa [opensBody, hk] using ht
    rw [if_neg hk] at htraced ⊢
    simp only [Parse.optional, if_neg (mt of_decide_eq_true hk), skip, List.append_nil]
    have hbody := openedBody_agrees depth ts (m.pass t) h.pass (by omega)
    have hbraced : bracedBody i.tokens (depth + 1) (i.state (t :: ts) m cs) =
        openedBody i.tokens depth (i.state ts (m.pass t) cs) := by
      rw [bracedBody, run_bind (sees_eq h rfl), nextIs, if_pos (decide_eq_true hopen), run_bind (bump_eq h)]
    rw [subgraphName, run_bind rfl, run_bind (hbraced.trans (hbody.run cs)),
      node_eq hbody.stands rfl (fun _ => rfl) htraced h.ordered]
  termination_by depth
  decreasing_by all_goals subst_vars; omega

theorem bracedBody_agrees (depth : Nat) (ts : List Token) (m : Trail) (h : i.Stands ts m)
    (hd : 8 * ts.length + 6 < depth) :
    i.Agrees (bracedBody i.tokens depth) ts m (Parse.bracedBody i.eof.span ts m) := by
  obtain ⟨depth, rfl⟩ := Nat.exists_eq_add_one_of_ne_zero (Nat.ne_zero_of_lt hd)
  rw [bracedBody]
  cases ts with
  | nil =>
    rw [Parse.bracedBody]
    exact .peek_nil h rfl (miss_agrees ([], true) h)
  | cons t ts =>
    rw [List.length_cons] at hd
    have hbody := openedBody_agrees depth ts (m.pass t) h.pass (by omega)
    rw [Parse.bracedBody]
    exact .peek_cons h rfl decide_eq_true_iff (fun _ => .bump (f := fun _ => _) h hbody _)
      fun _ => miss_agrees ([], true) h
  termination_by depth
  decreasing_by all_goals subst_vars; omega

theorem openedBody_agrees (depth : Nat) (ts : List Token) (m : Trail) (h : i.Stands ts m)
    (hd : 8 * ts.length + 5 < depth) :
    i.Agrees (openedBody i.tokens depth) ts m (Parse.openedBody i.eof.span ts m) := by
  obtain ⟨depth, rfl⟩ := Nat.exists_eq_add_one_of_ne_zero (Nat.ne_zero_of_lt hd)
  have hr := statements_agrees depth ts m h (by omega)
  refine ⟨fun cs => ?_, h.of_steps (openedBody_traced ts m h.ordered).steps⟩
  rw [openedBody, run_bind (hr.run cs), run_bind (sees_eq hr.stands rfl)]
  by_cases hc : nextIs (· = .closeBrace) (Parse.statements i.eof.span ts m).rest = true
  · obtain ⟨c, behind, hbehind⟩ : ∃ c behind, (Parse.statements i.eof.span ts m).rest = c :: behind :=
      List.exists_cons_of_ne_nil (by rintro hnil; simp [hnil, nextIs] at hc)
    have hstands := hr.stands
    rw [hbehind] at hc hstands
    obtain ⟨hv, hrest, htrail, hcs⟩ := openedBody_of_closeBrace hbehind (of_decide_eq_true hc)
    rw [hbehind, if_pos hc, run_bind (bump_eq hstands), hv, hrest, htrail, hcs]
    rfl
  · rw [if_neg hc]
    obtain ⟨hv, hrest, htrail, hcs⟩ := openedBody_of_unclosed (by simpa using hc)
    rw [hv, hrest, htrail, hcs, run_bind (complain_eq hr.stands), List.append_assoc]
    rfl
  termination_by depth
  decreasing_by all_goals subst_vars; omega

end

lemma start_le_limitOf (h : i.Stands (t :: ts) m) : t.span.start ≤ limitOf i.body := by
  obtain ⟨done, hbody, -⟩ := h
  have ho := i.ordered
  have hmem : t ∈ i.body := by simp [hbody]
  generalize i.body = us at ho hmem
  cases us using List.reverseRecOn with
  | nil => simp at hmem
  | append_singleton us u =>
    have hu := ho.nonempty u (by simp)
    have hlimit : limitOf (us ++ [u]) = u.span.stop := by simp [limitOf]
    rw [hlimit]
    rcases List.mem_append.mp hmem with hmem | hmem
    · have ht := ho.nonempty t (by simp [hmem])
      have := (List.pairwise_append.mp ho.apart).2.2 t hmem u (by simp)
      omega
    · obtain rfl := List.mem_singleton.mp hmem
      exact hu.le

lemma trailing_eq (h : i.Stands ts m) :
    trailing i.tokens (i.state ts m cs) = some ((), i.state ts m (cs ++ Parse.trailing (limitOf i.body) ts)) := by
  cases ts with
  | nil =>
    rw [trailing, run_bind (current_eq h), List.headD_nil, if_pos i.ends, Parse.trailing, List.append_nil]
    rfl
  | cons t ts =>
    have hle := start_le_limitOf h
    obtain ⟨done, hbody, -⟩ := id h
    cases hlast : i.body.getLast? with
    | none => simp [hbody] at hlast
    | some u =>
      have hlimit : limitOf i.body = u.span.stop := by rw [limitOf, hlast, Option.elim_some]
      rw [hlimit] at hle ⊢
      rw [trailing, run_bind (current_eq h), List.headD_cons, if_neg h.kind_ne, run_bind (lastToken_eq hlast),
        run_bind (forward_eq hle)]
      rfl

lemma graphFrom_eq {start : Nat} {strict : Option Tree} {k : Token} {g : Tree} {us ts' : List Token}
    {m₀ m' : Trail} {faults : Bool} {cs' : List Diagnostic} (h : i.Stands (k :: ts) m)
    (hg : (Parse.graphFrom i.eof.span (limitOf i.body) start strict k ts m).graph = some g)
    (hs : Steps i.eof.span us m₀ [g] faults ts' m' cs') (ho : Ordered us) :
    ∃ s, graphFrom i.tokens start strict (i.state (k :: ts) m []) = some ((some g, none), s) ∧
      s.complaints = (Parse.graphFrom i.eof.span (limitOf i.body) start strict k ts m).diagnostics ∧
      s.built = g.number + 1 := by
  have hname := optionalIdentifier_agrees h.pass.grown
  have hfits := (Parse.optionalIdentifier i.eof.span ts (m.pass k).grown).fits
  have hlength := h.length_lt
  rw [List.length_cons] at hlength
  have hbody := bracedBody_agrees (8 * i.tokens.length) _ _ hname.stands (by omega)
  obtain rfl := Option.some.inj hg
  rw [graphFrom, run_bind (leaf_eq h), run_bind (hname.run _), run_bind (hbody.run _),
    run_bind (node_eq hbody.stands rfl (fun _ => rfl) hs ho), run_bind (trailing_eq hbody.stands.grown)]
  exact ⟨_, rfl, rfl, rfl⟩

lemma source_eq {body : List Token} (hbody : i.body = body) :
    ∃ s, source i.tokens (i.state body .start []) = some (((Parse.source i.eof.span (limitOf i.body) body).graph,
        (Parse.source i.eof.span (limitOf i.body) body).loose), s) ∧
      s.complaints = (Parse.source i.eof.span (limitOf i.body) body).diagnostics ∧
      s.built = (Parse.source i.eof.span (limitOf i.body) body).graph.elim
        (Parse.source i.eof.span (limitOf i.body) body).loose.toList.length (·.number + 1) := by
  have h : i.Stands body .start := ⟨[], hbody, rfl⟩
  have htraced {g : Tree} := @source_traced i.eof.span body (limitOf i.body) g h.ordered
  cases body with
  | nil =>
    rw [source, run_bind (current_eq h), List.headD_nil, if_pos i.ends]
    exact ⟨_, rfl, rfl, rfl⟩
  | cons t ts =>
    have hstrict := optional_agrees (· = .strictKeyword) h rfl
    have hnil : (Parse.optional (· = .strictKeyword) (t :: ts) .start).complaints = [] := by
      simp only [Parse.optional]
      split <;> rfl
    have hbuilt : (Parse.optional (· = .strictKeyword) (t :: ts) .start).trail.built =
        (Parse.optional (· = .strictKeyword) (t :: ts) .start).value.toList.length := by
      simp only [Parse.optional]
      split <;> rfl
    rw [source, run_bind (current_eq h), List.headD_cons, if_neg h.kind_ne, run_bind (hstrict.run []), hnil,
      List.append_nil, run_bind (sees_eq hstrict.stands rfl)]
    rw [Parse.source] at htraced ⊢
    generalize Parse.optional (· = .strictKeyword) (t :: ts) .start = strict at hstrict htraced hbuilt ⊢
    obtain ⟨value, rest, m, cs, hfits⟩ := strict
    have hstands := hstrict.stands
    cases rest with
    | nil =>
      rw [nextIs, if_neg (by simp), run_bind (complain_eq hstands)]
      exact ⟨_, rfl, rfl, hbuilt⟩
    | cons k rest =>
      simp only at htraced ⊢
      rw [nextIs]
      by_cases hk : isGraphKeyword k.kind = true
      · rw [if_pos hk] at htraced
        rw [if_pos hk, if_pos hk]
        obtain ⟨_, _, _, hs, -⟩ := htraced rfl
        exact graphFrom_eq hstands rfl hs h.ordered
      · rw [if_neg hk, if_neg hk, run_bind (complain_eq hstands)]
        exact ⟨_, rfl, rfl, hbuilt⟩

lemma ofTokens_eq (i : Input) :
    ofTokens i.tokens = some (Parse.ofTokens i.tokens, (Parse.ofTokens i.tokens).graph.elim
      (Parse.ofTokens i.tokens).loose.toList.length (·.number + 1)) := by
  have hclosed : closed i.tokens = i.tokens := by simp [closed, tokens, endsFile, i.ends]
  have hparse : Parse.ofTokens i.tokens = Parse.source i.eof.span (limitOf i.body) i.body :=
    ofTokens_concat i.inner i.ends
  have hstart : (⟨0, 0, []⟩ : State) = i.state i.body .start [] := by simp [state, Trail.start]
  obtain ⟨s, hs, hcs, hbuilt⟩ := i.source_eq rfl
  simp only [ofTokens, hclosed, hstart, hs, Option.map_some, hcs, hparse, hbuilt]

end Input

end DotMend.Parse.Guarded
