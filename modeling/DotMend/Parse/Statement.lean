import DotMend.Parse.Attribute

/-!
Statements and the bodies that hold them. Each statement takes at least one token, and a body is read behind its
opening brace, so the mutual recursion ends.
-/

namespace DotMend.Parse

def isSubject (k : Kind) : Bool := k = .graphKeyword || k = .nodeKeyword || k = .edgeKeyword

def opensBody (k : Kind) : Bool := k = .subgraphKeyword || k = .openBrace

def startsStatement (k : Kind) : Bool := k.isIdentifier || isSubject k || opensBody k

def terminator (ts : List Token) (m : Trail) : Parsed ts.length (Option Tree) := optional (· = .semicolon) ts m

def attrStatement (eof : Span) (t : Token) (ts : List Token) (m : Trail) : Parsed ts.length Tree :=
  let bare := !nextIs (· = .openBracket) ts
  let lists := attrLists eof ts (m.pass t).grown
  let stop := terminator lists.rest lists.trail
  ⟨stop.trail.node t.span.start bare (.attrStatement · (m.leaf t) lists.value stop.value), stop.rest,
    stop.trail.grown, (if bare then [expected eof .openBracket ts] else []) ++ lists.complaints ++ stop.complaints,
    Nat.le_trans stop.fits lists.fits⟩

def equation (eof : Span) (t e : Token) (ts : List Token) (m : Trail) : Parsed ts.length Tree :=
  let left := Tree.identifier ⟨m.built, t.span, t.faulty⟩ t.kind t.value
  let right := requireIdentifier eof .identifier ts (m.pass e).grown
  let stop := terminator right.rest right.trail
  ⟨stop.trail.node t.span.start right.value.isNone (.equation · left right.value stop.value), stop.rest,
    stop.trail.grown, right.complaints ++ stop.complaints, Nat.le_trans stop.fits right.fits⟩

def nodeStatement (eof : Span) (start : Nat) (node : Tree) (ts : List Token) (m : Trail) : Parsed ts.length Tree :=
  let lists := attrLists eof ts m
  let stop := terminator lists.rest lists.trail
  ⟨stop.trail.node start false (.nodeStatement · node lists.value stop.value), stop.rest, stop.trail.grown,
    lists.complaints ++ stop.complaints, Nat.le_trans stop.fits lists.fits⟩

def subgraphStatement (start : Nat) (body : Tree) (ts : List Token) (m : Trail) : Parsed ts.length Tree :=
  let stop := terminator ts m
  ⟨stop.trail.node start false (.subgraphStatement · body stop.value), stop.rest, stop.trail.grown,
    stop.complaints, stop.fits⟩

mutual

def statements (eof : Span) (ts : List Token) (m : Trail) : Parsed ts.length (List Tree × Bool) :=
  match ts with
  | [] => skip ([], false) [] m
  | t :: rest =>
    if t.kind = .closeBrace then skip ([], false) (t :: rest) m
    else if t.kind = .semicolon then
      let r := statements eof rest (m.pass t)
      ⟨r.value, r.rest, r.trail, r.complaints, Nat.le_succ_of_le r.fits⟩
    else if startsStatement t.kind then
      let s := statement eof t rest m
      let r := statements eof s.rest s.trail
      ⟨(s.value :: r.value.1, r.value.2), r.rest, r.trail, s.complaints ++ r.complaints,
        Nat.le_succ_of_le (Nat.le_trans r.fits s.fits)⟩
    else
      let r := statements eof rest (m.pass t)
      ⟨(r.value.1, true), r.rest, r.trail, expected eof .statement (t :: rest) :: r.complaints,
        Nat.le_succ_of_le r.fits⟩
  termination_by 8 * ts.length + 4
  decreasing_by
    · simp only [List.length_cons]; omega
    · simp only [List.length_cons]; omega
    · have h := s.fits; simp only [s, List.length_cons] at h ⊢; omega
    · simp only [List.length_cons]; omega

def statement (eof : Span) (t : Token) (ts : List Token) (m : Trail) : Parsed ts.length Tree :=
  if isSubject t.kind then attrStatement eof t ts m
  else if opensBody t.kind then
    let body := subgraph eof t ts m
    let r :=
      if nextIs Kind.isEdgeOp body.rest then edgeStatement eof t.span.start body.value body.rest body.trail
      else subgraphStatement t.span.start body.value body.rest body.trail
    ⟨r.value, r.rest, r.trail, body.complaints ++ r.complaints, Nat.le_trans r.fits body.fits⟩
  else
    match ts with
    | e :: rest =>
      if e.kind = .equals then
        let r := equation eof t e rest m
        ⟨r.value, r.rest, r.trail, r.complaints, Nat.le_succ_of_le r.fits⟩
      else namedStatement eof t (e :: rest) m
    | [] => namedStatement eof t [] m
  termination_by 8 * ts.length + 11
  decreasing_by
    · omega
    · have h := body.fits; simp only [body] at h ⊢; omega
    · omega
    · omega

def namedStatement (eof : Span) (t : Token) (ts : List Token) (m : Trail) : Parsed ts.length Tree :=
  let node := nodeId eof t ts m
  let r :=
    if nextIs Kind.isEdgeOp node.rest then edgeStatement eof t.span.start node.value node.rest node.trail
    else nodeStatement eof t.span.start node.value node.rest node.trail
  ⟨r.value, r.rest, r.trail, node.complaints ++ r.complaints, Nat.le_trans r.fits node.fits⟩
  termination_by 8 * ts.length + 10
  decreasing_by have h := node.fits; simp only [node] at h ⊢; omega

def edgeStatement (eof : Span) (start : Nat) (source : Tree) (ts : List Token) (m : Trail) :
    Parsed ts.length Tree :=
  let rhs := chain eof ts m
  let lists := attrLists eof rhs.rest rhs.trail
  let stop := terminator lists.rest lists.trail
  ⟨stop.trail.node start false (.edgeStatement · source rhs.value lists.value stop.value), stop.rest,
    stop.trail.grown, rhs.complaints ++ lists.complaints ++ stop.complaints,
    Nat.le_trans stop.fits (Nat.le_trans lists.fits rhs.fits)⟩
  termination_by 8 * ts.length + 9
  decreasing_by omega

def chain (eof : Span) (ts : List Token) (m : Trail) : Parsed ts.length (List Tree) :=
  match ts with
  | t :: rest =>
    if t.kind.isEdgeOp then
      let tip := target eof rest (m.pass t).grown
      let r := chain eof tip.rest tip.trail.grown
      ⟨tip.trail.node t.span.start tip.value.isNone (.edgeRhs · (m.leaf t) tip.value) :: r.value, r.rest, r.trail,
        tip.complaints ++ r.complaints, Nat.le_succ_of_le (Nat.le_trans r.fits tip.fits)⟩
    else skip [] (t :: rest) m
  | [] => skip [] [] m
  termination_by 8 * ts.length + 8
  decreasing_by
    · simp only [List.length_cons]; omega
    · have h := tip.fits; simp only [tip, List.length_cons] at h ⊢; omega

def target (eof : Span) (ts : List Token) (m : Trail) : Parsed ts.length (Option Tree) :=
  match ts with
  | t :: rest =>
    if opensBody t.kind then
      let r := subgraph eof t rest m
      ⟨some r.value, r.rest, r.trail, r.complaints, Nat.le_succ_of_le r.fits⟩
    else if t.kind.isIdentifier then
      let r := nodeId eof t rest m
      ⟨some r.value, r.rest, r.trail, r.complaints, Nat.le_succ_of_le r.fits⟩
    else miss eof .endpoint none (t :: rest) m
  | [] => miss eof .endpoint none [] m
  termination_by 8 * ts.length + 3
  decreasing_by simp only [List.length_cons]; omega

def subgraph (eof : Span) (t : Token) (ts : List Token) (m : Trail) : Parsed ts.length Tree :=
  if t.kind = .subgraphKeyword then
    let name := optionalIdentifier eof ts (m.pass t).grown
    let body := bracedBody eof name.rest name.trail
    ⟨body.trail.node t.span.start body.value.2 (.subgraph · (some (m.leaf t)) name.value body.value.1), body.rest,
      body.trail.grown, name.complaints ++ body.complaints, Nat.le_trans body.fits name.fits⟩
  else
    let body := openedBody eof ts (m.pass t)
    ⟨body.trail.node t.span.start body.value.2 (.subgraph · none none body.value.1), body.rest, body.trail.grown,
      body.complaints, body.fits⟩
  termination_by 8 * ts.length + 10
  decreasing_by
    · have h := name.fits; simp only [name] at h ⊢; omega
    · omega

def bracedBody (eof : Span) (ts : List Token) (m : Trail) : Parsed ts.length (List Tree × Bool) :=
  match ts with
  | t :: rest =>
    if t.kind = .openBrace then
      let r := openedBody eof rest (m.pass t)
      ⟨r.value, r.rest, r.trail, r.complaints, Nat.le_succ_of_le r.fits⟩
    else miss eof .openBrace ([], true) (t :: rest) m
  | [] => miss eof .openBrace ([], true) [] m
  termination_by 8 * ts.length + 6
  decreasing_by simp only [List.length_cons]; omega

def openedBody (eof : Span) (ts : List Token) (m : Trail) : Parsed ts.length (List Tree × Bool) :=
  let r := statements eof ts m
  match h : r.rest with
  | t :: rest =>
    if t.kind = .closeBrace then
      ⟨r.value, rest, r.trail.pass t, r.complaints,
        by have := r.fits; simp only [h, List.length_cons] at this; omega⟩
    else ⟨(r.value.1, true), r.rest, r.trail, r.complaints ++ [expected eof .closeBrace r.rest], r.fits⟩
  | [] => ⟨(r.value.1, true), r.rest, r.trail, r.complaints ++ [expected eof .closeBrace r.rest], r.fits⟩
  termination_by 8 * ts.length + 5
  decreasing_by omega

end

end DotMend.Parse
