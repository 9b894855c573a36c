import DotMend.Parse.Basic

namespace DotMend.Parse

structure Joined where
  text : String
  span : Span
  faulty : Bool
  deriving Repr

def joined (eof : Span) (j : Joined) (ts : List Token) (m : Trail) : Parsed ts.length Joined :=
  match ts with
  | [] => skip j [] m
  | p :: rest =>
    if p.kind = .plus then
      match rest with
      | [] =>
        ⟨⟨j.text, ⟨j.span.start, p.span.stop⟩, true⟩, [], m.pass p, [expected eof .quotedPart []], Nat.zero_le _⟩
      | q :: rest =>
        if q.kind = .quoted then
          let r := joined eof ⟨j.text ++ q.value, j.span.cover q.span, j.faulty || q.faulty⟩ rest (m.pass q)
          ⟨r.value, r.rest, r.trail, r.complaints, Nat.le_succ_of_le (Nat.le_succ_of_le r.fits)⟩
        else
          ⟨⟨j.text, ⟨j.span.start, p.span.stop⟩, true⟩, q :: rest, m.pass p,
            [expected eof .quotedPart (q :: rest)], Nat.le_succ _⟩
    else skip j (p :: rest) m

def identifier (eof : Span) (t : Token) (ts : List Token) (m : Trail) : Parsed ts.length Tree :=
  let whole : Joined := ⟨t.value, t.span, t.faulty⟩
  let r := if t.kind = .quoted then joined eof whole ts (m.pass t) else skip whole ts (m.pass t)
  ⟨.identifier ⟨m.built, r.value.span, r.value.faulty⟩ t.kind r.value.text, r.rest, r.trail.grown, r.complaints,
    r.fits⟩

def requireIdentifier (eof : Span) (what : Expectation) (ts : List Token) (m : Trail) :
    Parsed ts.length (Option Tree) :=
  match ts with
  | t :: rest =>
    if t.kind.isIdentifier then
      let r := identifier eof t rest m
      ⟨some r.value, r.rest, r.trail, r.complaints, Nat.le_succ_of_le r.fits⟩
    else miss eof what none (t :: rest) m
  | [] => miss eof what none [] m

def optionalIdentifier (eof : Span) (ts : List Token) (m : Trail) : Parsed ts.length (Option Tree) :=
  if nextIs Kind.isIdentifier ts then requireIdentifier eof .identifier ts m else skip none ts m

def compass (eof : Span) (ts : List Token) (m : Trail) : Parsed ts.length (Option Tree × Bool) :=
  match ts with
  | t :: rest =>
    if t.kind = .colon then
      let r := requireIdentifier eof .compass rest (m.pass t)
      ⟨(r.value, r.value.isNone), r.rest, r.trail, r.complaints, Nat.le_succ_of_le r.fits⟩
    else skip (none, false) (t :: rest) m
  | [] => skip (none, false) [] m

def port (eof : Span) (t : Token) (ts : List Token) (m : Trail) : Parsed ts.length Tree :=
  let name := requireIdentifier eof .portName ts (m.pass t)
  let point := if name.value.isSome then compass eof name.rest name.trail
    else skip (none, false) name.rest name.trail
  let faulty := name.value.isNone || point.value.2
  ⟨point.trail.node t.span.start faulty (.port · name.value point.value.1), point.rest, point.trail.grown,
    name.complaints ++ point.complaints, Nat.le_trans point.fits name.fits⟩

def optionalPort (eof : Span) (ts : List Token) (m : Trail) : Parsed ts.length (Option Tree) :=
  match ts with
  | t :: rest =>
    if t.kind = .colon then
      let r := port eof t rest m
      ⟨some r.value, r.rest, r.trail, r.complaints, Nat.le_succ_of_le r.fits⟩
    else skip none (t :: rest) m
  | [] => skip none [] m

def nodeId (eof : Span) (t : Token) (ts : List Token) (m : Trail) : Parsed ts.length Tree :=
  let name := identifier eof t ts m
  let place := optionalPort eof name.rest name.trail
  ⟨place.trail.node t.span.start false (.nodeId · name.value place.value), place.rest, place.trail.grown,
    name.complaints ++ place.complaints, Nat.le_trans place.fits name.fits⟩

end DotMend.Parse
