import DotMend.Parse.Name

/-!
Bracketed attribute lists. A list that meets a closing brace or the end of the file ends there, unclosed.
-/

namespace DotMend.Parse

def attrValue (eof : Span) (ts : List Token) (m : Trail) : Parsed ts.length (Option Tree) :=
  match ts with
  | t :: rest =>
    if t.kind = .equals then
      let r := requireIdentifier eof .attrValue rest (m.pass t)
      ⟨r.value, r.rest, r.trail, r.complaints, Nat.le_succ_of_le r.fits⟩
    else miss eof .equals none (t :: rest) m
  | [] => miss eof .equals none [] m

def endsAttr (k : Kind) : Bool := k = .semicolon || k = .comma

def attr (eof : Span) (t : Token) (ts : List Token) (m : Trail) : Parsed ts.length Tree :=
  let left := identifier eof t ts m
  let right := attrValue eof left.rest left.trail
  let stop := optional endsAttr right.rest right.trail
  ⟨stop.trail.node t.span.start right.value.isNone (.attr · left.value right.value stop.value), stop.rest,
    stop.trail.grown, left.complaints ++ right.complaints ++ stop.complaints,
    Nat.le_trans stop.fits (Nat.le_trans right.fits left.fits)⟩

def attrs (eof : Span) (ts : List Token) (m : Trail) : Parsed ts.length (List Tree × Bool) :=
  match ts with
  | [] => miss eof .closeBracket ([], true) [] m
  | t :: rest =>
    if t.kind = .closeBracket then ⟨([], false), rest, m.pass t, [], Nat.le_succ _⟩
    else if t.kind = .closeBrace then miss eof .closeBracket ([], true) (t :: rest) m
    else if t.kind.isIdentifier then
      let a := attr eof t rest m
      let r := attrs eof a.rest a.trail
      ⟨(a.value :: r.value.1, r.value.2), r.rest, r.trail, a.complaints ++ r.complaints,
        Nat.le_succ_of_le (Nat.le_trans r.fits a.fits)⟩
    else
      let r := attrs eof rest (m.pass t)
      ⟨(r.value.1, true), r.rest, r.trail, expected eof .attrName (t :: rest) :: r.complaints,
        Nat.le_succ_of_le r.fits⟩
  termination_by ts.length
  decreasing_by
    · have := (attr eof t rest m).fits; simp only [List.length_cons]; omega
    · simp

def attrList (eof : Span) (t : Token) (ts : List Token) (m : Trail) : Parsed ts.length Tree :=
  let r := attrs eof ts (m.pass t)
  ⟨r.trail.node t.span.start r.value.2 (.attrList · r.value.1), r.rest, r.trail.grown, r.complaints, r.fits⟩

def attrLists (eof : Span) (ts : List Token) (m : Trail) : Parsed ts.length (List Tree) :=
  match ts with
  | t :: rest =>
    if t.kind = .openBracket then
      let a := attrList eof t rest m
      let r := attrLists eof a.rest a.trail
      ⟨a.value :: r.value, r.rest, r.trail, a.complaints ++ r.complaints,
        Nat.le_succ_of_le (Nat.le_trans r.fits a.fits)⟩
    else skip [] (t :: rest) m
  | [] => skip [] [] m
  termination_by ts.length
  decreasing_by have := (attrList eof t rest m).fits; simp only [List.length_cons]; omega

end DotMend.Parse
