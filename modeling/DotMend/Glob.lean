/-!
Patterns for paths. `?` stands for any character, `*` for any characters, slashes among them, `[a-z]` and `[!a-z]`
for a character of a class or outside of it, and `**` as a whole part for any number of directories.
-/

namespace DotMend

inductive Glob.Token where
  | char (c : Char)
  | anyChar
  | anySequence
  | directories
  | within (ranges : List (Char × Char))
  | except (ranges : List (Char × Char))
  deriving DecidableEq, Repr

abbrev Glob := List Glob.Token

namespace Glob

def ranges : List Char → List (Char × Char)
  | a :: '-' :: b :: rest => (a, b) :: ranges rest
  | c :: rest => (c, c) :: ranges rest
  | [] => []

def inRanges (rs : List (Char × Char)) (c : Char) : Bool := rs.any fun (a, b) => a ≤ c && c ≤ b

def classBody? : List Char → Option (List Char × List Char)
  | [] => none
  | c :: rest =>
    match rest.dropWhile (· ≠ ']') with
    | [] => none
    | _ :: after => some (c :: rest.takeWhile (· ≠ ']'), after)

def class? : List Char → Option (Token × List Char)
  | '!' :: rest => (classBody? rest).map fun (body, after) => (.except (ranges body), after)
  | t => (classBody? t).map fun (body, after) => (.within (ranges body), after)

/-- Two stars behind a slash, or at the start, stand for directories. A slash behind them belongs to them. -/
def stars? (before : Option Char) (count : Nat) (rest : List Char) : Option (Token × List Char) :=
  if count = 1 then some (.anySequence, rest)
  else if count = 2 ∧ (before = none ∨ before = some '/') then
    match rest with
    | [] => some (.directories, [])
    | '/' :: more => some (.directories, more)
    | _ => none
  else none

def token? (before : Option Char) (c : Char) (rest : List Char) : Option (Token × List Char) :=
  match c with
  | '?' => some (.anyChar, rest)
  | '*' => stars? before ((rest.takeWhile (· = '*')).length + 1) (rest.dropWhile (· = '*'))
  | '[' => class? rest
  | c => some (.char c, rest)

def tokens? (before : Option Char) : Nat → List Char → Option Glob
  | _, [] => some []
  | 0, _ => none
  | steps + 1, c :: rest => do
    let (t, after) ← token? before c rest
    let last := ((c :: rest).take (rest.length + 1 - after.length)).getLast?
    pure (t :: (← tokens? last steps after))

def ofText? (t : List Char) : Option Glob := tokens? none t.length t

def directoryTails : List Char → List (List Char)
  | [] => [[]]
  | c :: rest => if c = '/' then rest :: directoryTails rest else directoryTails rest

def tails : List Char → List (List Char)
  | [] => [[]]
  | c :: rest => (c :: rest) :: tails rest

def Token.accepts (c : Char) : Token → Bool
  | .char d => c = d
  | .anyChar => true
  | .within rs => inRanges rs c
  | .except rs => !inRanges rs c
  | .anySequence | .directories => false

/-- What a token may leave over of a text, from what the tokens in front of it may have left over. Both are ends of
the same text, each once and the longest first, so there are never more of them than characters. -/
def Token.rests : Token → List (List Char) → List (List Char)
  | _, [] => []
  | .anySequence, t :: _ => tails t
  | .directories, t :: ts => ((t :: ts).merge (directoryTails t) fun s u => u.length ≤ s.length).eraseReps
  | token, t :: ts =>
    (t :: ts).filterMap fun
      | [] => none
      | c :: rest => if token.accepts c then some rest else none

def matchesText (g : Glob) (t : List Char) : Bool :=
  (g.foldl (fun ts token => token.rests ts) [t]).any List.isEmpty

end Glob

end DotMend
