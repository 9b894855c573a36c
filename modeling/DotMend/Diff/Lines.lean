import DotMend.Text.Slice

/-!
Two ways to cut a text into lines. `splitLines` keeps the line ends, so that the lines add up to the text;
`bareLines` drops them.
-/

namespace DotMend.Text

def consLine (c : Char) : List Text → List Text
  | [] => [[c]]
  | l :: ls => (c :: l) :: ls

/-- Lines with their ends, which are `\n`, `\r\n` and a `\r` alone. -/
def splitLines : Text → List Text
  | [] => []
  | '\r' :: '\n' :: rest => ['\r', '\n'] :: splitLines rest
  | c :: rest => if c = '\n' ∨ c = '\r' then [c] :: splitLines rest else consLine c (splitLines rest)

def bareLines : Text → List Text
  | [] => []
  | '\n' :: rest => [] :: bareLines rest
  | '\r' :: '\n' :: rest => [] :: bareLines rest
  | c :: rest => consLine c (bareLines rest)

def isEnded (line : Text) : Bool :=
  match line.getLast? with
  | some c => c = '\n' || c = '\r'
  | none => false

theorem flatten_consLine (c : Char) (ls : List Text) : (consLine c ls).flatten = c :: ls.flatten := by
  cases ls <;> rfl

theorem flatten_splitLines (t : Text) : (splitLines t).flatten = t := by
  fun_induction splitLines t <;> simp_all [flatten_consLine]

end DotMend.Text
