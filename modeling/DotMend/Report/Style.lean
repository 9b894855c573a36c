namespace DotMend

inductive Style where
  | bold
  | title
  | dim
  | red
  | green
  | yellow
  | blue
  | boldRed
  | boldYellow
  deriving DecidableEq, Repr

namespace Style

def codes : Style → String
  | bold => "1"
  | title => "1;4"
  | dim => "2"
  | red => "31"
  | green => "32"
  | yellow => "33"
  | blue => "34"
  | boldRed => "1;31"
  | boldYellow => "1;33"

def reset : String := "\x1b[0m"

def start (s : Style) : String := "\x1b[" ++ s.codes ++ "m"

def paint (coloured : Bool) (s : Style) (text : String) : String :=
  if coloured then s.start ++ text.replace reset (reset ++ s.start) ++ reset else text

end Style

end DotMend
