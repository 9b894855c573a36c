namespace DotMend

inductive Format where
  | text
  | json
  | diff
  deriving DecidableEq, Repr

namespace Format

def all : List Format := [text, json, diff]

def name : Format → String
  | text => "text"
  | json => "json"
  | diff => "diff"

def ofName? (s : String) : Option Format :=
  let lower := s.map Char.toLower
  all.find? (·.name = lower)

end Format

end DotMend
