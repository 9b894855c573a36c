namespace DotMend.Path

inductive Component where
  | root
  | here
  | up
  | name (s : String)
  deriving DecidableEq, Repr

namespace Component

def key : Component → Nat × String
  | root => (0, "")
  | here => (1, "")
  | up => (2, "")
  | name s => (3, s)

def ofPart : String → Option Component
  | "" | "." => none
  | ".." => some up
  | s => some (name s)

end Component

def components (path : String) : List Component :=
  match path.splitOn "/" with
  | [""] => []
  | "" :: rest => .root :: rest.filterMap Component.ofPart
  | "." :: rest => .here :: rest.filterMap Component.ofPart
  | parts => parts.filterMap Component.ofPart

def isLess : List Component → List Component → Bool
  | _, [] => false
  | [], _ :: _ => true
  | a :: as, b :: bs =>
    let (i, s) := a.key
    let (j, t) := b.key
    i < j || i = j && (s < t || s = t && isLess as bs)

def le (p q : String) : Bool := !isLess (components q) (components p)

def same (p q : String) : Bool := components p = components q

def fileName? (path : String) : Option String :=
  match (components path).getLast? with
  | some (.name s) => some s
  | _ => none

/-- What follows the last dot of a name, unless the name begins with it. -/
def extension? (path : String) : Option String := do
  let name ← fileName? path
  let extension := (name.toList.reverse.takeWhile (· ≠ '.')).reverse
  let stem := name.length - extension.length
  if 1 < stem then some (String.ofList extension) else none

def join (dir name : String) : String :=
  if dir.isEmpty || dir.endsWith "/" then dir ++ name else dir ++ "/" ++ name

def dropRepeated : List String → List String
  | p :: q :: rest => if same p q then dropRepeated (p :: rest) else p :: dropRepeated (q :: rest)
  | ps => ps
  termination_by ps => ps.length

def arrange (paths : List String) : List String := dropRepeated (paths.mergeSort le)

def ancestors (path : String) : List String :=
  let parts := path.splitOn "/"
  let dirs := (List.range parts.length).map fun n => "/".intercalate (parts.take (parts.length - n))
  dirs.map fun d => if d.isEmpty then "/" else d

end DotMend.Path
