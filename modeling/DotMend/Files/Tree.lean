import DotMend.Files.Basic

namespace DotMend

inductive FileTree where
  | file (bytes : ByteArray)
  | directory (entries : List (String × FileTree))
  | sink

structure FileStore where
  tree : FileTree
  place : List String

namespace FileTree

def empty : FileTree := directory []

def child? (name : String) (es : List (String × FileTree)) : Option FileTree :=
  (es.find? (·.1 = name)).map Prod.snd

def putChild (name : String) (t : FileTree) (es : List (String × FileTree)) : List (String × FileTree) :=
  if es.any (·.1 = name) then es.map fun e => if e.1 = name then (name, t) else e else es ++ [(name, t)]

def get? : List String → FileTree → Option FileTree
  | [], t => some t
  | name :: rest, directory es => (child? name es).bind (get? rest)
  | _ :: _, _ => none

def kind : FileTree → FileKind
  | file _ => .file
  | directory _ => .directory
  | sink => .other

def putFile (bytes : ByteArray) : List String → FileTree → FileTree
  | [], _ => file bytes
  | name :: rest, directory es => directory (putChild name (putFile bytes rest ((child? name es).getD empty)) es)
  | name :: rest, _ => directory [(name, putFile bytes rest empty)]

def makeDirectory : List String → FileTree → FileTree
  | [], t => t
  | name :: rest, directory es => directory (putChild name (makeDirectory rest ((child? name es).getD empty)) es)
  | name :: rest, _ => directory [(name, makeDirectory rest empty)]

def nameLimit : Nat := 255

def step (t : FileTree) (place : List String) (c : Path.Component) : Except FileError (List String) :=
  match t.get? place with
  | none => .error .notFound
  | some (directory es) =>
    match c with
    | .root => .ok []
    | .here => .ok place
    | .up => .ok place.dropLast
    | .name s =>
      if nameLimit < s.utf8ByteSize then .error .nameTooLong
      else if (child? s es).isSome then .ok (place ++ [s])
      else .error .notFound
  | some _ => .error .notDirectory

end FileTree

namespace FileStore

def pathLimit : Nat := 4095

def wantsDirectory (path : String) : Bool := path.endsWith "/" || path.endsWith "/."

def locate (s : FileStore) (path : String) : Except FileError (List String × FileTree) := do
  if path.isEmpty then throw .notFound
  if pathLimit < path.utf8ByteSize then throw .nameTooLong
  let found ← (Path.components path).foldlM s.tree.step s.place
  match s.tree.get? found with
  | none => throw .notFound
  | some t => if wantsDirectory path ∧ t.kind ≠ .directory then throw .notDirectory else pure (found, t)

def kind? (s : FileStore) (path : String) : Option FileKind :=
  match s.locate path with
  | .ok (_, t) => some t.kind
  | .error _ => none

def entries (s : FileStore) (path : String) : List (String × FileKind) :=
  match s.locate path with
  | .ok (_, .directory es) => es.map fun (name, t) => (name, t.kind)
  | _ => []

def read (s : FileStore) (path : String) : Except FileError Text := do
  match ← s.locate path with
  | (_, .directory _) => throw .isDirectory
  | (_, .sink) => pure []
  | (_, .file bytes) =>
    match String.fromUTF8? bytes with
    | some t => pure t.toList
    | none => throw .notText

def write (s : FileStore) (path : String) (t : Text) : Except FileError FileStore := do
  match ← s.locate path with
  | (_, .directory _) => throw .isDirectory
  | (_, .sink) => pure s
  | (place, .file _) => pure { s with tree := s.tree.putFile (String.ofList t).toUTF8 place }

def fileSystem : FileSystem (StateM FileStore) where
  currentDir := do
    pure ("/" ++ "/".intercalate (← get).place)
  kind? path := do pure ((← get).kind? path)
  entries path := do pure ((← get).entries path)
  read path := do pure ((← get).read path)
  write path t := do
    match (← get).write path t with
    | .ok s => do
      set s
      pure (.ok ())
    | .error e => pure (.error e)

end FileStore

end DotMend
