import DotMend.Json.Lexeme

/-!
Reading JSON text. Containers that are still open wait on a stack, so that each lexeme is one step; the stack is
bounded, and of equal keys the last one counts.
-/

namespace DotMend.Json

inductive Frame where
  | array (items : List Json)
  | object (fields : List (String × Json)) (key : String)

inductive Reader where
  | value (stack : List Frame)
  | valueOrClose (stack : List Frame)
  | keyOrClose (stack : List Frame)
  | key (fields : List (String × Json)) (stack : List Frame)
  | colon (fields : List (String × Json)) (key : String) (stack : List Frame)
  | separator (frame : Frame) (stack : List Frame)
  | done (v : Json)

namespace Reader

def maxDepth : Nat := 127

def plug (v : Json) : List Frame → Reader
  | [] => .done v
  | .array items :: stack => .separator (.array (v :: items)) stack
  | .object fields k :: stack => .separator (.object ((k, v) :: fields) k) stack

def openArray? (stack : List Frame) : Option Reader :=
  if stack.length < maxDepth then some (.valueOrClose (.array [] :: stack)) else none

def openObject? (stack : List Frame) : Option Reader :=
  if stack.length < maxDepth then some (.keyOrClose stack) else none

def value? (stack : List Frame) : Lexeme → Option Reader
  | .openArray => openArray? stack
  | .openObject => openObject? stack
  | .scalar v => some (plug v stack)
  | _ => none

def step? : Reader → Lexeme → Option Reader
  | .value stack, l => value? stack l
  | .valueOrClose (.array [] :: stack), .closeArray => some (plug (.array []) stack)
  | .valueOrClose stack, l => value? stack l
  | .keyOrClose stack, .closeObject => some (plug (.object []) stack)
  | .keyOrClose stack, .scalar (.string k) => some (.colon [] k stack)
  | .key fields stack, .scalar (.string k) => some (.colon fields k stack)
  | .colon fields k stack, .colon => some (.value (.object fields k :: stack))
  | .separator (.array items) stack, .comma => some (.value (.array items :: stack))
  | .separator (.array items) stack, .closeArray => some (plug (.array items.reverse) stack)
  | .separator (.object fields _) stack, .comma => some (.key fields stack)
  | .separator (.object fields _) stack, .closeObject =>
    some (plug (.object (sorted fields.reverse)) stack)
  | _, _ => none

end Reader

def read? (t : List Char) : Option Json := do
  let lexemes ← Lexeme.all? t.length t
  match ← lexemes.foldlM Reader.step? (.value []) with
  | .done v => some v
  | _ => none

end DotMend.Json
