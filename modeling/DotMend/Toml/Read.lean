import DotMend.Toml.Scalar

namespace DotMend.Toml

def maxDepth : Nat := 79

def items? (value? : Text → Option (Toml × Text)) : Nat → Text → Option (List Toml × Text)
  | 0, _ => none
  | steps + 1, t =>
    match skipLines false t with
    | ']' :: rest => some ([], rest)
    | t => do
      let (v, rest) ← value? t
      match skipLines false rest with
      | ']' :: after => pure ([v], after)
      | ',' :: more => do
        let (vs, after) ← items? value? steps more
        pure (v :: vs, after)
      | _ => none

def pair? (value? : Text → Option (Toml × Text)) (t : Text) : Option (List String × Toml × Text) := do
  let (path, rest) ← keys? maxDepth t
  match rest with
  | '=' :: more => do
    let (v, after) ← value? (skipBlanks more)
    pure (path, v, after)
  | _ => none

def insertPath (path : List String) (v : Toml) (es : Entries) : Option Entries := do
  insert v (← path.getLast?) path.dropLast es

def pairs? (value? : Text → Option (Toml × Text)) (es : Entries) : Nat → Text → Option (Entries × Text)
  | 0, _ => none
  | steps + 1, t => do
    let (path, v, rest) ← pair? value? (skipBlanks t)
    let es ← insertPath path v es
    match skipBlanks rest with
    | '\x7d' :: after => pure (es, after)
    | ',' :: more => pairs? value? es steps more
    | _ => none

def plainValue? : Text → Option (Toml × Text)
  | '"' :: rest => (quoted? ('"' :: rest)).map fun (s, after) => (.string (String.ofList s), after)
  | '\x27' :: rest => (quoted? ('\x27' :: rest)).map fun (s, after) => (.string (String.ofList s), after)
  | t => scalar? t

def value? : Nat → Text → Option (Toml × Text)
  | depth + 1, '[' :: rest => (items? (value? depth) rest.length rest).map fun (vs, after) => (.array vs, after)
  | depth + 1, '\x7b' :: rest =>
    match skipBlanks rest with
    | '\x7d' :: after => some (.table .inline [], after)
    | rest => (pairs? (value? depth) [] rest.length rest).map fun (es, after) => (.table .inline es, after)
  | _, t => plainValue? t

def header? (t : Text) : Option (Bool × List String × Text) :=
  match t with
  | '[' :: '[' :: rest => do
    let (path, after) ← keys? maxDepth (skipBlanks rest)
    match after with
    | ']' :: ']' :: after => pure (true, path, ← lineEnd? after)
    | _ => none
  | '[' :: rest => do
    let (path, after) ← keys? maxDepth (skipBlanks rest)
    match after with
    | ']' :: after => pure (false, path, ← lineEnd? after)
    | _ => none
  | _ => none

def lines? (place : List String) (es : Entries) : Nat → Text → Option Entries
  | 0, _ => none
  | steps + 1, t =>
    match skipLines false t with
    | [] => some es
    | '[' :: rest => do
      let (several, path, after) ← header? ('[' :: rest)
      let es ← if several then openNext path es else openTable path es
      lines? path es steps after
    | t => do
      let (path, v, rest) ← pair? (value? maxDepth) t
      lines? place (← within (insertPath path v) place es) steps (← lineEnd? rest)

def read? (t : Text) : Option Entries :=
  let body :=
    match t with
    | '\ufeff' :: rest => rest
    | t => t
  lines? [] [] (body.length + 1) body

end DotMend.Toml
