import DotMend.Text.Slice

namespace DotMend.Toml

def isBlank (c : Char) : Bool := c = ' ' || c = '\t'

def isPlain (c : Char) : Bool := c = '\t' || 0x20 ≤ c.toNat && c.toNat ≠ 0x7f

def isBare (c : Char) : Bool := c.isAlphanum || c = '_' || c = '-'

def skipBlanks (t : Text) : Text := t.dropWhile isBlank

def newline? : Text → Option Text
  | '\n' :: rest => some rest
  | '\r' :: '\n' :: rest => some rest
  | _ => none

def skipComment : Text → Text
  | '#' :: rest => rest.dropWhile isPlain
  | t => t

def lineEnd? (t : Text) : Option Text :=
  match skipComment (skipBlanks t) with
  | [] => some []
  | rest => newline? rest

def skipLines (inComment : Bool) : Text → Text
  | [] => []
  | '\n' :: rest => skipLines false rest
  | '\r' :: '\n' :: rest => skipLines false rest
  | c :: rest =>
    if inComment then if isPlain c then skipLines true rest else c :: rest
    else if isBlank c then skipLines false rest
    else if c = '#' then skipLines true rest
    else c :: rest

def hexValue? (c : Char) : Option Nat :=
  if c.isDigit then some (c.toNat - 48)
  else if 'a' ≤ c ∧ c ≤ 'f' then some (c.toNat - 87)
  else if 'A' ≤ c ∧ c ≤ 'F' then some (c.toNat - 55)
  else none

def codePoint? (digits : Text) : Option Char := do
  let n ← digits.foldlM (fun n c => (hexValue? c).map (16 * n + ·)) 0
  if n < 0xd800 ∨ 0xdfff < n ∧ n < 0x110000 then some (Char.ofNat n) else none

def escape? : Char → Option Char
  | 'b' => some '\x08'
  | 't' => some '\t'
  | 'n' => some '\n'
  | 'f' => some '\x0c'
  | 'r' => some '\r'
  | '"' => some '"'
  | '\\' => some '\\'
  | _ => none

def consChar (c : Char) (r : Option (Text × Text)) : Option (Text × Text) :=
  r.map fun (body, rest) => (c :: body, rest)

def quotedBody? : Text → Option (Text × Text)
  | '"' :: rest => some ([], rest)
  | '\\' :: 'u' :: a :: b :: c :: d :: rest => do consChar (← codePoint? [a, b, c, d]) (quotedBody? rest)
  | '\\' :: 'U' :: a :: b :: c :: d :: e :: f :: g :: h :: rest => do
    consChar (← codePoint? [a, b, c, d, e, f, g, h]) (quotedBody? rest)
  | '\\' :: c :: rest => do consChar (← escape? c) (quotedBody? rest)
  | c :: rest => if isPlain c then consChar c (quotedBody? rest) else none
  | [] => none

def literalBody? : Text → Option (Text × Text)
  | '\x27' :: rest => some ([], rest)
  | c :: rest => if isPlain c then consChar c (literalBody? rest) else none
  | [] => none

/-- Up to two quotes right before the closing ones belong to the text. -/
def closing (quote : Char) : Text → Text × Text
  | a :: b :: rest =>
    if a = quote ∧ b = quote then ([quote, quote], rest)
    else if a = quote then ([quote], b :: rest)
    else ([], a :: b :: rest)
  | [a] => if a = quote then ([quote], []) else ([], [a])
  | [] => ([], [])

def hidesLine (t : Text) : Bool := (newline? (skipBlanks t)).isSome

def longQuotedBody? (skipping : Bool) : Text → Option (Text × Text)
  | '"' :: '"' :: '"' :: rest => some (closing '"' rest)
  | '\n' :: rest => if skipping then longQuotedBody? true rest else consChar '\n' (longQuotedBody? false rest)
  | '\r' :: '\n' :: rest =>
    if skipping then longQuotedBody? true rest else consChar '\n' (longQuotedBody? false rest)
  | '\\' :: 'u' :: a :: b :: c :: d :: rest => do consChar (← codePoint? [a, b, c, d]) (longQuotedBody? false rest)
  | '\\' :: 'U' :: a :: b :: c :: d :: e :: f :: g :: h :: rest => do
    consChar (← codePoint? [a, b, c, d, e, f, g, h]) (longQuotedBody? false rest)
  | '\\' :: c :: rest =>
    if hidesLine (c :: rest) then longQuotedBody? true (c :: rest)
    else do consChar (← escape? c) (longQuotedBody? false rest)
  | c :: rest =>
    if skipping && isBlank c then longQuotedBody? true rest
    else if isPlain c then consChar c (longQuotedBody? false rest)
    else none
  | [] => none

def longLiteralBody? : Text → Option (Text × Text)
  | '\x27' :: '\x27' :: '\x27' :: rest => some (closing '\x27' rest)
  | '\n' :: rest => consChar '\n' (longLiteralBody? rest)
  | '\r' :: '\n' :: rest => consChar '\n' (longLiteralBody? rest)
  | c :: rest => if isPlain c then consChar c (longLiteralBody? rest) else none
  | [] => none

def skipFirstLine (t : Text) : Text := (newline? t).getD t

def quoted? : Text → Option (Text × Text)
  | '"' :: '"' :: '"' :: rest => longQuotedBody? false (skipFirstLine rest)
  | '"' :: rest => quotedBody? rest
  | '\x27' :: '\x27' :: '\x27' :: rest => longLiteralBody? (skipFirstLine rest)
  | '\x27' :: rest => literalBody? rest
  | _ => none

def key? : Text → Option (String × Text)
  | '"' :: rest => (quotedBody? rest).map fun (k, t) => (String.ofList k, t)
  | '\x27' :: rest => (literalBody? rest).map fun (k, t) => (String.ofList k, t)
  | t =>
    let name := t.takeWhile isBare
    if name.isEmpty then none else some (String.ofList name, t.drop name.length)

def keys? : Nat → Text → Option (List String × Text)
  | 0, _ => none
  | steps + 1, t => do
    let (key, rest) ← key? t
    match skipBlanks rest with
    | '.' :: more => do
      let (path, after) ← keys? steps (skipBlanks more)
      pure (key :: path, after)
    | after => pure ([key], after)

end DotMend.Toml
