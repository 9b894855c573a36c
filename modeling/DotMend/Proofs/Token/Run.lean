import DotMend.Proofs.Text.Replacement
import DotMend.Proofs.Token.Read

namespace DotMend.Token

structure Piece where
  text : Text
  token : Option (Kind × Text)
  fault : Option Fault

namespace Piece

def Reads (lineStart : Bool) (p : Piece) (rest : Text) : Prop := Lexeme.Read lineStart p.text rest p.token p.fault

def endsLine (p : Piece) : Bool := p.text.getLast? == some '\n'

def spanAt (offset : Nat) (p : Piece) : Span := ⟨offset, offset + p.text.bytes⟩

def tokenAt (offset : Nat) (p : Piece) : Option Token :=
  p.token.map fun (kind, value) => ⟨kind, p.spanAt offset, String.ofList value, p.fault.isSome⟩

def diagnosticAt (offset : Nat) (p : Piece) : Option Diagnostic := p.fault.map (·.diagnostic (p.spanAt offset))

@[simp] lemma spanAt_start (n : Nat) (p : Piece) : (p.spanAt n).start = n := rfl

@[simp] lemma spanAt_stop (n : Nat) (p : Piece) : (p.spanAt n).stop = n + p.text.bytes := rfl

end Piece

def spell (ps : List Piece) : Text := ps.flatMap Piece.text

@[simp] lemma spell_nil : spell [] = [] := rfl

@[simp] lemma spell_cons (p : Piece) (ps : List Piece) : spell (p :: ps) = p.text ++ spell ps := by simp [spell]

@[simp] lemma spell_append (ps qs : List Piece) : spell (ps ++ qs) = spell ps ++ spell qs := by simp [spell]

/-- Every piece is a lexeme in front of the pieces behind it. -/
inductive Run : Bool → List Piece → Prop
  | nil {b} : Run b []
  | cons {b p ps} : p.Reads b (spell ps) → Run p.endsLine ps → Run b (p :: ps)

lemma Run.ne_nil {b : Bool} {ps : List Piece} (h : Run b ps) {p : Piece} (hp : p ∈ ps) : p.text ≠ [] := by
  induction h with
  | nil => simp at hp
  | cons hr _ ih =>
    rcases List.mem_cons.mp hp with rfl | hp
    · exact Lexeme.Read.ne_nil hr
    · exact ih hp

theorem exists_run (b : Bool) (t : Text) : ∃ ps, Run b ps ∧ spell ps = t := by
  induction t using (measure List.length).wf.induction generalizing b with
  | h t ih =>
    cases t with
    | nil => exact ⟨[], .nil, rfl⟩
    | cons c t =>
      obtain ⟨x, rest, token, fault, rfl, hr⟩ := Lexeme.exists_read b c t
      let p : Piece := ⟨c :: x, token, fault⟩
      have hlt : rest.length < (c :: (x ++ rest)).length := by
        rw [List.length_cons, List.length_append]
        omega
      obtain ⟨ps, hps, rfl⟩ := ih rest hlt p.endsLine
      exact ⟨p :: ps, .cons hr hps, by simp [p]⟩

def placed : Nat → List Piece → List (Nat × Piece)
  | _, [] => []
  | n, p :: ps => (n, p) :: placed (n + p.text.bytes) ps

def tokensAt (n : Nat) (ps : List Piece) : List Token := (placed n ps).filterMap fun q => q.2.tokenAt q.1

def diagnosticsAt (n : Nat) (ps : List Piece) : List Diagnostic :=
  (placed n ps).filterMap fun q => q.2.diagnosticAt q.1

@[simp] lemma tokensAt_nil (n : Nat) : tokensAt n [] = [] := rfl

@[simp] lemma diagnosticsAt_nil (n : Nat) : diagnosticsAt n [] = [] := rfl

lemma tokensAt_cons (n : Nat) (p : Piece) (ps : List Piece) :
    tokensAt n (p :: ps) = (p.tokenAt n).toList ++ tokensAt (n + p.text.bytes) ps := by
  simp only [tokensAt, placed, List.filterMap_cons]
  cases p.tokenAt n <;> rfl

lemma diagnosticsAt_cons (n : Nat) (p : Piece) (ps : List Piece) :
    diagnosticsAt n (p :: ps) = (p.diagnosticAt n).toList ++ diagnosticsAt (n + p.text.bytes) ps := by
  simp only [diagnosticsAt, placed, List.filterMap_cons]
  cases p.diagnosticAt n <;> rfl

lemma map_snd_placed (n : Nat) (ps : List Piece) : (placed n ps).map Prod.snd = ps := by
  induction ps generalizing n with
  | nil => rfl
  | cons p ps ih => simp [placed, ih]

lemma placed_append (n : Nat) (ps qs : List Piece) :
    placed n (ps ++ qs) = placed n ps ++ placed (n + (spell ps).bytes) qs := by
  induction ps generalizing n with
  | nil => simp [placed]
  | cons p ps ih => simp [placed, ih, Nat.add_assoc]

lemma tokensAt_append (n : Nat) (ps qs : List Piece) :
    tokensAt n (ps ++ qs) = tokensAt n ps ++ tokensAt (n + (spell ps).bytes) qs := by
  simp [tokensAt, placed_append]

lemma Piece.Reads.scanFrom {b : Bool} {p : Piece} {rest : Text} (h : p.Reads b rest) (n : Nat) :
    Token.scanFrom n b (p.text ++ rest) =
      ⟨(p.tokenAt n).toList ++ (Token.scanFrom (n + p.text.bytes) p.endsLine rest).tokens,
        (p.diagnosticAt n).toList ++ (Token.scanFrom (n + p.text.bytes) p.endsLine rest).diagnostics⟩ := by
  obtain ⟨c, x, hx⟩ := List.exists_cons_of_ne_nil (Lexeme.Read.ne_nil h)
  rw [Piece.Reads, hx, ← Lexeme.front_iff] at h
  have hl : (p.text.getLast? == some '\n') = p.endsLine := rfl
  rw [show p.text ++ rest = c :: (x ++ rest) by rw [hx, List.cons_append], Token.scanFrom]
  simp only [h, List.take_left, List.drop_left, ← hx, hl]
  rfl

theorem Run.scanFrom {b : Bool} {ps : List Piece} (h : Run b ps) (n : Nat) :
    Token.scanFrom n b (spell ps) = ⟨tokensAt n ps ++ [endAt (n + (spell ps).bytes)], diagnosticsAt n ps⟩ := by
  induction h generalizing n with
  | nil => simp [Token.scanFrom]
  | cons hr _ ih =>
    rw [spell_cons, hr.scanFrom, ih, tokensAt_cons, diagnosticsAt_cons, Text.bytes_append, Nat.add_assoc,
      List.append_assoc]

theorem Run.scan {ps : List Piece} (h : Run true ps) :
    Token.scan (spell ps) = ⟨tokensAt 0 ps ++ [endAt (spell ps).bytes], diagnosticsAt 0 ps⟩ := by
  rw [Token.scan, h.scanFrom, Nat.zero_add]

end DotMend.Token
