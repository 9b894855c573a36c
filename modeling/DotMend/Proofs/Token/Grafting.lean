import DotMend.Proofs.Token.Gluing

namespace DotMend.Token

open Lexeme

lemma Lexeme.Read.unique {b : Bool} {x rest x' rest' : Text} {token token' : Option (Kind × Text)}
    {fault fault' : Option Fault} (h : Read b x rest token fault) (h' : Read b x' rest' token' fault')
    (heq : x ++ rest = x' ++ rest') : x = x' ∧ rest = rest' ∧ token = token' ∧ fault = fault' := by
  obtain ⟨c, y, rfl⟩ := List.exists_cons_of_ne_nil h.ne_nil
  obtain ⟨d, y', rfl⟩ := List.exists_cons_of_ne_nil h'.ne_nil
  rw [List.cons_append, List.cons_append] at heq
  obtain ⟨rfl, hrest⟩ := List.cons.inj heq
  have hfront := front_of_read h
  rw [hrest, front_of_read h', Lexeme.mk.injEq] at hfront
  obtain ⟨hlen, htoken, hfault⟩ := hfront
  obtain ⟨rfl, hbehind⟩ := List.append_inj hrest hlen.symm
  exact ⟨rfl, hbehind, htoken.symm, hfault.symm⟩

theorem Run.unique {b : Bool} {ps ps' : List Piece} (h : Run b ps) (h' : Run b ps') (heq : spell ps = spell ps') :
    ps = ps' := by
  induction h generalizing ps' with
  | nil =>
    cases h' with
    | nil => rfl
    | cons hr' _ =>
      rw [spell_nil, spell_cons] at heq
      exact absurd (List.append_eq_nil_iff.mp heq.symm).1 (Lexeme.Read.ne_nil hr')
  | @cons b p ps hr _ ih =>
    cases h' with
    | nil =>
      rw [spell_nil, spell_cons] at heq
      exact absurd (List.append_eq_nil_iff.mp heq).1 (Lexeme.Read.ne_nil hr)
    | @cons _ p' ps' hr' hps' =>
      rw [spell_cons, spell_cons] at heq
      obtain ⟨htext, hrest, htoken, hfault⟩ := Lexeme.Read.unique hr hr' heq
      obtain ⟨text, token, fault⟩ := p
      obtain ⟨text', token', fault'⟩ := p'
      obtain rfl : text = text' := htext
      obtain rfl : token = token' := htoken
      obtain rfl : fault = fault' := hfault
      rw [ih hps' hrest]

theorem Run.exchange {b : Bool} {xs ys zs : List Piece} (h : Run b (xs ++ ys))
    (hreads : ∀ before p behind, xs = before ++ p :: behind → ∀ b', p.Reads b' (spell (behind ++ ys)) →
      p.Reads b' (spell (behind ++ zs)))
    (hrun : ∀ b', Run b' ys → Run b' zs) : Run b (xs ++ zs) := by
  induction xs generalizing b with
  | nil => exact hrun b h
  | cons p xs ih =>
    obtain ⟨hp, hxs⟩ := run_cons_iff.mp h
    apply Run.cons
    · exact hreads [] p xs rfl b hp
    · apply ih hxs
      intro before q behind hq
      exact hreads (p :: before) q behind (by rw [hq, List.cons_append])

lemma Lexeme.alike_append_cons_cons (x : Text) (c d : Char) (y z : Text) :
    Alike (x ++ c :: d :: y) (x ++ c :: d :: z) := by
  rcases x with _ | ⟨e, _ | ⟨f, x⟩⟩
  all_goals exact ⟨.refl _, fun _ => .refl _⟩

theorem Run.exchange_behind {b : Bool} {xs ys zs : List Piece} {p : Piece} {c d : Char} {x : Text}
    (h : Run b (xs ++ p :: ys)) (hp : p.text = c :: d :: x) (hrun : ∀ b', Run b' (p :: ys) → Run b' (p :: zs)) :
    Run b (xs ++ p :: zs) := by
  apply h.exchange _ hrun
  intro before q behind _ b' hq
  apply Read.congr hq
  rw [spell_append, spell_append, spell_cons, spell_cons, hp]
  exact alike_append_cons_cons _ c d _ _

lemma Piece.Suits.of_head {p : Piece} {b : Bool} {rest rest' : Text} (h : p.Suits b rest)
    (hhead : ∀ c, rest'.head? = some c → rest.head? = some c) : p.Suits b rest' where
  hash := h.hash
  line hl c hc := h.line hl c (hhead c hc)
  apart c hc := h.apart c (hhead c hc)

theorem Run.exchange_of_sound {b : Bool} {xs ys zs : List Piece} (h : Run b (xs ++ ys)) (hs : ∀ p ∈ xs, p.Sound)
    (hhead : ∀ c, (spell zs).head? = some c → (spell ys).head? = some c) (hrun : ∀ b', Run b' ys → Run b' zs) :
    Run b (xs ++ zs) := by
  apply h.exchange _ hrun
  intro before p behind hxs b' hp
  have hsound := hs p (by simp [hxs])
  rw [hsound.reads_iff] at hp ⊢
  apply hp.of_head
  intro c hc
  rw [spell_append, List.head?_append] at hc ⊢
  cases hb : (spell behind).head? with
  | some d => rwa [hb] at hc
  | none =>
    rw [hb, Option.none_or] at hc
    exact hhead c hc

lemma Run.left_of_sound {b : Bool} {xs ys : List Piece} (h : Run b (xs ++ ys)) (hs : ∀ p ∈ xs, p.Sound) :
    Run b xs := by
  have hnil := @Run.exchange_of_sound b xs ys [] h hs nofun fun _ _ => .nil
  rwa [List.append_nil] at hnil

end DotMend.Token
