import DotMend.Proofs.Source.Reading
import DotMend.Proofs.Token.Respelling

/-! Scanning from the middle of a text. Of what stands in front of a lexeme, it can only tell whether a line begins
there; only a number sign looks at that. -/

namespace DotMend

def Relocation.shift (n : Nat) : Relocation := ⟨(n + ·), fun _ _ h => Nat.add_le_add_left h n, fun _ k => k⟩

namespace Token

variable {b : Bool} {before behind ps qs : List Piece} {p : Piece} {t : Token} {i n : Nat}

lemma Lexeme.Read.anywhere {x rest : Text} {token : Kind × Text} {fault : Option Fault}
    (h : Lexeme.Read b x rest (some token) fault) (hash : token.1 = .unknown → x ≠ ['#']) (b' : Bool) :
    Lexeme.Read b' x rest (some token) fault := by
  cases h with
  | mark h => exact .mark h
  | directed => exact .directed
  | undirected => exact .undirected
  | quoted h => exact .quoted h
  | openQuoted h => exact .openQuoted h
  | html h => exact .html h
  | openHtml h => exact .openHtml h
  | numeral hx hr => exact .numeral hx hr
  | word hc hx hr => exact .word hc hx hr
  | stray h => exact .stray { h with not_hash := fun hc => absurd (congrArg ([·]) hc) (hash rfl) }

lemma Run.anywhere (h : Run b (p :: behind)) {token : Kind × Text} (ht : p.token = some token)
    (hash : token.1 = .unknown → p.text ≠ ['#']) (b' : Bool) : Run b' (p :: behind) := by
  cases h with
  | cons hr hbehind =>
    rw [Piece.Reads, ht] at hr
    refine .cons ?_ hbehind
    rw [Piece.Reads, ht]
    exact hr.anywhere hash b'

lemma moves_shift (d n : Nat) (ps : List Piece) : Moves (.shift d) n ps ps := by
  have h := @moves_map (.shift d) n ps Prod.snd fun q _ => by
    refine ⟨.same, ?_, (Nat.add_assoc d q.1 q.2.text.bytes).symm⟩
    rw [Piece.tokenAt, Piece.tokenAt, Option.map_map]
    simp only [Piece.spanAt, Relocation.shift, Function.comp_def, Relocation.token, Relocation.span, Nat.add_assoc]
  rwa [map_snd_placed] at h

lemma diagnosticsAt_append (n : Nat) (ps qs : List Piece) :
    diagnosticsAt n (ps ++ qs) = diagnosticsAt n ps ++ diagnosticsAt (n + (spell ps).bytes) qs := by
  simp [diagnosticsAt, placed_append]

lemma exists_placed_of_mem_diagnosticsAt {d : Diagnostic} (h : d ∈ diagnosticsAt n ps) :
    ∃ q ∈ placed n ps, d.span = q.2.spanAt q.1 := by
  obtain ⟨q, hq, hd⟩ := List.mem_filterMap.mp h
  obtain ⟨_, -, rfl⟩ := Option.map_eq_some_iff.mp hd
  exact ⟨q, hq, rfl⟩

lemma Run.diagnosticsAt_behind (h : Run b (before ++ qs)) :
    (diagnosticsAt 0 (before ++ qs)).filter ((spell before).bytes ≤ ·.span.start) =
      diagnosticsAt (spell before).bytes qs := by
  rw [diagnosticsAt_append, Nat.zero_add, List.filter_append]
  have hbefore : (diagnosticsAt 0 before).filter ((spell before).bytes ≤ ·.span.start) = [] := by
    rw [List.filter_eq_nil_iff]
    intro d hd
    obtain ⟨q, hq, hspan⟩ := exists_placed_of_mem_diagnosticsAt hd
    have hstop := (le_of_mem_placed hq).2
    obtain ⟨_, _, rfl, -⟩ := exists_of_mem_placed hq
    have hpos := Text.bytes_pos (h.ne_nil (p := q.2) (by simp))
    simp only [hspan, Piece.spanAt_start, decide_eq_true_eq]
    omega
  have hbehind : (diagnosticsAt (spell before).bytes qs).filter ((spell before).bytes ≤ ·.span.start) =
      diagnosticsAt (spell before).bytes qs := by
    rw [List.filter_eq_self]
    intro d hd
    obtain ⟨q, hq, hspan⟩ := exists_placed_of_mem_diagnosticsAt hd
    simpa only [hspan, Piece.spanAt_start, decide_eq_true_eq] using (le_of_mem_placed hq).1
  rw [hbefore, hbehind, List.nil_append]

lemma scan_behind (h : Run true (before ++ qs)) (hqs : Run true qs) :
    (scan (spell qs)).tokens.map (Relocation.shift (spell before).bytes).token =
      (scan (spell (before ++ qs))).tokens.drop (tokensAt 0 before).length ∧
    (scan (spell qs)).diagnostics.map (Relocation.shift (spell before).bytes).diagnostic =
      (scan (spell (before ++ qs))).diagnostics.filter ((spell before).bytes ≤ ·.span.start) := by
  have hmoves := moves_shift (spell before).bytes 0 qs
  rw [h.scan, hqs.scan]
  constructor
  · rw [tokensAt_append, List.append_assoc, List.drop_left, List.map_append, ← hmoves.tokensAt, spell_append,
      Text.bytes_append, Nat.zero_add]
    rfl
  · rw [h.diagnosticsAt_behind, ← hmoves.diagnosticsAt]
    rfl

lemma exists_of_getElem?_tokensAt (h : (tokensAt n ps)[i]? = some t) :
    ∃ before p behind, ps = before ++ p :: behind ∧
    p.tokenAt (n + (spell before).bytes) = some t ∧ i = (tokensAt n before).length := by
  induction ps generalizing n i with
  | nil => cases h
  | cons p ps ih =>
    rw [tokensAt_cons] at h
    cases hp : p.tokenAt n with
    | none =>
      rw [hp] at h
      obtain ⟨before, q, behind, rfl, hq, rfl⟩ := ih h
      refine ⟨p :: before, q, behind, rfl, ?_, ?_⟩
      · rwa [spell_cons, Text.bytes_append, ← Nat.add_assoc]
      · simp [tokensAt_cons, hp]
    | some u =>
      rw [hp] at h
      cases i with
      | zero => exact ⟨[], p, ps, rfl, by simpa [hp] using h, rfl⟩
      | succ i =>
        obtain ⟨before, q, behind, rfl, hq, rfl⟩ := ih h
        refine ⟨p :: before, q, behind, rfl, ?_, ?_⟩
        · rwa [spell_cons, Text.bytes_append, ← Nat.add_assoc]
        · simp [tokensAt_cons, hp]

lemma exists_piece (h : Run true ps) (ht : (scan (spell ps)).tokens[i]? = some t) :
    (∃ before p behind, ps = before ++ p :: behind ∧ p.tokenAt (spell before).bytes = some t ∧
      i = (tokensAt 0 before).length) ∨
    i = (tokensAt 0 ps).length ∧ t = endAt (spell ps).bytes := by
  rw [h.scan] at ht
  by_cases hi : i < (tokensAt 0 ps).length
  · rw [List.getElem?_append_left hi] at ht
    obtain ⟨before, p, behind, hps, hp, hlength⟩ := exists_of_getElem?_tokensAt ht
    exact .inl ⟨before, p, behind, hps, by rwa [Nat.zero_add] at hp, hlength⟩
  · rw [List.getElem?_append_right (by omega), List.getElem?_singleton] at ht
    split at ht
    · exact .inr ⟨by omega, (Option.some.inj ht).symm⟩
    · cases ht

lemma forall₂_respelt_operator (before behind : List Piece) (op op' : EdgeOp) :
    List.Forall₂ Respelt (before ++ operatorPiece op :: behind) (before ++ operatorPiece op' :: behind) := by
  have hsame (ps : List Piece) : List.Forall₂ Respelt ps ps := List.forall₂_same.mpr fun _ _ => .same
  exact List.rel_append (hsame before) (.cons .operator (hsame behind))

lemma scan_operator {op : EdgeOp} (op' : EdgeOp) (h : Run true (before ++ operatorPiece op :: behind))
    (ht : (operatorPiece op).tokenAt (spell before).bytes = some t) :
    scan (spell (before ++ operatorPiece op' :: behind)) =
      ⟨(scan (spell (before ++ operatorPiece op :: behind))).tokens.set (tokensAt 0 before).length
        { t with kind := op'.kind }, (scan (spell (before ++ operatorPiece op :: behind))).diagnostics⟩ := by
  have hspan : (operatorPiece op').spanAt (spell before).bytes =
      (operatorPiece op).spanAt (spell before).bytes := by
    simp only [Piece.spanAt, bytes_operatorPiece]
  have ht' : (operatorPiece op').tokenAt (spell before).bytes = some { t with kind := op'.kind } := by
    obtain rfl := Option.some.inj ht
    rw [← hspan]
    rfl
  have hfault (op : EdgeOp) (n : Nat) : (operatorPiece op).diagnosticAt n = none := rfl
  rw [h.scan, (h.respelt (forall₂_respelt_operator before behind op op')).scan]
  simp only [tokensAt_append, diagnosticsAt_append, tokensAt_cons, diagnosticsAt_cons, Nat.zero_add, ht, ht',
    hfault, bytes_operatorPiece, spell_append, spell_cons, Text.bytes_append, List.append_assoc]
  rw [List.set_append_right _ _ le_rfl, Nat.sub_self]
  rfl

def IsHash (text : Text) (t : Token) : Prop := t.kind = .unknown ∧ text.slice? t.span = some ['#']

lemma exists_restart (h : Run true ps) (ht : (scan (spell ps)).tokens[i]? = some t)
    (hash : ¬ IsHash (spell ps) t) :
    ∃ before qs, ps = before ++ qs ∧ Run true qs ∧ t.span.start = (spell before).bytes ∧
      i = (tokensAt 0 before).length := by
  rcases exists_piece h ht with ⟨before, p, behind, rfl, hp, hi⟩ | ⟨hi, rfl⟩
  · obtain ⟨token, htoken, rfl⟩ := Option.map_eq_some_iff.mp hp
    obtain ⟨b, hb⟩ := h.right_of_append
    refine ⟨before, p :: behind, rfl, hb.anywhere htoken (fun hk hx => hash ⟨hk, ?_⟩) true, rfl, hi⟩
    have hslice := Text.slice?_bytes (spell before) p.text (spell behind)
    rw [List.append_assoc, ← spell_cons, ← spell_append] at hslice
    rw [← hx]
    exact hslice
  · exact ⟨ps, [], (List.append_nil ps).symm, .nil, rfl, hi⟩

lemma exists_operator (h : Run true ps) (ht : (scan (spell ps)).tokens[i]? = some t) {op : EdgeOp}
    (hop : t.kind.edgeOp? = some op) : ∃ before behind, ps = before ++ operatorPiece op :: behind ∧
      (operatorPiece op).tokenAt (spell before).bytes = some t ∧ i = (tokensAt 0 before).length := by
  rcases exists_piece h ht with ⟨before, p, behind, rfl, hp, hi⟩ | ⟨-, rfl⟩
  · obtain ⟨token, htoken, rfl⟩ := Option.map_eq_some_iff.mp hp
    obtain ⟨b, hr⟩ := h.reads
    obtain rfl := hr.eq_operatorPiece htoken hop
    exact ⟨before, behind, rfl, hp, hi⟩
  · cases hop

/-- The scan of a text from a token on, if that is not a number sign, is the rest of its scan. The other operator
in the place of an operator changes only the kind of its token. -/
theorem scan_restarts {text : Text} {i : Nat} {t : Token} (ht : (scan text).tokens[i]? = some t) :
    (¬ IsHash text t → ∃ before behind, text = before ++ behind ∧ before.bytes = t.span.start ∧
      (scan behind).tokens.map (Relocation.shift t.span.start).token = (scan text).tokens.drop i ∧
      (scan behind).diagnostics.map (Relocation.shift t.span.start).diagnostic =
        (scan text).diagnostics.filter (t.span.start ≤ ·.span.start)) ∧
    ∀ op, t.kind.edgeOp? = some op → ∃ before behind, text = before ++ op.text.toList ++ behind ∧
      t.span = ⟨before.bytes, before.bytes + 2⟩ ∧
      scan (before ++ op.opposite.text.toList ++ behind) =
        ⟨(scan text).tokens.set i { t with kind := op.opposite.kind }, (scan text).diagnostics⟩ := by
  obtain ⟨ps, hrun, rfl⟩ := exists_run true text
  constructor
  · intro hash
    obtain ⟨before, qs, rfl, hqs, hstart, rfl⟩ := exists_restart hrun ht hash
    rw [hstart]
    exact ⟨spell before, spell qs, spell_append _ _, rfl, scan_behind hrun hqs⟩
  · intro op hop
    obtain ⟨before, behind, rfl, hp, rfl⟩ := exists_operator hrun ht hop
    have hspell (op : EdgeOp) : spell (before ++ operatorPiece op :: behind) =
        spell before ++ op.text.toList ++ spell behind := by
      rw [spell_append, spell_cons, List.append_assoc]
      rfl
    refine ⟨spell before, spell behind, hspell op, ?_, ?_⟩
    · obtain rfl := Option.some.inj hp
      simp only [Piece.spanAt, bytes_operatorPiece]
    · rw [← hspell]
      exact scan_operator op.opposite hrun hp

theorem scan_restarts_operator :
    let text : Text := "a#--é->.\n#b\n\"c".toList
    let t : Token := ⟨.directedOp, ⟨6, 8⟩, "", false⟩
    (scan text).tokens[4]? = some t ∧ ¬ IsHash text t ∧ t.kind.edgeOp? = some .directed ∧
      (∃ before behind : Text, text = before ++ behind ∧ before.bytes = 6 ∧
        (scan behind).tokens.map (Relocation.shift 6).token = (scan text).tokens.drop 4 ∧
        (scan behind).diagnostics.map (Relocation.shift 6).diagnostic =
          (scan text).diagnostics.filter (6 ≤ ·.span.start)) ∧
      ∃ before behind : Text, text = before ++ "->".toList ++ behind ∧ t.span = ⟨before.bytes, before.bytes + 2⟩ ∧
        scan (before ++ "--".toList ++ behind) =
          ⟨(scan text).tokens.set 4 ⟨.undirectedOp, ⟨6, 8⟩, "", false⟩, (scan text).diagnostics⟩ := by
  intro text t
  have ht : (scan text).tokens[4]? = some t := by decide +kernel
  have hash : ¬ IsHash text t := fun h => absurd h.1 (by decide)
  exact ⟨ht, hash, rfl, (scan_restarts ht).1 hash, (scan_restarts ht).2 .directed rfl⟩

end Token

end DotMend
