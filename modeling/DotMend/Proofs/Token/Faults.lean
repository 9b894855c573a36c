import DotMend.Proofs.Token.Partition

namespace DotMend.Token

def faultIn (t : Text) (u : Token) : Fault :=
  match u.kind with
  | .quoted => .openString
  | .html => .openHtml
  | _ => .unexpected (((t.slice? u.span).getD []).headD ' ')

def OpenComment (t : Text) (d : Diagnostic) : Prop :=
  ∃ before x, t = before ++ '/' :: '*' :: x ∧ ¬ ['*', '/'] <:+: x ∧
    d = Fault.openComment.diagnostic ⟨before.bytes, t.bytes⟩

inductive Lexeme.Flaw : (x rest : Text) → Option (Kind × Text) → Fault → Prop
  | stray {c rest} : Flaw [c] rest (some (.unknown, [])) (.unexpected c)
  | string {x v} : Flaw x [] (some (.quoted, v)) .openString
  | html {x v} : Flaw x [] (some (.html, v)) .openHtml
  | comment {x} : ¬ ['*', '/'] <:+: x → Flaw ('/' :: '*' :: x) [] none .openComment

lemma Lexeme.Read.flaw {b : Bool} {x rest : Text} {token : Option (Kind × Text)} {f : Fault}
    (h : Lexeme.Read b x rest token (some f)) : Lexeme.Flaw x rest token f := by
  generalize hf : some f = fault at h
  cases h with
  | openBlock hx =>
    obtain rfl := Option.some.inj hf
    exact .comment (Lexeme.not_infix_of_closeComment? hx)
  | openQuoted =>
    obtain rfl := Option.some.inj hf
    exact .string
  | openHtml =>
    obtain rfl := Option.some.inj hf
    exact .html
  | stray =>
    obtain rfl := Option.some.inj hf
    exact .stray
  | _ => cases hf

lemma Lexeme.Flaw.kind_mem {x rest value : Text} {kind : Kind} {f : Fault}
    (h : Lexeme.Flaw x rest (some (kind, value)) f) : kind ∈ [.unknown, .quoted, .html] := by
  cases h <;> simp

variable {b : Bool} {ps : List Piece}

lemma Run.eq_nil_of_spell (h : Run b ps) (hs : spell ps = []) : ps = [] := by
  cases ps with
  | nil => rfl
  | cons p ps =>
    rw [spell_cons, List.append_eq_nil_iff] at hs
    exact absurd hs.1 (h.ne_nil List.mem_cons_self)

theorem Run.diagnosticsAt_eq (h : Run b ps) (before : Text) :
    ∃ comment : Option Diagnostic, (∀ d ∈ comment, OpenComment (before ++ spell ps) d) ∧
      diagnosticsAt before.bytes ps =
        ((tokensAt before.bytes ps).filter faulty).map
        (fun u => (faultIn (before ++ spell ps) u).diagnostic u.span) ++
          comment.toList := by
  induction h generalizing before with
  | nil => exact ⟨none, by simp, rfl⟩
  | @cons b p ps hr hrun ih =>
    obtain ⟨x, token, fault⟩ := p
    cases fault with
    | none =>
      obtain ⟨comment, hcomment, hps⟩ := ih (before ++ x)
      rw [List.append_assoc, Text.bytes_append] at hps
      rw [List.append_assoc] at hcomment
      rw [diagnosticsAt_cons, tokensAt_cons, spell_cons]
      refine ⟨comment, hcomment, ?_⟩
      cases token <;> simp [Piece.diagnosticAt, Piece.tokenAt, hps]
    | some f =>
      have hflaw := Lexeme.Read.flaw hr
      generalize hrest : spell ps = rest at hflaw
      cases hflaw with
      | @stray c =>
        obtain ⟨comment, hcomment, hps⟩ := ih (before ++ [c])
        rw [List.append_assoc, Text.bytes_append] at hps
        rw [List.append_assoc] at hcomment
        let u : Token := ⟨.unknown, ⟨before.bytes, before.bytes + Text.bytes [c]⟩, "", true⟩
        have hu : faultIn (before ++ ([c] ++ spell ps)) u = .unexpected c := by
          have hslice := Text.slice?_bytes before [c] (spell ps)
          rw [List.append_assoc] at hslice
          simp only [faultIn, u, hslice]
          rfl
        rw [diagnosticsAt_cons, tokensAt_cons, spell_cons, hps]
        refine ⟨comment, hcomment, ?_⟩
        change _ = (List.filter faulty (u :: _)).map _ ++ _
        rw [List.filter_cons_of_pos rfl, List.map_cons, hu]
        rfl
      | string | html =>
        obtain rfl := hrun.eq_nil_of_spell hrest
        exact ⟨none, by simp, rfl⟩
      | @comment y hy =>
        obtain rfl := hrun.eq_nil_of_spell hrest
        refine ⟨some _, ?_, rfl⟩
        rintro _ ⟨⟩
        exact ⟨before, y, by simp, hy, by simp [Piece.spanAt]⟩

theorem Run.unterminated_last (h : Run b ps) {n : Nat} {front behind : List Diagnostic} {d : Diagnostic}
    (hds : diagnosticsAt n ps = front ++ d :: behind) (hd : d.code = .unterminated) :
    behind = [] ∧ d.span.stop = n + (spell ps).bytes := by
  induction h generalizing n front with
  | nil => simp at hds
  | @cons b p ps hr hrun ih =>
    obtain ⟨x, token, fault⟩ := p
    rw [diagnosticsAt_cons, Piece.diagnosticAt] at hds
    rw [spell_cons, Text.bytes_append, ← Nat.add_assoc]
    cases fault with
    | none => exact ih hds
    | some f =>
      have hflaw := Lexeme.Read.flaw hr
      generalize hrest : spell ps = rest at hflaw
      cases hflaw with
      | stray =>
        -- the character that is out of place is reported first, and not as unterminated
        cases front with
        | nil =>
          obtain ⟨rfl, -⟩ := List.cons.inj hds
          cases hd
        | cons e front => exact hrest ▸ ih (List.cons.inj hds).2
      | string | html | comment =>
        obtain rfl := hrun.eq_nil_of_spell hrest
        obtain ⟨rfl, rfl, rfl⟩ : front = [] ∧ d = _ ∧ behind = [] := by
          simpa [List.cons_eq_append_iff] using hds
        exact ⟨rfl, by simp [Fault.diagnostic, Diagnostic.error, Piece.spanAt]⟩

lemma Run.kind_mem_of_faulty (h : Run b ps) {n : Nat} {u : Token} (hu : u ∈ tokensAt n ps) (hf : u.faulty = true) :
    u.kind ∈ [.unknown, .quoted, .html] := by
  obtain ⟨q, hq, hqu⟩ := mem_tokensAt.mp hu
  obtain ⟨before, behind, rfl, -⟩ := exists_of_mem_placed hq
  obtain ⟨b', hr⟩ := h.reads
  obtain ⟨⟨kind, value⟩, htoken, rfl⟩ := Option.map_eq_some_iff.mp hqu
  obtain ⟨f, hfault⟩ := Option.isSome_iff_exists.mp hf
  rw [Piece.Reads, htoken, hfault] at hr
  exact hr.flaw.kind_mem

/-- The faults of a text are those of its faulty tokens, in their order, and at most a comment that stays open
behind them. Whatever stays open is reported last, and up to the end of the text. -/
theorem scan_faults_reported (t : Text) :
    ∃ comment : Option Diagnostic,
      (scan t).diagnostics =
        ((scan t).tokens.filter faulty).map (fun u => (faultIn t u).diagnostic u.span) ++ comment.toList ∧
      (∀ d ∈ comment, OpenComment t d) ∧
      (∀ u ∈ (scan t).tokens, u.faulty = true →
        u.kind = .unknown ∧ (faultIn t u).code = .unexpectedCharacter ∨
          u.kind ∈ [.quoted, .html] ∧ (faultIn t u).code = .unterminated) ∧
      ∀ front d behind, (scan t).diagnostics = front ++ d :: behind → d.code = .unterminated →
        behind = [] ∧ d.span.stop = t.bytes := by
  obtain ⟨ps, hrun, rfl⟩ := exists_run true t
  obtain ⟨comment, hcomment, hds⟩ := hrun.diagnosticsAt_eq []
  have hend : [endAt (spell ps).bytes].filter faulty = [] := rfl
  rw [hrun.scan]
  refine ⟨comment, ?_, hcomment, ?_, ?_⟩
  · rw [List.filter_append, hend, List.append_nil]
    exact hds
  · intro u hu hf
    rcases List.mem_append.mp hu with hu | hu
    · have hkind := hrun.kind_mem_of_faulty hu hf
      simp only [List.mem_cons, List.not_mem_nil, or_false] at hkind
      rcases hkind with hk | hk | hk <;> simp [faultIn, hk, Fault.code]
    · rw [List.mem_singleton.mp hu] at hf
      cases hf
  · intro front d behind he hd
    obtain ⟨hbehind, hstop⟩ := hrun.unterminated_last he hd
    exact ⟨hbehind, by rw [hstop, Nat.zero_add]⟩

theorem scan_faults_reported_openHtml :
    ∃ (t : Text) (u : Token) (d : Diagnostic), t = "é@<a<b> \"c".toList ∧ u = ⟨.html, ⟨3, 11⟩, "a<b> \"c", true⟩ ∧
      d = Fault.openHtml.diagnostic ⟨3, 11⟩ ∧ u ∈ (scan t).tokens ∧
      (scan t).diagnostics = [(Fault.unexpected '@').diagnostic ⟨2, 3⟩] ++ d :: [] ∧
      (u.kind = .unknown ∧ (faultIn t u).code = .unexpectedCharacter ∨
        u.kind ∈ [.quoted, .html] ∧ (faultIn t u).code = .unterminated) ∧
      d.span.stop = t.bytes := by
  have hu : (⟨.html, ⟨3, 11⟩, "a<b> \"c", true⟩ : Token) ∈ (scan "é@<a<b> \"c".toList).tokens := by decide +kernel
  have hds : (scan "é@<a<b> \"c".toList).diagnostics =
      [(Fault.unexpected '@').diagnostic ⟨2, 3⟩] ++ Fault.openHtml.diagnostic ⟨3, 11⟩ :: [] := by decide +kernel
  obtain ⟨-, -, -, hkinds, hlast⟩ := scan_faults_reported "é@<a<b> \"c".toList
  exact ⟨_, _, _, rfl, rfl, rfl, hu, hds, hkinds _ hu rfl, (hlast _ _ _ hds rfl).2⟩

end DotMend.Token
