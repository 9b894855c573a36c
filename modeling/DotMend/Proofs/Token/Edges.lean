import DotMend.Proofs.Token.Run

namespace DotMend.Token

namespace Lexeme

lemma getLast?_of_quotedRest {x : Text} (h : (quotedRest x).closed = true)
    (hl : (quotedRest x).length = x.length) : x.getLast? = some '"' := by
  have hcons {y : Text} (c : Char) (hy : y.getLast? = some '"') : (c :: y).getLast? = some '"' := by
    rw [List.getLast?_cons, hy]
    rfl
  fun_induction quotedRest x with
  | case1 => simp at h
  | case2 t =>
    obtain rfl : t = [] := by simpa using hl
    rfl
  | case3 t q ih | case4 t q ih =>
    apply hcons
    apply hcons
    exact ih h (by simpa using hl)
  | case5 t q ih =>
    apply hcons
    apply hcons
    apply hcons
    exact ih h (by simpa using hl)
  | case6 c t _ _ _ _ q ih =>
    apply hcons
    exact ih h (by simpa using hl)

lemma getLast?_of_closeAngle? {d : Nat} {x : Text} (h : closeAngle? d x = some x.length) :
    x.getLast? = some '>' := by
  have hcons {y : Text} (c : Char) (hy : y.getLast? = some '>') : (c :: y).getLast? = some '>' := by
    rw [List.getLast?_cons, hy]
    rfl
  fun_induction closeAngle? d x with
  | case1 => simp at h
  | case2 d t ih | case4 t d ih | case5 d c t _ _ _ ih =>
    obtain ⟨m, hm, hl⟩ := Option.map_eq_some_iff.mp h
    apply hcons
    apply ih
    rw [hm]
    simpa using hl
  | case3 t =>
    obtain rfl : t = [] := by simpa using h
    rfl

lemma getLast?_of_closeComment? {x : Text} (h : closeComment? x = some x.length) : x.getLast? = some '/' := by
  fun_induction closeComment? x with
  | case1 t =>
    obtain rfl : t = [] := by simpa using h
    rfl
  | case2 c t _ ih =>
    obtain ⟨m, hm, hl⟩ := Option.map_eq_some_iff.mp h
    rw [List.getLast?_cons, ih (by rw [hm]; simpa using hl)]
    rfl
  | case3 => simp at h

lemma not_isBlank_of_isDigit {c : Char} (h : c.isDigit = true) : isBlank c = false :=
  (plain_of_isDigit (b := true) (t := []) h).not_blank

lemma not_isBlank_of_continuesWord {c : Char} (h : continuesWord c = true) : isBlank c = false := by
  rcases Bool.or_eq_true_iff.mp h with h | h
  · exact (plain_of_startsWord (b := true) (t := []) h).not_blank
  · exact not_isBlank_of_isDigit h

lemma not_isBlank_of_mem_unsigned {x : Text} (h : Unsigned x) {c : Char} (hc : c ∈ x) : isBlank c = false := by
  rcases h with ⟨-, h⟩ | ⟨w, p, rfl, hw, hp, -⟩
  · exact not_isBlank_of_isDigit (h c hc)
  · rcases List.mem_append.mp hc with hc | hc
    · exact not_isBlank_of_isDigit (hw c hc)
    · rcases List.mem_cons.mp hc with rfl | hc
      · rfl
      · exact not_isBlank_of_isDigit (hp c hc)

lemma not_isBlank_of_mem_numeral {x : Text} (h : IsNumeral x) {c : Char} (hc : c ∈ x) : isBlank c = false := by
  rcases h with h | ⟨y, rfl, h⟩
  · exact not_isBlank_of_mem_unsigned h hc
  · rcases List.mem_cons.mp hc with rfl | hc
    · rfl
    · exact not_isBlank_of_mem_unsigned h hc

lemma not_isBlank_of_mark? {c : Char} {k : Kind} (h : mark? c = some k) : isBlank c = false := by
  unfold mark? at h
  split at h <;> first | rfl | cases h

variable {b : Bool} {x rest : Text} {t : Kind × Text} {fault : Option Fault}

lemma Read.head_not_blank (h : Read b x rest (some t) fault) {c : Char} (hc : x.head? = some c) :
    isBlank c = false := by
  generalize ht : some t = token at h
  cases h with
  | mark h =>
    obtain rfl := Option.some.inj hc
    exact not_isBlank_of_mark? h
  | numeral h => exact not_isBlank_of_mem_numeral h (List.mem_of_head? hc)
  | word h =>
    obtain rfl := Option.some.inj hc
    exact (plain_of_startsWord (b := true) (t := []) h).not_blank
  | stray h =>
    obtain rfl := Option.some.inj hc
    exact h.not_blank
  | blank | hash | line | block | openBlock => cases ht
  | _ =>
    obtain rfl := Option.some.inj hc
    rfl

lemma Read.last_not_blank (h : Read b x rest (some t) fault) (hrest : rest ≠ [] ∨ fault = none) {c : Char}
    (hc : x.getLast? = some c) : isBlank c = false := by
  generalize ht : some t = token at h
  cases h with
  | mark h =>
    obtain rfl := Option.some.inj hc
    exact not_isBlank_of_mark? h
  | numeral h => exact not_isBlank_of_mem_numeral h (List.mem_of_getLast? hc)
  | @word _ d y _ h hy =>
    rcases List.mem_cons.mp (List.mem_of_getLast? hc) with rfl | hmem
    · exact (plain_of_startsWord (b := true) (t := []) h).not_blank
    · exact not_isBlank_of_continuesWord (hy c hmem)
  | stray h =>
    obtain rfl := Option.some.inj hc
    exact h.not_blank
  | @quoted _ y _ v h =>
    have hl : y.getLast? = some '"' := getLast?_of_quotedRest (by rw [h]) (by rw [h])
    rw [List.getLast?_cons, hl] at hc
    obtain rfl := Option.some.inj hc
    rfl
  | html h =>
    rw [List.getLast?_cons, getLast?_of_closeAngle? h] at hc
    obtain rfl := Option.some.inj hc
    rfl
  | directed | undirected =>
    obtain rfl := Option.some.inj hc
    rfl
  | openQuoted | openHtml => simp at hrest
  | blank | hash | line | block | openBlock => cases ht

lemma Read.eq_of_head_blank {token : Option (Kind × Text)} (h : Read b x rest token fault) {c : Char}
    (hc : x.head? = some c) (hb : isBlank c = true) : x = [c] ∧ token = none := by
  cases token with
  | some t => exact absurd hb (by simp [h.head_not_blank hc])
  | none =>
    cases h with
    | blank => exact ⟨congrArg (fun c => [c]) (Option.some.inj hc), rfl⟩
    | _ =>
      obtain rfl := Option.some.inj hc
      simp [isBlank] at hb

lemma Read.eq_of_last_blank {token : Option (Kind × Text)} (h : Read b x rest token fault) {d : Char}
    (hd : rest.head? = some d) (hne : d ≠ '\n') {c : Char} (hc : x.getLast? = some c) (hb : isBlank c = true) :
    x = [c] ∧ token = none := by
  cases token with
  | some t => exact absurd hb (by simp [h.last_not_blank (.inl (by rintro rfl; simp at hd)) hc])
  | none =>
    cases h with
    | blank => exact ⟨congrArg (fun c => [c]) (Option.some.inj hc), rfl⟩
    | hash _ hr | line _ hr => exact absurd (hr d hd) hne
    | openBlock => simp at hd
    | block h =>
      rw [List.getLast?_cons, List.getLast?_cons, getLast?_of_closeComment? h] at hc
      obtain rfl := Option.some.inj hc
      simp [isBlank] at hb

end Lexeme

end DotMend.Token
