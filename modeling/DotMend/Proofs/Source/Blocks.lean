import DotMend.Proofs.Source.Graph
import DotMend.Proofs.Token.Edges
import DotMend.Proofs.Tree.Search

namespace DotMend

namespace Token

lemma split_tokensAt {n : Nat} {ps : List Piece} {us ws : List Token} {u : Token}
    (h : tokensAt n ps = us ++ u :: ws) :
    ∃ before p behind, ps = before ++ p :: behind ∧ tokensAt n before = us ∧
      p.tokenAt (n + (spell before).bytes) = some u ∧
      tokensAt (n + (spell before).bytes + p.text.bytes) behind = ws := by
  induction ps generalizing n us with
  | nil => simp at h
  | cons p ps ih =>
    rw [tokensAt_cons] at h
    cases hp : p.tokenAt n with
    | none =>
      rw [hp, Option.toList_none, List.nil_append] at h
      obtain ⟨before, q, behind, rfl, hbefore, hq, hbehind⟩ := ih h
      refine ⟨p :: before, q, behind, rfl, by simp [tokensAt_cons, hp, hbefore], ?_, ?_⟩
      · simpa [Nat.add_assoc] using hq
      · simpa [Nat.add_assoc] using hbehind
    | some t =>
      rw [hp, Option.toList_some, List.singleton_append] at h
      cases us with
      | nil =>
        obtain ⟨rfl, hps⟩ := List.cons.inj h
        exact ⟨[], p, ps, rfl, rfl, by simpa using hp, by simpa using hps⟩
      | cons v us =>
        obtain ⟨rfl, hps⟩ := List.cons.inj h
        obtain ⟨before, q, behind, rfl, hbefore, hq, hbehind⟩ := ih hps
        refine ⟨p :: before, q, behind, rfl, by simp [tokensAt_cons, hp, hbefore], ?_, ?_⟩
        · simpa [Nat.add_assoc] using hq
        · simpa [Nat.add_assoc] using hbehind

structure Framed (ps : List Piece) : Prop where
  first : ∃ p, ps.head? = some p ∧ p.token.isSome
  last : ∃ p, ps.getLast? = some p ∧ p.token.isSome

structure Placing (ps : List Piece) (span : Span) (before mid behind : List Piece) : Prop where
  split : ps = before ++ mid ++ behind
  framed : Framed mid
  span_eq : span = ⟨(spell before).bytes, (spell before).bytes + (spell mid).bytes⟩

lemma Framed.head_not_blank {b : Bool} {before mid behind : List Piece} (hf : Framed mid)
    (h : Run b (before ++ mid ++ behind)) : ∃ c, (spell mid).head? = some c ∧ Lexeme.isBlank c = false := by
  obtain ⟨p, hp, hptoken⟩ := hf.first
  obtain ⟨mid, rfl⟩ := List.head?_eq_some_iff.mp hp
  obtain ⟨b', hr⟩ := @Run.reads b before (mid ++ behind) p (by simpa using h)
  obtain ⟨kv, hkv⟩ := Option.isSome_iff_exists.mp hptoken
  rw [Piece.Reads, hkv] at hr
  obtain ⟨c, x, hx⟩ := List.exists_cons_of_ne_nil hr.ne_nil
  exact ⟨c, by simp [hx], hr.head_not_blank (by simp [hx])⟩

lemma Framed.last_not_blank {b : Bool} {before mid behind : List Piece} (hf : Framed mid)
    (h : Run b (before ++ mid ++ behind)) (hend : spell behind ≠ [] ∨ ∀ p ∈ mid, p.fault = none) :
    ∃ c, (spell mid).getLast? = some c ∧ Lexeme.isBlank c = false := by
  obtain ⟨p, hp, hptoken⟩ := hf.last
  obtain ⟨mid, rfl⟩ := List.getLast?_eq_some_iff.mp hp
  obtain ⟨b', hr⟩ := @Run.reads b (before ++ mid) behind p (by simpa using h)
  obtain ⟨kv, hkv⟩ := Option.isSome_iff_exists.mp hptoken
  rw [Piece.Reads, hkv] at hr
  cases hx : p.text.getLast? with
  | none => exact absurd (List.getLast?_eq_none_iff.mp hx) hr.ne_nil
  | some c => exact ⟨c, by simp [List.getLast?_append, hx], hr.last_not_blank (hend.imp_right (· p (by simp))) hx⟩

lemma spanAt_of_tokenAt {n : Nat} {p : Piece} {u : Token} (h : p.tokenAt n = some u) :
    u.span = p.spanAt n ∧ p.token.isSome := by
  obtain ⟨kv, hkv, rfl⟩ := Option.map_eq_some_iff.mp h
  exact ⟨rfl, by simp [hkv]⟩

lemma hull_of_framed {n : Nat} {ps : List Piece} (hf : Framed ps) {u : Token} {block : List Token}
    (h : tokensAt n ps = u :: block) : Parse.hull u block = ⟨n, n + (spell ps).bytes⟩ := by
  have hstart : u.span.start = n := by
    obtain ⟨p, hp, hsome⟩ := hf.first
    obtain ⟨qs, rfl⟩ := List.head?_eq_some_iff.mp hp
    obtain ⟨kv, hkv⟩ := Option.isSome_iff_exists.mp hsome
    rw [tokensAt_cons, Piece.tokenAt, hkv] at h
    obtain ⟨rfl, -⟩ := List.cons.inj h
    rfl
  have hstop : (Parse.hull u block).stop = n + (spell ps).bytes := by
    obtain ⟨p, hp, hsome⟩ := hf.last
    obtain ⟨qs, rfl⟩ := List.getLast?_eq_some_iff.mp hp
    obtain ⟨kv, hkv⟩ := Option.isSome_iff_exists.mp hsome
    have hlast := congrArg List.getLast? h
    rw [tokensAt_append, tokensAt_cons, Piece.tokenAt, hkv] at hlast
    simp only [Option.map_some, Option.toList_some, tokensAt_nil, List.append_nil, List.getLast?_concat] at hlast
    rw [List.getLast?_eq_some_getLast (List.cons_ne_nil u block)] at hlast
    rw [Parse.hull, ← Option.some.inj hlast]
    simp [Piece.spanAt, Nat.add_assoc]
  rw [← hstop, ← hstart]
  rfl

lemma exists_framed {n : Nat} {ps : List Piece} {us block ws : List Token} {u : Token}
    (h : tokensAt n ps = us ++ (u :: block) ++ ws) :
    ∃ before mid behind, ps = before ++ mid ++ behind ∧ Framed mid ∧ tokensAt n before = us ∧
      tokensAt (n + (spell before).bytes) mid = u :: block ∧
      tokensAt (n + (spell before).bytes + (spell mid).bytes) behind = ws ∧
      Parse.hull u block = ⟨n + (spell before).bytes, n + (spell before).bytes + (spell mid).bytes⟩ := by
  rw [List.append_assoc, List.cons_append] at h
  obtain ⟨before, p, rest, rfl, hbefore, hp, hrest⟩ := split_tokensAt h
  have hsome := (spanAt_of_tokenAt hp).2
  obtain ⟨mid, behind, hsplit, hframed, hmid, hbehind⟩ : ∃ mid behind, p :: rest = mid ++ behind ∧ Framed mid ∧
      tokensAt (n + (spell before).bytes) mid = u :: block ∧
      tokensAt (n + (spell before).bytes + (spell mid).bytes) behind = ws := by
    cases block using List.reverseRecOn with
    | nil =>
      refine ⟨[p], rest, rfl, ⟨⟨p, rfl, hsome⟩, ⟨p, rfl, hsome⟩⟩, ?_, ?_⟩
      · simp [tokensAt_cons, hp]
      · simpa using hrest
    | append_singleton block v =>
      rw [List.append_assoc, List.singleton_append] at hrest
      obtain ⟨mid, q, behind, rfl, hmid, hq, hbehind⟩ := split_tokensAt hrest
      have hlast := (spanAt_of_tokenAt hq).2
      refine ⟨p :: mid ++ [q], behind, by simp, ⟨⟨p, rfl, hsome⟩, ⟨q, List.getLast?_concat, hlast⟩⟩, ?_, ?_⟩
      · rw [List.cons_append, tokensAt_cons, hp, tokensAt_append, hmid, tokensAt_cons, hq]
        rfl
      · simpa [Nat.add_assoc] using hbehind
  exact ⟨before, mid, behind, by rw [hsplit, List.append_assoc], hframed, hbefore, hmid, hbehind,
    hull_of_framed hframed hmid⟩

end Token

namespace Parse.Laid

lemma of_mem_preorder {f : List Tree} {c s : Tree} {us : List Token} (h : Laid f us) (hc : c ∈ f)
    (hs : s ∈ c.preorder fun _ => true) :
    ∃ before u block behind, us = before ++ (u :: block) ++ behind ∧ s.span = hull u block ∧ LeafOf u block s ∧
      Laid s.children (u :: block) := by
  induction c using Tree.induction_on_children generalizing f us with
  | h c ih =>
    obtain ⟨before, u, block, behind, rfl, hspan, hleaf, hlaid⟩ := h.split_mem hc
    rcases Tree.mem_preorder_iff.mp hs with rfl | ⟨d, hd, hs⟩
    · exact ⟨before, u, block, behind, rfl, hspan, hleaf, hlaid⟩
    · obtain ⟨before', v, block', behind', he, hv⟩ := ih d hd hlaid hd hs
      exact ⟨before ++ before', v, block', behind' ++ behind, by rw [he]; simp, hv⟩

end Parse.Laid

namespace Source.GraphReading

open Token

variable {t : Text} {ps : List Piece} {used : List Token} {graph s : Tree}

lemma exists_pieces (h : GraphReading t ps used graph) (hs : s ∈ graph.preorder fun _ => true) :
    ∃ before mid behind, Placing ps s.span before mid behind := by
  obtain ⟨us, u, block, ws, hus, hspan, -⟩ := h.laid.of_mem_preorder (List.mem_singleton_self graph) hs
  obtain ⟨rest, hrest⟩ := h.used_le
  rw [hus, List.append_assoc _ ws rest] at hrest
  obtain ⟨before, mid, behind, hps, hframed, -, -, -, hhull⟩ := exists_framed hrest.symm
  rw [Nat.zero_add] at hhull
  exact ⟨before, mid, behind, ⟨hps, hframed, hspan.trans hhull⟩⟩

lemma exists_text (h : GraphReading t ps used graph) (hs : s ∈ graph.preorder fun _ => true) :
    ∃ a x b, t = a ++ x ++ b ∧ s.span = ⟨a.bytes, (a ++ x).bytes⟩ ∧
      (∃ c, x.head? = some c ∧ Lexeme.isBlank c = false) ∧
      (b ≠ [] → ∃ c, x.getLast? = some c ∧ Lexeme.isBlank c = false) := by
  obtain ⟨before, mid, behind, ⟨rfl, hframed, hspan⟩⟩ := h.exists_pieces hs
  exact ⟨spell before, spell mid, spell behind, by rw [← h.spelt]; simp, by rw [hspan]; simp,
    hframed.head_not_blank h.run, fun hb => hframed.last_not_blank h.run (.inl hb)⟩

lemma exists_slice (h : GraphReading t ps used graph) (hs : s ∈ graph.preorder fun _ => true) :
    ∃ x, x ≠ [] ∧ t.slice? s.span = some x := by
  obtain ⟨a, x, b, rfl, hspan, ⟨c, hc, -⟩, -⟩ := h.exists_text hs
  refine ⟨x, by rintro rfl; simp at hc, ?_⟩
  rw [hspan, Text.bytes_append]
  exact Text.slice?_bytes a x b

end Source.GraphReading

end DotMend
