import DotMend.Token.Basic
import Mathlib.Tactic.Common

namespace DotMend.Grammar

inductive Part where
  | source
  | body
  | statement
  | subgraph
  | nodeId
  | attrList
  | identifier
  deriving DecidableEq, Repr

inductive Form where
  | empty
  | token (k : Kind)
  | part (p : Part)
  | seq (a b : Form)
  | alt (a b : Form)
  | many (a : Form)
  deriving DecidableEq, Repr

namespace Form

instance : Append Form := ⟨seq⟩

instance : OrElse Form := ⟨fun a b => alt a (b ())⟩

def opt (a : Form) : Form := a <|> empty

def many1 (a : Form) : Form := a ++ many a

def idToken : Form := token .word <|> token .quoted <|> token .html <|> token .numeral

def subject : Form := token .graphKeyword <|> token .nodeKeyword <|> token .edgeKeyword

def edgeOp : Form := token .directedOp <|> token .undirectedOp

def endpoint : Form := part .nodeId <|> part .subgraph

def joint : Form := token .plus ++ token .quoted

def compass : Form := token .colon ++ part .identifier

def port : Form := token .colon ++ part .identifier ++ opt compass

def edge : Form := edgeOp ++ endpoint

def attr : Form :=
  part .identifier ++ token .equals ++ part .identifier ++ opt (token .semicolon <|> token .comma)

def terminator : Form := opt (token .semicolon)

def item : Form := token .semicolon <|> part .statement

end Form

open Form

def rule : Part → Form
  | .source =>
    opt (token .strictKeyword) ++ (token .graphKeyword <|> token .digraphKeyword) ++ opt (part .identifier) ++
      part .body
  | .body => token .openBrace ++ many item ++ token .closeBrace
  | .statement =>
    subject ++ many1 (part .attrList) ++ terminator <|>
    idToken ++ token .equals ++ part .identifier ++ terminator <|>
    part .nodeId ++ many (part .attrList) ++ terminator <|>
    endpoint ++ many1 edge ++ many (part .attrList) ++ terminator <|>
    part .subgraph ++ terminator
  | .subgraph => opt (token .subgraphKeyword ++ opt (part .identifier)) ++ part .body
  | .nodeId => part .identifier ++ opt port
  | .attrList => token .openBracket ++ many attr ++ token .closeBracket
  | .identifier => token .word <|> token .html <|> token .numeral <|> token .quoted ++ many joint

inductive Derives : Form → List Kind → Prop
  | empty : Derives .empty []
  | token {k : Kind} : Derives (.token k) [k]
  | part {p : Part} {ks : List Kind} : Derives (rule p) ks → Derives (.part p) ks
  | seq {a b : Form} {ks ls : List Kind} : Derives a ks → Derives b ls → Derives (.seq a b) (ks ++ ls)
  | left {a b : Form} {ks : List Kind} : Derives a ks → Derives (.alt a b) ks
  | right {a b : Form} {ks : List Kind} : Derives b ks → Derives (.alt a b) ks
  | stop {a : Form} : Derives (.many a) []
  | more {a : Form} {ks ls : List Kind} : Derives a ks → Derives (.many a) ls → Derives (.many a) (ks ++ ls)

def Part.first : Part → List Kind
  | source => [.strictKeyword, .graphKeyword, .digraphKeyword]
  | body => [.openBrace]
  | statement =>
    [.graphKeyword, .nodeKeyword, .edgeKeyword, .word, .quoted, .html, .numeral, .subgraphKeyword, .openBrace]
  | subgraph => [.subgraphKeyword, .openBrace]
  | nodeId | identifier => [.word, .html, .numeral, .quoted]
  | attrList => [.openBracket]

namespace Form

def nullable : Form → Bool
  | empty => true
  | token _ => false
  | part _ => false
  | seq a b => a.nullable && b.nullable
  | alt a b => a.nullable || b.nullable
  | many _ => true

def first : Form → List Kind
  | empty => []
  | token k => [k]
  | part p => p.first
  | seq a b => a.first ++ if a.nullable then b.first else []
  | alt a b => a.first ++ b.first
  | many a => a.first

end Form

lemma nullable_rule (p : Part) : (rule p).nullable = false := by cases p <;> rfl

lemma first_rule (p : Part) : ∀ k ∈ (rule p).first, k ∈ p.first := by cases p <;> decide

variable {a b : Form} {k : Kind} {ks : List Kind}

lemma Derives.nullable (h : Derives a ks) (hks : ks = []) : a.nullable := by
  induction h with
  | empty | stop | more => rfl
  | token => cases hks
  | @part p ks _ ih =>
    rw [nullable_rule] at ih
    cases ih hks
  | seq _ _ ih ih' =>
    obtain ⟨rfl, rfl⟩ := List.append_eq_nil_iff.mp hks
    exact Bool.and_eq_true_iff.mpr ⟨ih rfl, ih' rfl⟩
  | left _ ih => exact Bool.or_eq_true_iff.mpr (.inl (ih hks))
  | right _ ih => exact Bool.or_eq_true_iff.mpr (.inr (ih hks))

lemma Derives.head_mem_first (h : Derives a ks) (hk : k ∈ ks.head?) : k ∈ a.first := by
  induction h with
  | empty | stop => cases hk
  | token =>
    obtain rfl := Option.some.inj hk
    exact List.mem_singleton_self _
  | @part p ks _ ih => exact first_rule p k (ih hk)
  | @seq a b ks ls ha _ ih ih' =>
    cases ks with
    | nil =>
      rw [Form.first, ha.nullable rfl]
      exact List.mem_append_right _ (ih' hk)
    | cons => exact List.mem_append_left _ (ih hk)
  | left _ ih => exact List.mem_append_left _ (ih hk)
  | right _ ih => exact List.mem_append_right _ (ih hk)
  | @more a ks ls _ _ ih ih' =>
    cases ks with
    | nil => exact ih' hk
    | cons => exact ih hk

/-- The tokens `ts` begin with something of the form `a`, behind which `us` are left. -/
def Takes (a : Form) (ts us : List Token) : Prop := ∃ used, ts = used ++ us ∧ Derives a (used.map Token.kind)

section Takes

variable {t : Token} {ts us vs : List Token}

@[simp] lemma takes_empty_iff : Takes .empty ts us ↔ ts = us := by
  constructor
  · rintro ⟨used, rfl, h⟩
    generalize hks : used.map Token.kind = ks at h
    cases h
    rw [List.map_eq_nil_iff.mp hks, List.nil_append]
  · rintro rfl
    exact ⟨[], rfl, .empty⟩

@[simp] lemma takes_token_nil : Takes (token k) [] us ↔ False := by
  constructor
  · rintro ⟨used, hused, h⟩
    obtain ⟨rfl, rfl⟩ := List.append_eq_nil_iff.mp hused.symm
    cases h
  · exact False.elim

@[simp] lemma takes_token_cons : Takes (token k) (t :: ts) us ↔ t.kind = k ∧ ts = us := by
  constructor
  · rintro ⟨used, hused, h⟩
    generalize hks : used.map Token.kind = ks at h
    cases h
    obtain ⟨u, rfl, rfl⟩ := List.map_eq_singleton_iff.mp hks
    obtain ⟨rfl, rfl⟩ := List.cons.inj hused
    exact ⟨rfl, rfl⟩
  · rintro ⟨rfl, rfl⟩
    exact ⟨[t], rfl, .token⟩

lemma takes_part_iff {p : Part} : Takes (part p) ts us ↔ Takes (rule p) ts us := by
  constructor
  · rintro ⟨used, rfl, h⟩
    cases h with
    | part h => exact ⟨used, rfl, h⟩
  · rintro ⟨used, rfl, h⟩
    exact ⟨used, rfl, .part h⟩

@[simp] lemma takes_append_iff : Takes (a ++ b) ts us ↔ ∃ vs, Takes a ts vs ∧ Takes b vs us := by
  constructor
  · rintro ⟨used, rfl, h⟩
    generalize hks : used.map Token.kind = ks at h
    cases h with
    | seq ha hb =>
      obtain ⟨xs, ys, rfl, rfl, rfl⟩ := List.map_eq_append_iff.mp hks
      exact ⟨ys ++ us, ⟨xs, List.append_assoc _ _ _, ha⟩, ys, rfl, hb⟩
  · rintro ⟨vs, ⟨xs, rfl, ha⟩, ys, rfl, hb⟩
    exact ⟨xs ++ ys, (List.append_assoc _ _ _).symm, List.map_append ▸ .seq ha hb⟩

@[simp] lemma takes_orElse_iff : Takes (a <|> b) ts us ↔ Takes a ts us ∨ Takes b ts us := by
  constructor
  · rintro ⟨used, rfl, h⟩
    cases h with
    | left h => exact .inl ⟨used, rfl, h⟩
    | right h => exact .inr ⟨used, rfl, h⟩
  · rintro (⟨used, rfl, h⟩ | ⟨used, rfl, h⟩)
    · exact ⟨used, rfl, .left h⟩
    · exact ⟨used, rfl, .right h⟩

@[simp] lemma takes_opt_iff : Takes (opt a) ts us ↔ Takes a ts us ∨ ts = us := by
  rw [opt, takes_orElse_iff, takes_empty_iff]

lemma takes_many_iff : Takes (many a) ts us ↔ ts = us ∨ ∃ vs, Takes a ts vs ∧ Takes (many a) vs us := by
  constructor
  · rintro ⟨used, rfl, h⟩
    generalize hks : used.map Token.kind = ks at h
    cases h with
    | stop =>
      rw [List.map_eq_nil_iff.mp hks]
      exact .inl rfl
    | more ha hb =>
      obtain ⟨xs, ys, rfl, rfl, rfl⟩ := List.map_eq_append_iff.mp hks
      exact .inr ⟨ys ++ us, ⟨xs, List.append_assoc _ _ _, ha⟩, ys, rfl, hb⟩
  · rintro (rfl | ⟨vs, ⟨xs, rfl, ha⟩, ys, rfl, hb⟩)
    · exact ⟨[], rfl, .stop⟩
    · exact ⟨xs ++ ys, (List.append_assoc _ _ _).symm, List.map_append ▸ .more ha hb⟩

lemma Takes.stop : Takes (many a) ts ts := takes_many_iff.mpr (.inl rfl)

lemma Takes.more (h : Takes a ts vs) (h' : Takes (many a) vs us) : Takes (many a) ts us :=
  takes_many_iff.mpr (.inr ⟨vs, h, h'⟩)

lemma Takes.seq (h : Takes a ts vs) (h' : Takes b vs us) : Takes (a ++ b) ts us := takes_append_iff.mpr ⟨vs, h, h'⟩

lemma Takes.many1 (h : Takes (many a) ts us) (hne : ts ≠ us) : Takes (many1 a) ts us := by
  rcases takes_many_iff.mp h with he | h
  · exact absurd he hne
  · exact takes_append_iff.mpr h

def Avoids (ks : List Kind) (ts : List Token) : Prop := ∀ t ∈ ts.head?, t.kind ∉ ks

@[simp] lemma avoids_nil : Avoids ks [] := nofun

@[simp] lemma avoids_cons : Avoids ks (t :: ts) ↔ t.kind ∉ ks := by simp [Avoids]

lemma Avoids.mono {ls : List Kind} (h : Avoids ks ts) (hle : ∀ k ∈ ls, k ∈ ks) : Avoids ls ts :=
  fun t ht hk => h t ht (hle _ hk)

lemma Takes.avoids (h : Takes a ts us) (hfirst : ∀ k ∈ a.first, k ∉ ks) (hus : a.nullable → Avoids ks us) :
    Avoids ks ts := by
  obtain ⟨used, rfl, h⟩ := h
  cases used with
  | nil => exact hus (h.nullable rfl)
  | cons u used =>
    rw [List.cons_append, avoids_cons]
    exact hfirst _ (h.head_mem_first rfl)

lemma Takes.exists_first (h : Takes a ts us) (ha : a.nullable = false) :
    ∃ t rest, ts = t :: rest ∧ t.kind ∈ a.first := by
  obtain ⟨used, rfl, h⟩ := h
  cases used with
  | nil =>
    rw [h.nullable rfl] at ha
    cases ha
  | cons u used => exact ⟨u, used ++ us, rfl, h.head_mem_first rfl⟩

lemma Takes.avoids_of_not_nullable (h : Takes a ts us) (ha : a.nullable = false) (hfirst : ∀ k ∈ a.first, k ∉ ks) :
    Avoids ks ts := by
  apply h.avoids hfirst
  rw [ha]
  exact nofun

lemma Takes.many_stop (h : Takes (many a) ts us) (ha : a.nullable = false) (hts : Avoids a.first ts) :
    ts = us := by
  rcases takes_many_iff.mp h with rfl | ⟨vs, h, -⟩
  · rfl
  · obtain ⟨t, rest, rfl, hfirst⟩ := h.exists_first ha
    exact absurd hfirst (avoids_cons.mp hts)

lemma Takes.many_step (h : Takes (many a) (t :: ts) us) (hus : Avoids ks us) (ht : t.kind ∈ ks) :
    ∃ vs, Takes a (t :: ts) vs ∧ Takes (many a) vs us := by
  rcases takes_many_iff.mp h with rfl | h
  · exact absurd ht (avoids_cons.mp hus)
  · exact h

end Takes

end DotMend.Grammar
