import DotMend.Proofs.Token.Adjoining

namespace DotMend.Token

open Lexeme

lemma isChain_and {α : Type} {R S : α → α → Prop} {l : List α} :
    l.IsChain (fun a b => R a b ∧ S a b) ↔ l.IsChain R ∧ l.IsChain S := by
  simp only [List.isChain_iff_forall_rel_of_append_cons_cons]
  constructor
  · intro h
    exact ⟨fun a b l₁ l₂ he => (h he).1, fun a b l₁ l₂ he => (h he).2⟩
  · rintro ⟨hR, hS⟩ a b l₁ l₂ he
    exact ⟨hR he, hS he⟩

structure Part (lineStart : Bool) (ps : List Piece) : Prop where
  chain : ps.IsChain fun p q => p.Beside q ∧ ¬ p.Joins q
  head : ∀ p, ps.head? = some p → p.isHash → lineStart
  last : ∀ p, ps.getLast? = some p → p.isLine = false

structure Neutral (p : Piece) : Prop where
  not_line : p.isLine = false
  not_continued : ∀ c, p.continuedBy c = false
  not_joined : ∀ q : Piece, ¬ q.Joins p

lemma Part.nil {b : Bool} : Part b [] := ⟨.nil, by simp, by simp⟩

lemma Neutral.not_hash {p : Piece} (h : Neutral p) : p.isHash = false := by
  have := h.not_line
  simp only [Piece.isLine, Bool.or_eq_false_iff] at this
  exact this.1

lemma Part.glue {b : Bool} {xs ys : List Piece} {p : Piece} (hx : Part b xs) (hp : Neutral p)
    (hy : Part false ys) : Part b (xs ++ p :: ys) where
  chain := by
    refine hx.chain.append (List.isChain_cons.mpr ⟨fun y hmem => ⟨⟨fun hh => ?_, fun hl => ?_⟩, ?_⟩, hy.chain⟩) ?_
    · exact absurd (hy.head y hmem hh) (by decide)
    · exact absurd hl (by simp [hp.not_line])
    · rintro ⟨c, -, hc⟩
      exact absurd hc (by simp [hp.not_continued])
    · rintro x hmem _ ⟨rfl⟩
      exact ⟨⟨fun hh => absurd hh (by simp [hp.not_hash]), fun hl => absurd hl (by simp [hx.last x hmem])⟩,
        hp.not_joined x⟩
  head := by
    intro q hq hh
    cases xs with
    | nil =>
      obtain rfl := Option.some.inj hq
      exact absurd hh (by simp [hp.not_hash])
    | cons x xs => exact hx.head q hq hh
  last := by
    intro q hq
    rw [List.getLast?_append_cons] at hq
    cases ys with
    | nil =>
      obtain rfl := Option.some.inj hq
      exact hp.not_line
    | cons y ys => exact hy.last q (by rwa [List.getLast?_cons_cons] at hq)

def blankPiece : Piece := ⟨[' '], none, none⟩

def openPiece : Piece := ⟨['\x7b'], some (.openBrace, []), none⟩

def closePiece : Piece := ⟨['\x7d'], some (.closeBrace, []), none⟩

lemma not_continues_of_class {k : Kind} {v : Text} {c : Char} (hc : continuesWord c = false) (hdot : c ≠ '.') :
    continues k v c = false := by
  have hdigit : c.isDigit = false := (Bool.or_eq_false_iff.mp hc).2
  cases k <;> simp [continues, hc, hdigit, hdot]

lemma not_joins_of_text {p q : Piece} {c : Char} (hq : q.text = [c]) (hc : continuesWord c = false)
    (hdot : c ≠ '.') : ¬ p.Joins q := by
  rintro ⟨d, hd, hj⟩
  rw [hq] at hd
  obtain rfl := Option.some.inj hd
  cases hp : p.token with
  | none => simp [Piece.continuedBy, hp] at hj
  | some kv => simp [Piece.continuedBy, hp, not_continues_of_class hc hdot] at hj

lemma neutral_blankPiece : Neutral blankPiece :=
  ⟨by decide, fun _ => rfl, fun _ => not_joins_of_text rfl (by decide) (by decide)⟩

lemma neutral_openPiece : Neutral openPiece :=
  ⟨by decide, fun _ => rfl, fun _ => not_joins_of_text rfl (by decide) (by decide)⟩

lemma neutral_closePiece : Neutral closePiece :=
  ⟨by decide, fun _ => rfl, fun _ => not_joins_of_text rfl (by decide) (by decide)⟩

def grouped (xss : List (List Piece)) : List Piece :=
  openPiece :: blankPiece :: List.intercalate [blankPiece] xss ++ [blankPiece, closePiece]

lemma intercalate_induction {motive : List (List Piece) → List Piece → Prop} (nil : motive [] [])
    (singleton : ∀ xs, motive [xs] xs)
    (cons : ∀ xs xss ps, motive xss ps → motive (xs :: xss) (xs ++ blankPiece :: ps)) (xss : List (List Piece)) :
    motive xss (List.intercalate [blankPiece] xss) := by
  induction xss with
  | nil => exact nil
  | cons xs xss ih =>
    cases xss with
    | nil => exact List.intercalate_singleton ▸ singleton xs
    | cons ys xss =>
      rw [List.intercalate_cons_cons, List.append_assoc, List.singleton_append]
      exact cons xs (ys :: xss) _ ih

lemma Part.intercalate {xss : List (List Piece)} (h : ∀ xs ∈ xss, Part false xs) :
    Part false (List.intercalate [blankPiece] xss) := by
  revert h
  apply intercalate_induction (motive := fun xss ps => (∀ xs ∈ xss, Part false xs) → Part false ps)
  · exact fun _ => .nil
  · exact fun xs h => h xs (by simp)
  · exact fun xs xss ps ih h => (h xs (by simp)).glue neutral_blankPiece (ih fun ys hys => h ys (by simp [hys]))

theorem Part.append_grouped {b : Bool} {ps : List Piece} (hp : Part b ps) {xss : List (List Piece)}
    (h : ∀ xs ∈ xss, Part false xs) : Part b (ps ++ grouped xss) := by
  apply hp.glue neutral_openPiece
  apply Part.nil.glue neutral_blankPiece
  exact (Part.intercalate h).glue neutral_blankPiece (Part.nil.glue neutral_closePiece Part.nil)

lemma spell_grouped (xss : List (List Piece)) :
    spell (grouped xss) = ['\x7b', ' '] ++ List.intercalate [' '] (xss.map spell) ++ [' ', '\x7d'] := by
  have h : spell (List.intercalate [blankPiece] xss) = List.intercalate [' '] (xss.map spell) := by
    induction xss with
    | nil => rfl
    | cons xs xss ih =>
      cases xss with
      | nil => simp [List.intercalate_singleton]
      | cons ys xss =>
        rw [List.intercalate_cons_cons, spell_append, spell_append, ih]
        simp [List.intercalate_cons_cons, blankPiece]
  rw [grouped, spell_append, spell_cons, spell_cons, h]
  rfl

lemma bytes_lt_grouped (xs : List Piece) (xss : List (List Piece)) :
    (spell xs).bytes < (spell (grouped (xs :: xss))).bytes := by
  obtain ⟨rest, hrest⟩ : ∃ rest, List.intercalate [' '] ((xs :: xss).map spell) = spell xs ++ rest := by
    cases xss with
    | nil => exact ⟨[], by simp [List.intercalate_singleton]⟩
    | cons ys xss => exact ⟨_, by rw [List.map_cons, List.map_cons, List.intercalate_cons_cons, List.append_assoc]⟩
  have hbrace : 0 < Text.bytes ['\x7b', ' '] := by decide
  rw [spell_grouped, hrest]
  simp only [Text.bytes_append]
  omega

lemma faces_grouped (xss : List (List Piece)) :
    faces (grouped xss) = (.openBrace, "") :: xss.flatMap faces ++ [(.closeBrace, "")] := by
  have h : faces (List.intercalate [blankPiece] xss) = xss.flatMap faces := by
    apply intercalate_induction (motive := fun xss ps => faces ps = xss.flatMap faces)
    · rfl
    · exact fun xs => by simp
    · intro xs xss ps ih
      rw [faces_append, faces_cons, ih]
      rfl
  rw [grouped, faces_append, faces_cons, faces_cons blankPiece, h]
  rfl

lemma sound_grouped {xss : List (List Piece)} (h : ∀ xs ∈ xss, ∀ p ∈ xs, p.Sound) :
    ∀ p ∈ grouped xss, p.Sound := by
  have hblank : blankPiece.Sound := ⟨rfl, true, [], .blank rfl⟩
  have hbody : ∀ p ∈ List.intercalate [blankPiece] xss, p.Sound := by
    revert h
    apply intercalate_induction (motive := fun xss ps => (∀ xs ∈ xss, ∀ p ∈ xs, p.Sound) → ∀ p ∈ ps, p.Sound)
    · simp
    · exact fun xs h => h xs (by simp)
    · intro xs xss ps ih h p hp
      rcases List.mem_append.mp hp with hp | hp
      · exact h xs (by simp) p hp
      · rcases List.mem_cons.mp hp with rfl | hp
        · exact hblank
        · exact ih (fun ys hys => h ys (by simp [hys])) p hp
  intro p hp
  rw [grouped, List.mem_append, List.mem_cons, List.mem_cons, List.mem_cons, List.mem_singleton] at hp
  rcases hp with (rfl | rfl | hp) | rfl | rfl
  · exact ⟨rfl, true, [], .mark rfl⟩
  · exact hblank
  · exact hbody p hp
  · exact hblank
  · exact ⟨rfl, true, [], .mark rfl⟩

end DotMend.Token
