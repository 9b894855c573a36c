import DotMend.Proofs.Source.Reading
import DotMend.Proofs.Token.Adjoining

namespace DotMend

def Span.holds (s : Span) (offset : Nat) : Bool := s.start ≤ offset && offset < s.stop

lemma Span.holds_iff {s : Span} {n : Nat} : s.holds n = true ↔ s.start ≤ n ∧ n < s.stop := by
  simp [Span.holds]

namespace Token

lemma Run.split_blanks {b : Bool} {ps : List Piece} {w rest : Text} (h : Run b ps) (he : spell ps = w ++ rest)
    (hw : ∀ c ∈ w, Lexeme.isBlank c = true) :
    ∃ us vs, ps = us ++ vs ∧ spell us = w ∧ spell vs = rest ∧ ∀ u ∈ us, u.token = none := by
  induction w generalizing b ps with
  | nil => exact ⟨[], ps, rfl, rfl, he, by simp⟩
  | cons c w ih =>
    cases h with
    | nil => simp at he
    | @cons _ p ps hr h =>
      obtain ⟨d, x, hx⟩ := List.exists_cons_of_ne_nil (Lexeme.Read.ne_nil hr)
      obtain rfl : d = c := by
        rw [spell_cons, hx] at he
        exact (List.cons.inj he).1
      obtain ⟨hp, htoken⟩ := hr.eq_of_head_blank (by rw [hx]; rfl) (hw d (by simp))
      rw [spell_cons, hp] at he
      obtain ⟨us, vs, rfl, hus, hvs, hnone⟩ := ih h (List.cons.inj he).2 fun e hew => hw e (by simp [hew])
      exact ⟨p :: us, vs, rfl, by rw [spell_cons, hp, hus]; rfl, hvs, by simpa [htoken] using hnone⟩

lemma Run.split_blanks_behind {b : Bool} {ps qs : List Piece} {before w : Text} (h : Run b (ps ++ qs)) {d : Char}
    (hd : (spell qs).head? = some d) (hne : d ≠ '\n') (he : spell ps = before ++ w)
    (hw : ∀ c ∈ w, Lexeme.isBlank c = true ∧ c ≠ '\n') :
    ∃ us vs, ps = us ++ vs ∧ spell us = before ∧ spell vs = w ∧ ∀ v ∈ vs, v.token = none := by
  induction w using List.reverseRecOn generalizing ps qs d with
  | nil => exact ⟨ps, [], by simp, by simpa using he, rfl, by simp⟩
  | append_singleton w c ih =>
    cases ps using List.reverseRecOn with
    | nil => simp at he
    | append_singleton ps p =>
      rw [List.append_assoc, List.singleton_append] at h
      obtain ⟨b', hr⟩ := h.reads
      have hlast : p.text.getLast? = some c := by
        have := congrArg List.getLast? he
        rw [spell_append, ← List.append_assoc, List.getLast?_concat, List.getLast?_append] at this
        cases hp : p.text.getLast? with
        | none => exact absurd (List.getLast?_eq_none_iff.mp hp) (Lexeme.Read.ne_nil hr)
        | some e => simpa [hp] using this
      obtain ⟨hp, htoken⟩ := hr.eq_of_last_blank hd hne hlast (hw c (by simp)).1
      have he' : spell ps = before ++ w := by
        rw [spell_append, spell_cons, spell_nil, hp, List.append_nil, ← List.append_assoc] at he
        exact List.append_cancel_right he
      obtain ⟨us, vs, rfl, hus, hvs, hnone⟩ := ih h (by rw [spell_cons, hp]; rfl) (hw c (by simp)).2 he'
        fun e hew => hw e (by simp [hew])
      refine ⟨us, vs ++ [p], by simp, hus, by simp [hvs, hp], fun v hv => ?_⟩
      rcases List.mem_append.mp hv with hv | hv
      · exact hnone v hv
      · rw [List.mem_singleton.mp hv, htoken]

def kept (rs : List Span) (n : Nat) (ps : List Piece) : List Piece :=
  ((placed n ps).filter fun q => !rs.any (·.holds q.1)).map Prod.snd

@[simp] lemma kept_nil (rs : List Span) (n : Nat) : kept rs n [] = [] := rfl

lemma kept_append (rs : List Span) (n : Nat) (ps qs : List Piece) :
    kept rs n (ps ++ qs) = kept rs n ps ++ kept rs (n + (spell ps).bytes) qs := by
  simp [kept, placed_append]

lemma mem_of_mem_kept {rs : List Span} {n : Nat} {ps : List Piece} {p : Piece} (h : p ∈ kept rs n ps) :
    p ∈ ps := by
  rw [← map_snd_placed n ps]
  exact List.map_subset _ List.filter_sublist.subset h

lemma kept_eq_self {rs : List Span} {n : Nat} {ps : List Piece}
    (h : ∀ q ∈ placed n ps, ∀ r ∈ rs, r.holds q.1 = false) : kept rs n ps = ps := by
  rw [kept, List.filter_eq_self.mpr, map_snd_placed]
  intro q hq
  simpa using h q hq

lemma kept_eq_nil {rs : List Span} {n : Nat} {ps : List Piece}
    (h : ∀ q ∈ placed n ps, ∃ r ∈ rs, r.holds q.1 = true) : kept rs n ps = [] := by
  rw [kept, List.filter_eq_nil_iff.mpr, List.map_nil]
  intro q hq
  simpa using h q hq

lemma kept_cons_of_le {r : Span} {rs : List Span} {n : Nat} {ps : List Piece} (h : r.stop ≤ n) :
    kept (r :: rs) n ps = kept rs n ps := by
  rw [kept, kept]
  congr 1
  apply List.filter_congr
  intro q hq
  have hr : r.holds q.1 = false := by
    have := (le_of_mem_placed hq).1
    rw [← Bool.not_eq_true, Span.holds_iff]
    omega
  simp [hr]

/-- Lexemes that may go from behind `cur`: they do not end a comment in front of them, and what stands behind them
begins a line only if they did. -/
structure Removable (cur : Piece) (ms : List Piece) : Prop where
  head : ∃ m, ms.head? = some m ∧ m.text.head? ≠ some '\n'
  last : ∀ m, ms.getLast? = some m → m.endsLine → cur.endsLine

inductive Cut : Piece → List Piece → List Piece → Prop
  | nil {cur} : Cut cur [] []
  | keep {cur p ps ks} : Cut p ps ks → Cut cur (p :: ps) (p :: ks)
  | drop {cur ms m ps ks} : Removable cur (ms ++ [m]) → Cut m ps ks → Cut cur (ms ++ [m] ++ ps) ks

lemma Cut.append {cur : Piece} {ps ks : List Piece} (qs : List Piece) (h : Cut (qs.getLastD cur) ps ks) :
    Cut cur (qs ++ ps) (qs ++ ks) := by
  induction qs generalizing cur with
  | nil => exact h
  | cons q qs ih =>
    rw [List.getLastD_cons] at h
    exact .keep (ih h)

theorem Cut.isChain {cur : Piece} {ps ks : List Piece} (hcut : Cut cur ps ks)
    (h : (cur :: ps).IsChain Piece.Beside)
    {front : Piece} (hends : cur.endsLine → front.endsLine) (hline : front.isLine → front = cur) :
    (front :: ks).IsChain Piece.Beside := by
  -- `front` stands in for `cur` once something behind `cur` is gone: it ends a line where `cur` does.
  induction hcut generalizing front with
  | nil => exact .singleton _
  | @keep cur p ps ks _ ih =>
    obtain ⟨hp, h⟩ := List.isChain_cons_cons.mp h
    refine List.isChain_cons_cons.mpr ⟨⟨fun hh => hends (hp.hash hh), fun hl => ?_⟩, ih h id fun _ => rfl⟩
    exact hp.line (hline hl ▸ hl)
  | @drop cur ms m ps ks hms _ ih =>
    obtain ⟨d, hd, hne⟩ := hms.head
    have hbehind : (m :: ps).IsChain Piece.Beside := by
      rw [List.append_assoc, ← List.cons_append] at h
      exact h.right_of_append
    apply ih hbehind fun hm => hends (hms.last m List.getLast?_concat hm)
    intro hl
    have hd' : d ∈ (ms ++ [m] ++ ps).head? := by
      rw [List.head?_append, hd]
      rfl
    -- A comment up to the end of its line would have the line break first among what is dropped.
    exact absurd ((h.rel_head? hd').line (hline hl ▸ hl)) hne

lemma exists_append_of_bytes_spell_le {a b c d : List Piece} (h : a ++ b = c ++ d) (hne : ∀ p ∈ a, p.text ≠ [])
    (hle : (spell a).bytes ≤ (spell c).bytes) : ∃ x, c = a ++ x ∧ b = x ++ d := by
  rcases List.append_eq_append_iff.mp h with ⟨x, rfl, rfl⟩ | ⟨x, rfl, rfl⟩
  · exact ⟨x, rfl, rfl⟩
  · cases x with
    | nil => exact ⟨[], by simp, by simp⟩
    | cons p x =>
      have hp := Text.bytes_pos (hne p (by simp))
      simp only [spell_append, spell_cons, Text.bytes_append] at hle
      omega

lemma eq_of_bytes_spell_eq {a b c d : List Piece} (h : a ++ b = c ++ d) (hne : ∀ p ∈ a ++ b, p.text ≠ [])
    (he : (spell a).bytes = (spell c).bytes) : a = c ∧ b = d := by
  obtain ⟨x, rfl, rfl⟩ := exists_append_of_bytes_spell_le h (fun p hp => hne p (List.mem_append_left b hp)) he.le
  cases x with
  | nil => simp
  | cons p x =>
    have hp := Text.bytes_pos (hne p (by simp))
    simp only [spell_append, spell_cons, Text.bytes_append] at he
    omega

def Cuttable (cur : Piece) (n : Nat) (ps : List Piece) (r : Span) : Prop :=
  ∃ before mid behind, ps = before ++ mid ++ behind ∧
    r = ⟨n + (spell before).bytes, n + (spell before).bytes + (spell mid).bytes⟩ ∧
    Removable (before.getLastD cur) mid

lemma getLastD_append (ms qs : List Piece) (cur : Piece) :
    (ms ++ qs).getLastD cur = qs.getLastD (ms.getLastD cur) := by
  induction ms generalizing cur with
  | nil => rfl
  | cons m ms ih => rw [List.cons_append, List.getLastD_cons, List.getLastD_cons, ih]

lemma Cuttable.aligned {cur : Piece} {n : Nat} {ps : List Piece} {r : Span} (h : Cuttable cur n ps r)
    (hne : ∀ p ∈ ps, p.text ≠ []) {q : Nat × Piece} (hq : q ∈ placed n ps) :
    r.holds q.1 = true ∧ q.1 + q.2.text.bytes ≤ r.stop ∨
      r.holds q.1 = false ∧ (q.1 + q.2.text.bytes ≤ r.start ∨ r.stop ≤ q.1) := by
  obtain ⟨before, mid, behind, rfl, rfl, -⟩ := h
  rw [← Bool.not_eq_true, Span.holds_iff]
  have hpos := bytes_pos_of_mem_placed hne hq
  rw [placed_append, placed_append, List.mem_append, List.mem_append] at hq
  rcases hq with (hq | hq) | hq
  all_goals
    have := le_of_mem_placed hq
    simp only [spell_append, Text.bytes_append] at this ⊢
    omega

theorem cut_kept {rs : List Span} {cur : Piece} {n : Nat} {ps : List Piece} (hrs : ∀ r ∈ rs, Cuttable cur n ps r)
    (hord : rs.Pairwise fun a b => a.stop ≤ b.start) (hne : ∀ p ∈ ps, p.text ≠ []) :
    Cut cur ps (kept rs n ps) := by
  -- The first span splits the lexemes; the later ones are cut out of those behind it.
  induction rs generalizing cur n ps with
  | nil =>
    rw [kept_eq_self (by simp)]
    simpa using Cut.append ps Cut.nil
  | cons r rs ih =>
    obtain ⟨hlater, hord⟩ := List.pairwise_cons.mp hord
    obtain ⟨before, mid, behind, rfl, hr, hmid⟩ := hrs r (by simp)
    obtain ⟨ms, m, rfl⟩ : ∃ ms m, mid = ms ++ [m] := by
      rcases List.eq_nil_or_concat' mid with rfl | hm
      · obtain ⟨d, hd, -⟩ := hmid.head
        simp at hd
      · exact hm
    have hstart : r.start = n + (spell before).bytes := by rw [hr]
    have hstop : r.stop = n + (spell (before ++ (ms ++ [m]))).bytes := by
      rw [hr, spell_append before, Text.bytes_append, Nat.add_assoc]
    have hbefore : kept (r :: rs) n before = before := by
      apply kept_eq_self
      intro q hq s hs
      have hpos := bytes_pos_of_mem_placed (fun p hp => hne p (by simp [hp])) hq
      have hq := le_of_mem_placed hq
      have hle : r.start ≤ s.start := by
        rcases List.mem_cons.mp hs with rfl | hs
        · exact le_rfl
        · have := hlater s hs
          simp only [hr] at this ⊢
          omega
      rw [← Bool.not_eq_true, Span.holds_iff]
      omega
    have hgone : kept (r :: rs) (n + (spell before).bytes) (ms ++ [m]) = [] := by
      apply kept_eq_nil
      intro q hq
      have hpos := bytes_pos_of_mem_placed (fun p hp => hne p (by simp only [List.mem_append] at hp ⊢; tauto)) hq
      have hq := le_of_mem_placed hq
      refine ⟨r, by simp, Span.holds_iff.mpr ?_⟩
      simp only [hr]
      omega
    have hbehind : ∀ s ∈ rs, Cuttable m (n + (spell (before ++ (ms ++ [m]))).bytes) behind s := by
      intro s hs
      obtain ⟨before', mid', behind', he, rfl, hmid'⟩ := hrs s (by simp [hs])
      have hle := hlater _ hs
      rw [hstop] at hle
      rw [List.append_assoc before'] at he
      obtain ⟨x, rfl, rfl⟩ := exists_append_of_bytes_spell_le he (fun p hp => hne p (List.mem_append_left _ hp))
        (by simpa using hle)
      refine ⟨x, mid', behind', by simp, ?_, ?_⟩
      · simp [Nat.add_assoc]
      · rw [getLastD_append] at hmid'
        simpa using hmid'
    rw [kept_append, kept_append, hbefore, hgone, kept_cons_of_le hstop.le, List.append_assoc before]
    rw [List.append_nil]
    apply Cut.append
    exact .drop hmid (ih hbehind hord fun p hp => hne p (by simp [hp]))

lemma spell_kept (rs : List Span) (n : Nat) (ps : List Piece) :
    spell (kept rs n ps) = (placed n ps).flatMap fun q => if rs.any (·.holds q.1) then [] else q.2.text := by
  induction ps generalizing n with
  | nil => rfl
  | cons p ps ih =>
    rw [← List.singleton_append, kept_append, spell_append, List.singleton_append, placed, List.flatMap_cons]
    congr 1
    · by_cases hr : rs.any (·.holds n) = true <;> simp [kept, placed, hr]
    · simpa using ih (n + p.text.bytes)

theorem rewritten_spell_of_cuttable {es : List Edit} (hd : es.Pairwise Edit.Apart) {rs : List Span} {cur : Piece}
    {n : Nat} {ps : List Piece} (hrs : ∀ r ∈ rs, Cuttable cur n ps r) (hne : ∀ p ∈ ps, p.text ≠ [])
    (hgone : ∀ r ∈ rs, ∃ e ∈ es, e.span = r ∧ e.replacement = "") (hes : ∀ e ∈ es, e.span ∈ rs ∨ e.span.stop ≤ n) :
    Edit.rewritten es n (spell ps) = spell (kept rs n ps) := by
  rw [rewritten_spell, spell_kept]
  apply List.flatMap_congr
  intro q hq
  have hle := (le_of_mem_placed hq).1
  split
  · rename_i hany
    obtain ⟨r, hr, hholds⟩ := List.any_eq_true.mp hany
    obtain ⟨e, he, rfl, hempty⟩ := hgone r hr
    obtain ⟨-, hstop⟩ := ((hrs _ hr).aligned hne hq).resolve_right (by simp [hholds])
    rcases (Span.holds_iff.mp hholds).1.eq_or_lt with hstart | hstart
    · have hpos := bytes_pos_of_mem_placed hne hq
      rw [← hstart] at hstop ⊢
      rw [Edit.rewritten_start hd he (fun hnil => by simp [hnil] at hpos) hstop, hempty]
      rfl
    · exact Edit.rewritten_inside hd he hstart hstop
  · rename_i hany
    apply Edit.rewritten_of_not_covers
    rintro e he m hm hlt ⟨hstart, hstop⟩
    rcases hes e he with hr | hr
    · have hnot : e.span.holds q.1 = false := by
        rw [Bool.not_eq_true, List.any_eq_false] at hany
        simpa using hany _ hr
      have := ((hrs _ hr).aligned hne hq).resolve_left (by simp [hnot])
      omega
    · omega

lemma kept_singleton (rs : List Span) (n : Nat) (p : Piece) : kept rs n [p] = [p] ∨ kept rs n [p] = [] := by
  by_cases hr : rs.any (·.holds n) = true <;> simp [kept, placed, hr]

lemma kept_singleton_eq_self_iff {rs : List Span} {n : Nat} {p : Piece} :
    kept rs n [p] = [p] ↔ ∀ r ∈ rs, r.holds n = false := by
  by_cases hr : rs.any (·.holds n) = true <;> simp_all [kept, placed]

lemma kept_singleton_eq_nil_iff {rs : List Span} {n : Nat} {p : Piece} :
    kept rs n [p] = [] ↔ ∃ r ∈ rs, r.holds n = true := by
  by_cases hr : rs.any (·.holds n) = true <;> simp_all [kept, placed]

lemma holds_of_kept_eq_nil {rs : List Span} {n : Nat} {ps : List Piece}
    (ha : ∀ q ∈ placed n ps, ∀ r ∈ rs, r.holds q.1 = true → q.1 + q.2.text.bytes ≤ r.stop) (h : kept rs n ps = [])
    {i : Nat} (hn : n ≤ i) (hi : i < n + (spell ps).bytes) : ∃ r ∈ rs, r.holds i = true := by
  induction ps generalizing n with
  | nil =>
    simp only [spell_nil, Text.bytes_nil] at hi
    omega
  | cons p ps ih =>
    rw [← List.singleton_append, kept_append, List.append_eq_nil_iff] at h
    obtain ⟨r, hr, hholds⟩ := kept_singleton_eq_nil_iff.mp h.1
    have hstop : n + p.text.bytes ≤ r.stop := ha (n, p) (by simp [placed]) r hr hholds
    by_cases hlt : i < n + p.text.bytes
    · refine ⟨r, hr, Span.holds_iff.mpr ?_⟩
      have := Span.holds_iff.mp hholds
      omega
    · refine @ih (n + p.text.bytes) (fun q hq => ha q (by simp [placed, hq])) (by simpa using h.2) (by omega) ?_
      simp only [spell_cons, Text.bytes_append] at hi
      omega

lemma exists_kept_eq_nil {rs : List Span} {n : Nat} {ps : List Piece} {y b : Text} {c : Char}
    (ha : ∀ q ∈ placed n ps, ∀ r ∈ rs, r.holds q.1 = true → q.1 + q.2.text.bytes ≤ r.stop)
    (hne : ∀ p ∈ ps, p.text ≠ []) (he : spell ps = y ++ c :: b)
    (hy : ∀ i, n ≤ i → i < n + y.bytes → ∃ r ∈ rs, r.holds i = true)
    (hc : ∀ r ∈ rs, r.holds (n + y.bytes) = false) :
    ∃ mid q behind, ps = mid ++ q :: behind ∧ spell mid = y ∧ q.text.head? = some c ∧ kept rs n mid = [] ∧
      kept rs (n + (spell mid).bytes) [q] = [q] := by
  induction ps generalizing n y with
  | nil => simp at he
  | cons p ps ih =>
    cases y with
    | nil =>
      refine ⟨[], p, ps, rfl, rfl, ?_, rfl, kept_singleton_eq_self_iff.mpr (by simpa using hc)⟩
      rw [← head?_spell_cons (hne p (by simp)) ps, he]
      rfl
    | cons d y =>
      have hd := Text.bytes_pos (t := d :: y) (by simp)
      obtain ⟨r, hr, hholds⟩ := hy n le_rfl (by omega)
      have hstop : n + p.text.bytes ≤ r.stop := ha (n, p) (by simp [placed]) r hr hholds
      -- The removal that begins here reaches over the whole lexeme, and ends where `c` stands at the latest.
      have hle : p.text.bytes ≤ Text.bytes (d :: y) := by
        by_contra hlt
        have hcr := hc r hr
        rw [← Bool.not_eq_true, Span.holds_iff] at hcr
        have := Span.holds_iff.mp hholds
        omega
      rw [spell_cons] at he
      obtain ⟨y', hy', he'⟩ := Text.exists_append_of_bytes_le he hle
      rw [hy', Text.bytes_append] at hy hc
      obtain ⟨mid, q, behind, rfl, hmid, hq, hnil, hself⟩ :=
        @ih (n + p.text.bytes) y' (fun q hq => ha q (by simp [placed, hq]))
        (fun q hq => hne q (by simp [hq])) he' (fun i hi hlt => hy i (by omega) (by omega))
        (by simpa [Nat.add_assoc] using hc)
      refine ⟨p :: mid, q, behind, rfl, by rw [spell_cons, hmid, hy'], hq, ?_, ?_⟩
      · rw [← List.singleton_append, kept_append, kept_singleton_eq_nil_iff.mpr ⟨r, hr, hholds⟩]
        simpa using hnil
      · simpa [Nat.add_assoc] using hself

lemma split_kept {rs : List Span} {n : Nat} {ps front rest : List Piece} {p : Piece}
    (h : kept rs n ps = front ++ p :: rest) :
    ∃ before behind, ps = before ++ p :: behind ∧ kept rs n before = front ∧
      kept rs (n + (spell before).bytes) [p] = [p] ∧
      kept rs (n + (spell (before ++ [p])).bytes) behind = rest := by
  induction ps generalizing n front with
  | nil => simp at h
  | cons q ps ih =>
    rw [← List.singleton_append, kept_append] at h
    rcases kept_singleton rs n q with hq | hq
    · rw [hq] at h
      cases front with
      | nil =>
        obtain ⟨rfl, hrest⟩ := List.cons.inj h
        exact ⟨[], ps, rfl, rfl, by simpa using hq, hrest⟩
      | cons d front =>
        obtain ⟨rfl, hrest⟩ := List.cons.inj h
        obtain ⟨before, behind, rfl, hfront, hp, hbehind⟩ := ih hrest
        refine ⟨q :: before, behind, rfl, ?_, by simpa [Nat.add_assoc] using hp,
          by simpa [Nat.add_assoc] using hbehind⟩
        rw [← List.singleton_append, kept_append, hq, hfront]
        rfl
    · rw [hq, List.nil_append] at h
      obtain ⟨before, behind, rfl, hfront, hp, hbehind⟩ := ih h
      refine ⟨q :: before, behind, rfl, ?_, by simpa [Nat.add_assoc] using hp,
        by simpa [Nat.add_assoc] using hbehind⟩
      rw [← List.singleton_append, kept_append, hq, hfront]
      rfl

/-- Two lexemes that remain and would be read as one when everything between them is gone. -/
def Joined (rs : List Span) (n : Nat) (ps : List Piece) : Prop :=
  ∃ before p mid q behind, ps = before ++ [p] ++ mid ++ [q] ++ behind ∧ mid ≠ [] ∧ p.Joins q ∧
    kept rs (n + (spell before).bytes) [p] = [p] ∧ kept rs (n + (spell (before ++ [p])).bytes) mid = [] ∧
    kept rs (n + (spell (before ++ [p] ++ mid)).bytes) [q] = [q]

theorem isChain_kept_iff {rs : List Span} {n : Nat} {ps : List Piece} (h : ps.IsChain fun p q => ¬ p.Joins q) :
    (kept rs n ps).IsChain (fun p q => ¬ p.Joins q) ↔ ¬ Joined rs n ps := by
  constructor
  · rintro hchain ⟨before, p, mid, q, behind, rfl, -, hjoins, hp, hmid, hq⟩
    rw [kept_append, kept_append, kept_append, kept_append, hp, hmid, hq] at hchain
    rw [List.append_nil, List.append_assoc, List.append_assoc] at hchain
    exact (List.isChain_append_cons_cons.mp hchain).2.1 hjoins
  · intro hnot
    rw [List.isChain_iff_forall_rel_of_append_cons_cons]
    intro p q front rest he hjoins
    obtain ⟨before, behind, rfl, -, hp, hbehind⟩ := split_kept he
    obtain ⟨mid, behind, rfl, hmid, hq, -⟩ := split_kept (hbehind.trans (List.nil_append _).symm)
    -- Lexemes that were neighbours before do not join, so something between them is gone.
    cases mid with
    | nil => exact (List.isChain_append_cons_cons.mp h).2.1 hjoins
    | cons d mid =>
      refine hnot ⟨before, p, d :: mid, q, behind, by simp, by simp, hjoins, hp, hmid, ?_⟩
      simpa [Nat.add_assoc] using hq

end Token

end DotMend
