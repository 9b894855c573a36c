import DotMend.Proofs.Command.Consolidation
import DotMend.Proofs.Command.Wire
import DotMend.Proofs.Source.Excision
import DotMend.Proofs.Token.Gluing

namespace DotMend

open Token

namespace Consolidation

def reface (group : List (Kind × String)) (seed : Candidate) (rest : List Candidate) (u : Token) :
    List (Kind × String) :=
  if rest.any (·.statement.holds u.span.start) then []
  else if seed.target.holds u.span.start then if u.span.start = seed.target.start then group else []
  else [face u]

def regrouped (tokens : List Token) (seed : Candidate) (rest : List Candidate) : List (Kind × String) :=
  let targets := (seed :: rest).flatMap fun c => (tokens.filter fun u => c.target.holds u.span.start).map face
  tokens.flatMap (reface ((.openBrace, "") :: targets ++ [(.closeBrace, "")]) seed rest)

/-- A token that should stay comes to stand in front of a character that continues it, because everything between
them is removed. -/
def Joins (t : Text) (seed : Candidate) (rest : List Candidate) : Prop :=
  let removals := rest.map fun r => removal t.utf8 r.statement
  ∃ u ∈ (scan t).tokens, seed.target.holds u.span.start = false ∧
    (∀ r ∈ rest, r.statement.holds u.span.start = false) ∧
    ∃ a c b, t = a ++ c :: b ∧ u.span.stop < Text.bytes a ∧ continues u.kind u.value.toList c = true ∧
      (∀ i, u.span.stop ≤ i → i < Text.bytes a → ∃ r ∈ removals, r.holds i = true) ∧
      ∀ r ∈ removals, r.holds (Text.bytes a) = false

end Consolidation

namespace Merge

variable {t : Text} {ps : List Piece} {used : List Token} {graph : Tree} (m : Merge t graph)

lemma cuttable (h : Source.GraphReading t ps used graph) (hclean : ∀ p ∈ ps, p.fault = none)
    {before mid behind : List Piece} (hp : Placing ps m.seed.target.span before mid behind) :
    ∀ r ∈ m.removals, Cuttable ((before ++ mid).getLastD blankPiece) (spell (before ++ mid)).bytes behind r := by
  intro r hr
  have hle := m.target_le_removals h r hr
  obtain ⟨e, he, rfl⟩ := List.mem_map.mp hr
  obtain ⟨x⟩ := h.exists_excision hclean (m.mem_preorder (List.mem_cons_of_mem _ he))
  rw [e.span_tree] at x
  have hsplit := hp.split.symm.trans x.split
  rw [List.append_assoc x.before] at hsplit
  have hbytes : (spell (before ++ mid)).bytes ≤ (spell x.before).bytes := by
    rw [hp.span_eq, x.removal_eq] at hle
    simpa using hle
  obtain ⟨y, hy, hbehind⟩ := exists_append_of_bytes_spell_le hsplit
    (fun p hmem => h.run.ne_nil (hp.split ▸ List.mem_append_left _ hmem)) hbytes
  refine ⟨y, x.lead ++ x.mid ++ x.trail, x.behind, by rw [hbehind]; simp, ?_, ?_⟩
  · exact x.removal_eq.trans (by rw [hy]; simp [Nat.add_assoc])
  · have hne : x.before ≠ [] := by
      obtain ⟨p, hp', -⟩ := hp.framed.first
      rw [hy]
      rintro hnil
      simp only [List.append_eq_nil_iff] at hnil
      simp [hnil.1.2] at hp'
    have := x.removable hne blankPiece
    rwa [hy, getLastD_append] at this

lemma rewritten_edits (h : Source.GraphReading t ps used graph) (hclean : ∀ p ∈ ps, p.fault = none)
    {before mid behind : List Piece} (hp : Placing ps m.seed.target.span before mid behind)
    {pieces : PlainEdge → List Piece} (hpieces : ∀ e ∈ m.edges, spell (pieces e) = targetText t e) :
    Edit.rewritten m.edits 0 t =
      spell (before ++ grouped (m.edges.map pieces) ++ kept m.removals (spell (before ++ mid)).bytes behind) := by
  have hstop : (spell (before ++ mid)).bytes = (spell before).bytes + (spell mid).bytes := by simp
  have hrest : Edit.rewritten m.edits (spell (before ++ mid)).bytes (spell behind) =
      spell (kept m.removals (spell (before ++ mid)).bytes behind) := by
    apply rewritten_spell_of_cuttable (m.edits_apart h) (m.cuttable h hclean hp)
      (fun p hmem => h.run.ne_nil (hp.split ▸ List.mem_append_right _ hmem))
    · intro r hr
      exact ⟨_, List.mem_cons_of_mem _ (List.mem_map_of_mem hr), rfl, rfl⟩
    · intro e he
      rcases List.mem_cons.mp he with rfl | he
      · exact .inr (hstop ▸ (congrArg Span.stop hp.span_eq).le)
      · obtain ⟨r, hr, rfl⟩ := List.mem_map.mp he
        exact .inl hr
  have ht : t = spell before ++ spell mid ++ spell behind := by
    rw [← h.spelt, hp.split, spell_append, spell_append]
  rw [m.rewritten_edits_eq h ht hp.span_eq, m.grouping_eq_spell hpieces, ← hstop, hrest,
    spell_append (before ++ _), spell_append before (grouped _)]

lemma statement_bounds (h : Source.GraphReading t ps used graph) {e : PlainEdge} (he : e ∈ m.rest) :
    m.seed.target.span.stop ≤ e.info.span.start ∧ e.info.span.stop ≤ (spell ps).bytes := by
  have hle := (List.pairwise_cons.mp (m.ordered h.wellPlaced)).1 e he
  have hin := (m.target_inside h.wellPlaced (e := m.seed) List.mem_cons_self).2
  refine ⟨hin.trans hle, ?_⟩
  obtain ⟨a, x, b, hp⟩ := h.exists_pieces (m.mem_preorder (List.mem_cons_of_mem _ he))
  rw [← e.span_tree, hp.span_eq, hp.split]
  simp

lemma removal_holds (h : Source.GraphReading t ps used graph) (hclean : ∀ p ∈ ps, p.fault = none) {q : Nat × Piece}
    (hq : q ∈ placed 0 ps) (htoken : q.2.token ≠ none) {e : PlainEdge} (he : e ∈ m.rest) :
    (Consolidation.removal t.utf8 e.info.span).holds q.1 = e.info.span.holds q.1 := by
  obtain ⟨x⟩ := h.exists_excision hclean (m.mem_preorder (List.mem_cons_of_mem _ he))
  exact x.holds_iff (fun p hp => h.run.ne_nil hp) hq htoken

section Reface

variable (group : List (Kind × String)) (u : Token)

abbrev reface : List (Kind × String) :=
  Consolidation.reface group m.seed.candidate (m.rest.map PlainEdge.candidate) u

variable {u}

lemma reface_of_le (hu : m.seed.target.span.stop ≤ u.span.start) :
    m.reface group u = if m.rest.any fun e => e.info.span.holds u.span.start then [] else [face u] := by
  have hholds : m.seed.candidate.target.holds u.span.start = false := by
    rw [← Bool.not_eq_true, Span.holds_iff]
    exact fun hlt => absurd hu (Nat.not_le.mpr hlt.2)
  rw [Merge.reface, Consolidation.reface, List.any_map, hholds]
  rfl

lemma reface_of_lt (h : Source.GraphReading t ps used graph) (hu : u.span.start < m.seed.target.span.stop) :
    m.reface group u = if m.seed.target.span.holds u.span.start then
      if u.span.start = m.seed.target.span.start then group else [] else [face u] := by
  have hgone : ((m.rest.map PlainEdge.candidate).any fun c => c.statement.holds u.span.start) = false := by
    rw [List.any_map, List.any_eq_false]
    intro e he
    have := (m.statement_bounds h he).1
    simp only [Function.comp, PlainEdge.candidate, Span.holds_iff]
    omega
  rw [Merge.reface, Consolidation.reface, hgone]
  rfl

end Reface

lemma flatMap_reface_before (h : Source.GraphReading t ps used graph) {before mid behind : List Piece}
    (hp : Placing ps m.seed.target.span before mid behind) (group : List (Kind × String)) :
    (tokensAt 0 before).flatMap (m.reface group) = faces before := by
  have hne : ∀ p ∈ before, p.text ≠ [] := fun p hmem => h.run.ne_nil (by simp [hp.split, hmem])
  rw [← map_face_tokensAt 0, @List.map_eq_flatMap _ _ face]
  apply List.flatMap_congr
  intro u hu
  have hlt := start_of_mem_tokensAt hne hu
  have hstart : m.seed.target.span.start = (spell before).bytes := by rw [hp.span_eq]
  have hstop : m.seed.target.span.start ≤ m.seed.target.span.stop := by rw [hp.span_eq]; simp
  rw [m.reface_of_lt group h (by omega), not_holds_of_mem_tokensAt hne (.inl (by omega)) hu]
  rfl

lemma flatMap_reface_target (h : Source.GraphReading t ps used graph) {before mid behind : List Piece}
    (hp : Placing ps m.seed.target.span before mid behind) (group : List (Kind × String)) :
    (tokensAt (spell before).bytes mid).flatMap (m.reface group) = group := by
  have hne : ∀ p ∈ mid, p.text ≠ [] := fun p hmem => h.run.ne_nil (by simp [hp.split, hmem])
  obtain ⟨p, hfirst, hsome⟩ := hp.framed.first
  obtain ⟨mid, rfl⟩ := List.head?_eq_some_iff.mp hfirst
  obtain ⟨kv, hkv⟩ := Option.isSome_iff_exists.mp hsome
  have htarget : ∀ u ∈ tokensAt (spell before).bytes (p :: mid),
      m.reface group u = if u.span.start = (spell before).bytes then group else [] := by
    intro u hu
    have hlt := start_of_mem_tokensAt hne hu
    have hholds : m.seed.target.span.holds u.span.start = true := by
      rw [hp.span_eq]
      exact Span.holds_iff.mpr hlt
    rw [m.reface_of_lt group h (Span.holds_iff.mp hholds).2, hholds, hp.span_eq]
    rfl
  have hothers : (tokensAt ((spell before).bytes + p.text.bytes) mid).flatMap
      (fun u => if u.span.start = (spell before).bytes then group else []) = [] := by
    rw [List.flatMap_eq_nil_iff]
    intro u hu
    have := start_of_mem_tokensAt (fun q hq => hne q (by simp [hq])) hu
    have hpos := Text.bytes_pos (hne p (by simp))
    rw [if_neg (by omega)]
  rw [List.flatMap_congr htarget, tokensAt_cons, Piece.tokenAt, hkv, List.flatMap_append, hothers]
  simp

lemma flatMap_reface_behind (h : Source.GraphReading t ps used graph) (hclean : ∀ p ∈ ps, p.fault = none)
    {before mid behind : List Piece} (hp : Placing ps m.seed.target.span before mid behind)
    (group : List (Kind × String)) :
    (tokensAt (spell (before ++ mid)).bytes behind).flatMap (m.reface group) =
      faces (kept m.removals (spell (before ++ mid)).bytes behind) := by
  have hstop : m.seed.target.span.stop = (spell (before ++ mid)).bytes := by
    rw [hp.span_eq]
    simp
  rw [← flatMap_tokensAt_eq_faces_kept fun n => m.rest.any fun e => e.info.span.holds n]
  · apply List.flatMap_congr
    intro u hu
    exact m.reface_of_le group (hstop.le.trans (start_of_mem_tokensAt (fun p hmem => h.run.ne_nil
      (by simp [hp.split, hmem])) hu).1)
  · intro q hq htoken
    have hq : q ∈ placed 0 ps := by
      rw [hp.split, placed_append, Nat.zero_add]
      exact List.mem_append_right _ hq
    rw [Merge.removals, List.any_map, Bool.eq_iff_iff, List.any_eq_true, List.any_eq_true]
    exact exists_congr fun e => and_congr_right fun he =>
      by rw [Function.comp, m.removal_holds h hclean hq htoken he]

lemma regrouped_eq (h : Source.GraphReading t ps used graph) (hclean : ∀ p ∈ ps, p.fault = none)
    {before mid behind : List Piece} (hp : Placing ps m.seed.target.span before mid behind)
    {pieces : PlainEdge → List Piece} (hpieces : ∀ e ∈ m.edges, ∃ a b, Placing ps e.target.span a (pieces e) b) :
    Consolidation.regrouped (scan t).tokens m.seed.candidate (m.rest.map PlainEdge.candidate) =
      faces (before ++ grouped (m.edges.map pieces) ++ kept m.removals (spell (before ++ mid)).bytes behind) ++
        [(.endOfFile, "")] := by
  have hscan : (scan t).tokens = tokensAt 0 ps ++ [endAt (spell ps).bytes] := by
    rw [← h.spelt, h.run.scan]
  have htargets : ((m.seed.candidate :: m.rest.map PlainEdge.candidate).flatMap fun c =>
      ((scan t).tokens.filter fun u => c.target.holds u.span.start).map face) =
        (m.edges.map pieces).flatMap faces := by
    rw [← List.map_cons, List.flatMap_map, List.flatMap_map, hscan]
    apply List.flatMap_congr
    intro e he
    obtain ⟨a, b, hplacing⟩ := hpieces e he
    exact hplacing.faces_eq (fun p hmem => h.run.ne_nil hmem) le_rfl
  have hend (group : List (Kind × String)) : m.reface group (endAt (spell ps).bytes) = [(.endOfFile, "")] := by
    have hgone : (m.rest.any fun e => e.info.span.holds (endAt (spell ps).bytes).span.start) = false := by
      rw [List.any_eq_false]
      intro e he
      have := m.statement_bounds h he
      rw [Span.holds_iff, endAt, Span.caret_start]
      omega
    have hle : m.seed.target.span.stop ≤ (endAt (spell ps).bytes).span.start := by
      rw [hp.span_eq, hp.split, endAt, Span.caret_start]
      simp
    rw [m.reface_of_le group hle, hgone]
    rfl
  unfold Consolidation.regrouped
  simp only [htargets]
  rw [← faces_grouped]
  generalize hgroup : faces (grouped (m.edges.map pieces)) = group
  change (scan t).tokens.flatMap (m.reface group) = _
  rw [hscan, List.flatMap_append, List.flatMap_singleton, hend, hp.split, tokensAt_append, tokensAt_append,
    Nat.zero_add, Nat.zero_add, List.flatMap_append, List.flatMap_append, m.flatMap_reface_before h hp,
    m.flatMap_reface_target h hp, m.flatMap_reface_behind h hclean hp, faces_append, faces_append, hgroup]

theorem scan_iff_not_joined (h : Source.GraphReading t ps used graph) (hclean : ∀ p ∈ ps, p.fault = none)
    {before mid behind : List Piece} (hp : Placing ps m.seed.target.span before mid behind)
    {xss : List (List Piece)} (hxss : ∀ xs ∈ xss, ∃ span a b, Placing ps span a xs b) :
    let ks := before ++ grouped xss ++ kept m.removals (spell (before ++ mid)).bytes behind
    (scan (spell ks)).diagnostics = [] ∧ (scan (spell ks)).tokens.map face = faces ks ++ [(.endOfFile, "")] ↔
      ¬ Joined m.removals (spell (before ++ mid)).bytes behind := by
  intro ks
  have hsound := h.run.sound hclean
  obtain ⟨-, hchain⟩ := (run_iff_isChain hsound).mp h.run
  have hpart : Part true (before ++ grouped xss) := (hp.part_before h.run hchain).append_grouped fun xs hxs =>
    let ⟨_, _, _, hplacing⟩ := hxss xs hxs
    hplacing.part hchain
  have hks : ∀ p ∈ ks, p.Sound := by
    intro p hmem
    simp only [ks, List.mem_append] at hmem
    rcases hmem with (hmem | hmem) | hmem
    · exact hsound p (by simp [hp.split, hmem])
    · refine sound_grouped (fun xs hxs q hq => ?_) p hmem
      obtain ⟨_, a, b, hplacing⟩ := hxss xs hxs
      exact hsound q (by simp [hplacing.split, hq])
    · exact hsound p (by simp [hp.split, mem_of_mem_kept hmem])
  -- Behind the group the comments keep their lines.
  have hbehind : (closePiece :: kept m.removals (spell (before ++ mid)).bytes behind).IsChain Piece.Beside := by
    obtain ⟨last, hlast, htoken⟩ := hp.framed.last
    obtain ⟨mid', rfl⟩ := List.getLast?_eq_some_iff.mp hlast
    have hcut := cut_kept (m.cuttable h hclean hp) (m.removals_ordered h) fun p hmem =>
      h.run.ne_nil (by simp [hp.split, hmem])
    rw [show (before ++ (mid' ++ [last])).getLastD blankPiece = last by
      rw [← List.append_assoc, List.getLastD_concat]] at hcut
    have hlastchain : (last :: behind).IsChain Piece.Beside :=
      (hchain.suffix ⟨before ++ mid', by rw [hp.split]; simp⟩).imp fun _ _ hbeside => hbeside.1
    refine hcut.isChain hlastchain (fun hends => ?_) fun hl => absurd hl (by decide)
    obtain ⟨c, hc, hblank⟩ := hp.framed.last_not_blank (hp.split ▸ h.run) (.inr fun p hmem => hclean p (by
      rw [hp.split]
      exact List.mem_append_left _ (List.mem_append_right _ hmem)))
    rw [getLast?_spell_concat (h.run.ne_nil (by simp [hp.split])), beq_iff_eq.mp hends] at hc
    obtain rfl := Option.some.inj hc
    simp [Lexeme.isBlank] at hblank
  have hsplit : ks = before ++ (openPiece :: blankPiece :: List.intercalate [blankPiece] xss ++ [blankPiece]) ++
      closePiece :: kept m.removals (spell (before ++ mid)).bytes behind := by
    simp [ks, grouped]
  have hfront : before ++ grouped xss =
      before ++ (openPiece :: blankPiece :: List.intercalate [blankPiece] xss ++ [blankPiece]) ++
      [closePiece] := by
    simp [grouped]
  obtain ⟨hbeside, hapart⟩ := isChain_and.mp (hfront ▸ hpart.chain)
  have hks' : ks.IsChain Piece.Beside := hsplit ▸ List.isChain_split.mpr ⟨hbeside, hbehind⟩
  -- All that can go wrong is left to the lexemes behind the group: a brace is never continued.
  rw [scan, scanFrom_eq_iff_run hks (fun _ _ _ => rfl) hks', run_iff_isChain hks, isChain_and]
  rw [← isChain_kept_iff (isChain_and.mp (hchain.suffix ⟨before ++ mid, hp.split.symm⟩)).2]
  constructor
  · rintro ⟨-, -, hall⟩
    exact (List.isChain_split.mp (hsplit ▸ hall)).2.tail
  · intro hkept
    refine ⟨fun _ _ _ => rfl, hks', hsplit ▸ List.isChain_split.mpr ⟨hapart, List.isChain_cons.mpr ⟨?_, hkept⟩⟩⟩
    rintro q - ⟨c, -, hc⟩
    exact absurd hc (by simp [neutral_closePiece.not_continued])

lemma aligned (h : Source.GraphReading t ps used graph) (hclean : ∀ p ∈ ps, p.fault = none)
    {before mid behind : List Piece} (hp : Placing ps m.seed.target.span before mid behind) :
    ∀ q ∈ placed (spell (before ++ mid)).bytes behind, ∀ r ∈ m.removals, r.holds q.1 = true →
      q.1 + q.2.text.bytes ≤ r.stop := by
  intro q hq r hr hholds
  have hne : ∀ p ∈ behind, p.text ≠ [] := fun p hmem => h.run.ne_nil (by simp [hp.split, hmem])
  exact (((m.cuttable h hclean hp r hr).aligned hne hq).resolve_right (by simp [hholds])).2

lemma joined_of_joins (h : Source.GraphReading t ps used graph) (hclean : ∀ p ∈ ps, p.fault = none)
    {before mid behind : List Piece} (hp : Placing ps m.seed.target.span before mid behind)
    (hjoins : Consolidation.Joins t m.seed.candidate (m.rest.map PlainEdge.candidate)) :
    Joined m.removals (spell (before ++ mid)).bytes behind := by
  obtain ⟨u, hu, htarget, hkept, a, c, b, ht, hlt, hc, hgone, hstays⟩ := hjoins
  rw [m.removals_eq] at hgone hstays
  have hne : ∀ p ∈ ps, p.text ≠ [] := fun p hmem => h.run.ne_nil hmem
  have hle := m.target_le_removals h
  have hstart : m.seed.candidate.target.start = (spell before).bytes := congrArg Span.start hp.span_eq
  have hstop : m.seed.candidate.target.stop = (spell before).bytes + (spell mid).bytes :=
    congrArg Span.stop hp.span_eq
  rw [← h.spelt, h.run.scan, hp.split, tokensAt_append, tokensAt_append, Nat.zero_add, Nat.zero_add,
    List.mem_append, List.mem_append, List.mem_append, List.mem_singleton] at hu
  rcases hu with ((hu | hu) | hu) | rfl
  · obtain ⟨r, hr, hholds⟩ := hgone u.span.stop le_rfl hlt
    have hmid : 0 < (spell mid).bytes := by
      obtain ⟨d, hd, -⟩ := hp.framed.head_not_blank (hp.split ▸ h.run)
      exact Text.bytes_pos fun hnil => by simp [hnil] at hd
    have hrstop := hle r hr
    have hrstart := (Span.holds_iff.mp hholds).1
    obtain ⟨q, hq, hqu⟩ := mem_tokensAt.mp hu
    have hend := (le_of_mem_placed hq).2
    rw [(spanAt_of_tokenAt hqu).1, Piece.spanAt_stop] at hrstart
    rw [hp.span_eq] at hrstop
    simp only at hrstop
    omega
  · have hmem := start_of_mem_tokensAt (fun p hmem => hne p (by simp [hp.split, hmem])) hu
    rw [← Bool.not_eq_true, Span.holds_iff] at htarget
    omega
  · obtain ⟨⟨n, p⟩, hq, hpu⟩ := mem_tokensAt.mp hu
    obtain ⟨front, tail, rfl, hn⟩ := exists_of_mem_placed hq
    obtain ⟨⟨k, v⟩, hkv, rfl⟩ := Option.map_eq_some_iff.mp hpu
    dsimp only at hn hkv hlt hgone hc hkept
    have hbytes : (spell (before ++ mid ++ front ++ [p])).bytes = n + p.text.bytes := by simp [hn, Nat.add_assoc]
    have htext : spell (before ++ mid ++ front ++ [p]) ++ spell tail = a ++ c :: b := by
      rw [← ht, ← h.spelt, hp.split]
      simp
    obtain ⟨y, rfl, htail⟩ := Text.exists_append_of_bytes_le htext (hbytes ▸ hlt.le)
    rw [Text.bytes_append, hbytes] at hlt hgone hstays
    have hplaced : placed (n + p.text.bytes) tail ⊆ placed (spell (before ++ mid)).bytes (front ++ p :: tail) := by
      rw [placed_append, placed, ← hn]
      exact fun x hx => List.mem_append_right _ (List.mem_cons_of_mem _ hx)
    obtain ⟨gap, q, rest, rfl, hgap, hhead, hnil, hself⟩ := exists_kept_eq_nil
      (fun x hx => m.aligned h hclean hp x (hplaced hx)) (fun x hx => hne x (by simp [hp.split, hx])) htail hgone
      hstays
    have hpmem : (n, p) ∈ placed 0 ps := by
      rw [hp.split, placed_append, Nat.zero_add]
      exact List.mem_append_right _ hq
    refine ⟨front, p, gap, q, rest, by simp, ?_, ⟨c, hhead, ?_⟩, ?_, ?_, ?_⟩
    · rintro rfl
      simp [← hgap, Piece.spanAt] at hlt
    · simpa [Piece.continuedBy, hkv] using hc
    · rw [kept_singleton_eq_self_iff, Merge.removals, List.forall_mem_map, ← hn]
      intro e he
      exact (m.removal_holds h hclean hpmem (by simp [hkv]) he).trans (hkept _ (List.mem_map_of_mem he))
    · rwa [spell_append front, Text.bytes_append, ← Nat.add_assoc, ← hn, spell_cons, spell_nil, List.append_nil]
    · rwa [spell_append (front ++ [p]), spell_append front, Text.bytes_append, Text.bytes_append, ← Nat.add_assoc,
        ← Nat.add_assoc, ← hn, spell_cons p, spell_nil, List.append_nil]
  · simp [endAt, continues] at hc

lemma joins_of_joined (h : Source.GraphReading t ps used graph) (hclean : ∀ p ∈ ps, p.fault = none)
    {before mid behind : List Piece} (hp : Placing ps m.seed.target.span before mid behind)
    (hjoined : Joined m.removals (spell (before ++ mid)).bytes behind) :
    Consolidation.Joins t m.seed.candidate (m.rest.map PlainEdge.candidate) := by
  have haligned := m.aligned h hclean hp
  obtain ⟨front, p, gap, q, rest, rfl, hgap, ⟨c, hc, hj⟩, hkept, hnil, hstays⟩ := hjoined
  have hne : ∀ x ∈ ps, x.text ≠ [] := fun x hmem => h.run.ne_nil hmem
  obtain ⟨⟨k, v⟩, hkv, hj⟩ : ∃ kv, p.token = some kv ∧ continues kv.1 kv.2 c = true := by
    simpa [Piece.continuedBy, Option.any_eq_true] using hj
  have hsplit : ps = before ++ mid ++ front ++ p :: (gap ++ [q] ++ rest) := by
    rw [hp.split]
    simp
  generalize hn : (spell (before ++ mid)).bytes + (spell front).bytes = n at hkept
  have hplaced : (n, p) ∈ placed 0 ps := by
    rw [hsplit, placed_append, Nat.zero_add, ← hn, spell_append, Text.bytes_append]
    simp [placed]
  let u : Token := ⟨k, p.spanAt n, String.ofList v, p.fault.isSome⟩
  have hu : p.tokenAt n = some u := by rw [Piece.tokenAt, hkv]; rfl
  obtain ⟨x, hx⟩ := List.head?_eq_some_iff.mp hc
  have hstop : (spell (before ++ mid)).bytes + (spell (front ++ [p])).bytes = n + p.text.bytes := by
    rw [← hn]
    simp [Nat.add_assoc]
  have hplace : (spell (before ++ mid ++ front ++ [p] ++ gap)).bytes = n + p.text.bytes + (spell gap).bytes := by
    rw [← hn]
    simp [Nat.add_assoc]
  refine ⟨u, ?_, ?_, ?_, spell (before ++ mid ++ front ++ [p] ++ gap), c, x ++ spell rest, ?_, ?_, ?_, ?_, ?_⟩
  · rw [← h.spelt, h.run.scan]
    exact List.mem_append_left _ (mem_tokensAt.mpr ⟨(n, p), hplaced, hu⟩)
  · have htarget : m.seed.candidate.target.stop ≤ n := by
      rw [← hn, show m.seed.candidate.target = m.seed.target.span from rfl, hp.span_eq]
      simp
    rw [← Bool.not_eq_true, Span.holds_iff]
    exact fun hlt => absurd htarget (Nat.not_le.mpr hlt.2)
  · rw [List.forall_mem_map]
    intro e he
    exact (m.removal_holds h hclean hplaced (by simp [hkv]) he).symm.trans
      (kept_singleton_eq_self_iff.mp hkept _ (List.mem_map_of_mem he))
  · rw [← h.spelt, hsplit]
    simp [hx]
  · obtain ⟨g, gap, rfl⟩ := List.exists_cons_of_ne_nil hgap
    have hpos := Text.bytes_pos (hne g (by simp [hsplit]))
    rw [hplace, spell_cons, Text.bytes_append]
    exact Nat.lt_add_of_pos_right (by omega)
  · simpa [u] using hj
  · rw [m.removals_eq]
    intro i hi hlt
    refine holds_of_kept_eq_nil (fun x hx r hr => haligned x ?_ r hr) (hstop ▸ hnil) hi (hplace ▸ hlt)
    rw [placed_append, placed_append, placed_append, hstop]
    exact List.mem_append_left _ (List.mem_append_left _ (List.mem_append_right _ hx))
  · rw [m.removals_eq, hplace]
    have := kept_singleton_eq_self_iff.mp hstays
    rwa [spell_append (front ++ [p]), Text.bytes_append, ← Nat.add_assoc, hstop] at this

lemma joins_iff_joined (h : Source.GraphReading t ps used graph) (hclean : ∀ p ∈ ps, p.fault = none)
    {before mid behind : List Piece} (hp : Placing ps m.seed.target.span before mid behind) :
    Consolidation.Joins t m.seed.candidate (m.rest.map PlainEdge.candidate) ↔
      Joined m.removals (spell (before ++ mid)).bytes behind :=
  ⟨m.joined_of_joins h hclean hp, m.joins_of_joined h hclean hp⟩

theorem scan_rewritten_iff (h : Source.GraphReading t ps used graph) (hclean : ∀ p ∈ ps, p.fault = none) :
    let t' := Edit.rewritten m.edits 0 t
    let rest := m.rest.map PlainEdge.candidate
    (scan t').diagnostics = [] ∧
      (scan t').tokens.map face = Consolidation.regrouped (scan t).tokens m.seed.candidate rest ↔
        ¬ Consolidation.Joins t m.seed.candidate rest := by
  have hexists (e : PlainEdge) : ∃ xs, e ∈ m.edges → ∃ a b, Placing ps e.target.span a xs b := by
    by_cases he : e ∈ m.edges
    · obtain ⟨a, xs, b, hplacing⟩ :=
        h.exists_pieces (Tree.mem_preorder_trans (m.mem_preorder he) e.target_mem_preorder)
      exact ⟨xs, fun _ => ⟨a, b, hplacing⟩⟩
    · exact ⟨[], fun hmem => absurd hmem he⟩
  choose pieces hpieces using hexists
  obtain ⟨before, mid, behind, hp⟩ :=
    h.exists_pieces (Tree.mem_preorder_trans (m.mem_preorder List.mem_cons_self) m.seed.target_mem_preorder)
  have hspell : ∀ e ∈ m.edges, spell (pieces e) = targetText t e := by
    intro e he
    obtain ⟨a, b, hplacing⟩ := hpieces e he
    have hslice := Text.slice?_bytes (spell a) (spell (pieces e)) (spell b)
    rw [← hplacing.span_eq, ← spell_append, ← spell_append, ← hplacing.split, h.spelt, m.slice_target h he]
      at hslice
    exact (Option.some.inj hslice).symm
  intro t' rest
  have ht' : t' = _ := m.rewritten_edits h hclean hp hspell
  rw [ht', m.regrouped_eq h hclean hp hpieces, m.joins_iff_joined h hclean hp]
  apply m.scan_iff_not_joined h hclean hp
  intro xs hxs
  obtain ⟨e, he, rfl⟩ := List.mem_map.mp hxs
  exact ⟨_, hpieces e he⟩

end Merge

namespace Action

variable {t : Text} {request : Span} {action : Action}

/-- Joining the edge statements at a place of a text without lexical faults groups the tokens of their targets in
the first of them, removes the tokens of the others and leaves every other token alone, unless a token that stays
comes to stand in front of a character that continues it. -/
theorem scan_consolidated_iff (hclean : ∀ d ∈ (Source.ofText t).diagnostics, d.phase ≠ .scan)
    (ha : consolidate? t (Source.ofText t) request = some action) :
    ∃ seed rest edits t', action.command = .consolidate ⟨true, seed :: rest⟩ ∧
      Command.execute action.command.id t (Source.ofText t) action.command.arguments = .ok edits ∧
      Edit.applyAll t edits = .ok t' ∧
      ((scan t').diagnostics = [] ∧ (scan t').tokens.map face = Consolidation.regrouped (scan t).tokens seed rest ↔
        ¬ Consolidation.Joins t seed rest) := by
  obtain ⟨ps, used, graph, m, h, hcommand, hedits, happly⟩ := exists_merged ha
  have hfaults : ∀ p ∈ ps, p.fault = none := Source.fault_eq_none h.run (h.spelt ▸ hclean)
  exact ⟨m.seed.candidate, m.rest.map PlainEdge.candidate, m.edits, _, hcommand, Command.execute_arguments hedits,
    happly, m.scan_rewritten_iff h hfaults⟩

theorem scan_consolidated_iff_lines :
    let t : Text := "graph \x7b\n\ta -- \x7bb c\x7d // here\n\ta -- 1.5;\n\tx -- y a -- d\n\x7d".toList
    (∀ d ∈ (Source.ofText t).diagnostics, d.phase ≠ .scan) ∧
    ∃ action, consolidate? t (Source.ofText t) (.caret 9) = some action ∧
    ∃ seed rest edits t', action.command = .consolidate ⟨true, seed :: rest⟩ ∧
      Command.execute action.command.id t (Source.ofText t) action.command.arguments = .ok edits ∧
      Edit.applyAll t edits = .ok t' ∧
      ((scan t').diagnostics = [] ∧ (scan t').tokens.map face = Consolidation.regrouped (scan t).tokens seed rest ↔
        ¬ Consolidation.Joins t seed rest) := by
  intro t
  have hclean : ∀ d ∈ (Source.ofText t).diagnostics, d.phase ≠ .scan := by decide +kernel
  have hsome : (consolidate? t (Source.ofText t) (.caret 9)).isSome := by decide +kernel
  obtain ⟨action, ha⟩ := Option.isSome_iff_exists.mp hsome
  exact ⟨hclean, action, ha, scan_consolidated_iff hclean ha⟩

/-- The word in front of a removed statement grows into the word behind it. -/
theorem scan_consolidated_joined_words :
    let t : Text := "graph\x7b\"a\"--b x--y\"a\"--c z\x7d".toList
    let t' : Text := "graph\x7b\"a\"--\x7b b c \x7d x--yz\x7d".toList
    (∀ d ∈ (Source.ofText t).diagnostics, d.phase ≠ .scan ∧ d.phase ≠ .parse) ∧
    ∃ action seed rest edits, consolidate? t (Source.ofText t) (.caret 6) = some action ∧
      action.command = .consolidate ⟨true, seed :: rest⟩ ∧
      Command.execute action.command.id t (Source.ofText t) action.command.arguments = .ok edits ∧
      Edit.applyAll t edits = .ok t' ∧
      (scan t').tokens.map face ≠ Consolidation.regrouped (scan t).tokens seed rest := by
  intro t t'
  let seed : Candidate := ⟨⟨6, 12⟩, ⟨6, 9⟩, ⟨11, 12⟩⟩
  let other : Candidate := ⟨⟨17, 23⟩, ⟨17, 20⟩, ⟨22, 23⟩⟩
  let edits : List Edit :=
    [⟨⟨11, 12⟩, "\x7b b c \x7d", "Group edge targets"⟩, .delete ⟨17, 24⟩ "Remove consolidated edge statement"]
  obtain ⟨action, ha, hcommand, hedits, happly⟩ := @exists_consolidated t t' (.caret 6) ⟨true, [seed, other]⟩ edits
    (by decide +kernel) (by decide +kernel) (by decide +kernel)
  exact ⟨by decide +kernel, action, seed, [other], edits, ha, hcommand, Command.execute_arguments hedits, happly,
    by decide +kernel⟩

end Action

end DotMend
