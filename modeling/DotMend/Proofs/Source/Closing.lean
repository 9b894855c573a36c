import DotMend.Proofs.Source.Blocks
import DotMend.Proofs.Source.Marks

namespace DotMend

namespace Parse.Steps

variable {eof : Span} {ts ts' : List Token} {m m' : Trail} {kids : List Tree} {faults : Bool}
  {cs : List Diagnostic}

lemma exists_last {c : Tree} (h : Steps eof ts m [c] false ts' m' cs)
    (hf : ∀ t ∈ ts, t.faulty → isBare t.kind = false ∧ t.kind ≠ .plus) (hstop : c.span.stop = m'.lastEnd)
    (hlt : ts'.length < ts.length) (hc : c.flagged = false) :
    ∃ u ∈ ts, u.span.stop = c.span.stop ∧ u.faulty = false := by
  obtain ⟨used, rfl, hmarks⟩ := h.marks hf
  obtain ⟨used', hused, -, hend⟩ := h.laid
  obtain rfl := List.append_cancel_right hused
  have hne : used ≠ [] := by
    rintro rfl
    simp at hlt
  have hclean : ¬ (used.any Token.faulty = true) := by
    intro hany
    simp [hc, hany] at hmarks
  have hlast : used.getLast hne ∈ used := List.getLast_mem hne
  refine ⟨used.getLast hne, List.mem_append_left _ hlast, ?_, ?_⟩
  · rw [hstop, hend, endOf, List.getLast?_eq_some_getLast hne]
    rfl
  · by_contra hfaulty
    exact hclean (List.any_eq_true.mpr ⟨_, hlast, by simpa using hfaulty⟩)

def Closed (ts : List Token) (n : Tree) : Prop :=
  n.flagged = false → ∃ u ∈ ts, u.span.stop = n.span.stop ∧ u.faulty = false

theorem closed (h : Steps eof ts m kids faults ts' m' cs)
    (hf : ∀ t ∈ ts, t.faulty → isBare t.kind = false ∧ t.kind ≠ .plus) : ∀ c ∈ kids, c.Everywhere (Closed ts) := by
  induction h with
  | stay | pass | complain | stray => simp
  | @leaf t ts m ht =>
    refine List.forall_mem_singleton.mpr (.intro ?_ ?_)
    · exact exists_last (@Steps.leaf eof t ts m ht) hf rfl (by simp)
    · simp [Trail.leaf, Tree.children_eq]
  | @identifier t part ts m text faults ht hpart =>
    refine List.forall_mem_singleton.mpr (.intro ?_ ?_)
    · have hlt : ts.length < (t :: part ++ ts).length := by
        rw [List.length_append, List.length_cons]
        omega
      exact exists_last (@Steps.identifier eof t part ts m text faults ht hpart) hf rfl hlt
    · simp [Tree.children_eq]
  | @node t _ _ kids faults _ m' _ make hs hl hmake hb ih =>
    refine List.forall_mem_singleton.mpr (.intro ?_ ?_)
    · refine exists_last (.node make hs hl hmake hb) hf ?_ (Nat.lt_succ_of_le hl)
      rw [Trail.node, Tree.span, (hmake _).1]
      rfl
    · rw [(Trail.finished_node hmake hb).children]
      exact ih hf
  | seq hs _ ih ih' =>
    obtain ⟨used, rfl⟩ := hs.exists_used
    refine List.forall_mem_append.mpr ⟨ih hf, fun c hc => ?_⟩
    refine (ih' (fun t ht => hf t (List.mem_append_right _ ht)) c hc).imp ?_
    rintro n hn hclear
    obtain ⟨u, hu, h⟩ := hn hclear
    exact ⟨u, List.mem_append_right _ hu, h⟩

end Parse.Steps

namespace Source

open Token

variable {t : Text} {graph s : Tree}

lemma last_not_blank_of_token {ps : List Piece} (h : Run true ps) {u : Token} (hu : u ∈ tokensAt 0 ps)
    (hfaulty : u.faulty = false) (hstop : u.span.stop = (spell ps).bytes) :
    ∃ c, (spell ps).getLast? = some c ∧ Lexeme.isBlank c = false := by
  obtain ⟨q, hq, hqu⟩ := mem_tokensAt.mp hu
  obtain ⟨kv, htoken, rfl⟩ := Option.map_eq_some_iff.mp hqu
  obtain ⟨before, behind, rfl, hq1⟩ := exists_of_mem_placed hq
  obtain ⟨b, hr⟩ := h.reads
  have hbehind : spell behind = [] := by
    apply Text.eq_nil_of_bytes_eq_zero
    have hend : q.1 + q.2.text.bytes = (spell (before ++ q.2 :: behind)).bytes := hstop
    rw [spell_append, spell_cons, Text.bytes_append, Text.bytes_append] at hend
    omega
  have hfault : q.2.fault = none := by simpa using hfaulty
  rw [Piece.Reads, htoken, hfault] at hr
  obtain ⟨c, hc⟩ := Option.ne_none_iff_exists'.mp (mt List.getLast?_eq_none_iff.mp hr.ne_nil)
  refine ⟨c, ?_, hr.last_not_blank (.inr rfl) hc⟩
  rw [spell_append, spell_cons, hbehind, List.append_nil, List.getLast?_append, hc]
  rfl

theorem exists_solid_text (hg : (ofText t).graph = some graph) (hs : s ∈ graph.preorder fun _ => true)
    (hflag : s.flagged = false) :
    ∃ a x b, t = a ++ x ++ b ∧ s.span = ⟨a.bytes, (a ++ x).bytes⟩ ∧
      (∃ c, x.head? = some c ∧ Lexeme.isBlank c = false) ∧ ∃ c, x.getLast? = some c ∧
      Lexeme.isBlank c = false := by
  obtain ⟨_, _, hreading⟩ := exists_graphReading hg
  obtain ⟨a, x, b, ht, hspan, hhead, hlast⟩ := hreading.exists_text hs
  refine ⟨a, x, b, ht, hspan, hhead, ?_⟩
  cases b with
  | cons d b => exact hlast (by simp)
  | nil =>
    obtain ⟨ps, rest, m, cs, h⟩ := exists_graphWay hg
    obtain ⟨u, hu, hstop, hfaulty⟩ :=
      ((h.steps.closed h.run.kind_of_faulty graph (by simp)).of_mem_preorder hs).here hflag
    have hspelt : spell ps = a ++ x := by rw [h.spelt, ht, List.append_nil]
    obtain ⟨c, hc, hblank⟩ := last_not_blank_of_token h.run hu hfaulty (by rw [hstop, hspan, hspelt])
    refine ⟨c, ?_, hblank⟩
    obtain ⟨d, hd, -⟩ := hhead
    cases hx : x.getLast? with
    | none =>
      rw [List.getLast?_eq_none_iff.mp hx] at hd
      cases hd
    | some e =>
      rw [hspelt, List.getLast?_append, hx] at hc
      exact hc

end Source

end DotMend
