import DotMend.Action.Basic
import DotMend.Command.Execute
import DotMend.Proofs.Parse.Relocation
import DotMend.Proofs.Source.Graph

/-! A graph fix carried out on the text that it was made for, and what the result is read as. The keyword and the
operators are respelt, and all else is read as before, behind the keyword at places that move with its length. -/

namespace DotMend

namespace Token

variable {ps : List Piece}

lemma eq_of_span_eq {q r : Nat × Piece} (hr : Run true ps) (hq : q ∈ placed 0 ps) (hr' : r ∈ placed 0 ps)
    (h : q.2.spanAt q.1 = r.2.spanAt r.1) : q = r := by
  have hpos := bytes_pos_of_mem_placed (fun p hp => hr.ne_nil hp) hq
  have hstart : q.1 = r.1 := congrArg Span.start h
  have hstop : q.1 + q.2.text.bytes = r.1 + r.2.text.bytes := congrArg Span.stop h
  rcases eq_or_apart_of_mem_placed hq hr' with he | ha
  · exact he
  · omega

lemma applyAll_pieces (hr : Run true ps) {es : List Edit} (hapart : es.Pairwise Edit.Apart)
    (hes : ∀ e ∈ es, ∃ q ∈ placed 0 ps, e.span = q.2.spanAt q.1) {g : Nat × Piece → Piece}
    (hhit : ∀ q ∈ placed 0 ps, ∀ e ∈ es, e.span = q.2.spanAt q.1 → (g q).text = e.replacement.toList)
    (hmiss : ∀ q ∈ placed 0 ps, (∀ e ∈ es, e.span ≠ q.2.spanAt q.1) → g q = q.2) :
    Edit.applyAll (spell ps) es = .ok (spell ((placed 0 ps).map g)) := by
  have hne {q : Nat × Piece} (hq : q ∈ placed 0 ps) : q.2.text ≠ [] := by
    obtain ⟨before, behind, rfl, -⟩ := exists_of_mem_placed hq
    exact hr.ne_nil (by simp)
  rw [Edit.applyAll_eq_rewritten ?_ hapart]
  · refine congrArg _ (rewritten_spell_of_pieces fun q hq => ?_)
    by_cases hany : ∃ e ∈ es, e.span = q.2.spanAt q.1
    · obtain ⟨e, he, hspan⟩ := hany
      have := Edit.rewritten_start hapart he (hne hq) (by rw [hspan]; rfl)
      rw [hspan, Piece.spanAt_start] at this
      rw [this, hhit q hq e he hspan]
    · have hnone : ∀ e ∈ es, e.span ≠ q.2.spanAt q.1 := fun e he hspan => hany ⟨e, he, hspan⟩
      rw [hmiss q hq hnone]
      apply Edit.rewritten_of_not_covers
      rintro e he m hm hm' ⟨hstart, hstop⟩
      obtain ⟨r, hr, hspan⟩ := hes e he
      rw [hspan, Piece.spanAt_start] at hstart
      rw [hspan, Piece.spanAt_stop] at hstop
      rcases eq_or_apart_of_mem_placed hq hr with rfl | ha
      · exact hnone e he hspan
      · omega
  · intro e he
    obtain ⟨q, hq, hspan⟩ := hes e he
    exact ⟨q.2.text, hne hq, hspan ▸ slice?_of_mem_placed hq⟩

end Token

open Token

namespace GraphFix

variable (f : GraphFix)

def keywordSize : Nat := if f.current = f.wanted then f.keyword.size else Text.bytes f.wanted.keyword.toList

def place (offset : Nat) : Nat :=
  if offset < f.keyword.stop then min offset f.keyword.start
  else f.keyword.start + f.keywordSize + (offset - f.keyword.stop)

lemma place_mono : Monotone f.place := by
  intro a b h
  simp only [place]
  split <;> split <;> omega

/-- Offsets behind the keyword move with its length; the keyword and the listed operators become the wanted
ones. -/
def relocation : Relocation where
  place := f.place
  mono := f.place_mono
  recolour span kind :=
    if span = f.keyword then f.wanted.kind else if span ∈ f.operations then f.wanted.allowedOp.kind else kind

def keywordPiece (kind : GraphKind) : Piece := ⟨kind.keyword.toList, some (kind.kind, []), none⟩

lemma isKeyword_keywordPiece (kind : GraphKind) : IsKeyword kind.kind (keywordPiece kind) := by
  cases kind
  · exact ⟨rfl, rfl, List.all_eq_true.mp (by decide), by decide⟩
  · exact ⟨rfl, rfl, List.all_eq_true.mp (by decide), by decide⟩

def respell (q : Nat × Piece) : Piece :=
  if q.2.spanAt q.1 = f.keyword then if f.current = f.wanted then q.2 else keywordPiece f.wanted
  else if q.2.spanAt q.1 ∈ f.operations then operatorPiece f.wanted.allowedOp
  else q.2

structure Fits (ps : List Piece) : Prop where
  keyword : ∃ q ∈ placed 0 ps, f.keyword = q.2.spanAt q.1 ∧ IsKeyword f.current.kind q.2
  operations : ∀ s ∈ f.operations, ∃ q ∈ placed 0 ps, s = q.2.spanAt q.1 ∧
    q.2 = operatorPiece f.wanted.allowedOp.opposite
  apart : f.operations.Pairwise fun a b => a.stop ≤ b.start

def operatorEdits : List Edit :=
  f.operations.map fun s =>
    ⟨s, f.wanted.allowedOp.text, OperatorChange.title f.wanted.allowedOp.opposite f.wanted.allowedOp⟩

lemma map_toLower_keyword {p : Piece} {kind : GraphKind} (h : IsKeyword kind.kind p) :
    p.text.map Char.toLower = kind.keyword.toList := by
  obtain ⟨s, hs, hw⟩ := exists_of_ofKeyword? h.spelt
  have he : p.text.map Char.toLower = s.toList.map Char.toLower := by
    simpa [sameWord] using (beq_iff_eq.mp hw).symm
  rw [he]
  simp only [Kind.keywords, List.mem_cons, Prod.mk.injEq, List.not_mem_nil, or_false] at hs
  cases kind <;> simp [GraphKind.kind] at hs <;> subst hs <;> decide

lemma ofText?_keyword {p : Piece} {kind : GraphKind} (h : IsKeyword kind.kind p) :
    GraphKind.ofText? p.text = some kind := by
  simp only [GraphKind.ofText?, sameWord, map_toLower_keyword h]
  cases kind <;> decide

variable {f} {ps : List Piece} {source : Source}

lemma edits_eq (h : f.Fits ps) {i : Tree.Info} {strict name : Option Tree} {keyword : Tree}
    {statements : List Tree}
    (hg : source.graph = some (.graph i strict keyword name statements)) (hk : keyword.span = f.keyword)
    {spelling : Text} (hs : (spell ps).slice? f.keyword = some spelling) :
    f.edits (spell ps) source = .ok (f.operatorEdits ++ [f.keywordEdit spelling]) := by
  obtain ⟨q, hq, hspan, hkey⟩ := h.keyword
  obtain rfl : q.2.text = spelling := Option.some.inj ((hspan ▸ slice?_of_mem_placed hq).symm.trans hs)
  have hverify : f.verifyKeyword (spell ps) source = .ok q.2.text := by
    simp [verifyKeyword, hs, ofText?_keyword hkey, hg, hk]
  have hops : f.operations.mapM (operatorEdit (spell ps) f.wanted.allowedOp) = .ok f.operatorEdits := by
    refine mapM_eq_ok fun s hs => ?_
    obtain ⟨r, hr, rfl, hop⟩ := h.operations s hs
    have hslice := slice?_of_mem_placed hr
    have htext : EdgeOp.ofText? r.2.text = some f.wanted.allowedOp.opposite := by
      rw [hop]
      exact EdgeOp.ofText?_eq_some_iff.mpr rfl
    simp only [operatorEdit, verifyOperator, hslice, htext, if_true]
    rfl
  simp only [edits, hverify, hops]
  rfl

lemma exists_piece (h : f.Fits ps) {spelling : Text} {e : Edit}
    (he : e ∈ f.operatorEdits ++ [f.keywordEdit spelling]) : ∃ q ∈ placed 0 ps, e.span = q.2.spanAt q.1 := by
  rcases List.mem_append.mp he with he | he
  · obtain ⟨s, hs, rfl⟩ := List.mem_map.mp he
    obtain ⟨q, hq, hspan, -⟩ := h.operations s hs
    exact ⟨q, hq, hspan⟩
  · obtain rfl := List.mem_singleton.mp he
    obtain ⟨q, hq, hspan, -⟩ := h.keyword
    exact ⟨q, hq, hspan⟩

lemma ne_operatorPiece {p : Piece} {kind : GraphKind} (h : IsKeyword kind.kind p) (op : EdgeOp) :
    p ≠ operatorPiece op := by
  rintro rfl
  have := h.token
  cases kind <;> cases op <;> cases this

lemma operation_apart_keyword (h : f.Fits ps) {s : Span} (hs : s ∈ f.operations) :
    s.stop ≤ f.keyword.start ∨ f.keyword.stop ≤ s.start := by
  obtain ⟨q, hq, rfl, hop⟩ := h.operations s hs
  obtain ⟨r, hr, hspan, hkey⟩ := h.keyword
  rcases eq_or_apart_of_mem_placed hq hr with rfl | ha
  · exact absurd hop (ne_operatorPiece hkey _)
  · rw [hspan]
    exact ha

lemma operation_ne_keyword (hr : Run true ps) (h : f.Fits ps) {s : Span} (hs : s ∈ f.operations) :
    s ≠ f.keyword := by
  obtain ⟨q, hq, hspan, hop⟩ := h.operations s hs
  obtain ⟨r, hr', hspan', hkey⟩ := h.keyword
  intro hsk
  obtain rfl := eq_of_span_eq hr hq hr' (hspan.symm.trans (hsk.trans hspan'))
  exact ne_operatorPiece hkey _ hop

lemma edgeOperation_ne_keyword {t : Text} {used : List Token} {graph o : Tree}
    (hread : Source.GraphReading t ps used graph)
    (h : f.Fits ps) (ho : o ∈ graph.edgeOperations) : o.span ≠ f.keyword := by
  obtain ⟨q, hq, op, i, -, hspan, hpiece⟩ := hread.operations.2 o ho
  obtain ⟨r, hr, hspan', hkey⟩ := h.keyword
  intro hk
  obtain rfl := eq_of_span_eq hread.run hq hr (hspan.symm.trans (hk.trans hspan'))
  exact ne_operatorPiece hkey _ hpiece

lemma edits_apart (h : f.Fits ps) (spelling : Text) :
    (f.operatorEdits ++ [f.keywordEdit spelling]).Pairwise Edit.Apart := by
  refine List.pairwise_append.mpr ⟨List.pairwise_map.mpr (h.apart.imp .inl), by simp, ?_⟩
  intro e he d hd
  obtain rfl := List.mem_singleton.mp hd
  obtain ⟨s, hs, rfl⟩ := List.mem_map.mp he
  exact operation_apart_keyword h hs

lemma applyAll_edits (hr : Run true ps) (h : f.Fits ps) {spelling : Text}
    (hs : (spell ps).slice? f.keyword = some spelling) :
    Edit.applyAll (spell ps) (f.operatorEdits ++ [f.keywordEdit spelling]) =
      .ok (spell ((placed 0 ps).map f.respell)) := by
  apply applyAll_pieces hr (edits_apart h spelling) fun e he => exists_piece h he
  · intro q hq e he hspan
    rcases List.mem_append.mp he with he | he
    · obtain ⟨s, hs, rfl⟩ := List.mem_map.mp he
      obtain rfl : s = q.2.spanAt q.1 := hspan
      rw [respell, if_neg (operation_ne_keyword hr h hs), if_pos hs]
      rfl
    · obtain rfl := List.mem_singleton.mp he
      have hq' := slice?_of_mem_placed hq
      rw [← hspan, keywordEdit, hs] at hq'
      obtain rfl := Option.some.inj hq'
      have hk : q.2.spanAt q.1 = f.keyword := hspan.symm
      rw [respell, if_pos hk, keywordEdit]
      split <;> simp [keywordPiece]
  · intro q hq hmiss
    have hk : q.2.spanAt q.1 ≠ f.keyword := fun hk => hmiss (f.keywordEdit spelling) (by simp) hk.symm
    have hmem : q.2.spanAt q.1 ∉ f.operations := by
      intro hmem
      exact hmiss _ (List.mem_append_left _ (List.mem_map_of_mem hmem)) rfl
    rw [respell, if_neg hk, if_neg hmem]

lemma place_of_le {n : Nat} (hk : f.keyword.start < f.keyword.stop) (h : n ≤ f.keyword.start) : f.place n = n := by
  rw [place, if_pos (by omega)]
  omega

lemma place_of_ge {n : Nat} (h : f.keyword.stop ≤ n) :
    f.place n = f.keyword.start + f.keywordSize + (n - f.keyword.stop) := by
  rw [place, if_neg (by omega)]

lemma place_zero (h : f.Fits ps) : f.place 0 = 0 := by
  obtain ⟨q, -, hspan, hkey⟩ := h.keyword
  have := Text.bytes_pos hkey.ne_nil
  exact place_of_le (by rw [hspan, Piece.spanAt_start, Piece.spanAt_stop]; omega) (Nat.zero_le _)

lemma respelt_respell (hr : Run true ps) (h : f.Fits ps) {q : Nat × Piece} (hq : q ∈ placed 0 ps) :
    Respelt q.2 (f.respell q) := by
  unfold respell
  split
  · rename_i hk
    obtain ⟨r, hr', hspan, hkey⟩ := h.keyword
    obtain rfl := eq_of_span_eq hr hq hr' (hk.trans hspan)
    split
    · exact .same
    · exact .keyword hkey (isKeyword_keywordPiece _)
  · split
    · rename_i hmem
      obtain ⟨r, hr', hspan, hop⟩ := h.operations _ hmem
      obtain rfl := eq_of_span_eq hr hq hr' hspan
      rw [hop]
      exact .operator
    · exact .same

lemma place_respell (hr : Run true ps) (h : f.Fits ps) {q : Nat × Piece} (hq : q ∈ placed 0 ps) :
    f.place (q.1 + q.2.text.bytes) = f.place q.1 + (f.respell q).text.bytes := by
  obtain ⟨r, hr', hspan, hkey⟩ := h.keyword
  have hpos := Text.bytes_pos hkey.ne_nil
  have hstart : f.keyword.start = r.1 := by rw [hspan]; rfl
  have hstop : f.keyword.stop = r.1 + r.2.text.bytes := by rw [hspan]; rfl
  rcases eq_or_apart_of_mem_placed hq hr' with rfl | ha
  · have hsize : (f.respell q).text.bytes = f.keywordSize := by
      rw [respell, if_pos hspan.symm, keywordSize]
      split
      · rw [Span.size, hstart, hstop]
        omega
      · rfl
    rw [hsize, place_of_ge (by omega), place_of_le (by omega) (by omega)]
    omega
  · have hne : q.2.spanAt q.1 ≠ f.keyword := by
      intro he
      have h₁ := congrArg Span.start he
      have h₂ := congrArg Span.stop he
      simp only [Piece.spanAt_start, Piece.spanAt_stop] at h₁ h₂
      omega
    have hsize : (f.respell q).text.bytes = q.2.text.bytes := by
      rw [respell, if_neg hne]
      split
      · rename_i hmem
        obtain ⟨r, hr', hspan, hop⟩ := h.operations _ hmem
        obtain rfl := eq_of_span_eq hr hq hr' hspan
        rw [hop, bytes_operatorPiece, bytes_operatorPiece]
      · rfl
    rw [hsize]
    rcases ha with ha | ha
    · rw [place_of_le (by omega) (by omega), place_of_le (by omega) (by omega)]
    · rw [place_of_ge (by omega), place_of_ge (by omega)]
      omega

lemma spanAt_respell (hr : Run true ps) (h : f.Fits ps) {q : Nat × Piece} (hq : q ∈ placed 0 ps) :
    (f.respell q).spanAt (f.place q.1) = f.relocation.span (q.2.spanAt q.1) := by
  simp only [Piece.spanAt, Relocation.span, relocation, place_respell hr h hq]

lemma tokenAt_respell (hr : Run true ps) (h : f.Fits ps) {q : Nat × Piece} (hq : q ∈ placed 0 ps) :
    (f.respell q).tokenAt (f.place q.1) = (q.2.tokenAt q.1).map f.relocation.token := by
  rw [Piece.tokenAt, spanAt_respell hr h hq]
  unfold respell
  split
  · rename_i hk
    obtain ⟨r, hr', hspan, hkey⟩ := h.keyword
    obtain rfl := eq_of_span_eq hr hq hr' (hk.trans hspan)
    split
    · rename_i hsame
      simp [Piece.tokenAt, hkey.token, Relocation.token, relocation, hk, hsame]
    · simp [Piece.tokenAt, hkey.token, hkey.fault, Relocation.token, relocation, hk, keywordPiece]
  · rename_i hk
    split
    · rename_i hmem
      obtain ⟨r, hr', hspan, hop⟩ := h.operations _ hmem
      obtain rfl := eq_of_span_eq hr hq hr' hspan
      have htoken : q.2.token = some (f.wanted.allowedOp.opposite.kind, []) := by rw [hop]; rfl
      have hfault : q.2.fault = none := by rw [hop]; rfl
      simp [Piece.tokenAt, htoken, hfault, Relocation.token, relocation, hk, hmem, operatorPiece]
    · rename_i hmem
      rw [Piece.tokenAt, Option.map_map]
      refine congrArg (Option.map · q.2.token) (funext fun kv => ?_)
      simp [Relocation.token, relocation, hk, hmem]

lemma moves_respell (hr : Run true ps) (h : f.Fits ps) : Moves f.relocation 0 ps ((placed 0 ps).map f.respell) :=
  moves_map f.respell fun _ hq => ⟨respelt_respell hr h hq, tokenAt_respell hr h hq, place_respell hr h hq⟩

lemma keeps (hr : Run true ps) (h : f.Fits ps) {u : Token} (hu : u ∈ tokensAt 0 ps) (hne : u.span ≠ f.keyword) :
    f.relocation.Keeps u := by
  rw [Relocation.Keeps]
  by_cases hmem : u.span ∈ f.operations
  · right
    obtain ⟨q, hq, hqu⟩ := mem_tokensAt.mp hu
    obtain ⟨⟨k, v⟩, htoken, rfl⟩ := Option.map_eq_some_iff.mp hqu
    obtain ⟨r, hr', hspan, hop⟩ := h.operations _ hmem
    obtain rfl := eq_of_span_eq hr hq hr' hspan
    have hk : f.wanted.allowedOp.opposite.kind = k := by
      rw [hop] at htoken
      exact congrArg Prod.fst (Option.some.inj htoken)
    subst hk
    simp only [Relocation.token, relocation, hne, hmem, if_true, if_false]
    simp [Kind.isEdgeOp]
  · left
    simp [Relocation.token, relocation, hne, hmem]

lemma limitOf_map (φ : Relocation) (h : φ.place 0 = 0) (ts : List Token) :
    Parse.limitOf (ts.map φ.token) = φ.place (Parse.limitOf ts) := by
  rw [Parse.limitOf, Parse.limitOf, List.getLast?_map]
  cases ts.getLast? <;> simp [h, Relocation.token, Relocation.span]

lemma ofText_respell (hr : Run true ps) (h : f.Fits ps) {lead rest : List Token} {k : Token}
    (htokens : tokensAt 0 ps = lead ++ k :: rest) (hh : Parse.Header lead k) (hk : k.span = f.keyword) :
    Source.ofText (spell ((placed 0 ps).map f.respell)) =
      let parse := Parse.source (.caret (spell ps).bytes) (Parse.limitOf (tokensAt 0 ps)) (tokensAt 0 ps)
      ⟨⟨parse.graph.map f.relocation.tree, none, parse.diagnostics.map f.relocation.diagnostic⟩,
        (diagnosticsAt 0 ps ++ parse.diagnostics).map f.relocation.diagnostic ++
          (parse.graph.map f.relocation.tree).elim [] Tree.check⟩ := by
  have hm := moves_respell hr h
  have h0 : f.relocation.place 0 = 0 := place_zero h
  have ht := hm.tokensAt
  have hd := hm.diagnosticsAt
  have he := hm.place_end
  rw [h0] at ht hd he
  rw [Nat.zero_add, Nat.zero_add] at he
  have ho := ordered_tokensAt (n := 0) fun p hp => hr.ne_nil hp
  have hne {u : Token} (hu : u ∈ lead ++ rest) : u.span ≠ f.keyword := by
    intro heq
    have hpos := ho.nonempty k (by simp [htokens])
    rw [htokens] at ho
    have happ := ho.apart
    rw [← hk] at heq
    rcases List.mem_append.mp hu with hu | hu
    · have := (List.pairwise_append.mp happ).2.2 u hu k (by simp)
      rw [heq] at this
      omega
    · have := (List.pairwise_cons.mp (List.pairwise_append.mp happ).2.1).1 u hu
      rw [heq] at this
      omega
  have hkeeps {u : Token} (hu : u ∈ lead ++ rest) : f.relocation.Keeps u :=
    keeps hr h (by rw [htokens]; rcases List.mem_append.mp hu with hu | hu <;> simp [hu]) (hne hu)
  have hkey : Parse.isGraphKeyword (f.relocation.token k).kind := by
    simp only [Relocation.token, relocation, hk, if_true]
    cases f.wanted <;> rfl
  have hsource := Parse.source_moved (.caret (spell ps).bytes) (Parse.limitOf (tokensAt 0 ps)) hh
    (fun u hu => hkeeps (List.mem_append_left _ hu)) hkey (fun u hu => hkeeps (List.mem_append_right _ hu)) h0
  rw [← htokens] at hsource
  have heof : f.relocation.span (.caret (spell ps).bytes) =
      .caret (spell ((placed 0 ps).map f.respell)).bytes := by
    rw [← he]
    rfl
  rw [Source.ofText_spell (hr.respelt hm.forall₂), ht, limitOf_map _ h0, ← heof, hsource, hd]
  simp only [List.map_append]

def ofGraph (graph keyword : Tree) (current wanted : GraphKind) : GraphFix :=
  ⟨keyword.span, current, wanted, (graph.invalidOperations wanted).map Tree.span⟩

section Graph

variable {t : Text} {used : List Token} {i j : Tree.Info} {strict name : Option Tree} {statements : List Tree}
  {kind : GraphKind} {graph : Tree} (wanted : GraphKind)

lemma fixGraph?_eq (hg : graph = .graph i strict (.token j kind.kind) name statements) :
    Action.fixGraph? graph wanted =
      some ⟨title kind wanted, .quickFix, false, .fixGraph (ofGraph graph (.token j kind.kind) kind wanted)⟩ := by
  subst hg
  have hk : kind.kind.graphKind? = some kind := by cases kind <;> rfl
  simp [Action.fixGraph?, Tree.graphKind?, Tree.kind, hk, ofGraph, Tree.invalidOperations]

lemma fits_ofGraph (h : Source.GraphReading t ps used graph) {q : Nat × Piece} (hq : q ∈ placed 0 ps)
    (hspan : j.span = q.2.spanAt q.1) (hkey : IsKeyword kind.kind q.2) :
    (ofGraph graph (.token j kind.kind) kind wanted).Fits ps := by
  obtain ⟨hapart, hops⟩ := h.operations
  refine ⟨⟨q, hq, hspan, hkey⟩, fun s hs => ?_, List.pairwise_map.mpr (hapart.sublist List.filter_sublist)⟩
  obtain ⟨o, ho, rfl⟩ := List.mem_map.mp hs
  obtain ⟨ho, hne⟩ := List.mem_filter.mp ho
  obtain ⟨r, hr, op, i, rfl, hspan, hpiece⟩ := hops o ho
  refine ⟨r, hr, hspan, ?_⟩
  have hop : op ≠ wanted.allowedOp := by simpa [Tree.edgeOp?, Tree.kind] using hne
  rw [hpiece]
  congr
  change op = wanted.allowedOp.opposite
  generalize wanted.allowedOp = allowed at hop
  cases op <;> cases allowed <;> first | rfl | exact absurd rfl hop

lemma check_tree (h : Source.GraphReading t ps used graph) (hf : f.Fits ps)
    (hg : graph = .graph i strict (.token j kind.kind) name statements)
    (hof : f = ofGraph graph (.token j kind.kind) kind wanted) :
    (f.relocation.tree graph).graphKind? = some wanted ∧ (f.relocation.tree graph).check = [] := by
  have hwanted : f.wanted = wanted := by rw [hof]; rfl
  have hkeyword : j.span = f.keyword := by rw [hof]; rfl
  have hkind : (f.relocation.tree graph).graphKind? = some wanted := by
    rw [hg]
    simp only [Relocation.tree_graph, Relocation.tree_token, Tree.graphKind?, Tree.kind]
    simp only [relocation, hkeyword, if_true, hwanted]
    cases wanted <;> rfl
  refine ⟨hkind, ?_⟩
  simp only [Tree.check, hkind, List.map_eq_nil_iff, Tree.invalidOperations, Relocation.edgeOperations_tree,
    List.filter_eq_nil_iff]
  intro o' ho'
  obtain ⟨o, ho, rfl⟩ := List.mem_map.mp ho'
  have hne := edgeOperation_ne_keyword h hf ho
  obtain ⟨-, -, op, i', rfl, -, -⟩ := h.operations.2 o ho
  change i'.span ≠ f.keyword at hne
  have hcolour : f.relocation.recolour i'.span op.kind = wanted.allowedOp.kind := by
    simp only [relocation, hne, if_false, hwanted]
    split
    · rfl
    · rename_i hmem
      by_contra hop
      refine hmem ?_
      rw [hof]
      refine List.mem_map.mpr ⟨_, List.mem_filter.mpr ⟨ho, ?_⟩, rfl⟩
      simp only [Tree.edgeOp?, Tree.kind, Kind.edgeOp?_kind, ne_eq, decide_eq_true_eq, Option.some.injEq]
      rintro rfl
      exact hop rfl
  simp [Relocation.tree_token, Tree.edgeOp?, Tree.kind, hcolour]

end Graph

structure Offered (t : Text) (graph : Tree) (wanted : GraphKind) (f : GraphFix) (ps : List Piece) : Prop where
  offered : ∃ title, Action.fixGraph? graph wanted = some ⟨title, .quickFix, false, .fixGraph f⟩
  reading : ∃ used, Source.GraphReading t ps used graph
  fits : f.Fits ps
  header : ∃ lead k rest, tokensAt 0 ps = lead ++ k :: rest ∧ Parse.Header lead k ∧ k.span = f.keyword
  applied : ∃ edits, f.edits t (Source.ofText t) = .ok edits ∧
    Edit.applyAll t edits = .ok (spell ((placed 0 ps).map f.respell))
  kind : (f.relocation.tree graph).graphKind? = some wanted
  check : (f.relocation.tree graph).check = []

lemma exists_offered {t : Text} {graph : Tree} (hg : (Source.ofText t).graph = some graph) (wanted : GraphKind) :
    ∃ f ps, Offered t graph wanted f ps := by
  obtain ⟨ps, used, h⟩ := Source.exists_graphReading hg
  obtain ⟨lead, k, rest, htokens, hh, kind, i, strict, j, name, statements, hgraph, hj, q, hq, hspan, hkey⟩ :=
    h.header
  have hf := fits_ofGraph wanted h hq (hj.trans hspan) hkey
  obtain ⟨hkind, hcheck⟩ := check_tree wanted h hf hgraph rfl
  have hslice : (spell ps).slice? j.span = some q.2.text := by
    rw [hj, hspan]
    exact slice?_of_mem_placed hq
  have hedits := edits_eq hf (by rw [hg, hgraph]) rfl hslice
  have happly := applyAll_edits h.run hf hslice
  rw [h.spelt] at hedits happly
  exact ⟨_, ps, ⟨_, fixGraph?_eq wanted hgraph⟩, ⟨used, h⟩, hf, ⟨lead, k, rest, htokens, hh, hj.symm⟩,
    ⟨_, hedits, happly⟩, hkind, hcheck⟩

/-- Fixing a graph always succeeds, and the result is read as the graph before, relocated: the tree keeps its
shape, its slots and its texts, the keyword and the operators become those of the wanted kind, the operators are
all in order, and what else was wrong with the text is still wrong with it, in the same order. -/
theorem fixGraph_reread {t : Text} {graph : Tree} (hg : (Source.ofText t).graph = some graph)
    (wanted : GraphKind) :
    ∃ action f edits t', Action.fixGraph? graph wanted = some action ∧ action.command = .fixGraph f ∧
      action.command.edits t (Source.ofText t) = .ok edits ∧ Edit.applyAll t edits = .ok t' ∧
      (Source.ofText t').graph = some (f.relocation.tree graph) ∧
      (f.relocation.tree graph).graphKind? = some wanted ∧
      (∀ d ∈ (Source.ofText t').diagnostics, d.phase ≠ .check) ∧
      (Source.ofText t').diagnostics =
        ((Source.ofText t).diagnostics.filter (·.phase ≠ .check)).map f.relocation.diagnostic := by
  obtain ⟨f, ps, ⟨title, haction⟩, ⟨used, h⟩, hf, ⟨lead, k, rest, htokens, hh, hk⟩, ⟨edits, hedits, happly⟩, hkind,
    hcheck⟩ := exists_offered hg wanted
  have hread := ofText_respell h.run hf htokens hh hk
  have hparse := Source.parse_spell h.run
  have hgraph : (Source.ofText (spell ps)).parse.graph = some graph := h.spelt.symm ▸ h.parsed
  simp only [← hparse, hgraph, Option.map_some, Option.elim_some, hcheck, List.append_nil] at hread
  rw [h.spelt, ← h.filter_diagnostics] at hread
  refine ⟨_, f, edits, _, haction, rfl, hedits, happly, by rw [hread]; rfl, hkind, ?_, by rw [hread]⟩
  rw [hread]
  intro d hd
  obtain ⟨d', hd', rfl⟩ := List.mem_map.mp hd
  have := (List.mem_filter.mp hd').2
  rwa [decide_eq_true_eq] at this

theorem fixGraph_reread_faulty : ∃ graph action f edits t',
    (Source.ofText "strict Graph \x7b a -> b -- % c".toList).graph = some graph ∧
      Action.fixGraph? graph .digraph = some action ∧ action.command = .fixGraph f ∧
      action.command.edits "strict Graph \x7b a -> b -- % c".toList
        (Source.ofText "strict Graph \x7b a -> b -- % c".toList) = .ok edits ∧
      Edit.applyAll "strict Graph \x7b a -> b -- % c".toList edits = .ok t' ∧
      (Source.ofText t').graph = some (f.relocation.tree graph) ∧
      (f.relocation.tree graph).graphKind? = some .digraph ∧
      (∀ d ∈ (Source.ofText t').diagnostics, d.phase ≠ .check) ∧
      (Source.ofText t').diagnostics = ((Source.ofText "strict Graph \x7b a -> b -- % c".toList).diagnostics.filter
        (·.phase ≠ .check)).map f.relocation.diagnostic := by
  obtain ⟨graph, hg⟩ : ∃ graph, (Source.ofText "strict Graph \x7b a -> b -- % c".toList).graph = some graph :=
    Option.isSome_iff_exists.mp (by decide +kernel)
  obtain ⟨action, f, edits, t', h⟩ := fixGraph_reread hg .digraph
  exact ⟨graph, action, f, edits, t', hg, h⟩

end GraphFix

end DotMend
