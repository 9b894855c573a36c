import DotMend.Proofs.Parse.Relocation
import DotMend.Proofs.Source.Nodes

/-! Tokens in order as relocated tokens that stand at seats of their own, numbered from the first of them on. What
is read from tokens in order is what is read from the seated tokens, relocated. -/

namespace DotMend

lemma Tree.postorder_map {f : Tree → Tree} (hnumber : ∀ t, (f t).number = t.number)
    (hchildren : ∀ t, (f t).children = t.children.map f) (t : Tree) (parent : Option Nat) :
    (f t).postorder parent = (t.postorder parent).map (Prod.map id f) := by
  induction t using induction_on_children generalizing parent with
  | h t ih =>
    rw [postorder_eq, postorder_eq parent t, hchildren, hnumber, List.flatMap_map, List.map_append,
      List.map_flatMap]
    exact congrArg (· ++ _) (List.flatMap_congr fun c hc => ih c hc _)

namespace Parse

variable {φ : Relocation} {ts : List Token} {eof : Span}

lemma nodes_map {p q : Parse} {f : Tree → Tree} (hnumber : ∀ t, (f t).number = t.number)
    (hchildren : ∀ t, (f t).children = t.children.map f) (hgraph : q.graph = p.graph.map f)
    (hloose : q.loose = p.loose.map f) : q.nodes = p.nodes.map (Prod.map id f) := by
  have hforest : q.forest = p.forest.map f := by simp [forest, hgraph, hloose, Option.toList_map]
  rw [nodes, nodes, hforest, List.flatMap_map, List.map_flatMap]
  exact List.flatMap_congr fun t _ => Tree.postorder_map hnumber hchildren t none

def relocated (φ : Relocation) (p : Parse) : Parse :=
  ⟨p.graph.map φ.tree, p.loose.map φ.tree, p.diagnostics.map φ.diagnostic⟩

lemma nodes_relocated (φ : Relocation) (p : Parse) : (p.relocated φ).nodes = p.nodes.map (Prod.map id φ.tree) := by
  refine nodes_map (fun t => ?_) φ.children_tree rfl rfl
  rw [Tree.number, φ.info_tree]
  rfl

lemma source_loose {s : Token} (limit : Nat) (hs : s.kind = .strictKeyword)
    (h : nextIs isGraphKeyword ts = false) :
    source eof limit (s :: ts) = ⟨none, some (Trail.start.leaf s), [expected eof .graphKeyword ts]⟩ := by
  cases ts with
  | nil => simp [source, optional, hs]
  | cons k ts => simp_all [source, optional, nextIs]

lemma source_headless {t : Token} (limit : Nat) (ht : t.kind ≠ .strictKeyword)
    (h : isGraphKeyword t.kind = false) :
    source eof limit (t :: ts) = ⟨none, none, [expected eof .graphKeyword (t :: ts)]⟩ := by
  simp [source, optional, skip, ht, h]

theorem source_relocated (eof : Span) (limit : Nat) (h : ∀ t ∈ ts, φ.Keeps t) :
    source (φ.span eof) (φ.place limit) (ts.map φ.token) = (source eof limit ts).relocated φ := by
  cases ts with
  | nil => rfl
  | cons t ts =>
    obtain ⟨ht, hts⟩ := List.forall_mem_cons.mp h
    rw [List.map_cons]
    by_cases hs : t.kind = .strictKeyword
    · have hs' := (ht.eq_iff rfl).mpr hs
      have hnext := (tied_map hts).nextIs (p := isGraphKeyword) rfl
      cases hk : nextIs isGraphKeyword ts with
      | false =>
        rw [source_loose limit hs hk, source_loose _ hs' (hnext.trans hk), (tied_map hts).expected]
        rfl
      | true =>
        cases ts with
        | nil => cases hk
        | cons k ts =>
          rw [source_strict limit ts hs hk, List.map_cons, source_strict _ _ hs' (hnext.trans hk)]
          exact graphFrom_moved limit (List.forall_mem_cons.mp hts).2 rfl rfl
    · have hs' := mt (ht.eq_iff rfl).mp hs
      have hnext := ht.test (p := isGraphKeyword) rfl
      cases hk : isGraphKeyword t.kind with
      | false =>
        rw [source_headless limit hs hk, source_headless _ hs' (hnext.trans hk), ← List.map_cons,
          (tied_map h).expected]
        rfl
      | true =>
        rw [source_keyword limit ts hk, source_keyword _ _ (hnext.trans hk)]
        -- The keyword is passed before anything looks at where the last token ended.
        change graphFrom _ _ _ none (φ.token t) (ts.map φ.token) (φ.trail .start) = _
        exact graphFrom_moved limit hts rfl rfl

lemma closed_concat (ts : List Token) (t : Token) :
    closed (ts ++ [t]) = ts ++ t :: if endsFile t then [] else [.endAt t.span.stop] := by
  simp only [closed, List.getLast?_concat]
  split <;> simp

lemma exists_closed (ts : List Token) : ∃ body e behind, closed ts = body ++ e :: behind ∧
    (∀ t ∈ body, endsFile t = false) ∧ endsFile e = true := by
  have hends : ∃ t ∈ closed ts, endsFile t = true := by
    cases ts using List.reverseRecOn with
    | nil => exact ⟨.endAt 0, by simp [closed], rfl⟩
    | append_singleton ts t =>
      rw [closed_concat]
      cases ht : endsFile t with
      | true => exact ⟨t, by simp, ht⟩
      | false => exact ⟨.endAt t.span.stop, by simp, rfl⟩
  obtain ⟨e, hfind⟩ := Option.isSome_iff_exists.mp (List.find?_isSome.mpr hends)
  obtain ⟨he, body, behind, hclosed, hbody⟩ := List.find?_eq_some_iff_append.mp hfind
  exact ⟨body, e, behind, hclosed, by simpa using hbody, he⟩

lemma takeWhile_body {body behind : List Token} {e : Token} (hbody : ∀ t ∈ body, endsFile t = false)
    (he : endsFile e = true) : (body ++ e :: behind).takeWhile (!endsFile ·) = body := by
  rw [List.takeWhile_append_of_pos (by simpa using hbody), List.takeWhile_cons_of_neg (by simp [he]),
    List.append_nil]

lemma ofTokens_eq_source {body behind : List Token} {e : Token} (hclosed : closed ts = body ++ e :: behind)
    (hbody : ∀ t ∈ body, endsFile t = false) (he : endsFile e = true) :
    ofTokens ts = source e.span (limitOf (body ++ e :: behind).dropLast) body := by
  have hfind : (body ++ e :: behind).find? endsFile = some e := by
    rw [List.find?_append, List.find?_eq_none.mpr (by simpa using hbody), List.find?_cons_of_pos he]
    rfl
  simp only [ofTokens, hclosed, hfind, takeWhile_body hbody he]
  rfl

lemma endsFile_token {t : Token} (h : φ.Keeps t) : endsFile (φ.token t) = endsFile t :=
  h.test (p := (· = .endOfFile)) rfl

lemma closed_relocated (hne : ts ≠ []) (h : ∀ t ∈ ts, φ.Keeps t)
    (hend : ∀ n, φ.recolour (.caret n) .endOfFile = .endOfFile) :
    closed (ts.map φ.token) = (closed ts).map φ.token := by
  cases ts using List.reverseRecOn with
  | nil => exact absurd rfl hne
  | append_singleton ts t =>
    have hend' (n : Nat) : φ.token (.endAt n) = .endAt (φ.place n) := by
      simp [Relocation.token, Token.endAt, hend]; rfl
    rw [List.map_append, List.map_singleton, closed_concat, closed_concat, endsFile_token (h t (by simp))]
    cases endsFile t <;> simp [hend']
    rfl

lemma limitOf_relocated (hne : ts ≠ []) : limitOf (ts.map φ.token) = φ.place (limitOf ts) := by
  cases ts using List.reverseRecOn with
  | nil => exact absurd rfl hne
  | append_singleton ts t => simp [limitOf]; rfl

lemma keeps_closed (h : ∀ t ∈ ts, φ.Keeps t) (hend : ∀ n, φ.recolour (.caret n) .endOfFile = .endOfFile) :
    ∀ t ∈ closed ts, φ.Keeps t := by
  have hend' (n : Nat) : φ.Keeps (.endAt n) := .inl (hend n)
  cases ts using List.reverseRecOn with
  | nil => simpa [closed] using hend' 0
  | append_singleton ts t =>
    rw [closed_concat]
    refine List.forall_mem_append.mpr
      ⟨fun u hu => h u (by simp [hu]), List.forall_mem_cons.mpr ⟨h t (by simp), ?_⟩⟩
    split <;> simp [hend']

theorem ofTokens_relocated (h : ∀ t ∈ ts, φ.Keeps t) (hend : ∀ n, φ.recolour (.caret n) .endOfFile = .endOfFile) :
    ofTokens (ts.map φ.token) = (ofTokens ts).relocated φ := by
  by_cases hne : ts = []
  · subst hne
    rfl
  obtain ⟨body, e, behind, hclosed, hbody, he⟩ := exists_closed ts
  have hkeeps := keeps_closed h hend
  rw [hclosed] at hkeeps
  have hkbody : ∀ t ∈ body, φ.Keeps t := fun t ht => hkeeps t (by simp [ht])
  have hclosed' := closed_relocated hne h hend
  rw [hclosed, List.map_append, List.map_cons] at hclosed'
  have hbody' : ∀ t ∈ body.map φ.token, endsFile t = false := by
    rw [List.forall_mem_map]
    intro t ht
    rw [endsFile_token (hkbody t ht), hbody t ht]
  have he' : endsFile (φ.token e) = true := by rw [endsFile_token (hkeeps e (by simp)), he]
  rw [ofTokens_eq_source hclosed hbody he, ofTokens_eq_source hclosed' hbody' he', ← List.map_cons,
    ← List.map_append, ← List.map_dropLast]
  cases body with
  | nil => rfl
  | cons t body =>
    have hlast : (t :: body ++ e :: behind).dropLast ≠ [] := by
      rw [List.dropLast_append_of_ne_nil (by simp)]
      simp
    rw [limitOf_relocated hlast]
    exact source_relocated e.span _ hkbody

structure InOrder (ts : List Token) : Prop where
  forward : ∀ t ∈ ts, t.span.start ≤ t.span.stop
  apart : ts.Pairwise fun a b => a.span.stop ≤ b.span.start

def ends (ts : List Token) : List Nat := ts.flatMap fun t => [t.span.start, t.span.stop]

@[simp] lemma ends_cons (t : Token) (ts : List Token) : ends (t :: ts) = t.span.start :: t.span.stop :: ends ts :=
  rfl

lemma mem_ends {n : Nat} : n ∈ ends ts ↔ ∃ t ∈ ts, n = t.span.start ∨ n = t.span.stop := by
  simp [ends]

lemma InOrder.pairwise_ends (h : InOrder ts) : (ends ts).Pairwise (· ≤ ·) := by
  induction ts with
  | nil => exact .nil
  | cons t ts ih =>
    obtain ⟨ht, hts⟩ := List.forall_mem_cons.mp h.forward
    obtain ⟨hbehind, hapart⟩ := List.pairwise_cons.mp h.apart
    have hstop : ∀ n ∈ ends ts, t.span.stop ≤ n := by
      intro n hn
      obtain ⟨u, hu, hn⟩ := mem_ends.mp hn
      have := hbehind u hu
      have := hts u hu
      omega
    rw [ends_cons]
    refine .cons (List.forall_mem_cons.mpr ⟨ht, fun n hn => ht.trans (hstop n hn)⟩)
      (.cons hstop (ih ⟨hts, hapart⟩))

def seat (i : Nat) (t : Token) : Token := { t with span := ⟨2 * i, 2 * i + 1⟩ }

def seated (ts : List Token) : List Token := ts.mapIdx seat

def unseat (ts : List Token) (n : Nat) : Nat := (ends ts).getD (min n ((ends ts).length - 1)) 0

lemma getElem?_ends {i : Nat} {t : Token} (h : ts[i]? = some t) :
    (ends ts)[2 * i]? = some t.span.start ∧ (ends ts)[2 * i + 1]? = some t.span.stop := by
  induction ts generalizing i with
  | nil => cases h
  | cons u ts ih =>
    cases i with
    | zero =>
      obtain rfl := Option.some.inj h
      exact ⟨rfl, rfl⟩
    | succ i => exact ih h

lemma unseat_of_getElem? {n k : Nat} (h : (ends ts)[n]? = some k) : unseat ts n = k := by
  obtain ⟨hn, -⟩ := List.getElem?_eq_some_iff.mp h
  rw [unseat, Nat.min_eq_left (by omega), List.getD_eq_getElem?_getD, h]
  rfl

lemma InOrder.monotone_unseat (h : InOrder ts) : Monotone (unseat ts) := by
  have hpair := List.pairwise_iff_getElem.mp h.pairwise_ends
  intro m n hmn
  simp only [unseat]
  generalize ends ts = l at hpair ⊢
  by_cases hl : l = []
  · simp [hl]
  have hlt (k : Nat) : min k (l.length - 1) < l.length := by
    have := List.length_pos_iff.mpr hl
    omega
  simp only [List.getD_eq_getElem?_getD, List.getElem?_eq_getElem (hlt _), Option.getD_some]
  rcases (min_le_min_right (l.length - 1) hmn).lt_or_eq with hlt' | heq
  · exact hpair _ _ (hlt m) (hlt n) hlt'
  · simp only [heq, le_refl]

/-- The seats go to the places of the tokens in a list, and from there to wherever `place` says; what becomes of
their kinds is up to `recolour`. -/
def InOrder.seating (h : InOrder ts) (place : Nat → Nat) (hp : Monotone place) (recolour : Nat → Kind → Kind) :
    Relocation :=
  ⟨place ∘ unseat ts, hp.comp h.monotone_unseat, fun s k => recolour (s.start / 2) k⟩

lemma InOrder.map_seated (h : InOrder ts) (place : Nat → Nat) (hp : Monotone place)
    (recolour : Nat → Kind → Kind) : (seated ts).map (h.seating place hp recolour).token =
      ts.mapIdx fun i t => ⟨recolour i t.kind, ⟨place t.span.start, place t.span.stop⟩, t.value, t.faulty⟩ := by
  apply List.ext_getElem?
  intro i
  rw [List.getElem?_map, seated, List.getElem?_mapIdx, List.getElem?_mapIdx, Option.map_map]
  cases ht : ts[i]? with
  | none => rfl
  | some t =>
    obtain ⟨hstart, hstop⟩ := getElem?_ends ht
    have hi : 2 * i / 2 = i := by omega
    simp [Relocation.token, Relocation.span, InOrder.seating, seat, unseat_of_getElem? hstart,
      unseat_of_getElem? hstop, hi]

def InOrder.still (h : InOrder ts) : Relocation := h.seating id monotone_id fun _ k => k

lemma InOrder.ofTokens_still (h : InOrder ts) : ofTokens ts = (ofTokens (seated ts)).relocated h.still := by
  have hmap : (seated ts).map h.still.token = ts := by
    rw [still, map_seated]
    exact List.ext_getElem (by simp) fun i _ _ => by simp
  rw [← ofTokens_relocated (fun t _ => .inl rfl) fun _ => rfl, hmap]

lemma ordered_seated (ts : List Token) : Ordered (seated ts) := by
  constructor
  · intro t ht
    obtain ⟨i, hi, rfl⟩ := List.mem_mapIdx.mp ht
    simp [seat]
  · rw [seated, List.pairwise_iff_getElem]
    intro i j hi hj hij
    simp only [List.getElem_mapIdx, seat]
    omega

lemma body_prefix {body behind : List Token} {e : Token} (h : closed ts = body ++ e :: behind) : body <+: ts := by
  have hprefix : ts <+: closed ts := by
    cases ts using List.reverseRecOn with
    | nil => exact List.nil_prefix
    | append_singleton ts t =>
      rw [closed_concat]
      exact ⟨_, by rw [List.append_assoc, List.singleton_append]⟩
  have hlength : (closed ts).length ≤ ts.length + 1 := by
    cases ts using List.reverseRecOn with
    | nil => exact le_rfl
    | append_singleton ts t =>
      rw [closed_concat]
      split <;> simp
  rw [h] at hprefix hlength
  refine List.prefix_of_prefix_length_le (List.prefix_append _ _) hprefix ?_
  rw [List.length_append, List.length_cons] at hlength
  omega

structure Tabled (ts : List Token) (p : Parse) : Prop where
  placed : ∀ n ∈ p.nodes, n.2.Placed
  number : ∀ a ∈ p.nodes, ∀ b ∈ p.nodes, a.2.number = b.2.number → a = b
  distinct : ∀ a ∈ p.nodes, ∀ b ∈ p.nodes, a.2.kind = b.2.kind → a.2.span = b.2.span → a.2 = b.2
  leaf : ∀ n ∈ p.nodes, ∀ i k, n.2 = .token i k → ∃ u ∈ ts, u.span = i.span ∧ u.kind = k
  operator : ∀ n ∈ p.nodes, n.2.kind.isEdgeOp → ∃ i k, n.2 = .token i k

lemma Laid.exists_of_token {f : List Tree} {us : List Token} (h : Laid f us) {c : Tree} (hc : c ∈ f)
    {i : Tree.Info}
    {k : Kind} (hs : .token i k ∈ c.preorder fun _ => true) : ∃ u ∈ us, u.span = i.span ∧ u.kind = k := by
  induction h generalizing c with
  | nil => simp at hc
  | @gap t f us _ ih =>
    obtain ⟨u, hu, he⟩ := ih hc hs
    exact ⟨u, by simp [hu], he⟩
  | @tree d t block f us _ hl _ _ ihc ih =>
    rcases List.mem_cons.mp hc with rfl | hc
    · rcases Tree.mem_preorder_iff.mp hs with rfl | ⟨b, hb, hs⟩
      · exact ⟨t, by simp, hl.1.symm, hl.2.1.symm⟩
      · obtain ⟨u, hu, he⟩ := ihc hb hs
        exact ⟨u, List.mem_append_left _ hu, he⟩
    · obtain ⟨u, hu, he⟩ := ih hc hs
      exact ⟨u, List.mem_append_right _ hu, he⟩

lemma Rooted.number_inj {p : Parse} {g : Tree} (h : p.Rooted g) {a b : Option Nat × Tree} (ha : a ∈ p.nodes)
    (hb : b ∈ p.nodes) (hn : a.2.number = b.2.number) : a = b := by
  have hnodup : (p.nodes.map fun n => n.2.number).Nodup := h.numbered ▸ List.nodup_range
  exact List.inj_on_of_nodup_map hnodup ha hb hn

lemma tabled_leaf {p : Parse} {u : Token} (hnodes : p.nodes = [(none, Trail.start.leaf u)]) (ho : Ordered ts)
    (hu : u ∈ ts) : Tabled ts p := by
  have hmem {n : Option Nat × Tree} (hn : n ∈ p.nodes) : n = (none, Trail.start.leaf u) := by
    simpa [hnodes] using hn
  constructor
  · intro n hn
    rw [hmem hn]
    exact ⟨ho.nonempty u hu, by simp [Trail.leaf, Tree.children_eq], by simp [Trail.leaf, Tree.children_eq]⟩
  · intro a ha b hb _
    rw [hmem ha, hmem hb]
  · intro a ha b hb _ _
    rw [hmem ha, hmem hb]
  · rintro n hn i k hik
    rw [hmem hn] at hik
    obtain ⟨rfl, rfl⟩ := Tree.token.inj hik
    exact ⟨u, hu, rfl, rfl⟩
  · intro n hn _
    rw [hmem hn]
    exact ⟨_, _, rfl⟩

theorem tabled_source (ho : Ordered ts) (eof : Span) (limit : Nat) : Tabled ts (source eof limit ts) := by
  cases hg : (source eof limit ts).graph with
  | none =>
    cases hl : (source eof limit ts).loose with
    | none =>
      have hnodes : (source eof limit ts).nodes = [] := by simp [nodes, forest, hg, hl]
      constructor <;> simp [hnodes]
    | some s =>
      obtain ⟨u, hu, rfl⟩ := exists_leaf_of_loose hl
      refine tabled_leaf ?_ ho hu
      simp [nodes, forest, hg, hl, Tree.postorder_eq, Trail.leaf, Tree.children_eq]
  | some g =>
    obtain ⟨rest, m, cs, hs, -, -, -, hloose⟩ := source_traced ho hg
    have hrooted := rooted_of_steps hg hloose hs ho
    have hmem {n : Option Nat × Tree} (hn : n ∈ (source eof limit ts).nodes) :=
      mem_preorder_of_mem_nodes (nodes_eq hg hloose) hn
    obtain ⟨used, rfl, hlaid, -⟩ := hs.laid
    refine ⟨hrooted.placed, fun a ha b hb => hrooted.number_inj ha hb, hrooted.distinct, ?_, ?_⟩
    · intro n hn i k he
      obtain ⟨u, hu, he⟩ := hlaid.exists_of_token (List.mem_singleton_self g) (he ▸ hmem hn)
      exact ⟨u, by simp [hu], he⟩
    · intro n hn
      exact ((hs.proper g (by simp)).of_mem_preorder (hmem hn)).here.eq_token

theorem tabled_ofTokens (ho : Ordered ts) : Tabled ts (ofTokens ts) := by
  obtain ⟨body, e, behind, hclosed, hbody, he⟩ := exists_closed ts
  obtain ⟨rest, rfl⟩ := body_prefix hclosed
  have h := tabled_source ho.left e.span (limitOf (body ++ e :: behind).dropLast)
  rw [ofTokens_eq_source hclosed hbody he]
  refine ⟨h.placed, h.number, h.distinct, fun n hn i k hik => ?_, h.operator⟩
  obtain ⟨u, hu, hik⟩ := h.leaf n hn i k hik
  exact ⟨u, by simp [hu], hik⟩

end Parse

end DotMend
