import DotMend.Proofs.Parse.Seating

namespace DotMend

namespace Kind

def exchanged (k : Kind) : Kind := k.edgeOp?.elim k fun op => op.opposite.kind

def exchangedIf (chosen : Bool) (k : Kind) : Kind := if chosen then k.exchanged else k

lemma exchangedIf_eq_or (chosen : Bool) (k : Kind) :
    k.exchangedIf chosen = k ∨ k.isEdgeOp ∧ (k.exchangedIf chosen).isEdgeOp := by
  cases chosen with
  | false => exact .inl rfl
  | true => cases k <;> first | exact .inl rfl | exact .inr ⟨rfl, rfl⟩

end Kind

def Span.moved (place : Nat → Nat) (s : Span) : Span := ⟨place s.start, place s.stop⟩

def Diagnostic.moved (place : Nat → Nat) (d : Diagnostic) : Diagnostic := { d with span := d.span.moved place }

def Token.moved (place : Nat → Nat) (chosen : Bool) (t : Token) : Token :=
  ⟨t.kind.exchangedIf chosen, t.span.moved place, t.value, t.faulty⟩

namespace Tree

def Info.moved (place : Nat → Nat) (i : Info) : Info := { i with span := i.span.moved place }

variable (place : Nat → Nat) (chosen : Nat → Bool)

/-- The tree elsewhere, with the other operator in the nodes with a chosen number. All else about its nodes stays:
their numbers and marks, what they have in their slots, and the texts of identifiers. -/
def moved : Tree → Tree := map (Info.moved place) fun i => Kind.exchangedIf (chosen i.number)

@[simp] lemma children_moved (t : Tree) : (t.moved place chosen).children = t.children.map (moved place chosen) :=
  t.children_map

@[simp] lemma number_moved (t : Tree) : (t.moved place chosen).number = t.number := by
  rw [number, moved, info_map]
  rfl

variable {place chosen}

lemma moved_relocated {φ ψ : Relocation} {t : Tree} (hplace : ∀ n, ψ.place n = place (φ.place n))
    (hkind : ∀ i k, .token i k ∈ (t.preorder fun _ => true) →
      (φ.recolour i.span k).exchangedIf (chosen i.number) = ψ.recolour i.span k) :
    (φ.tree t).moved place chosen = ψ.tree t := by
  refine map_map (fun i => ?_) hkind
  simp [Relocation.info, Info.moved, Span.moved, Relocation.span, hplace]

end Tree

namespace Parse

def moved (place : Nat → Nat) (chosen : Nat → Bool) (p : Parse) : Parse :=
  ⟨p.graph.map (Tree.moved place chosen), p.loose.map (Tree.moved place chosen),
    p.diagnostics.map (Diagnostic.moved place)⟩

lemma nodes_moved (place : Nat → Nat) (chosen : Nat → Bool) (p : Parse) :
    (p.moved place chosen).nodes = p.nodes.map (Prod.map id (Tree.moved place chosen)) :=
  nodes_map (Tree.number_moved place chosen) (Tree.children_moved place chosen) rfl rfl

lemma exists_mem_nodes {p : Parse} {r t : Tree} (hr : r ∈ p.forest) (ht : t ∈ r.preorder fun _ => true) :
    ∃ parent, (parent, t) ∈ p.nodes := by
  obtain ⟨⟨parent, _⟩, hn, rfl⟩ := List.mem_map.mp ((r.postorder_perm none).mem_iff.mpr ht)
  exact ⟨parent, List.mem_flatMap.mpr ⟨r, hr, hn⟩⟩

lemma moved_relocated {p : Parse} {φ ψ : Relocation} {place : Nat → Nat} {chosen : Nat → Bool}
    (hplace : ∀ n, ψ.place n = place (φ.place n)) (hkind : ∀ n ∈ p.nodes, ∀ i k, n.2 = .token i k →
      (φ.recolour i.span k).exchangedIf (chosen i.number) = ψ.recolour i.span k) :
    (p.relocated φ).moved place chosen = p.relocated ψ := by
  have htree : ∀ r ∈ p.forest, (φ.tree r).moved place chosen = ψ.tree r := by
    intro r hr
    refine Tree.moved_relocated hplace fun i k hik => ?_
    obtain ⟨parent, hn⟩ := exists_mem_nodes hr hik
    exact hkind _ hn i k rfl
  have hgraph : ∀ r ∈ p.graph,
      (φ.tree r).moved place chosen = ψ.tree r := fun r hr => htree r (by simp_all [forest])
  have hloose : ∀ r ∈ p.loose,
      (φ.tree r).moved place chosen = ψ.tree r := fun r hr => htree r (by simp_all [forest])
  have hdiagnostic (d : Diagnostic) : (φ.diagnostic d).moved place = ψ.diagnostic d := by
    simp [Diagnostic.moved, Relocation.diagnostic, Span.moved, Relocation.span, hplace]
  simp only [moved, relocated, Option.map_map, List.map_map]
  congr 1
  · exact Option.map_congr hgraph
  · exact Option.map_congr hloose
  · exact List.map_congr_left fun d _ => hdiagnostic d

variable {ts : List Token}

def InOrder.exchange (h : InOrder ts) {place : Nat → Nat} (hp : Monotone place) (chosen : Nat → Bool) :
    Relocation :=
  h.seating place hp fun i k => k.exchangedIf (chosen i)

lemma InOrder.ofTokens_exchange (h : InOrder ts) {place : Nat → Nat} (hp : Monotone place) (chosen : Nat → Bool) :
    ofTokens (ts.mapIdx fun i t => t.moved place (chosen i)) =
      (ofTokens (seated ts)).relocated (h.exchange hp chosen) := by
  have hkeeps (t : Token) : (h.exchange hp chosen).Keeps t := t.kind.exchangedIf_eq_or _
  have hend (n : Nat) : (h.exchange hp chosen).recolour (.caret n) .endOfFile = .endOfFile := by
    rcases Kind.endOfFile.exchangedIf_eq_or (chosen (n / 2)) with h | ⟨h, -⟩
    · exact h
    · cases h
  rw [← ofTokens_relocated (fun t _ => hkeeps t) hend, exchange, map_seated]
  rfl

/-- The index in the list of the token that the node with the number `n` was built from, if it was built from
one. -/
def origin (ts : List Token) (n : Nat) : Nat :=
  (((ofTokens (seated ts)).nodes.find? fun m => m.2.number == n).elim 0 fun m => m.2.span.start) / 2

lemma origin_number {m : Option Nat × Tree} (hm : m ∈ (ofTokens (seated ts)).nodes) :
    origin ts m.2.number = m.2.span.start / 2 := by
  obtain ⟨n, hfind⟩ := Option.isSome_iff_exists.mp
    (List.find?_isSome (p := fun n : Option Nat × Tree => n.2.number == m.2.number) |>.mpr
      ⟨m, hm, beq_self_eq_true _⟩)
  have hn := (tabled_ofTokens (ordered_seated ts)).number n (List.mem_of_find?_eq_some hfind) m hm
    (by simpa using List.find?_some hfind)
  rw [origin, hfind, hn]
  rfl

lemma exists_seat {m : Option Nat × Tree} (hm : m ∈ (ofTokens (seated ts)).nodes) (hk : m.2.kind.isEdgeOp) :
    ∃ i t, ts[i]? = some t ∧ origin ts m.2.number = i ∧ m.2.kind = t.kind ∧ m.2.span = ⟨2 * i, 2 * i + 1⟩ := by
  have htabled := tabled_ofTokens (ordered_seated ts)
  obtain ⟨info, k, hleaf⟩ := htabled.operator m hm hk
  obtain ⟨u, hu, hspan, hkind⟩ := htabled.leaf m hm info k hleaf
  obtain ⟨i, hi, rfl⟩ := List.mem_mapIdx.mp hu
  have hspan' : m.2.span = ⟨2 * i, 2 * i + 1⟩ := by rw [hleaf]; exact hspan.symm
  refine ⟨i, ts[i], List.getElem?_eq_getElem hi, ?_, ?_, hspan'⟩
  · rw [origin_number hm, hspan']
    exact Nat.mul_div_cancel_left i Nat.two_pos
  · rw [hleaf]
    exact hkind.symm

lemma InOrder.still_span (h : InOrder ts) {i : Nat} {t : Token} (ht : ts[i]? = some t) :
    h.still.span ⟨2 * i, 2 * i + 1⟩ = t.span := by
  obtain ⟨hstart, hstop⟩ := getElem?_ends ht
  simp [Relocation.span, still, seating, unseat_of_getElem? hstart, unseat_of_getElem? hstop]

lemma InOrder.still_kind (h : InOrder ts) (t : Tree) : (h.still.tree t).kind = t.kind := by
  cases t <;> rfl

lemma InOrder.exists_seated (h : InOrder ts) {n : Option Nat × Tree} (hn : n ∈ (ofTokens ts).nodes)
    (hk : n.2.kind.isEdgeOp) :
    ∃ m ∈ (ofTokens (seated ts)).nodes, m.2.kind.isEdgeOp ∧ n = m.map id h.still.tree ∧
      m.2.number = n.2.number := by
  rw [h.ofTokens_still, nodes_relocated] at hn
  obtain ⟨m, hm, rfl⟩ := List.mem_map.mp hn
  rw [Prod.map_snd, h.still_kind] at hk
  refine ⟨m, hm, hk, rfl, ?_⟩
  rw [Prod.map_snd, Tree.number, Tree.number, Relocation.info_tree]
  rfl

lemma InOrder.origin_spec (h : InOrder ts) {n : Option Nat × Tree} (hn : n ∈ (ofTokens ts).nodes)
    (hk : n.2.kind.isEdgeOp) : ∃ t, ts[origin ts n.2.number]? = some t ∧ t.kind = n.2.kind ∧
      t.span = n.2.span := by
  obtain ⟨m, hm, hkm, rfl, hnumber⟩ := h.exists_seated hn hk
  obtain ⟨i, t, ht, hi, hkind, hspan⟩ := exists_seat hm hkm
  rw [← hnumber, hi, Prod.map_snd, h.still_kind, Relocation.span_tree, hspan, h.still_span ht]
  exact ⟨t, ht, hkind.symm, rfl⟩

lemma eq_of_origin_eq {a b : Option Nat × Tree} (ha : a ∈ (ofTokens (seated ts)).nodes)
    (hb : b ∈ (ofTokens (seated ts)).nodes) (hka : a.2.kind.isEdgeOp) (hkb : b.2.kind.isEdgeOp)
    (heq : origin ts a.2.number = origin ts b.2.number) : a = b := by
  have htabled := tabled_ofTokens (ordered_seated ts)
  obtain ⟨i, t, ht, hi, hkind, hspan⟩ := exists_seat ha hka
  obtain ⟨j, u, hu, hj, hkind', hspan'⟩ := exists_seat hb hkb
  have hij : i = j := by rw [← hi, ← hj, heq]
  subst hij
  have htu : t = u := Option.some.inj (ht.symm.trans hu)
  have hab : a.2 = b.2 := htabled.distinct a ha b hb (by rw [hkind, hkind', htu]) (by rw [hspan, hspan'])
  exact htabled.number a ha b hb (congrArg Tree.number hab)

lemma InOrder.origin_inj (h : InOrder ts) {a b : Option Nat × Tree} (ha : a ∈ (ofTokens ts).nodes)
    (hb : b ∈ (ofTokens ts).nodes) (hka : a.2.kind.isEdgeOp) (hkb : b.2.kind.isEdgeOp)
    (heq : origin ts a.2.number = origin ts b.2.number) : a = b := by
  obtain ⟨m, hm, hkm, rfl, hnm⟩ := h.exists_seated ha hka
  obtain ⟨n, hn, hkn, rfl, hnn⟩ := h.exists_seated hb hkb
  rw [← hnm, ← hnn] at heq
  exact congrArg _ (eq_of_origin_eq hm hn hkm hkn heq)

/-- Tokens that are moved without changing their order, some of them with the other edge operator, are read like
the tokens: with the same nodes and complaints, up to their places and to the operators in the nodes of the tokens
that were exchanged. -/
theorem ofTokens_moved (h : InOrder ts) : ∃ origin : Nat → Nat,
    (∀ n ∈ (ofTokens ts).nodes, n.2.kind.isEdgeOp →
      ∃ t, ts[origin n.2.number]? = some t ∧ t.kind = n.2.kind ∧ t.span = n.2.span) ∧
    (∀ a ∈ (ofTokens ts).nodes, ∀ b ∈ (ofTokens ts).nodes, a.2.kind.isEdgeOp → b.2.kind.isEdgeOp →
      origin a.2.number = origin b.2.number → a = b) ∧
    ∀ place : Nat → Nat, Monotone place → ∀ chosen : Nat → Bool,
      ofTokens (ts.mapIdx fun i t => t.moved place (chosen i)) = (ofTokens ts).moved place (chosen ∘ origin) ∧
      (ofTokens (ts.mapIdx fun i t => t.moved place (chosen i))).nodes =
        (ofTokens ts).nodes.map (Prod.map id (Tree.moved place (chosen ∘ origin))) := by
  refine ⟨origin ts, fun n => h.origin_spec, fun a ha b hb => h.origin_inj ha hb, fun place hp chosen => ?_⟩
  have hmoved : ofTokens (ts.mapIdx fun i t => t.moved place (chosen i)) =
      (ofTokens ts).moved place (chosen ∘ origin ts) := by
    rw [h.ofTokens_exchange hp, h.ofTokens_still]
    refine (moved_relocated (fun _ => rfl) fun n hn i k hleaf => ?_).symm
    have horigin := origin_number hn
    rw [hleaf] at horigin
    exact congrArg (fun j => k.exchangedIf (chosen j)) horigin
  exact ⟨hmoved, hmoved ▸ nodes_moved place _ _⟩

theorem ofTokens_moved_operators :
    let token (k : Kind) (start stop : Nat) : Token := ⟨k, ⟨start, stop⟩, "a", false⟩
    let ts := [token .digraphKeyword 0 7, token .openBrace 8 9, token .word 9 9, token .directedOp 9 11,
      token .quoted 11 14, token .undirectedOp 14 16, token .equals 17 18, token .closeBrace 18 19,
      token .word 20 21, .endAt 21]
    let place (n : Nat) : Nat := 3 * n + 2
    InOrder ts ∧ Monotone place ∧ (ofTokens ts).graph.isSome ∧ (ofTokens ts).diagnostics.length = 3 ∧
      ∃ exchanged : Nat → Bool, exchanged 3 = false ∧ exchanged 7 = true ∧
        ofTokens (ts.mapIdx fun i t => t.moved place (i == 5)) = (ofTokens ts).moved place exchanged := by
  intro token ts place
  have horder : InOrder ts := ⟨by decide, by decide⟩
  have hplace : Monotone place := fun m n h => Nat.add_le_add_right (Nat.mul_le_mul_left 3 h) 2
  obtain ⟨origin, hspec, -, hmoved⟩ := ofTokens_moved horder
  -- Which token an operator node comes from is known by its kind here.
  have hindex : ∀ i t, ts[i]? = some t → (t.kind = .directedOp → i = 3) ∧ (t.kind = .undirectedOp → i = 5) := by
    intro i t ht
    have hlt : i < ts.length := (List.getElem?_eq_some_iff.mp ht).1
    have hall : ∀ i < ts.length, (ts[i]?.map Token.kind = some .directedOp → i = 3) ∧
        (ts[i]?.map Token.kind = some .undirectedOp → i = 5) := by decide
    simpa [ht] using hall i hlt
  have horigin {n i : Nat} {k : Kind} (hk : k.isEdgeOp) (hi : ∀ j t, ts[j]? = some t → t.kind = k → j = i)
      (hn : ∃ m ∈ (ofTokens ts).nodes, m.2.number = n ∧ m.2.kind = k) : origin n = i := by
    obtain ⟨m, hm, rfl, rfl⟩ := hn
    obtain ⟨t, ht, hkind, -⟩ := hspec m hm hk
    exact hi _ t ht hkind
  have hdirected : origin 3 = 3 := horigin rfl (fun j t ht => (hindex j t ht).1) (by decide +kernel)
  have hundirected : origin 7 = 5 := horigin rfl (fun j t ht => (hindex j t ht).2) (by decide +kernel)
  exact ⟨horder, hplace, by decide +kernel, by decide +kernel, fun n => origin n == 5, by simp [hdirected],
    by simp [hundirected], (hmoved place hplace (· == 5)).1⟩

end Parse

end DotMend
