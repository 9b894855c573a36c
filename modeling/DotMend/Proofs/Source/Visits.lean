import DotMend.Proofs.Parse.Seating
import DotMend.Proofs.Source.Reading

namespace DotMend

/-- A visitor in the state `s` is asked about items one after the other. It says `none` to all but the last and to
that what stands in `r`, with its state then. -/
inductive Asked (f : α → StateM σ (Option β)) : σ → List α → Option β × σ → Prop
  | nil {s} : Asked f s [] (none, s)
  | settled {s a b s'} : f a s = (some b, s') → Asked f s [a] (some b, s')
  | cons {s a s' as r} : f a s = (none, s') → Asked f s' as r → Asked f s (a :: as) r

section FirstSome

variable {f : α → StateM σ (Option β)} {a : α} {s s' : σ}

lemma firstSome_cons_of_some {b : β} (as : List α) (h : f a s = (some b, s')) :
    firstSome f (a :: as) s = (some b, s') := by
  rw [firstSome]
  change StateT.bind (f a) _ s = _
  rw [StateT.bind, h]
  rfl

lemma firstSome_cons_of_none (as : List α) (h : f a s = (none, s')) :
    firstSome f (a :: as) s = firstSome f as s' := by
  rw [firstSome]
  change StateT.bind (f a) _ s = _
  rw [StateT.bind, h]
  rfl

lemma firstSome_cons (f : α → StateM σ (Option β)) (a : α) (as : List α) (s : σ) :
    firstSome f (a :: as) s = (f a s).1.elim (firstSome f as (f a s).2) fun b => (some b, (f a s).2) := by
  cases h : f a s with
  | mk r s' =>
    cases r with
    | none => exact firstSome_cons_of_none as h
    | some b => exact firstSome_cons_of_some as h

theorem firstSome_asked (f : α → StateM σ (Option β)) (as : List α) (s : σ) : ∃ seen rest, as = seen ++ rest ∧
    Asked f s seen (firstSome f as s) ∧ ((firstSome f as s).1 = none → rest = []) := by
  induction as generalizing s with
  | nil => exact ⟨[], [], rfl, .nil, fun _ => rfl⟩
  | cons a as ih =>
    cases h : f a s with
    | mk r s' =>
      cases r with
      | some b =>
        rw [firstSome_cons_of_some as h]
        exact ⟨[a], as, rfl, .settled h, nofun⟩
      | none =>
        obtain ⟨seen, rest, rfl, hasked, hall⟩ := ih s'
        rw [firstSome_cons_of_none _ h]
        exact ⟨a :: seen, rest, rfl, .cons h hasked, hall⟩

lemma firstSome_singleton (f : α → StateM σ (Option β)) (a : α) : firstSome f [a] = f a := by
  funext s
  rw [firstSome_cons]
  cases h : f a s with
  | mk r s' => cases r <;> rfl

lemma firstSome_append (f : α → StateM σ (Option β)) (as bs : List α) (s : σ) :
    firstSome f (as ++ bs) s =
      (firstSome f as s).1.elim (firstSome f bs (firstSome f as s).2) fun b => (some b, (firstSome f as s).2) := by
  induction as generalizing s with
  | nil => rfl
  | cons a as ih =>
    rw [List.cons_append, firstSome_cons, firstSome_cons f a as, ih]
    cases (f a s).1 <;> rfl

lemma firstSome_flatMap (f : α → StateM σ (Option β)) (items : γ → List α) (cs : List γ) :
    firstSome (fun c => firstSome f (items c)) cs = firstSome f (cs.flatMap items) := by
  induction cs with
  | nil => rfl
  | cons c cs ih =>
    funext s
    rw [List.flatMap_cons, firstSome_append, firstSome_cons, ih]

end FirstSome

namespace Tree

theorem visitSlots_firstSome (f : Tree → StateM σ (Option β)) (t : Tree) :
    t.visitSlots f (firstSome f) = t.visitChildren f := by
  have hvisit : Slot.visit f (firstSome f) = fun slot => firstSome f slot.trees := by
    funext slot
    cases slot with
    | one t => exact (firstSome_singleton f t).symm
    | many ts => rfl
  rw [visitSlots, hvisit, firstSome_flatMap]
  rfl

def singles : Tree → List Tree
  | token .. | identifier .. | attrList .. => []
  | graph _ strict keyword name _ => strict.toList ++ keyword :: name.toList
  | attrStatement _ subject _ terminator => subject :: terminator.toList
  | edgeStatement _ source _ _ terminator => source :: terminator.toList
  | nodeStatement _ node _ terminator => node :: terminator.toList
  | equation _ left right terminator => left :: right.toList ++ terminator.toList
  | subgraphStatement _ body terminator => body :: terminator.toList
  | subgraph _ keyword name _ => keyword.toList ++ name.toList
  | nodeId _ name place => name :: place.toList
  | port _ name compass => name.toList ++ compass.toList
  | edgeRhs _ operation target => operation :: target.toList
  | attr _ left right terminator => left :: right.toList ++ terminator.toList

def sequences : Tree → List (List Tree)
  | graph _ _ _ _ statements | subgraph _ _ _ statements => [statements]
  | edgeStatement _ _ rhs attributes _ => [rhs, attributes]
  | attrStatement _ _ attributes _ | nodeStatement _ _ attributes _ | attrList _ attributes => [attributes]
  | token .. | identifier .. | equation .. | subgraphStatement .. | nodeId .. | port .. | edgeRhs .. | attr .. =>
    []

namespace Slot

def single? : Slot → Option Tree
  | one t => some t
  | many _ => none

def sequence? : Slot → Option (List Tree)
  | one _ => none
  | many ts => some ts

@[simp] lemma single?_ofOption (t : Option Tree) : (ofOption t).filterMap single? = t.toList := by
  cases t <;> rfl

@[simp] lemma single?_ofList (ts : List Tree) : (ofList ts).filterMap single? = [] := by
  cases ts <;> rfl

@[simp] lemma sequence?_ofOption (t : Option Tree) : (ofOption t).filterMap sequence? = [] := by
  cases t <;> rfl

@[simp] lemma sequence?_ofList (ts : List Tree) : (ofList ts).filterMap sequence? = [ts].filter (!·.isEmpty) := by
  cases ts <;> rfl

end Slot

lemma single?_slots (t : Tree) : t.slots.filterMap Slot.single? = t.singles := by
  cases t <;> simp [slots, singles, Slot.single?]

lemma sequence?_slots (t : Tree) : t.slots.filterMap Slot.sequence? = t.sequences.filter (!·.isEmpty) := by
  have hone (c : Tree) (rest : List Slot) :
      (.one c :: rest).filterMap Slot.sequence? = rest.filterMap Slot.sequence? := rfl
  cases t with
  | edgeStatement _ _ rhs attributes =>
    rw [sequences, ← List.singleton_append, List.filter_append]
    simp [slots, hone]
  | _ => simp [slots, sequences, hone, -List.filterMap_eq_nil_iff]

theorem visitSlots_asked (one : Tree → StateM σ (Option β)) (many : List Tree → StateM σ (Option β)) (t : Tree)
    (s : σ) : ∃ seen, Asked (Slot.visit one many) s seen (t.visitSlots one many s) ∧
      seen.flatMap Slot.trees <+: t.children ∧
      seen.filterMap Slot.single? <+: t.singles ∧
      seen.filterMap Slot.sequence? <+: t.sequences.filter (!·.isEmpty) ∧
      ((t.visitSlots one many s).1 = none → seen = t.slots) := by
  obtain ⟨seen, rest, hslots, hasked, hall⟩ := firstSome_asked (Slot.visit one many) t.slots s
  rw [← single?_slots, ← sequence?_slots, children, hslots]
  simp only [List.flatMap_append, List.filterMap_append]
  exact ⟨seen, hasked, List.prefix_append _ _, List.prefix_append _ _, List.prefix_append _ _,
    fun h => by simp [hall h]⟩

structure Sorted (cs : List Tree) : Prop where
  forward : ∀ c ∈ cs, c.span.start ≤ c.span.stop
  apart : cs.Pairwise fun a b => a.span.stop ≤ b.span.start

end Tree

namespace Parse

lemma mem_nodes_of_mem_children {p : Parse} {n : Option Nat × Tree} {c : Tree} (hn : n ∈ p.nodes)
    (hc : c ∈ n.2.children) : (some n.2.number, c) ∈ p.nodes := by
  obtain ⟨r, hr, hn⟩ := List.mem_flatMap.mp hn
  have hmem : n.2 ∈ r.preorder fun _ => true := (r.postorder_perm none).mem_iff.mp (List.mem_map_of_mem hn)
  exact List.mem_flatMap.mpr ⟨r, hr, Tree.mem_postorder_iff.mpr (.inr ⟨n.2, hmem, hc, rfl⟩)⟩

theorem InOrder.sorted_children {ts : List Token} (h : InOrder ts) {n : Option Nat × Tree}
    (hn : n ∈ (ofTokens ts).nodes) : Tree.Sorted n.2.children := by
  have htabled := tabled_ofTokens (ordered_seated ts)
  rw [h.ofTokens_still, nodes_relocated] at hn
  obtain ⟨m, hm, rfl⟩ := List.mem_map.mp hn
  rw [Prod.map_snd, Relocation.children_tree]
  constructor
  · intro c hc
    obtain ⟨d, hd, rfl⟩ := List.mem_map.mp hc
    rw [Relocation.span_tree]
    exact h.still.mono (htabled.placed _ (mem_nodes_of_mem_children hm hd)).nonempty.le
  · rw [List.pairwise_map]
    refine (htabled.placed m hm).apart.imp fun hab => ?_
    rw [Relocation.span_tree, Relocation.span_tree]
    exact h.still.mono hab

end Parse

lemma Token.inOrder_scan (text : Text) : Parse.InOrder (scan text).tokens := by
  obtain ⟨ps, hrun, rfl⟩ := exists_run true text
  have ho : Parse.Ordered (tokensAt 0 ps) := ordered_tokensAt fun _ => hrun.ne_nil
  rw [hrun.scan]
  constructor
  · intro t ht
    rcases List.mem_append.mp ht with ht | ht
    · exact (ho.nonempty t ht).le
    · obtain rfl := List.mem_singleton.mp ht
      exact le_rfl
  · refine List.pairwise_append.mpr ⟨ho.apart, List.pairwise_singleton _ _, fun t ht u hu => ?_⟩
    obtain rfl := List.mem_singleton.mp hu
    obtain ⟨q, hq, hqt⟩ := mem_tokensAt.mp ht
    obtain ⟨_, -, rfl⟩ := Option.map_eq_some_iff.mp hqt
    exact (le_of_mem_placed hq).2.trans_eq (Nat.zero_add _)

namespace Tree

/-- A visit of the children asks about them in order up to the first on which the visitor settles. A visit by slots
asks in the same order, about each repeated part as a whole. What is read from tokens in order has its children in
order. -/
theorem visits_in_order (t : Tree) (s : σ) (f one : Tree → StateM σ (Option β))
    (many : List Tree → StateM σ (Option β)) :
    (∃ seen, Asked f s seen (t.visitChildren f s) ∧ seen <+: t.children ∧
      ((t.visitChildren f s).1 = none → seen = t.children)) ∧
    t.visitSlots f (firstSome f) = t.visitChildren f ∧
    (∃ seen, Asked (Slot.visit one many) s seen (t.visitSlots one many s) ∧
      seen.flatMap Slot.trees <+: t.children ∧
      seen.filterMap Slot.single? <+: t.singles ∧
      seen.filterMap Slot.sequence? <+: t.sequences.filter (!·.isEmpty) ∧
      ((t.visitSlots one many s).1 = none → seen.flatMap Slot.trees = t.children ∧
        seen.filterMap Slot.single? = t.singles ∧
        seen.filterMap Slot.sequence? = t.sequences.filter (!·.isEmpty))) ∧
    (∀ ts, Parse.InOrder ts → ∀ n ∈ (Parse.ofTokens ts).nodes, Sorted n.2.children) ∧
    ∀ text, ∀ n ∈ (Source.ofText text).parse.nodes, Sorted n.2.children := by
  refine ⟨?_, visitSlots_firstSome f t, ?_, fun ts h n => h.sorted_children, fun text n => ?_⟩
  · obtain ⟨seen, rest, hchildren, hasked, hall⟩ := firstSome_asked f t.children s
    exact ⟨seen, hasked, ⟨rest, hchildren.symm⟩, fun h => by rw [hchildren, hall h, List.append_nil]⟩
  · obtain ⟨seen, hasked, hchildren, hsingles, hsequences, hall⟩ := visitSlots_asked one many t s
    refine ⟨seen, hasked, hchildren, hsingles, hsequences, fun h => ?_⟩
    rw [hall h, single?_slots, sequence?_slots]
    exact ⟨rfl, rfl, rfl⟩
  · exact (Token.inOrder_scan text).sorted_children

theorem visits_in_order_settled :
    let leaf (n : Nat) : Tree := .token ⟨n, ⟨n, n + 1⟩, false⟩ .word
    let t : Tree := .edgeStatement ⟨5, ⟨0, 5⟩, false⟩ (leaf 0) [leaf 1, leaf 2] [] (some (leaf 4))
    let note (c : Tree) : StateM (List Nat) (Option String) := fun log =>
      (if c.number = 2 then some "found" else none, log ++ [c.number])
    let noteAll (cs : List Tree) : StateM (List Nat) (Option String) := fun log => (none, log ++ cs.map number)
    let token (k : Kind) (start stop : Nat) : Token := ⟨k, ⟨start, stop⟩, "a", false⟩
    let ts := [token .graphKeyword 0 5, token .openBrace 5 5, token .word 5 5, token .undirectedOp 7 9,
      token .word 9 9]
    t.visitChildren note [] = (some "found", [0, 1, 2]) ∧
      (∃ seen, Asked note [] seen (t.visitChildren note []) ∧ seen <+: t.children) ∧
      t.visitSlots note noteAll [] = (none, [0, 1, 2, 4]) ∧
      (∃ seen, Asked (Slot.visit note noteAll) [] seen (t.visitSlots note noteAll []) ∧
        seen.flatMap Slot.trees = t.children ∧ seen.filterMap Slot.sequence? = [[leaf 1, leaf 2]]) ∧
      Parse.InOrder ts ∧ (Parse.ofTokens ts).graph.isSome ∧
        ∀ n ∈ (Parse.ofTokens ts).nodes, Sorted n.2.children := by
  intro leaf t note noteAll token ts
  have horder : Parse.InOrder ts := ⟨by decide, by decide⟩
  have hslots : t.visitSlots note noteAll [] = (none, [0, 1, 2, 4]) := rfl
  obtain ⟨⟨seen, hseen, hprefix, -⟩, -, ⟨seen', hseen', -, -, -, hall⟩, hsorted, -⟩ :=
    visits_in_order t [] note note noteAll
  obtain ⟨hchildren, -, hsequences⟩ := hall (congrArg Prod.fst hslots)
  exact ⟨rfl, ⟨seen, hseen, hprefix⟩, hslots, ⟨seen', hseen', hchildren, hsequences⟩, horder, by decide +kernel,
    hsorted ts horder⟩

end Tree

end DotMend
