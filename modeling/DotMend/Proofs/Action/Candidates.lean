import DotMend.Action.Offer
import DotMend.Proofs.Source.Paths

namespace DotMend

namespace Tree

/-- `part` is the node at an offset, or the parent of that node if it is a name. -/
def IsPartAt (graph : Tree) (offset : Nat) (part : Tree) : Prop :=
  ∃ node, graph.atOffset? offset = some node ∧ part ∈ graph.preorder (fun _ => true) ∧
    if node.kind.isIdentifier then node ∈ part.children else part = node

variable {t s : Tree}

lemma deepest_mem_preorder (offset : Nat) (t : Tree) : t.deepest offset ∈ t.preorder fun _ => true := by
  induction t using induction_on_children with
  | h t ih =>
    rw [deepest]
    split
    · exact mem_preorder_self t
    · rename_i c hc
      have hmem := List.mem_of_find?_eq_some hc
      exact mem_preorder_of_mem_children hmem (ih c hmem)

lemma mem_preorder_of_atOffset? {offset : Nat} (h : t.atOffset? offset = some s) :
    s ∈ t.preorder fun _ => true := by
  rw [atOffset?] at h
  split at h
  · rw [← Option.some.inj h]
    exact deepest_mem_preorder offset t
  · cases h

lemma exists_children_eq {body : List Tree} (h : t.statements? = some body) :
    ∃ head, t.children = head ++ body := by
  cases t with
  | graph | subgraph =>
    obtain rfl := Option.some.inj h
    rw [children_eq]
    exact ⟨_, rfl⟩
  | _ => cases h

end Tree

structure PlainEdge where
  info : Tree.Info
  sourceInfo : Tree.Info
  name : Tree
  rhsInfo : Tree.Info
  operation : Tree
  target : Tree
  terminator : Option Tree

namespace PlainEdge

def tree (e : PlainEdge) : Tree :=
  .edgeStatement e.info (.nodeId e.sourceInfo e.name none) [.edgeRhs e.rhsInfo e.operation (some e.target)] []
    e.terminator

def candidate (e : PlainEdge) : Candidate := ⟨e.info.span, e.name.span, e.target.span⟩

/-- The statement has no faults, and its source is spelt `text`. -/
structure Joins (t text : Text) (e : PlainEdge) : Prop where
  faultless : e.tree.containsErrors = false
  spelt : t.slice? e.name.span = some text

lemma tree_injective : Function.Injective tree := by
  intro e e' h
  cases e
  cases e'
  simpa [tree, and_assoc] using h

lemma exists_rest (t text : Text) (clear : List Tree) : ∃ rest : List PlainEdge, (rest.map tree).Sublist clear ∧
    ∀ s ∈ clear, s ∈ rest.map tree ↔ ∃ e : PlainEdge, e.tree = s ∧ e.Joins t text := by
  induction clear with
  | nil => exact ⟨[], .slnil, List.forall_mem_nil _⟩
  | cons s clear ih =>
    obtain ⟨rest, hsub, hiff⟩ := ih
    by_cases hs : ∃ e : PlainEdge, e.tree = s ∧ e.Joins t text
    · obtain ⟨e, rfl, he⟩ := hs
      refine ⟨e :: rest, hsub.cons_cons e.tree, List.forall_mem_cons.mpr ⟨?_, ?_⟩⟩
      · exact iff_of_true List.mem_cons_self ⟨e, rfl, he⟩
      · intro s hs
        rw [List.map_cons, List.mem_cons, hiff s hs, or_iff_right_iff_imp]
        rintro rfl
        exact ⟨e, rfl, he⟩
    · refine ⟨rest, hsub.cons s, List.forall_mem_cons.mpr ⟨?_, hiff⟩⟩
      exact iff_of_false (fun hmem => hs ((hiff s (hsub.subset hmem)).mp hmem)) hs

end PlainEdge

structure Joining (t : Text) (graph : Tree) (offset : Nat) where
  text : Text
  holder : Tree
  front : List Tree
  seed : PlainEdge
  clear : List Tree
  behind : List Tree
  rest : List PlainEdge
  at_offset : ∃ part, graph.IsPartAt offset part ∧ part ∈ seed.tree.children
  holder_mem : holder ∈ graph.preorder fun _ => true
  statements_eq : holder.statements? = some (front ++ seed.tree :: (clear ++ behind))
  joins : seed.Joins t text
  unbarred : ∀ s ∈ clear, s.kind ≠ .attrStatement ∧ s.containsErrors = false
  barred : ∀ s ∈ behind.head?, s.kind = .attrStatement ∨ s.containsErrors = true
  rest_sublist : (rest.map PlainEdge.tree).Sublist clear
  mem_rest_iff : ∀ s ∈ clear, s ∈ rest.map PlainEdge.tree ↔ ∃ e : PlainEdge, e.tree = s ∧ e.Joins t text

namespace Joining

variable {t : Text} {graph : Tree} {offset : Nat}

def candidates (j : Joining t graph offset) : List Candidate := (j.seed :: j.rest).map PlainEdge.candidate

lemma exists_children_eq (j : Joining t graph offset) :
    ∃ head, j.holder.children = head ++ (j.front ++ j.seed.tree :: (j.clear ++ j.behind)) :=
  Tree.exists_children_eq j.statements_eq

lemma seed_mem (j : Joining t graph offset) : j.seed.tree ∈ j.holder.children := by
  obtain ⟨head, hhead⟩ := j.exists_children_eq
  simp [hhead]

lemma trees_sublist (j : Joining t graph offset) :
    ((j.seed :: j.rest).map PlainEdge.tree).Sublist j.holder.children := by
  obtain ⟨head, hhead⟩ := j.exists_children_eq
  rw [hhead, ← List.append_assoc]
  apply List.Sublist.trans _ (List.sublist_append_right _ _)
  exact (j.rest_sublist.trans (List.sublist_append_left _ _)).cons_cons _

lemma clear_nodup (j : Joining t graph offset) (hn : graph.Everywhere Tree.Numbered) : j.clear.Nodup := by
  obtain ⟨head, hhead⟩ := j.exists_children_eq
  have hnumbered : j.holder.children.Pairwise fun a b => a.number < b.number :=
    (hn.of_mem_preorder j.holder_mem).here
  rw [hhead, ← List.append_assoc] at hnumbered
  have hlater := (List.pairwise_cons.mp (List.pairwise_append.mp hnumbered).2.1).2
  exact (List.pairwise_append.mp hlater).1.imp fun hlt he => hlt.ne (congrArg Tree.number he)

lemma candidates_ordered (j : Joining t graph offset) (hp : graph.Everywhere Tree.Placed) :
    (∀ c ∈ j.candidates, c.statement.start < c.statement.stop) ∧
      j.candidates.Pairwise fun a b => a.statement.stop ≤ b.statement.start := by
  have hholder := hp.of_mem_preorder j.holder_mem
  constructor
  · intro c hc
    obtain ⟨e, he, rfl⟩ := List.mem_map.mp hc
    exact (hholder.child (j.trees_sublist.subset (List.mem_map_of_mem he))).here.nonempty
  · have hapart := hholder.here.apart.sublist j.trees_sublist
    rw [List.pairwise_map] at hapart
    exact List.pairwise_map.mpr hapart

end Joining

namespace Action

variable {t text : Text} {graph seed holder : Tree} {offset : Nat}

lemma seedAt?_eq_some (hg : (Source.ofText t).graph = some graph) :
    seedAt? (Source.ofText t) offset = some (seed, holder) ↔
      (∃ node, graph.atOffset? offset = some node ∧ ∃ a l, (if node.kind.isIdentifier
          then ((Source.ofText t).parse.path node).drop 1 else (Source.ofText t).parse.path node) =
          a :: seed :: holder :: l) ∧
        seed.kind = .edgeStatement := by
  rw [seedAt?, hg, Option.bind_eq_bind, Option.bind_some, Option.bind_eq_some_iff]
  constructor
  · rintro ⟨node, hnode, h⟩
    simp only at h
    split at h
    · rename_i a seed' holder' l hpath
      split at h
      · rename_i hk
        obtain ⟨rfl, rfl⟩ := Prod.mk.inj (Option.some.inj h)
        exact ⟨⟨node, hnode, a, l, hpath⟩, hk⟩
      · cases h
    · cases h
  · rintro ⟨⟨node, hnode, a, l, hpath⟩, hk⟩
    refine ⟨node, hnode, ?_⟩
    simp only [hpath, hk, if_true]

theorem seedAt?_eq_some_iff (hg : (Source.ofText t).graph = some graph) :
    seedAt? (Source.ofText t) offset = some (seed, holder) ↔
      (∃ part, graph.IsPartAt offset part ∧ part ∈ seed.children) ∧ seed.kind = .edgeStatement ∧
        seed ∈ holder.children ∧ holder ∈ graph.preorder fun _ => true := by
  rw [seedAt?_eq_some hg]
  constructor
  · rintro ⟨⟨node, hnode, a, l, hpath⟩, hk⟩
    have hmem := Tree.mem_preorder_of_atOffset? hnode
    split at hpath
    · -- the part is the parent of a name, so it comes second on the way up
      rename_i hid
      cases hway : (Source.ofText t).parse.path node with
      | nil => simp [hway] at hpath
      | cons b l' =>
        rw [hway, List.drop_one, List.tail_cons] at hpath
        obtain ⟨-, rfl | ⟨part, hpart, hnp, hway⟩⟩ := Source.parent_of_path hg hmem hway
        · cases hpath
        · obtain ⟨hps, hsh, hh⟩ := (Source.exists_path_iff hg).mp ⟨hpart, a, l, hway.trans hpath⟩
          exact ⟨⟨part, ⟨node, hnode, hpart, by rwa [if_pos hid]⟩, hps⟩, hk, hsh, hh⟩
    · rename_i hid
      obtain ⟨hps, hsh, hh⟩ := (Source.exists_path_iff hg).mp ⟨hmem, a, l, hpath⟩
      exact ⟨⟨node, ⟨node, hnode, hmem, by rw [if_neg hid]⟩, hps⟩, hk, hsh, hh⟩
  · rintro ⟨⟨part, ⟨node, hnode, hmem, hpart⟩, hps⟩, hk, hsh, hh⟩
    refine ⟨⟨node, hnode, ?_⟩, hk⟩
    obtain ⟨-, a, l, hpath⟩ := (Source.exists_path_iff hg).mpr ⟨hps, hsh, hh⟩
    split at hpart
    · rename_i hid
      rw [if_pos hid, Source.path_child hg hmem hpart, List.drop_one, List.tail_cons]
      exact ⟨a, l, hpath⟩
    · rename_i hid
      rw [if_neg hid, ← hpart]
      exact ⟨a, l, hpath⟩

lemma exists_plainEdge {statement name : Tree} {c : Candidate} (hn : plainSource? statement = some name)
    (hc : candidate? statement name = some c) :
    ∃ e : PlainEdge, e.tree = statement ∧ e.name = name ∧ e.candidate = c ∧ statement.containsErrors = false := by
  unfold plainSource? at hn
  split at hn
  · rename_i i j name' r terminator
    split at hn
    · simp at hn
    · rename_i hfault
      obtain rfl := Option.some.inj hn
      unfold candidate? at hc
      split at hc
      · rename_i he
        cases he
        obtain rfl := Option.some.inj hc
        exact ⟨⟨i, j, name', _, _, _, terminator⟩, rfl, rfl, rfl, by simpa using hfault⟩
      · simp at hc
  · simp at hn

lemma plainSource?_tree {e : PlainEdge} (h : e.tree.containsErrors = false) :
    plainSource? e.tree = some e.name := by
  rw [PlainEdge.tree] at h ⊢
  simp only [plainSource?, h, Bool.false_eq_true, if_false]

lemma matching?_eq_some_iff {s : Tree} {c : Candidate} :
    matching? t text s = some c ↔ ∃ e : PlainEdge, e.tree = s ∧ e.Joins t text ∧ e.candidate = c := by
  rw [matching?, Option.bind_eq_bind, Option.bind_eq_some_iff]
  constructor
  · rintro ⟨name, hname, h⟩
    split at h
    · rename_i hslice
      obtain ⟨e, rfl, rfl, rfl, hfault⟩ := exists_plainEdge hname h
      exact ⟨e, rfl, ⟨hfault, hslice⟩, rfl⟩
    · cases h
  · rintro ⟨e, rfl, ⟨hfault, hslice⟩, rfl⟩
    refine ⟨e.name, plainSource?_tree hfault, ?_⟩
    rw [if_pos hslice]
    rfl

lemma mem_statements {holder seed : Tree} {body : List Tree} (hp : holder.Proper)
    (hb : holder.statements? = some body)
    (hs : seed ∈ holder.children) (hk : seed.kind = .edgeStatement) : seed ∈ body := by
  cases holder with
  | graph i strict keyword name statements =>
    obtain rfl := Option.some.inj hb
    obtain ⟨hstrict, hkeyword, hname, -⟩ := hp
    rw [Tree.children_eq] at hs
    rcases List.mem_append.mp hs with hs | hs
    · exfalso
      rcases List.mem_append.mp hs with hs | hs
      · rw [hstrict seed (Option.mem_toList.mp hs)] at hk
        cases hk
      · rcases List.mem_cons.mp hs with rfl | hs
        · rw [hk] at hkeyword
          cases hkeyword
        · have := hname seed (Option.mem_toList.mp hs)
          rw [hk] at this
          cases this
    · exact hs
  | subgraph i keyword name statements =>
    obtain rfl := Option.some.inj hb
    obtain ⟨hkeyword, hname, -⟩ := hp
    rw [Tree.children_eq] at hs
    rcases List.mem_append.mp hs with hs | hs
    · exfalso
      rcases List.mem_append.mp hs with hs | hs
      · rw [hkeyword seed (Option.mem_toList.mp hs)] at hk
        cases hk
      · have := hname seed (Option.mem_toList.mp hs)
        rw [hk] at this
        cases this
    · exact hs
  | _ => cases hb

lemma bars_iff {s : Tree} : bars s ↔ s.kind = .attrStatement ∨ s.containsErrors = true := by
  simp [bars]

lemma filterMap_matching? {clear : List Tree} {rest : List PlainEdge} (hnodup : clear.Nodup)
    (hsub : (rest.map PlainEdge.tree).Sublist clear)
    (hiff : ∀ s ∈ clear, s ∈ rest.map PlainEdge.tree ↔ ∃ e : PlainEdge, e.tree = s ∧ e.Joins t text) :
    clear.filterMap (matching? t text) = rest.map PlainEdge.candidate := by
  induction clear generalizing rest with
  | nil =>
    obtain rfl := List.map_eq_nil_iff.mp (List.sublist_nil.mp hsub)
    rfl
  | cons s clear ih =>
    rw [List.forall_mem_cons] at hiff
    obtain ⟨hnew, hclear⟩ := List.nodup_cons.mp hnodup
    rcases List.sublist_cons_iff.mp hsub with hsub' | ⟨trees, hmap, hsub'⟩
    · -- `s` does not occur again, so it is not among the rest
      have hnone : matching? t text s = none := by
        rw [Option.eq_none_iff_forall_ne_some]
        intro c hc
        obtain ⟨e, rfl, he, -⟩ := matching?_eq_some_iff.mp hc
        exact hnew (hsub'.subset (hiff.1.mpr ⟨e, rfl, he⟩))
      rw [List.filterMap_cons_none hnone]
      exact ih hclear hsub' hiff.2
    · obtain ⟨e, rest, rfl, rfl, rfl⟩ := List.map_eq_cons_iff.mp hmap
      obtain ⟨e', he', hjoins⟩ := hiff.1.mp List.mem_cons_self
      obtain rfl := PlainEdge.tree_injective he'
      rw [List.filterMap_cons_some (matching?_eq_some_iff.mpr ⟨e', rfl, hjoins, rfl⟩), ih hclear hsub']
      · rfl
      · intro s hs
        rw [← hiff.2 s hs, List.map_cons, List.mem_cons, or_iff_right]
        rintro rfl
        exact hnew hs

lemma followers_eq {front clear behind : List Tree} (hn : holder.Numbered)
    (hb : holder.statements? = some (front ++ seed :: (clear ++ behind)))
    (hclear : ∀ s ∈ clear, s.kind ≠ .attrStatement ∧ s.containsErrors = false)
    (hbehind : ∀ s ∈ behind.head?, s.kind = .attrStatement ∨ s.containsErrors = true) :
    followers t text seed (front ++ seed :: (clear ++ behind)) = clear.filterMap (matching? t text) := by
  obtain ⟨head, hhead⟩ := Tree.exists_children_eq hb
  rw [Tree.Numbered, hhead] at hn
  have hbefore : ∀ s ∈ front, s.number < seed.number := by
    intro s hs
    exact (List.pairwise_append.mp (List.pairwise_append.mp hn).2.1).2.2 s hs seed List.mem_cons_self
  have hlater : ((front ++ seed :: (clear ++ behind)).dropWhile (·.number ≠ seed.number)).drop 1 =
      clear ++ behind := by
    rw [List.dropWhile_append_of_pos]
    · simp
    · intro s hs
      simpa using (hbefore s hs).ne
  have hfirst : (clear ++ behind).takeWhile (!bars ·) = clear := by
    rw [List.takeWhile_append_of_pos]
    · cases behind with
      | nil => simp
      | cons s behind =>
        have hs : bars s = true := bars_iff.mpr (hbehind s rfl)
        simp [hs]
    · intro s hs
      simp [bars, hclear s hs]
  rw [followers]
  simp only [hlater, hfirst]

lemma exists_clear (later : List Tree) : ∃ clear behind, later = clear ++ behind ∧
    (∀ s ∈ clear, s.kind ≠ .attrStatement ∧ s.containsErrors = false) ∧
      ∀ s ∈ behind.head?, s.kind = .attrStatement ∨ s.containsErrors = true := by
  induction later with
  | nil => exact ⟨[], [], rfl, List.forall_mem_nil _, nofun⟩
  | cons s later ih =>
    by_cases hs : bars s
    · refine ⟨[], s :: later, rfl, List.forall_mem_nil _, ?_⟩
      rintro _ ⟨rfl⟩
      exact bars_iff.mp hs
    · obtain ⟨clear, behind, rfl, hclear, hbehind⟩ := ih
      rw [bars_iff, not_or, Bool.not_eq_true] at hs
      exact ⟨s :: clear, behind, rfl, List.forall_mem_cons.mpr ⟨hs, hclear⟩, hbehind⟩

lemma consolidate?_eq_some {source : Source} {action : Action} :
    consolidate? t source (.caret offset) = some action ↔
      ∃ (e : PlainEdge) (holder : Tree) (text : Text) (body : List Tree),
      seedAt? source offset = some (e.tree, holder) ∧
        e.Joins t text ∧ holder.statements? = some body ∧ followers t text e.tree body ≠ [] ∧
          action = consolidate (String.ofList text) (e.candidate :: followers t text e.tree body) := by
  have hempty : (Span.caret offset).isEmpty = true := decide_eq_true rfl
  rw [consolidate?, if_pos hempty]
  constructor
  · intro h
    obtain ⟨⟨seed, holder⟩, hseed, h⟩ := Option.bind_eq_some_iff.mp h
    obtain ⟨name, hname, h⟩ := Option.bind_eq_some_iff.mp h
    obtain ⟨text, htext, h⟩ := Option.bind_eq_some_iff.mp h
    obtain ⟨body, hbody, h⟩ := Option.bind_eq_some_iff.mp h
    obtain ⟨first, hfirst, h⟩ := Option.bind_eq_some_iff.mp h
    obtain ⟨e, rfl, rfl, rfl, hfault⟩ := exists_plainEdge hname hfirst
    simp only at h
    split at h
    · cases h
    · rename_i hne
      refine ⟨e, holder, text, body, hseed, ⟨hfault, htext⟩, hbody, ?_, (Option.some.inj h).symm⟩
      simpa using hne
  · rintro ⟨e, holder, text, body, hseed, ⟨hfault, htext⟩, hbody, hne, rfl⟩
    have hfirst : candidate? e.tree e.name = some e.candidate := rfl
    rw [← List.isEmpty_eq_false_iff] at hne
    simp only [Span.caret, hseed, plainSource?_tree hfault, htext, hbody, hfirst, hne, Option.bind_eq_bind,
      Option.bind_some, Bool.false_eq_true, if_false]

end Action

namespace Joining

variable {t : Text} {graph : Tree} {offset : Nat}

lemma followers_eq (j : Joining t graph offset) (hn : graph.Everywhere Tree.Numbered) :
    Action.followers t j.text j.seed.tree (j.front ++ j.seed.tree :: (j.clear ++ j.behind)) =
      j.rest.map PlainEdge.candidate := by
  rw [Action.followers_eq (hn.of_mem_preorder j.holder_mem).here j.statements_eq j.unbarred j.barred]
  exact Action.filterMap_matching? (j.clear_nodup hn) j.rest_sublist j.mem_rest_iff

end Joining

namespace Action

variable {t : Text} {offset : Nat} {action : Action}

lemma exists_joining (ha : consolidate? t (Source.ofText t) (.caret offset) = some action) :
    ∃ graph, (Source.ofText t).graph = some graph ∧ ∃ j : Joining t graph offset, j.rest ≠ [] ∧
      action = consolidate (String.ofList j.text) j.candidates := by
  obtain ⟨e, holder, text, body, hseed, hjoins, hbody, hne, rfl⟩ := consolidate?_eq_some.mp ha
  obtain ⟨graph, hg, -⟩ := Option.bind_eq_some_iff.mp hseed
  obtain ⟨ps, used, h⟩ := Source.exists_graphReading hg
  obtain ⟨hpart, hk, hsh, hh⟩ := (seedAt?_eq_some_iff hg).mp hseed
  obtain ⟨front, later, rfl⟩ := List.append_of_mem (mem_statements (h.proper.of_mem_preorder hh).here hbody hsh hk)
  obtain ⟨clear, behind, rfl, hclear, hbehind⟩ := exists_clear later
  obtain ⟨rest, hsub, hiff⟩ := PlainEdge.exists_rest t text clear
  let j : Joining t graph offset :=
    ⟨text, holder, front, e, clear, behind, rest, hpart, hh, hbody, hjoins, hclear, hbehind, hsub, hiff⟩
  have hfollow := j.followers_eq h.numbered
  rw [hfollow] at hne ⊢
  exact ⟨graph, hg, j, fun hnil => hne (congrArg _ hnil), rfl⟩

/-- A consolidation is offered at a caret exactly if a plain edge statement around the part there can be joined by
a later one. It is that of the statement and of all those that can join it, in their order. -/
theorem consolidate?_eq_some_iff (t : Text) (offset : Nat) (action : Action) :
    (consolidate? t (Source.ofText t) (.caret offset) = some action ↔
      ∃ graph, (Source.ofText t).graph = some graph ∧ ∃ j : Joining t graph offset, j.rest ≠ [] ∧
        action = consolidate (String.ofList j.text) j.candidates) ∧
    ∀ graph, (Source.ofText t).graph = some graph → ∀ j : Joining t graph offset,
      (∀ c ∈ j.candidates, c.statement.start < c.statement.stop) ∧
        j.candidates.Pairwise fun a b => a.statement.stop ≤ b.statement.start := by
  refine ⟨⟨exists_joining, ?_⟩, ?_⟩
  · rintro ⟨graph, hg, j, hrest, rfl⟩
    obtain ⟨ps, used, h⟩ := Source.exists_graphReading hg
    have hseed := (seedAt?_eq_some_iff hg).mpr ⟨j.at_offset, rfl, j.seed_mem, j.holder_mem⟩
    refine consolidate?_eq_some.mpr ⟨j.seed, j.holder, j.text, _, hseed, j.joins, j.statements_eq, ?_⟩
    rw [j.followers_eq h.numbered]
    exact ⟨fun hnil => hrest (List.map_eq_nil_iff.mp hnil), rfl⟩
  · intro graph hg j
    obtain ⟨ps, used, h⟩ := Source.exists_graphReading hg
    exact j.candidates_ordered h.wellPlaced

theorem consolidate?_eq_some_iff_between :
    let t : Text := "graph \x7b a -- x; b; a -- y:p; node [k=v]; a -- w \x7d".toList
    ∃ graph, (Source.ofText t).graph = some graph ∧ ∃ j : Joining t graph 8,
      j.candidates = [⟨⟨8, 15⟩, ⟨8, 9⟩, ⟨13, 14⟩⟩, ⟨⟨19, 28⟩, ⟨19, 20⟩, ⟨24, 27⟩⟩] ∧
        consolidate? t (Source.ofText t) (.caret 8) = some (consolidate "a" j.candidates) ∧
        j.candidates.Pairwise fun a b => a.statement.stop ≤ b.statement.start := by
  intro t
  have hoffer : consolidate? t (Source.ofText t) (.caret 8) =
      some (consolidate "a" [⟨⟨8, 15⟩, ⟨8, 9⟩, ⟨13, 14⟩⟩, ⟨⟨19, 28⟩, ⟨19, 20⟩, ⟨24, 27⟩⟩]) := by decide +kernel
  obtain ⟨graph, hg, j, -, hj⟩ := (consolidate?_eq_some_iff t 8 _).1.mp hoffer
  have hordered := (consolidate?_eq_some_iff t 8 (consolidate "a" [])).2 graph hg j
  simp only [consolidate, mk.injEq, Command.consolidate.injEq, Consolidation.mk.injEq] at hj
  have hcandidates := hj.2.2.2.2.symm
  exact ⟨graph, hg, j, hcandidates, hcandidates ▸ hoffer, hordered.2⟩

end Action

namespace Tree

def isSingle (t text : Text) (s : Tree) : Bool :=
  match s with
  | .edgeStatement _ source [_] [] _ =>
    !s.containsErrors && (s.preorder fun _ => true).all (·.kind ≠ .port) && t.slice? source.span = some text
  | _ => false

end Tree

namespace Action

/-- Edges from a subgraph are not consolidated, even where there is no port. Edges to a port are. -/
theorem consolidate?_subgraph_source :
    let t : Text := "graph \x7b \x7ba\x7d -- b; \x7ba\x7d -- c; \x7d".toList
    let t' : Text := "graph \x7b a -- b:p; a -- c; \x7d".toList
    (∃ graph seed other, (Source.ofText t).graph = some graph ∧ graph.statements? = some [seed, other] ∧
      (∃ part, graph.IsPartAt 17 part ∧ part ∈ seed.children) ∧
      (∀ s ∈ [seed, other], s.isSingle t "\x7ba\x7d".toList) ∧
      consolidate? t (Source.ofText t) (.caret 17) = none) ∧
    ∃ seed holder, seedAt? (Source.ofText t') 8 = some (seed, holder) ∧
      (∃ n ∈ seed.preorder fun _ => true, n.kind = .port) ∧
      (consolidate? t' (Source.ofText t') (.caret 8)).isSome := by
  intro t t'
  constructor
  · have hshape : ((Source.ofText t).graph.bind Tree.statements?).any fun body =>
        body.length = 2 && body.all (·.isSingle t "\x7ba\x7d".toList) && body.head?.map Tree.number =
          (seedAt? (Source.ofText t) 17).map (·.1.number) := by decide +kernel
    rw [Option.any_eq_true] at hshape
    obtain ⟨body, hbody, hshape⟩ := hshape
    obtain ⟨graph, hg, hb⟩ := Option.bind_eq_some_iff.mp hbody
    simp only [Bool.and_eq_true, decide_eq_true_eq, List.all_eq_true] at hshape
    obtain ⟨⟨hlength, hsingle⟩, hnumber⟩ := hshape
    obtain ⟨seed, other, rfl⟩ := List.length_eq_two.mp hlength
    obtain ⟨⟨found, holder⟩, hfound, hsame⟩ := Option.map_eq_some_iff.mp hnumber.symm
    obtain ⟨hpart, -, hsh, hh⟩ := (seedAt?_eq_some_iff hg).mp hfound
    obtain ⟨head, hhead⟩ := Tree.exists_children_eq hb
    -- trees cannot be compared, but no two nodes of a graph have the same number
    obtain rfl : found = seed := by
      apply Source.eq_of_number hg _ _ hsame
      · exact Tree.mem_preorder_child hh hsh
      · exact Tree.mem_preorder_child (Tree.mem_preorder_self graph) (by simp [hhead])
    exact ⟨graph, found, other, hg, hb, hpart, hsingle, by decide +kernel⟩
  · have hport : (seedAt? (Source.ofText t') 8).any fun found =>
        (found.1.preorder fun _ => true).any (·.kind = .port) := by decide +kernel
    rw [Option.any_eq_true] at hport
    obtain ⟨⟨seed, holder⟩, hseed, hport⟩ := hport
    obtain ⟨n, hn, hkind⟩ := List.any_eq_true.mp hport
    exact ⟨seed, holder, hseed, ⟨n, hn, of_decide_eq_true hkind⟩, by decide +kernel⟩

end Action

end DotMend
