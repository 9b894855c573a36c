import DotMend.Proofs.Tree.Search

namespace DotMend.Tree

section

variable (f : Info → Info) (colour : Info → Kind → Kind)

mutual

/-- The tree with other nodes and other tokens in the same slots. Identifiers keep their kinds and texts. -/
def map : Tree → Tree
  | .token i k => .token (f i) (colour i k)
  | .identifier i k text => .identifier (f i) k text
  | .graph i strict keyword name statements =>
    .graph (f i) (mapOption strict) (map keyword) (mapOption name) (mapList statements)
  | .attrStatement i subject attributes terminator =>
    .attrStatement (f i) (map subject) (mapList attributes) (mapOption terminator)
  | .edgeStatement i source rhs attributes terminator =>
    .edgeStatement (f i) (map source) (mapList rhs) (mapList attributes) (mapOption terminator)
  | .nodeStatement i node attributes terminator =>
    .nodeStatement (f i) (map node) (mapList attributes) (mapOption terminator)
  | .equation i left right terminator => .equation (f i) (map left) (mapOption right) (mapOption terminator)
  | .subgraphStatement i body terminator => .subgraphStatement (f i) (map body) (mapOption terminator)
  | .subgraph i keyword name statements =>
    .subgraph (f i) (mapOption keyword) (mapOption name) (mapList statements)
  | .nodeId i name place => .nodeId (f i) (map name) (mapOption place)
  | .port i name compass => .port (f i) (mapOption name) (mapOption compass)
  | .edgeRhs i operation target => .edgeRhs (f i) (map operation) (mapOption target)
  | .attrList i attributes => .attrList (f i) (mapList attributes)
  | .attr i left right terminator => .attr (f i) (map left) (mapOption right) (mapOption terminator)

def mapOption : Option Tree → Option Tree
  | none => none
  | some t => some (map t)

def mapList : List Tree → List Tree
  | [] => []
  | t :: ts => map t :: mapList ts

end

end

variable {f : Info → Info} {colour : Info → Kind → Kind}

lemma mapOption_eq (o : Option Tree) : mapOption f colour o = o.map (map f colour) := by
  cases o <;> rfl

lemma mapList_eq (ts : List Tree) : mapList f colour ts = ts.map (map f colour) := by
  induction ts with
  | nil => rfl
  | cons t ts ih => exact congrArg (t.map f colour :: ·) ih

section Equations

-- Each constructor's equation holds by computation, up to what its optional and repeated slots hold.

variable {i : Info}

@[simp] lemma map_token {k : Kind} : (token i k).map f colour = .token (f i) (colour i k) := rfl

@[simp] lemma map_identifier {k : Kind} {text : String} :
    (identifier i k text).map f colour = .identifier (f i) k text := rfl

variable {left : Tree} {first second : Option Tree} {ts us : List Tree}

@[simp] lemma map_graph : (graph i first left second ts).map f colour =
    .graph (f i) (first.map (map f colour)) (left.map f colour) (second.map (map f colour))
      (ts.map (map f colour)) := by
  rw [← mapOption_eq, ← mapOption_eq, ← mapList_eq]
  rfl

@[simp] lemma map_attrStatement : (attrStatement i left ts first).map f colour =
    .attrStatement (f i) (left.map f colour) (ts.map (map f colour)) (first.map (map f colour)) := by
  rw [← mapOption_eq, ← mapList_eq]
  rfl

@[simp] lemma map_edgeStatement : (edgeStatement i left ts us first).map f colour =
    .edgeStatement (f i) (left.map f colour) (ts.map (map f colour)) (us.map (map f colour))
      (first.map (map f colour)) := by
  rw [← mapOption_eq, ← mapList_eq, ← mapList_eq]
  rfl

@[simp] lemma map_nodeStatement : (nodeStatement i left ts first).map f colour =
    .nodeStatement (f i) (left.map f colour) (ts.map (map f colour)) (first.map (map f colour)) := by
  rw [← mapOption_eq, ← mapList_eq]
  rfl

@[simp] lemma map_equation : (equation i left first second).map f colour =
    .equation (f i) (left.map f colour) (first.map (map f colour)) (second.map (map f colour)) := by
  rw [← mapOption_eq, ← mapOption_eq]
  rfl

@[simp] lemma map_subgraphStatement : (subgraphStatement i left first).map f colour =
    .subgraphStatement (f i) (left.map f colour) (first.map (map f colour)) := by
  rw [← mapOption_eq]
  rfl

@[simp] lemma map_subgraph : (subgraph i first second ts).map f colour =
    .subgraph (f i) (first.map (map f colour)) (second.map (map f colour)) (ts.map (map f colour)) := by
  rw [← mapOption_eq, ← mapOption_eq, ← mapList_eq]
  rfl

@[simp] lemma map_nodeId : (nodeId i left first).map f colour =
    .nodeId (f i) (left.map f colour) (first.map (map f colour)) := by
  rw [← mapOption_eq]
  rfl

@[simp] lemma map_port : (port i first second).map f colour =
    .port (f i) (first.map (map f colour)) (second.map (map f colour)) := by
  rw [← mapOption_eq, ← mapOption_eq]
  rfl

@[simp] lemma map_edgeRhs : (edgeRhs i left first).map f colour =
    .edgeRhs (f i) (left.map f colour) (first.map (map f colour)) := by
  rw [← mapOption_eq]
  rfl

@[simp] lemma map_attrList : (attrList i ts).map f colour = .attrList (f i) (ts.map (map f colour)) := by
  rw [← mapList_eq]
  rfl

@[simp] lemma map_attr : (attr i left first second).map f colour =
    .attr (f i) (left.map f colour) (first.map (map f colour)) (second.map (map f colour)) := by
  rw [← mapOption_eq, ← mapOption_eq]
  rfl

end Equations

@[simp] lemma info_map (t : Tree) : (t.map f colour).info = f t.info := by
  cases t <;> rfl

@[simp] lemma children_map (t : Tree) : (t.map f colour).children = t.children.map (map f colour) := by
  cases t <;> simp [children_eq, Option.toList_map]

@[simp] lemma operation?_map (t : Tree) : (t.map f colour).operation? = t.operation?.map (map f colour) := by
  cases t <;> rfl

lemma map_map {g h : Info → Info} {shade tint : Info → Kind → Kind} {t : Tree} (hinfo : ∀ i, g (f i) = h i)
    (hkind : ∀ i k, .token i k ∈ (t.preorder fun _ => true) → shade (f i) (colour i k) = tint i k) :
    (t.map f colour).map g shade = t.map h tint := by
  induction t using induction_on_children with
  | h t ih =>
    have hkids : ∀ c ∈ t.children, (c.map f colour).map g shade = c.map h tint := fun c hc =>
      ih c hc fun i k hs => hkind i k (mem_preorder_of_mem_children hc hs)
    have hoption (o : Option Tree) (ho : ∀ c, o = some c → (c.map f colour).map g shade = c.map h tint) :
        o.map (map g shade ∘ map f colour) = o.map (map h tint) := Option.map_congr fun c hc => ho c hc
    rw [children_eq] at hkids
    cases t with
    | token i k => rw [map_token, map_token, map_token, hinfo, hkind i k (mem_preorder_self _)]
    | _ =>
      clear ih hkind
      simp_all

def Info.outline (i : Info) : Info := ⟨i.number, .caret 0, false⟩

lemma Info.outline_congr {i j : Info} (h : i.number = j.number) : i.outline = j.outline := by
  rw [outline, outline, h]

/-- The nodes of a tree with their numbers, kinds, slots and texts, without their places and marks. -/
abbrev outline : Tree → Tree := map Info.outline fun _ k => k

end DotMend.Tree
