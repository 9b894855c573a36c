import DotMend.Proofs.Command.Candidate
import DotMend.Proofs.Command.Routes
import DotMend.Proofs.Source.Nodes
import DotMend.Proofs.Text.InPlace
import DotMend.Proofs.Token.Guarded

/-! Carrying out commands by offsets into one text, with a tree that may be read from another one. Every step that
needs its offsets to be in place is guarded: it fails on a byte outside of the text, on a part or a node that is
not there and on a span that ends before it starts. No command makes it fail. -/

namespace DotMend

abbrev Attempt := ExceptT Stale Option

namespace Attempt

variable {α β : Type}

def demand (a : Option α) : Attempt α := .mk (a.map .ok)

def settled (e : Except Stale α) : Attempt α := .mk (some e)

lemma demand_some (a : α) : demand (some a) = settled (.ok a) := rfl

lemma pure_eq (a : α) : (pure a : Attempt α) = settled (.ok a) := rfl

lemma throw_eq (s : Stale) : (throw s : Attempt α) = settled (.error s) := rfl

lemma ok_bind (a : α) (f : α → Attempt β) : settled (.ok a) >>= f = f a := rfl

lemma settled_bind {e : Except Stale α} {f : α → Except Stale β} {g : α → Attempt β}
    (h : ∀ a, e = .ok a → g a = settled (f a)) : settled e >>= g = settled (e >>= f) := by
  cases e with
  | error s => rfl
  | ok a => exact h a rfl

end Attempt

open Attempt

namespace Consolidation

section Bytes

variable (bytes : List UInt8)

def blanksEnd? (stop : Nat) : Option Nat :=
  if stop < bytes.length then do
    if isBlank (← bytes[stop]?) then blanksEnd? (stop + 1) else return stop
  else return stop
termination_by bytes.length - stop

def blanksStart? : Nat → Option Nat
  | 0 => some 0
  | start + 1 => do if isBlank (← bytes[start]?) then blanksStart? start else return start + 1

def startsLine? : Nat → Option Bool
  | 0 => some true
  | start + 1 => do return (← bytes[start]?) = 0x0a

def removal? (statement : Span) : Option Span := do
  let stop ← blanksEnd? bytes statement.stop
  let start ← blanksStart? bytes statement.start
  let lineStop := if bytes[stop]? = some 0x0d then stop + 1 else stop
  if (← startsLine? bytes start) && bytes[lineStop]? = some 0x0a then Span.forward? start (lineStop + 1)
  else Span.forward? statement.start stop

example : removal? [] ⟨1, 2⟩ = none := by decide +kernel

lemma blanksEnd?_eq (stop : Nat) :
    blanksEnd? bytes stop = some (stop + ((bytes.drop stop).takeWhile isBlank).length) := by
  induction h : bytes.length - stop generalizing stop with
  | zero =>
    rw [blanksEnd?, if_neg (by omega), List.drop_eq_nil_of_le (by omega)]
    rfl
  | succ n ih =>
    have hlt : stop < bytes.length := by omega
    rw [blanksEnd?, if_pos hlt, List.getElem?_eq_getElem hlt, List.drop_eq_getElem_cons hlt, List.takeWhile_cons]
    by_cases hb : isBlank bytes[stop]
    · simp [hb, ih (stop + 1) (by omega)]
      omega
    · simp [hb]

variable {bytes}

lemma reverse_take_succ {start : Nat} (h : start < bytes.length) :
    (bytes.take (start + 1)).reverse = bytes[start] :: (bytes.take start).reverse := by
  rw [← List.take_append_getElem h, List.reverse_append]
  rfl

lemma blanksStart?_eq {start : Nat} (h : start ≤ bytes.length) :
    blanksStart? bytes start = some (start - ((bytes.take start).reverse.takeWhile isBlank).length) := by
  induction start with
  | zero => rfl
  | succ start ih =>
    rw [blanksStart?, List.getElem?_eq_getElem h, reverse_take_succ h, List.takeWhile_cons]
    by_cases hb : isBlank bytes[start]
    · simp [hb, ih (by omega)]
    · simp [hb]

lemma startsLine?_eq {start : Nat} (h : start ≤ bytes.length) :
    startsLine? bytes start = some ((bytes.take start).reverse.head?.all (· = 0x0a)) := by
  cases start with
  | zero => rfl
  | succ start =>
    rw [startsLine?, List.getElem?_eq_getElem h, reverse_take_succ h]
    rfl

lemma lineBreak?_eq (b : List UInt8) :
    lineBreak? b =
      if b[0]? = some 0x0d then if b[1]? = some 0x0a then some 2 else none
      else if b[0]? = some 0x0a then some 1 else none := by
  unfold lineBreak?
  split
  · rfl
  · rfl
  · rename_i hcr hlf
    cases b with
    | nil => rfl
    | cons c b =>
      have hc : c ≠ 0x0a := fun h => hlf b (by rw [h])
      by_cases hcr' : c = 0x0d
      · cases b with
        | nil => simp [hcr']
        | cons d b =>
          have hd : d ≠ 0x0a := fun h => hcr b (by rw [hcr', h])
          simp [hcr', hd]
      · simp [hcr', hc]

lemma removal?_eq {s : Span} (hstart : s.start ≤ bytes.length) (hforward : s.start ≤ s.stop) :
    removal? bytes s = some (removal bytes s) := by
  rw [removal?, removal, blanksEnd?_eq, blanksStart?_eq hstart]
  generalize hlead : ((bytes.take s.start).reverse.takeWhile isBlank).length = lead
  generalize htrail : ((bytes.drop s.stop).takeWhile isBlank).length = trail
  have hbefore : (bytes.take s.start).reverse.drop lead = (bytes.take (s.start - lead)).reverse := by
    rw [List.drop_reverse, List.length_take_of_le hstart, List.take_take, Nat.min_eq_left (Nat.sub_le _ _)]
  have hbreak := lineBreak?_eq (bytes.drop (s.stop + trail))
  rw [List.getElem?_drop, List.getElem?_drop] at hbreak
  dsimp only
  rw [hbefore, List.drop_drop, hbreak]
  simp only [Option.bind_eq_bind, Option.bind_some, startsLine?_eq (show s.start - lead ≤ bytes.length by omega)]
  have hline (n : Nat) : Span.forward? (s.start - lead) (s.stop + trail + n) =
      some ⟨s.start - lead, s.stop + trail + n⟩ :=
    if_pos (by omega)
  have hblanks : Span.forward? s.start (s.stop + trail) = some ⟨s.start, s.stop + trail⟩ := if_pos (by omega)
  cases (bytes.take (s.start - lead)).reverse.head?.all (· = 0x0a) with
  | false => simp [hblanks]
  | true =>
    by_cases hcr : bytes[s.stop + trail]? = some 0x0d
    · by_cases hlf : bytes[s.stop + trail + 1]? = some 0x0a
      · simp [hcr, hlf, show s.stop + trail + 1 + 1 = s.stop + trail + 2 from rfl, hline]
      · simp [hcr, hlf, hblanks]
    · by_cases hlf : bytes[s.stop + trail]? = some 0x0a
      · simp [hlf, hline]
      · simp [hcr, hlf, hblanks]

end Bytes

end Consolidation

namespace Candidate

def isIn? (graph : Tree) (k : Candidate) : Option Bool :=
  match graph.find? .edgeStatement k.statement with
  | some (.edgeStatement _ (.nodeId _ name place) rhs _ _) =>
    if place.isSome ∨ name.span ≠ k.source ∨ rhs.length ≠ 1 then some false
    else rhs[0]?.map fun
      | .edgeRhs _ _ (some target) => target.span = k.target
      | _ => false
  | _ => some false

def verify? (document : Text) (graph : Option Tree) (k : Candidate) : Attempt Text := do
  let some graph := graph | throw .noGraph
  if ← demand (k.isIn? graph) then settled ((document.slice? k.source).elim (.error (.noEdge k)) .ok)
  else throw (.noEdge k)

lemma isIn?_eq (graph : Tree) (k : Candidate) : k.isIn? graph = some (k.isIn graph) := by
  unfold isIn? isIn
  rcases graph.find? .edgeStatement k.statement with _ | e
  · rfl
  cases e with
  | edgeStatement i first rhs attributes terminator =>
    cases first with
    | nodeId j name place =>
      rcases rhs with _ | ⟨r, _ | ⟨r', rhs⟩⟩
      · simp
      · cases r with
        | edgeRhs l operation target => cases place <;> cases target <;> by_cases name.span = k.source <;> simp_all
        | _ => by_cases h : place.isSome ∨ name.span ≠ k.source <;> simp [h]
      · simp
    | _ => rfl
  | _ => rfl

lemma verify?_eq (document : Text) (source : Source) (k : Candidate) :
    k.verify? document source.graph = settled (k.verify document source) := by
  unfold verify? verify
  cases source.graph with
  | none => rfl
  | some graph =>
    simp only [isIn?_eq, demand_some, ok_bind, throw_eq]
    exact (apply_ite settled _ _ _).symm

end Candidate

namespace Consolidation

section

variable (document : Text) (graph : Option Tree)

def target? (literal : Bool) (seed : Option Text) (k : Candidate) : Attempt (Text × Text) := do
  let text ← k.verify? document graph
  let seed := seed.getD text
  if literal ∧ text ≠ seed then throw (.sourceChanged (String.ofList text) k.source (String.ofList seed))
  let some target := document.slice? k.target | throw (.targetOutside k.target)
  return (seed, target)

def targets? (literal : Bool) : Option Text → List Candidate → Attempt (List Text)
  | _, [] => return []
  | seed, k :: ks => do
    let (text, target) ← target? document graph literal seed k
    return target :: (← targets? literal (some text) ks)

def edits? (c : Consolidation) : Attempt (List Edit) := do
  let seed :: rest := c.candidates | throw .noCandidates
  if rest.isEmpty then throw .nothingToJoin
  let targets ← targets? document graph c.literal none c.candidates
  let removals ← demand (rest.mapM fun k => removal? document.utf8 k.statement)
  return ⟨seed.target, group targets, "Group edge targets"⟩ ::
    removals.map (.delete · "Remove consolidated edge statement")

end

variable (document : Text) (source : Source) (literal : Bool)

lemma target?_none (k : Candidate) :
    target? document source.graph literal none k = settled (target document source none k) := by
  rw [target?, Candidate.verify?_eq, target]
  refine settled_bind fun text _ => ?_
  cases document.slice? k.target <;> simp [throw_eq, pure_eq] <;> rfl

lemma target?_some (s : Text) (k : Candidate) :
    target? document source.graph literal (some s) k =
      settled ((target document source (if literal then some s else none) k).map fun p => (s, p.2)) := by
  rw [target?, Candidate.verify?_eq, target]
  cases k.verify document source with
  | error e => rfl
  | ok text =>
    rw [ok_bind]
    dsimp only [bind, Except.bind]
    cases literal with
    | false => cases document.slice? k.target <;> rfl
    | true =>
      by_cases h : text = s
      · cases document.slice? k.target <;> simp [h] <;> rfl
      · simp [h]
        rfl

lemma targets?_some (s : Text) (ks : List Candidate) :
    targets? document source.graph literal (some s) ks =
      settled ((ks.mapM (target document source (if literal then some s else none))).map (List.map Prod.snd)) := by
  induction ks with
  | nil => rfl
  | cons k ks ih =>
    rw [targets?, target?_some, List.mapM_cons]
    cases target document source (if literal then some s else none) k with
    | error e => rfl
    | ok p =>
      rw [Except.map, ok_bind]
      dsimp only
      rw [ih]
      cases ks.mapM (target document source (if literal then some s else none)) <;> rfl

lemma targets?_eq (c : Consolidation) (seed : Candidate) (rest : List Candidate) :
    targets? document source.graph c.literal none (seed :: rest) =
      settled (c.targets document source seed rest) := by
  rw [targets?, target?_none, targets]
  refine settled_bind fun p _ => ?_
  dsimp only
  rw [targets?_some]
  cases rest.mapM (target document source (if c.literal then some p.1 else none)) <;> rfl

end Consolidation

lemma Candidate.span_of_verify {document parsed x : Text} {k : Candidate}
    (h : k.verify document (Source.ofText parsed) = .ok x) :
    k.statement.start ≤ document.bytes ∧ k.statement.start ≤ k.statement.stop := by
  unfold verify at h
  split at h
  · cases h
  · rename_i graph hg
    obtain ⟨ps, used, hreading⟩ := Source.exists_graphReading hg
    split at h
    · rename_i hin
      obtain ⟨e, hmem, rfl⟩ := (k.isIn_iff hreading).mp hin
      have hplaced := hreading.wellPlaced.of_mem_preorder hmem
      have hname := hplaced.inside e.name_mem
      have hforward := hplaced.here.nonempty
      cases hslice : document.slice? e.candidate.source with
      | none =>
        rw [hslice] at h
        cases h
      | some y =>
        obtain ⟨a, b, rfl, hspan⟩ := Text.slice?_eq_some_iff.mp hslice
        have hstart : e.name.span.start = a.bytes := congrArg Span.start hspan
        have hle : e.name.span.start ≤ Text.bytes (a ++ y ++ b) := by
          rw [hstart, Text.bytes_append, Text.bytes_append]
          omega
        exact ⟨hname.1.trans hle, hforward.le⟩
    · cases h

namespace Consolidation

variable {document parsed : Text}

lemma mapM_removal? {ks : List Candidate}
    (h : ∀ k ∈ ks, k.statement.start ≤ document.bytes ∧ k.statement.start ≤ k.statement.stop) :
    ks.mapM (fun k => removal? document.utf8 k.statement) =
      some (ks.map fun k => removal document.utf8 k.statement) := by
  induction ks with
  | nil => rfl
  | cons k ks ih =>
    obtain ⟨hk, hks⟩ := List.forall_mem_cons.mp h
    rw [List.mapM_cons, removal?_eq (by simpa using hk.1) hk.2, ih hks]
    rfl

lemma exists_verify_of_targets {source : Source} {c : Consolidation} {seed : Candidate} {rest : List Candidate}
    {texts : List Text} (h : c.targets document source seed rest = .ok texts) :
    ∀ k ∈ rest, ∃ x, k.verify document source = .ok x := by
  obtain ⟨x, y, others, -, hothers, -⟩ := targets_eq_ok_iff.mp h
  intro k hk
  obtain ⟨p, -, hp⟩ := (exists_of_mapM_eq_ok hothers).1 k hk
  exact ⟨p.1, (target_eq_ok_iff.mp hp).1⟩

lemma edits?_eq (c : Consolidation) :
    c.edits? document (Source.ofText parsed).graph = settled (c.edits document (Source.ofText parsed)) := by
  obtain ⟨literal, candidates⟩ := c
  rcases candidates with _ | ⟨seed, _ | ⟨k, rest⟩⟩
  · rfl
  · rfl
  · rw [edits?, Consolidation.edits]
    dsimp only
    rw [if_neg (by simp), targets?_eq document _ ⟨literal, seed :: k :: rest⟩]
    refine settled_bind fun texts htexts => ?_
    rw [mapM_removal? fun r hr => ?_]
    · simp [demand_some, ok_bind, pure_eq]
      rfl
    · obtain ⟨x, hx⟩ := exists_verify_of_targets htexts r hr
      exact r.span_of_verify hx

end Consolidation

def Source.graph? (source : Source) : Option (Option Tree) :=
  if ∀ g ∈ source.graph, (g.preorder fun _ => true).all fun n => (source.parse.node? n.number).isSome then
    some source.graph
  else none

lemma Source.graph?_eq (t : Text) : (ofText t).graph? = some (ofText t).graph := by
  refine if_pos fun g hg => List.all_eq_true.mpr fun n hn => ?_
  obtain ⟨ps, rest, m, cs, h⟩ := exists_graphWay hg
  have hwalked := (Parse.rooted_of_steps hg h.loose h.steps h.ordered).walked
  have hlt := List.mem_range.mp (hwalked.mem_iff.mp (List.mem_map_of_mem hn))
  simpa [Parse.node?] using hlt

namespace Command

/-- A command step by step. The operators that it changes are only sliced, and a slice is checked as it is. -/
def edits? (document : Text) (source : Source) : Command → Attempt (List Edit)
  | changeOperator c => settled (c.edits document)
  | fixGraph f => do
    let _ ← demand source.graph?
    settled (f.edits document source)
  | consolidate c => do
    let graph ← demand source.graph?
    c.edits? document graph

lemma edits?_eq (document parsed : Text) (c : Command) :
    c.edits? document (Source.ofText parsed) = settled (c.edits document (Source.ofText parsed)) := by
  cases c with
  | changeOperator c => rfl
  | fixGraph f =>
    rw [edits?, Source.graph?_eq]
    rfl
  | consolidate c =>
    rw [edits?, Source.graph?_eq, demand_some, ok_bind]
    exact c.edits?_eq

/-- A command never fails, and neither do its edits, whatever text they are applied to. The text may be another one
than the command's tree was read from, and the command may hold any offsets. -/
theorem execution_settled (document parsed : Text) (c : Command) :
    c.edits? document (Source.ofText parsed) = settled (c.edits document (Source.ofText parsed)) ∧
    execute c.id document (Source.ofText parsed) c.arguments =
      (c.edits document (Source.ofText parsed)).mapError .stale ∧
    ∀ edits, Edit.applyInPlace document edits = some (Edit.applyAll document edits) :=
  ⟨edits?_eq document parsed c, execute_eq_answer document _ c, Edit.applyInPlace_eq document⟩

end Command

end DotMend
