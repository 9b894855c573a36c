import DotMend.Proofs.Parse.Advance
import DotMend.Proofs.Parse.Seating
import Mathlib.Logic.Relation

/-! How far readers come. A reader hands what is left of the token list on to the readers that it calls; no call
gives tokens back, and all calls that could go round in a circle take some. -/

namespace DotMend

def Relocation.unmoved : Relocation := ⟨id, monotone_id, fun _ k => k⟩

namespace Parse

variable {eof : Span}

lemma tied_unmoved {rest ts : List Token} (h : rest <:+ ts) : Tied .unmoved rest rest ts ts := by
  have hmap (us : List Token) : us.map Relocation.unmoved.token = us := List.map_id us
  obtain ⟨used, rfl⟩ := h
  refine ⟨by cases rest <;> rfl, fun _ _ => .inl rfl, used, rfl, by rw [hmap], fun _ _ => .inl rfl⟩

lemma Parsed.suffix {ts : List Token} {n : Nat} {r r' : Parsed n α} {f : α → α} (hle : r.rest.length ≤ ts.length)
    (h : ∀ rest, Tied .unmoved rest rest ts ts → rest.length ≤ r.rest.length → r.Moved .unmoved rest rest f r') :
    r.rest <:+ ts := by
  have hdrop : ts.drop (ts.length - r.rest.length) <:+ ts := List.drop_suffix _ _
  have hlength : (ts.drop (ts.length - r.rest.length)).length = r.rest.length := by
    rw [List.length_drop]
    omega
  obtain ⟨used, hused, -⟩ := (h _ (tied_unmoved hdrop) hlength.le).tied.exists_used
  have hnil : used = [] := by
    have := congrArg List.length hused
    rw [List.length_append, hlength] at this
    exact List.eq_nil_of_length_eq_zero (by omega)
  rw [hused, hnil, List.nil_append]
  exact hdrop

lemma optional_suffix {wanted : Kind → Bool} (hw : wanted .directedOp = wanted .undirectedOp) (ts : List Token)
    (m : Trail) : (optional wanted ts m).rest <:+ ts :=
  Parsed.suffix (Parsed.fits _) fun _ h hl => optional_moved hw h rfl hl

lemma optionalIdentifier_suffix (eof : Span) (ts : List Token) (m : Trail) :
    (optionalIdentifier eof ts m).rest <:+ ts :=
  Parsed.suffix (Parsed.fits _) fun _ h hl => optionalIdentifier_moved eof h rfl hl

lemma nodeId_suffix {t : Token} {ts : List Token} {m : Trail} (ht : t.kind.isIdentifier) :
    (nodeId eof t ts m).rest <:+ ts :=
  Parsed.suffix (Parsed.fits _) fun _ h hl => nodeId_moved h rfl (.inl rfl) ht hl

inductive Call where
  | bracedBody (ts : List Token) (m : Trail)
  | openedBody (ts : List Token) (m : Trail)
  | statements (ts : List Token) (m : Trail)
  | statement (t : Token) (ts : List Token) (m : Trail)
  | namedStatement (t : Token) (ts : List Token) (m : Trail)
  | edgeStatement (start : Nat) (source : Tree) (ts : List Token) (m : Trail)
  | chain (ts : List Token) (m : Trail)
  | target (ts : List Token) (m : Trail)
  | subgraph (t : Token) (ts : List Token) (m : Trail)
  | attrStatement (t : Token) (ts : List Token) (m : Trail)
  | nodeStatement (start : Nat) (node : Tree) (ts : List Token) (m : Trail)
  | attrLists (ts : List Token) (m : Trail)
  | attrList (t : Token) (ts : List Token) (m : Trail)
  | attrs (ts : List Token) (m : Trail)
  | attr (t : Token) (ts : List Token) (m : Trail)

namespace Call

def first? : Call → Option Token
  | statement t .. | namedStatement t .. | subgraph t .. | attrStatement t .. | attrList t .. | attr t .. => some t
  | bracedBody .. | openedBody .. | statements .. | edgeStatement .. | chain .. | target .. | nodeStatement ..
  | attrLists .. | attrs .. => none

def behind : Call → List Token
  | bracedBody ts _ | openedBody ts _ | statements ts _ | statement _ ts _ | namedStatement _ ts _
  | edgeStatement _ _ ts _ | chain ts _ | target ts _ | subgraph _ ts _ | attrStatement _ ts _
  | nodeStatement _ _ ts _ | attrLists ts _ | attrList _ ts _ | attrs ts _ | attr _ ts _ => ts

def cursor (c : Call) : List Token := c.first?.toList ++ c.behind

def rest (eof : Span) : Call → List Token
  | bracedBody ts m => (Parse.bracedBody eof ts m).rest
  | openedBody ts m => (Parse.openedBody eof ts m).rest
  | statements ts m => (Parse.statements eof ts m).rest
  | statement t ts m => (Parse.statement eof t ts m).rest
  | namedStatement t ts m => (Parse.namedStatement eof t ts m).rest
  | edgeStatement start source ts m => (Parse.edgeStatement eof start source ts m).rest
  | chain ts m => (Parse.chain eof ts m).rest
  | target ts m => (Parse.target eof ts m).rest
  | subgraph t ts m => (Parse.subgraph eof t ts m).rest
  | attrStatement t ts m => (Parse.attrStatement eof t ts m).rest
  | nodeStatement start node ts m => (Parse.nodeStatement eof start node ts m).rest
  | attrLists ts m => (Parse.attrLists eof ts m).rest
  | attrList t ts m => (Parse.attrList eof t ts m).rest
  | attrs ts m => (Parse.attrs eof ts m).rest
  | attr t ts m => (Parse.attr eof t ts m).rest

def Sound : Call → Prop
  | statement t .. => startsStatement t.kind
  | namedStatement t .. | attr t .. => t.kind.isIdentifier
  | _ => True

theorem rest_suffix {c : Call} (h : c.Sound) : c.rest eof <:+ c.behind := by
  cases c with
  | bracedBody ts m => exact Parsed.suffix (Parsed.fits _) fun _ h hl => bracedBody_moved ts ts m h rfl hl
  | openedBody ts m => exact Parsed.suffix (Parsed.fits _) fun _ h hl => openedBody_moved ts ts m h rfl hl
  | statements ts m => exact Parsed.suffix (Parsed.fits _) fun _ h hl => statements_moved ts ts m h rfl hl
  | statement t ts m =>
    exact Parsed.suffix (Parsed.fits _) fun _ ht hl => statement_moved t ts ts m ht rfl (.inl rfl) h hl
  | namedStatement t ts m =>
    exact Parsed.suffix (Parsed.fits _) fun _ ht hl => namedStatement_moved t ts ts m ht rfl (.inl rfl) h hl
  | edgeStatement start source ts m =>
    let t : Token := ⟨.unknown, .caret start, "", false⟩
    exact Parsed.suffix (Parsed.fits _) fun _ h hl =>
      edgeStatement_moved (t := t) rfl (fun hl => chain_moved ts ts m h rfl hl) hl
  | chain ts m => exact Parsed.suffix (Parsed.fits _) fun _ h hl => chain_moved ts ts m h rfl hl
  | target ts m => exact Parsed.suffix (Parsed.fits _) fun _ h hl => target_moved ts ts m h rfl hl
  | subgraph t ts m =>
    exact Parsed.suffix (Parsed.fits _) fun _ h hl => subgraph_moved t ts ts m h rfl (.inl rfl) hl
  | attrStatement t ts m => exact Parsed.suffix (Parsed.fits _) fun _ h hl => attrStatement_moved h rfl hl
  | nodeStatement start node ts m =>
    let t : Token := ⟨.unknown, .caret start, "", false⟩
    exact Parsed.suffix (Parsed.fits _) fun _ h hl => nodeStatement_moved (t := t) h rfl rfl hl
  | attrLists ts m => exact Parsed.suffix (Parsed.fits _) fun _ h hl => attrLists_moved h rfl hl
  | attrList t ts m => exact Parsed.suffix (Parsed.fits _) fun _ h hl => attrList_moved h rfl hl
  | attrs ts m => exact Parsed.suffix (Parsed.fits _) fun _ h hl => attrs_moved h rfl hl
  | attr t ts m => exact Parsed.suffix (Parsed.fits _) fun _ ht hl => attr_moved ht rfl (.inl rfl) h hl

/-- Readers with a higher rank may call those with a lower one without taking a token. -/
def rank : Call → Nat
  | bracedBody .. | chain .. | namedStatement .. | subgraph .. | attrStatement .. | attrList .. | attr .. => 0
  | statement .. | target .. | attrLists .. | attrs .. => 1
  | statements .. | edgeStatement .. | nodeStatement .. => 2
  | openedBody .. => 3

lemma rank_le (c : Call) : c.rank ≤ 3 := by
  cases c <;> simp [rank]

def weight (c : Call) : Nat := 4 * c.cursor.length + c.rank

end Call

/-- The first call makes the second one, if not through another. -/
inductive Calls (eof : Span) : Call → Call → Prop
  | brace {t ts m} : t.kind = .openBrace → Calls eof (.bracedBody (t :: ts) m) (.openedBody ts (m.pass t))
  | body {ts m} : Calls eof (.openedBody ts m) (.statements ts m)
  | first {t ts m} : startsStatement t.kind → Calls eof (.statements (t :: ts) m) (.statement t ts m)
  | next {t ts m} : startsStatement t.kind →
      Calls eof (.statements (t :: ts) m) (.statements (statement eof t ts m).rest (statement eof t ts m).trail)
  | stray {t ts m} : t.kind ≠ .closeBrace → startsStatement t.kind = false →
      Calls eof (.statements (t :: ts) m) (.statements ts (m.pass t))
  | subject {t ts m} : isSubject t.kind → Calls eof (.statement t ts m) (.attrStatement t ts m)
  | block {t ts m} : isSubject t.kind = false → opensBody t.kind → Calls eof (.statement t ts m) (.subgraph t ts m)
  | blockEdges {t ts m} : isSubject t.kind = false → opensBody t.kind →
      nextIs Kind.isEdgeOp (subgraph eof t ts m).rest →
      Calls eof (.statement t ts m)
        (.edgeStatement t.span.start (subgraph eof t ts m).value (subgraph eof t ts m).rest
          (subgraph eof t ts m).trail)
  | named {t ts m} : isSubject t.kind = false → opensBody t.kind = false → nextIs (· = .equals) ts = false →
      Calls eof (.statement t ts m) (.namedStatement t ts m)
  | nodeEdges {t ts m} : nextIs Kind.isEdgeOp (nodeId eof t ts m).rest → Calls eof (.namedStatement t ts m)
      (.edgeStatement t.span.start (nodeId eof t ts m).value (nodeId eof t ts m).rest (nodeId eof t ts m).trail)
  | node {t ts m} : nextIs Kind.isEdgeOp (nodeId eof t ts m).rest = false → Calls eof (.namedStatement t ts m)
      (.nodeStatement t.span.start (nodeId eof t ts m).value (nodeId eof t ts m).rest (nodeId eof t ts m).trail)
  | edges {start source ts m} : Calls eof (.edgeStatement start source ts m) (.chain ts m)
  | edgeLists {start source ts m} : Calls eof (.edgeStatement start source ts m)
      (.attrLists (chain eof ts m).rest (chain eof ts m).trail)
  | tip {t ts m} : t.kind.isEdgeOp → Calls eof (.chain (t :: ts) m) (.target ts (m.pass t).grown)
  | link {t ts m} : t.kind.isEdgeOp → Calls eof (.chain (t :: ts) m)
      (.chain (target eof ts (m.pass t).grown).rest (target eof ts (m.pass t).grown).trail.grown)
  | tipBlock {t ts m} : opensBody t.kind → Calls eof (.target (t :: ts) m) (.subgraph t ts m)
  | keyword {t ts m} : t.kind = .subgraphKeyword → Calls eof (.subgraph t ts m)
      (.bracedBody (optionalIdentifier eof ts (m.pass t).grown).rest
        (optionalIdentifier eof ts (m.pass t).grown).trail)
  | nameless {t ts m} : t.kind ≠ .subgraphKeyword → Calls eof (.subgraph t ts m) (.openedBody ts (m.pass t))
  | subjectLists {t ts m} : Calls eof (.attrStatement t ts m) (.attrLists ts (m.pass t).grown)
  | nodeLists {start node ts m} : Calls eof (.nodeStatement start node ts m) (.attrLists ts m)
  | firstList {t ts m} : t.kind = .openBracket → Calls eof (.attrLists (t :: ts) m) (.attrList t ts m)
  | nextLists {t ts m} : t.kind = .openBracket →
      Calls eof (.attrLists (t :: ts) m) (.attrLists (attrList eof t ts m).rest (attrList eof t ts m).trail)
  | items {t ts m} : Calls eof (.attrList t ts m) (.attrs ts (m.pass t))
  | firstAttr {t ts m} : t.kind.isIdentifier → Calls eof (.attrs (t :: ts) m) (.attr t ts m)
  | nextAttrs {t ts m} : t.kind.isIdentifier →
      Calls eof (.attrs (t :: ts) m) (.attrs (attr eof t ts m).rest (attr eof t ts m).trail)
  | strayAttr {t ts m} : t.kind ≠ .closeBracket → t.kind ≠ .closeBrace → t.kind.isIdentifier = false →
      Calls eof (.attrs (t :: ts) m) (.attrs ts (m.pass t))

section Results

variable {t : Token} {ts : List Token} {m : Trail}

lemma kind_ne {p : Kind → Bool} {k : Kind} (ht : p t.kind) (hk : p k = false) : t.kind ≠ k := by
  intro h
  rw [h, hk] at ht
  cases ht

lemma rest_statements (ht : startsStatement t.kind) : (statements eof (t :: ts) m).rest =
    (statements eof (statement eof t ts m).rest (statement eof t ts m).trail).rest := by
  rw [statements, if_neg (kind_ne ht rfl), if_neg (kind_ne ht rfl), if_pos ht]

lemma rest_statements_stray (hb : t.kind ≠ .closeBrace) (ht : startsStatement t.kind = false) :
    (statements eof (t :: ts) m).rest = (statements eof ts (m.pass t)).rest := by
  rw [statements, if_neg hb]
  split <;> simp [ht]

lemma rest_block (hs : isSubject t.kind = false) (ht : opensBody t.kind) : (statement eof t ts m).rest =
    (if nextIs Kind.isEdgeOp (subgraph eof t ts m).rest then
      edgeStatement eof t.span.start (subgraph eof t ts m).value (subgraph eof t ts m).rest
      (subgraph eof t ts m).trail
    else subgraphStatement t.span.start (subgraph eof t ts m).value (subgraph eof t ts m).rest
      (subgraph eof t ts m).trail).rest := by
  rw [statement.eq_def, if_neg (by simp [hs]), if_pos ht]

lemma rest_named (hs : isSubject t.kind = false) (ht : opensBody t.kind = false)
    (hn : nextIs (· = .equals) ts = false) : (statement eof t ts m).rest = (namedStatement eof t ts m).rest := by
  rw [statement.eq_def, if_neg (by simp [hs]), if_neg (by simp [ht])]
  cases ts with
  | nil => rfl
  | cons e ts =>
    have he : e.kind ≠ .equals := by simpa [nextIs] using hn
    simp only [if_neg he]

lemma rest_attrs (ht : t.kind.isIdentifier) :
    (attrs eof (t :: ts) m).rest = (attrs eof (attr eof t ts m).rest (attr eof t ts m).trail).rest := by
  rw [attrs, if_neg (kind_ne ht rfl), if_neg (kind_ne ht rfl), if_pos ht]

lemma rest_attrs_stray (hb : t.kind ≠ .closeBracket) (hb' : t.kind ≠ .closeBrace)
    (ht : t.kind.isIdentifier = false) : (attrs eof (t :: ts) m).rest = (attrs eof ts (m.pass t)).rest := by
  rw [attrs, if_neg hb, if_neg hb', if_neg (by simp [ht])]

lemma openedBody_suffix : (openedBody eof ts m).rest <:+ (statements eof ts m).rest := by
  rw [openedBody]
  split
  · rename_i c behind hrest
    split
    · exact ⟨[c], hrest.symm⟩
    · exact List.suffix_rfl
  · exact List.suffix_rfl

end Results

namespace Calls

variable {c d : Call}

lemma sound (h : Calls eof c d) (hc : c.Sound) : d.Sound := by
  cases h with
  | first ht | firstAttr ht => exact ht
  | named hsubject hbody => simpa [Call.Sound, startsStatement, hsubject, hbody] using hc
  | _ => trivial

lemma suffix (h : Calls eof c d) (hc : c.Sound) : d.cursor <:+ c.cursor := by
  cases h with
  | brace | stray | strayAttr | subjectLists | items | tip | nameless => exact List.suffix_cons _ _
  | body | first | subject | block | named | edges | tipBlock | nodeLists | firstList | firstAttr =>
    exact List.suffix_rfl
  | next ht => exact (Call.rest_suffix (c := .statement ..) ht).trans (List.suffix_cons _ _)
  | blockEdges => exact (Call.rest_suffix (c := .subgraph ..) trivial).trans (List.suffix_cons _ _)
  | nodeEdges | node => exact (nodeId_suffix hc).trans (List.suffix_cons _ _)
  | edgeLists => exact Call.rest_suffix (c := .chain ..) trivial
  | link => exact (Call.rest_suffix (c := .target ..) trivial).trans (List.suffix_cons _ _)
  | keyword => exact (optionalIdentifier_suffix eof _ _).trans (List.suffix_cons _ _)
  | nextLists => exact (Call.rest_suffix (c := .attrList ..) trivial).trans (List.suffix_cons _ _)
  | nextAttrs ht => exact (Call.rest_suffix (c := .attr ..) ht).trans (List.suffix_cons _ _)

lemma rest_suffix (h : Calls eof c d) (hc : c.Sound) : c.rest eof <:+ d.rest eof := by
  -- Most calls return what their last call returns.
  have hlast (heq : c.rest eof = d.rest eof) : c.rest eof <:+ d.rest eof := heq ▸ List.suffix_rfl
  cases h with
  | brace ht => exact hlast (by simp [Call.rest, bracedBody, ht])
  | body => exact openedBody_suffix
  | first ht =>
    rw [Call.rest, rest_statements ht]
    exact Call.rest_suffix (c := .statements ..) trivial
  | next ht => exact hlast (rest_statements ht)
  | stray hb ht => exact hlast (rest_statements_stray hb ht)
  | subject ht => exact hlast (by rw [Call.rest, statement.eq_def, if_pos ht, Call.rest])
  | block hs ht =>
    rw [Call.rest, rest_block hs ht]
    split
    · exact Call.rest_suffix (c := .edgeStatement ..) trivial
    · exact optional_suffix rfl _ _
  | blockEdges hs ht hn => exact hlast (by rw [Call.rest, rest_block hs ht, if_pos hn, Call.rest])
  | named hs ht hn => exact hlast (rest_named hs ht hn)
  | nodeEdges hn | node hn => exact hlast (by simp [Call.rest, namedStatement, hn])
  | edges =>
    rw [Call.rest, edgeStatement]
    exact (optional_suffix rfl _ _).trans (Call.rest_suffix (c := .attrLists ..) trivial)
  | edgeLists =>
    rw [Call.rest, edgeStatement]
    exact optional_suffix rfl _ _
  | tip ht =>
    rw [Call.rest, chain, if_pos ht]
    exact Call.rest_suffix (c := .chain ..) trivial
  | link ht => exact hlast (by simp [Call.rest, chain, ht])
  | tipBlock ht => exact hlast (by simp [Call.rest, target, ht])
  | keyword ht | nameless ht => exact hlast (by simp [Call.rest, subgraph, ht])
  | subjectLists | nodeLists => exact optional_suffix rfl _ _
  | firstList ht =>
    rw [Call.rest, attrLists, if_pos ht]
    exact Call.rest_suffix (c := .attrLists ..) trivial
  | nextLists ht => exact hlast (by simp [Call.rest, attrLists, ht])
  | items => exact hlast rfl
  | firstAttr ht =>
    rw [Call.rest, rest_attrs ht]
    exact Call.rest_suffix (c := .attrs ..) trivial
  | nextAttrs ht => exact hlast (rest_attrs ht)
  | strayAttr hb hb' ht => exact hlast (rest_attrs_stray hb hb' ht)

lemma weight_lt (h : Calls eof c d) : d.weight < c.weight := by
  have htaken (hlt : d.cursor.length < c.cursor.length) : d.weight < c.weight := by
    have := d.rank_le
    rw [Call.weight, Call.weight]
    omega
  have hlower (hle : d.cursor.length ≤ c.cursor.length) (hlt : d.rank < c.rank) : d.weight < c.weight := by
    rw [Call.weight, Call.weight]
    omega
  cases h with
  | brace | stray | strayAttr | subjectLists | items | tip | nameless => exact htaken (Nat.lt_succ_self _)
  | body | first | subject | block | named | edges | tipBlock | nodeLists | firstList | firstAttr =>
    exact hlower le_rfl (by simp [Call.rank])
  | next | blockEdges | nodeEdges | node | link | keyword | nextLists | nextAttrs =>
    exact htaken (Nat.lt_succ_of_le (Parsed.fits _))
  | edgeLists => exact hlower (Parsed.fits _) (by simp [Call.rank])

theorem wellFounded (eof : Span) : WellFounded fun d c => Calls eof c d :=
  Subrelation.wf weight_lt (measure Call.weight).wf

lemma weight_lt_of_transGen (h : Relation.TransGen (Calls eof) c d) : d.weight < c.weight := by
  induction h with
  | single h => exact h.weight_lt
  | tail _ h ih => exact h.weight_lt.trans ih

theorem length_lt_of_transGen (h : Relation.TransGen (Calls eof) c d) (hr : c.rank ≤ d.rank) :
    d.cursor.length < c.cursor.length := by
  have hlt := weight_lt_of_transGen h
  rw [Call.weight, Call.weight] at hlt
  omega

lemma reached (h : Relation.ReflTransGen (Calls eof) c d) (hc : c.Sound) : d.Sound ∧ d.cursor <:+ c.cursor := by
  induction h with
  | refl => exact ⟨hc, List.suffix_rfl⟩
  | tail _ h ih => exact ⟨h.sound ih.1, (h.suffix ih.1).trans ih.2⟩

end Calls

theorem statements_stop (eof : Span) (ts : List Token) (m : Trail) :
    ∀ t ∈ (statements eof ts m).rest.head?, t.kind = .closeBrace := by
  cases ts with
  | nil => simp [statements, skip]
  | cons t ts =>
    rw [statements]
    split
    · rename_i hk
      simpa [skip] using hk
    split
    · exact statements_stop eof ts (m.pass t)
    split
    · exact statements_stop eof (statement eof t ts m).rest (statement eof t ts m).trail
    · exact statements_stop eof ts (m.pass t)
  termination_by ts.length
  decreasing_by
    · subst_vars; exact Nat.lt_succ_self _
    · subst_vars; exact Nat.lt_succ_of_le (statement eof t ts m).fits
    · subst_vars; exact Nat.lt_succ_self _

def opening? (eof : Span) (ts : List Token) : Option Call :=
  let strict := optional (· = .strictKeyword) ts .start
  match strict.rest with
  | k :: rest =>
    if isGraphKeyword k.kind then
      let name := optionalIdentifier eof rest (strict.trail.pass k).grown
      some (.bracedBody name.rest name.trail)
    else none
  | [] => none

lemma opening?_spec {ts : List Token} {c : Call} (h : c ∈ opening? eof ts) : c.Sound ∧ c.cursor <:+ ts := by
  have hstrict : (optional (· = .strictKeyword) ts .start).rest <:+ ts := optional_suffix rfl ts .start
  simp only [opening?] at h
  split at h
  · rename_i k rest hrest
    split at h
    · obtain rfl := Option.some.inj h
      rw [hrest] at hstrict
      refine ⟨trivial, (optionalIdentifier_suffix eof rest _).trans ((List.suffix_cons k rest).trans hstrict)⟩
    · cases h
  · cases h

lemma exists_opening {ts : List Token} {limit : Nat} {g : Tree} (h : (source eof limit ts).graph = some g) :
    ∃ c ∈ opening? eof ts, ∀ t ∈ (c.rest eof).head?,
      ∃ d ∈ (source eof limit ts).diagnostics, d.code = .trailingData ∧ d.span.start = t.span.start := by
  cases ts with
  | nil => simp [source] at h
  | cons s ts =>
    cases hrest : (optional (· = .strictKeyword) (s :: ts) .start).rest with
    | nil => simp [source, hrest] at h
    | cons k rest =>
      by_cases hk : isGraphKeyword k.kind = true
      · simp only [source, opening?, hrest, if_pos hk]
        refine ⟨_, rfl, fun t ht => ?_⟩
        obtain ⟨us, hus⟩ := List.head?_eq_some_iff.mp ht
        have htrailing := List.mem_singleton_self
          (Diagnostic.error ⟨t.span.start, limit⟩ .trailingData "Content after the end of the graph")
        change _ ∈ trailing limit (t :: us) at htrailing
        rw [← hus] at htrailing
        exact ⟨_, List.mem_append_right _ htrailing, rfl, rfl⟩
      · simp [source, hrest, hk] at h

def front (tokens : List Token) : List Token := (closed tokens).takeWhile (!endsFile ·)

def frontEnd (tokens : List Token) : Span := ((closed tokens).find? endsFile).elim (.caret 0) Token.span

def Made (tokens : List Token) (c : Call) : Prop :=
  ∃ r ∈ opening? (frontEnd tokens) (front tokens), Relation.ReflTransGen (Calls (frontEnd tokens)) r c

/-- Whatever the tokens are: no call gives tokens back or goes on behind the end of the file, and those that begin
on a token take it; so calls cannot go on without taking tokens. Statements end at a closing brace or the end of
the file. Behind a graph is the end of the file, or what is complained about. The readers by index move in the same
way. -/
theorem ofTokens_progress (tokens : List Token) :
    (∃ e behind, closed tokens = front tokens ++ e :: behind ∧ e.kind = .endOfFile) ∧
    (∀ t ∈ front tokens, t.kind ≠ .endOfFile) ∧
    (∀ c, Made tokens c → c.cursor <:+ front tokens ∧ c.rest (frontEnd tokens) <:+ c.cursor ∧
      (c.first?.isSome → (c.rest (frontEnd tokens)).length < c.cursor.length) ∧
      ∀ d, Calls (frontEnd tokens) c d →
        d.cursor <:+ c.cursor ∧ c.rest (frontEnd tokens) <:+ d.rest (frontEnd tokens)) ∧
    (∀ ts m, ∀ t ∈ (statements (frontEnd tokens) ts m).rest.head?, t.kind = .closeBrace) ∧
    (∀ g, (ofTokens tokens).graph = some g → ∃ c ∈ opening? (frontEnd tokens) (front tokens),
      ∀ t ∈ (c.rest (frontEnd tokens)).head?,
        ∃ d ∈ (ofTokens tokens).diagnostics, d.code = .trailingData ∧ d.span.start = t.span.start) ∧
    WellFounded (fun d c => Calls (frontEnd tokens) c d) ∧
    (∀ c d, Relation.TransGen (Calls (frontEnd tokens)) c d → c.rank ≤ d.rank →
      d.cursor.length < c.cursor.length) ∧
    Guarded.Advancing (closed tokens) (front tokens).length := by
  obtain ⟨body, e, behind, hclosed, hbody, he⟩ := exists_closed tokens
  have hfront : front tokens = body := by rw [front, hclosed, takeWhile_body hbody he]
  refine ⟨⟨e, behind, by rw [hfront, hclosed], by simpa [endsFile] using he⟩, ?_, ?_, statements_stop _,
    fun g hg => exists_opening hg, Calls.wellFounded _, fun c d => Calls.length_lt_of_transGen, ?_⟩
  · rw [hfront]
    exact fun t ht => by simpa [endsFile] using hbody t ht
  · rintro c ⟨r, hr, hc⟩
    obtain ⟨hsound, hopening⟩ := opening?_spec hr
    obtain ⟨hsound, hsuffix⟩ := Calls.reached hc hsound
    have hrest : c.rest (frontEnd tokens) <:+ c.behind := Call.rest_suffix hsound
    refine ⟨hsuffix.trans hopening, hrest.trans (List.suffix_append _ _), fun hfirst => ?_,
      fun d hd => ⟨hd.suffix hsound, hd.rest_suffix hsound⟩⟩
    obtain ⟨t, ht⟩ := Option.isSome_iff_exists.mp hfirst
    rw [Call.cursor, ht]
    exact Nat.lt_succ_of_le hrest.length_le
  · refine Guarded.advancing ⟨e, ?_, by simpa [endsFile] using he⟩
    rw [hfront, hclosed]
    simp

theorem ofTokens_progress_trailing :
    let token (k : Kind) : Token := ⟨k, .caret 0, "", false⟩
    let edge := [Kind.directedOp, .openBrace, .word, .closeBrace, .closeBrace, .equals].map token
    let tokens := [Kind.graphKeyword, .openBrace, .word].map token ++ edge ++
      [Kind.endOfFile, .closeBrace].map token
    let c := Call.statement (token .word) edge ⟨1, 0⟩
    Made tokens c ∧ c.first?.isSome ∧ c.cursor <:+ front tokens ∧
      (c.rest (frontEnd tokens)).length < c.cursor.length ∧ (ofTokens tokens).graph.isSome ∧
      ∃ r ∈ opening? (frontEnd tokens) (front tokens), ∀ t ∈ (r.rest (frontEnd tokens)).head?,
        ∃ d ∈ (ofTokens tokens).diagnostics, d.code = .trailingData ∧ d.span.start = t.span.start := by
  intro token edge tokens c
  have hmade : Made tokens c :=
    ⟨.bracedBody (token .openBrace :: token .word :: edge) ⟨1, 0⟩, rfl,
      .tail (.tail (.single (.brace rfl)) .body) (.first rfl)⟩
  have hsome : (ofTokens tokens).graph.isSome := by decide +kernel
  obtain ⟨g, hg⟩ := Option.isSome_iff_exists.mp hsome
  obtain ⟨-, -, hcalls, -, hend, -⟩ := ofTokens_progress tokens
  obtain ⟨hcursor, -, htakes, -⟩ := hcalls c hmade
  exact ⟨hmade, rfl, hcursor, htakes rfl, hsome, hend g hg⟩

end Parse

end DotMend
