import DotMend.Proofs.Text.Replacement
import Mathlib.Data.List.Chain
import Mathlib.Data.List.Pairwise

/-! A batch of edits is applied as if all of them were made at once. Whether it is refused, and why, depends on its
spans alone; what it makes of a text are the untouched pieces of the text with the replacements between them. -/

namespace DotMend

namespace Text

def IsCut (t : Text) (n : Nat) : Prop := ∃ a b, t = a ++ b ∧ a.bytes = n

lemma isSome_slice?_iff {t : Text} {s : Span} :
    (t.slice? s).isSome ↔ s.start ≤ s.stop ∧ s.stop ≤ t.bytes ∧ t.IsCut s.start ∧ t.IsCut s.stop := by
  rw [Option.isSome_iff_exists]
  constructor
  · rintro ⟨x, hx⟩
    obtain ⟨a, b, rfl, rfl⟩ := slice?_eq_some_iff.mp hx
    refine ⟨by simp, by simp, ⟨a, x ++ b, by simp, rfl⟩, ⟨a ++ x, b, rfl, by simp⟩⟩
  · rintro ⟨hle, -, ⟨a, b, hab, ha⟩, ⟨c, d, rfl, hc⟩⟩
    obtain ⟨x, rfl, rfl⟩ := exists_append_of_bytes_le hab.symm (by omega)
    refine ⟨x, slice?_eq_some_iff.mpr ⟨a, d, rfl, ?_⟩⟩
    rw [bytes_append, ha] at hc
    rw [ha, hc]

end Text

namespace Edit

def Within (t : Text) (e : Edit) : Prop :=
  e.span.start ≤ e.span.stop ∧ e.span.stop ≤ t.bytes ∧ t.IsCut e.span.start ∧ t.IsCut e.span.stop

def InsertApart (a b : Edit) : Prop :=
  a.span.start = a.span.stop → b.span.start = b.span.stop → a.span.start ≠ b.span.start

lemma InsertApart.symm {a b : Edit} (h : a.InsertApart b) : b.InsertApart a := fun hb ha hab => h ha hb hab.symm

def ascending (es : List Edit) : List Edit := es.mergeSort fun a b => notBefore b a

/-- What becomes of a source between two offsets: its untouched pieces and the replacements, in their order. -/
def splice? (source : Text) (stop : Nat) : (start : Nat) → List Edit → Option Text
  | start, [] => source.slice? ⟨start, stop⟩
  | start, e :: es => do
    let kept ← source.slice? ⟨start, e.span.start⟩
    let rest ← splice? source stop e.span.stop es
    pure (kept ++ e.replacement.toList ++ rest)

/-- What is wrong with spans that are looked at from the last to the first. None may reach beyond the one before
it, the first one not beyond `limit`. -/
def fault? (source : Text) : (limit : Nat) → List Span → Option EditError
  | _, [] => none
  | limit, s :: ss =>
    if (source.slice? s).isNone then some (.outOfBounds s source.bytes)
    else if limit < s.stop then some (.overlap s.start)
    else fault? source s.start ss

variable {source : Text}

lemma splice?_concat {stop start : Nat} {es : List Edit} {e : Edit} {body tail : Text}
    (hbody : splice? source e.span.start start es = some body)
    (htail : source.slice? ⟨e.span.stop, stop⟩ = some tail) :
    splice? source stop start (es ++ [e]) = some (body ++ e.replacement.toList ++ tail) := by
  induction es generalizing start body with
  | nil =>
    have hkept : source.slice? ⟨start, e.span.start⟩ = some body := hbody
    simp [splice?, hkept, htail]
  | cons d es ih =>
    obtain ⟨kept, hkept, hbody⟩ := Option.bind_eq_some_iff.mp hbody
    obtain ⟨rest, hrest, hbody⟩ := Option.bind_eq_some_iff.mp hbody
    obtain rfl := Option.some.inj hbody
    simp [splice?, hkept, ih hrest]

lemma fault?_eq_none_iff {limit : Nat} {ss : List Span} :
    fault? source limit ss = none ↔ (∀ s ∈ ss, (source.slice? s).isSome) ∧ (∀ s ∈ ss.head?, s.stop ≤ limit) ∧
      ss.IsChain fun s r => r.stop ≤ s.start := by
  induction ss generalizing limit with
  | nil => simp [fault?]
  | cons s ss ih =>
    cases hs : source.slice? s with
    | none => simp [fault?, hs]
    | some x =>
      by_cases hlimit : limit < s.stop
      · simp [fault?, hs, hlimit]
      · have hstep : fault? source limit (s :: ss) = fault? source s.start ss := by simp [fault?, hs, hlimit]
        rw [hstep, ih, List.isChain_cons]
        simp [hs, Nat.le_of_not_lt hlimit]

lemma pairwise_of_fault? {limit : Nat} {ss : List Span} (h : fault? source limit ss = none) :
    (∀ s ∈ ss, s.stop ≤ limit) ∧ ss.Pairwise fun s r => r.stop ≤ s.start := by
  induction ss generalizing limit with
  | nil => simp
  | cons s ss ih =>
    unfold fault? at h
    split at h
    · cases h
    · rename_i hs
      split at h
      · cases h
      · rename_i hlimit
        obtain ⟨hall, hpair⟩ := ih h
        have hle : s.start ≤ s.stop :=
          (Text.isSome_slice?_iff.mp (by simpa [Option.isSome_iff_ne_none] using hs)).1
        refine ⟨List.forall_mem_cons.mpr ⟨by omega, fun r hr => ?_⟩, List.pairwise_cons.mpr ⟨hall, hpair⟩⟩
        have := hall r hr
        omega

lemma applyFrom_outcome (head tail done : Text) (hsource : source = head ++ tail) (ds : List Edit) :
    (∃ err, fault? source head.bytes (ds.map span) = some err ∧ applyFrom source head done ds = .error err) ∨
      fault? source head.bytes (ds.map span) = none ∧
        ∃ x, splice? source head.bytes 0 ds.reverse = some x ∧
        applyFrom source head done ds = .ok (x ++ done) := by
  induction ds generalizing head tail done with
  | nil =>
    have hhead : source.slice? ⟨0, head.bytes⟩ = some head :=
      Text.slice?_eq_some_iff.mpr ⟨[], tail, by simpa using hsource, by simp⟩
    exact .inr ⟨rfl, head, hhead, rfl⟩
  | cons e ds ih =>
    simp only [List.map_cons, fault?]
    cases hs : source.slice? e.span with
    | none => exact .inl ⟨.outOfBounds e.span source.bytes, by simp, by simp [applyFrom, hs]⟩
    | some x =>
      obtain ⟨a, b, hab, hspan⟩ := Text.slice?_eq_some_iff.mp hs
      have hstart : e.span.start = a.bytes := congrArg Span.start hspan
      have hstop : e.span.stop = (a ++ x).bytes := by rw [hspan, Text.bytes_append]
      by_cases hlimit : head.bytes < e.span.stop
      · have hcut : Text.cut? e.span.stop head = none := by
          rw [Option.eq_none_iff_forall_ne_some]
          rintro ⟨c, d⟩ hcd
          obtain ⟨rfl, hc⟩ := Text.cut?_eq_some hcd
          rw [Text.bytes_append] at hlimit
          omega
        exact .inl ⟨.overlap e.span.start, by simp [hlimit], by simp [applyFrom, hs, hcut]⟩
      · obtain ⟨k, rfl, -⟩ := Text.exists_append_of_bytes_le (hab.symm.trans hsource) (by omega)
        have hcut : Text.cut? e.span.stop (a ++ x ++ k) = some (a ++ x, k) := hstop ▸ Text.cut?_bytes (a ++ x) k
        have hcut' : Text.cut? e.span.start (a ++ x) = some (a, x) := hstart ▸ Text.cut?_bytes a x
        have hkept : source.slice? ⟨e.span.stop, (a ++ x ++ k).bytes⟩ = some k :=
          Text.slice?_eq_some_iff.mpr ⟨a ++ x, tail, hsource, by rw [hstop, Text.bytes_append (a ++ x)]⟩
        have hstep : applyFrom source (a ++ x ++ k) done (e :: ds) =
            applyFrom source a (e.replacement.toList ++ k ++ done) ds := by
          simp only [applyFrom, hs, hcut, hcut']
        have hrest := ih a (x ++ k ++ tail) (e.replacement.toList ++ k ++ done) (by simpa using hsource)
        rw [if_neg (by simp), if_neg hlimit, hstep, hstart]
        rcases hrest with hrest | ⟨hfault, body, hbody, happly⟩
        · exact .inl hrest
        · refine .inr ⟨hfault, body ++ e.replacement.toList ++ k, ?_, ?_⟩
          · rw [List.reverse_cons]
            exact splice?_concat (hstart ▸ hbody) hkept
          · rw [happly]
            simp

lemma map_span_eq {ds ds' : List Edit} (hperm : ds.Perm ds') (hds : ds.Pairwise fun a b => notBefore a b)
    (hds' : ds'.Pairwise fun a b => notBefore a b) : ds.map span = ds'.map span := by
  let le (s r : Span) : Prop := r.start < s.start ∨ s.start = r.start ∧ r.stop ≤ s.stop
  have hle (a b : Edit) (h : notBefore a b) : le a.span b.span := by simpa [notBefore, le] using h
  have hanti (s r : Span) (_ : s ∈ ds.map span) (_ : r ∈ ds'.map span) (hsr : le s r) (hrs : le r s) : s = r := by
    obtain ⟨_, _⟩ := s
    obtain ⟨_, _⟩ := r
    simp only [le, Span.mk.injEq] at *
    omega
  exact List.Perm.eq_of_pairwise hanti (hds.map span hle) (hds'.map span hle) (hperm.map span)

lemma eq_of_fault? {limit : Nat} {ds ds' : List Edit} (h : fault? source limit (ds.map span) = none)
    (hinsert : ds.Pairwise InsertApart) (hperm : ds.Perm ds') (hds : ds.Pairwise fun a b => notBefore a b)
    (hds' : ds'.Pairwise fun a b => notBefore a b) : ds = ds' := by
  have hne : ds.Pairwise fun a b => a.span ≠ b.span := by
    have hbelow := List.pairwise_map.mp (pairwise_of_fault? h).2
    have hwithin := (fault?_eq_none_iff.mp h).1
    refine (hbelow.and hinsert).imp_of_mem ?_
    rintro a b ha hb ⟨hab, hinsert⟩ hspan
    have hle := (Text.isSome_slice?_iff.mp (hwithin a.span (List.mem_map_of_mem ha))).1
    unfold InsertApart at hinsert
    rw [← hspan] at hab hinsert
    exact hinsert (by omega) (by omega) rfl
  refine List.Perm.eq_of_pairwise (fun a b ha hb hab hba => ?_) hds hds' hperm
  have hspan : a.span = b.span := by
    simp only [notBefore, Bool.or_eq_true, decide_eq_true_eq, Bool.and_eq_true, beq_iff_eq] at hab hba
    cases hs : a.span
    cases hr : b.span
    simp only [hs, hr, Span.mk.injEq] at *
    omega
  have : Std.Symm fun a b : Edit => a.span ≠ b.span := ⟨fun _ _ h => h.symm⟩
  by_contra hab
  exact hne.forall ha (hperm.mem_iff.mpr hb) hab hspan

lemma pairwise_descending (es : List Edit) : (es.mergeSort notBefore).Pairwise fun a b => notBefore a b :=
  List.pairwise_mergeSort notBefore_trans notBefore_total es

lemma pairwise_ascending (es : List Edit) : (ascending es).reverse.Pairwise fun a b => notBefore a b := by
  rw [List.pairwise_reverse]
  exact List.pairwise_mergeSort (fun a b c hab hbc => notBefore_trans c b a hbc hab)
    (fun a b => notBefore_total b a) es

lemma reverse_ascending_perm (es : List Edit) : (ascending es).reverse.Perm (es.mergeSort notBefore) :=
  (List.reverse_perm _).trans ((List.mergeSort_perm es _).trans (List.mergeSort_perm es notBefore).symm)

lemma fault?_eq_none_iff_ascending {es : List Edit} :
    fault? source source.bytes ((es.mergeSort notBefore).map span) = none ↔
      (∀ e ∈ es, e.Within source) ∧ (ascending es).IsChain fun a b => a.span.stop ≤ b.span.start := by
  have hspans := map_span_eq (reverse_ascending_perm es) (pairwise_ascending es) (pairwise_descending es)
  have hperm : ((ascending es).reverse).Perm es := (List.reverse_perm _).trans (List.mergeSort_perm es _)
  rw [← hspans, fault?_eq_none_iff, List.isChain_map, List.isChain_reverse]
  constructor
  · rintro ⟨hwithin, -, hchain⟩
    refine ⟨fun e he => ?_, hchain⟩
    exact Text.isSome_slice?_iff.mp (hwithin e.span (List.mem_map_of_mem (hperm.mem_iff.mpr he)))
  · rintro ⟨hwithin, hchain⟩
    refine ⟨fun s hs => ?_, fun s hs => ?_, hchain⟩
    · obtain ⟨e, he, rfl⟩ := List.mem_map.mp hs
      exact Text.isSome_slice?_iff.mpr (hwithin e (hperm.mem_iff.mp he))
    · obtain ⟨e, he, rfl⟩ := List.mem_map.mp (List.mem_of_head? hs)
      exact (hwithin e (hperm.mem_iff.mp he)).2.1

/-- A batch is applied exactly if its spans lie in the text, between characters, and each ends before the next one
starts. Unless two edits insert at the same place, the outcome, whether a text or an error, does not depend on the
order of the batch, and the text is put together from the untouched pieces and the replacements as they follow each
other. -/
theorem applyAll_simultaneous (source : Text) (es : List Edit) :
    ((∃ t, applyAll source es = .ok t) ↔
      (∀ e ∈ es, e.Within source) ∧ (ascending es).IsChain fun a b => a.span.stop ≤ b.span.start) ∧
    (es.Pairwise InsertApart →
      (∀ es', es'.Perm es → applyAll source es' = applyAll source es) ∧
        ∀ t, applyAll source es = .ok t → splice? source source.bytes 0 (ascending es) = some t) := by
  have outcome (es : List Edit) :=
    applyFrom_outcome source [] [] (List.append_nil source).symm (es.mergeSort notBefore)
  constructor
  · rw [← fault?_eq_none_iff_ascending]
    rcases outcome es with ⟨err, hfault, happly⟩ | ⟨hfault, x, -, happly⟩
    · simp [applyAll, happly, hfault]
    · simp [applyAll, happly, hfault]
  · intro hinsert
    have hsorted : (es.mergeSort notBefore).Pairwise InsertApart :=
      ((List.mergeSort_perm es notBefore).pairwise_iff InsertApart.symm).mpr hinsert
    constructor
    · intro es' hperm
      have hperm' : (es.mergeSort notBefore).Perm (es'.mergeSort notBefore) :=
        (List.mergeSort_perm es _).trans (hperm.symm.trans (List.mergeSort_perm es' _).symm)
      have hspans := map_span_eq hperm' (pairwise_descending es) (pairwise_descending es')
      rcases outcome es with ⟨err, hfault, happly⟩ | ⟨hfault, -⟩
      · -- the same spans have the same fault, whatever the replacements
        rcases outcome es' with ⟨err', hfault', happly'⟩ | ⟨hfault', -⟩
        · obtain rfl : err' = err := Option.some.inj (hfault'.symm.trans (hspans ▸ hfault))
          rw [applyAll, applyAll, happly, happly']
        · rw [← hspans, hfault] at hfault'
          cases hfault'
      · rw [applyAll, applyAll,
          eq_of_fault? hfault hsorted hperm' (pairwise_descending es) (pairwise_descending es')]
    · intro t ht
      rcases outcome es with ⟨err, -, happly⟩ | ⟨hfault, x, hsplice, happly⟩
      · rw [applyAll, happly] at ht
        cases ht
      · have heq := eq_of_fault? hfault hsorted (reverse_ascending_perm es).symm (pairwise_descending es)
          (pairwise_ascending es)
        rw [applyAll, happly, List.append_nil] at ht
        rw [heq, List.reverse_reverse] at hsplice
        rw [hsplice, Except.ok.inj ht]

theorem applyAll_simultaneous_touching :
    let source : Text := "aübc".toList
    let es : List Edit := [⟨⟨3, 4⟩, "X", ""⟩, .delete ⟨1, 3⟩ "", ⟨⟨3, 3⟩, "yz", ""⟩]
    applyAll source es = .ok "ayzXc".toList ∧ es.Pairwise InsertApart ∧
      (∀ es', es'.Perm es → applyAll source es' = .ok "ayzXc".toList) ∧
        splice? source source.bytes 0 (ascending es) = some "ayzXc".toList := by
  intro source es
  have hsort : es.mergeSort notBefore = [⟨⟨3, 4⟩, "X", ""⟩, ⟨⟨3, 3⟩, "yz", ""⟩, .delete ⟨1, 3⟩ ""] := by
    simp [es, List.mergeSort, List.MergeSort.Internal.splitInTwo, notBefore, delete]
  have happly : applyAll source es = .ok "ayzXc".toList := by
    rw [applyAll, hsort]
    decide +kernel
  have hinsert : es.Pairwise InsertApart := by
    simp [es, InsertApart, delete]
  obtain ⟨hperm, hsplice⟩ := (applyAll_simultaneous source es).2 hinsert
  exact ⟨happly, hinsert, fun es' h => (hperm es' h).trans happly, hsplice _ happly⟩

end Edit

end DotMend
