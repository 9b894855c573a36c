import DotMend.Proofs.Text.Simultaneous

/-! A batch of edits made one after the other on the text itself. All spans are checked first, on the text as it
was; a replacement then fails if its span is not one of the text as it is by now. After the checks none fails. -/

namespace DotMend

namespace Text

def replace? (t : Text) (s : Span) (new : Text) : Option Text := do
  let (head, rest) ← t.cut? s.start
  let (_, tail) ← if s.start ≤ s.stop then rest.cut? (s.stop - s.start) else none
  return head ++ new ++ tail

lemma replace?_bytes
    (a x b new : Text) : replace? (a ++ x ++ b) ⟨a.bytes, (a ++ x).bytes⟩ new = some (a ++ new ++ b) := by
  simp [replace?, List.append_assoc]

example : replace? "aü".toList ⟨2, 3⟩ [] = none := by decide +kernel

end Text

namespace Edit

def replaceAll? : Text → List Edit → Option Text :=
  List.foldlM fun t e => t.replace? e.span e.replacement.toList

def applyInPlace (source : Text) (es : List Edit) : Option (Except EditError Text) :=
  let sorted := es.mergeSort notBefore
  match fault? source source.bytes (sorted.map span) with
  | some err => some (.error err)
  | none => (replaceAll? source sorted).map .ok

variable {source : Text}

lemma replaceAll?_eq (head tail done : Text) (hsource : source = head ++ tail) (ds : List Edit)
    (h : fault? source head.bytes (ds.map span) = none) :
    (replaceAll? (head ++ done) ds).map .ok = some (applyFrom source head done ds) := by
  induction ds generalizing head tail done with
  | nil => rfl
  | cons e ds ih =>
    obtain ⟨hin, hlimit, -⟩ := fault?_eq_none_iff.mp h
    have hle : e.span.stop ≤ head.bytes := hlimit e.span (by simp)
    obtain ⟨x, hx⟩ := Option.isSome_iff_exists.mp (hin e.span (by simp))
    obtain ⟨a, b, hab, hspan⟩ := Text.slice?_eq_some_iff.mp hx
    have hstart : e.span.start = a.bytes := congrArg Span.start hspan
    have hstop : e.span.stop = (a ++ x).bytes := by rw [hspan, Text.bytes_append]
    obtain ⟨k, rfl, -⟩ := Text.exists_append_of_bytes_le (hab.symm.trans hsource) (hstop ▸ hle)
    have hrest : fault? source a.bytes (ds.map span) = none := by
      rw [List.map_cons, fault?, if_neg (by simp [hx]), if_neg (by omega), hstart] at h
      exact h
    have hreplace : (a ++ x ++ k ++ done).replace? e.span e.replacement.toList =
        some (a ++ (e.replacement.toList ++ k ++ done)) := by
      have hplace : e.span = ⟨a.bytes, (a ++ x).bytes⟩ := by rw [hspan, Text.bytes_append]
      rw [hplace, List.append_assoc (a ++ x), Text.replace?_bytes]
      simp
    have hcut : Text.cut? e.span.stop (a ++ x ++ k) = some (a ++ x, k) := hstop ▸ Text.cut?_bytes (a ++ x) k
    have hcut' : Text.cut? e.span.start (a ++ x) = some (a, x) := hstart ▸ Text.cut?_bytes a x
    have hstep : applyFrom source (a ++ x ++ k) done (e :: ds) =
        applyFrom source a (e.replacement.toList ++ k ++ done) ds := by
      simp only [applyFrom, hx, hcut, hcut']
    rw [hstep, ← ih a (x ++ k ++ tail) (e.replacement.toList ++ k ++ done) (by simpa using hsource) hrest,
      replaceAll?, List.foldlM_cons, hreplace]
    rfl

theorem applyInPlace_eq (source : Text) (es : List Edit) : applyInPlace source es = some (applyAll source es) := by
  rw [applyInPlace, applyAll]
  rcases applyFrom_outcome source [] [] (List.append_nil source).symm (es.mergeSort notBefore) with
    ⟨err, hfault, happly⟩ | ⟨hfault, -⟩
  · simp only [hfault, happly]
  · have hall := replaceAll?_eq source [] [] (List.append_nil source).symm (es.mergeSort notBefore) hfault
    rw [List.append_nil] at hall
    simp only [hfault, hall]

end Edit

end DotMend
