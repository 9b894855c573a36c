import DotMend.Text.Edit
import Mathlib.Data.List.Basic
import Mathlib.Order.Nat
import Mathlib.Tactic.Common

namespace DotMend

lemma mapM_eq_ok {α β ε : Type} {g : α → Except ε β} {k : α → β} {l : List α} (h : ∀ a ∈ l, g a = .ok (k a)) :
    l.mapM g = .ok (l.map k) := by
  induction l with
  | nil => rfl
  | cons a l ih =>
    rw [List.mapM_cons, h a (by simp), ih fun b hb => h b (by simp [hb])]
    rfl

lemma eq_ok_of_toOption {α ε : Type} {x : Except ε α} {a : α} (h : x.toOption = some a) : x = .ok a := by
  cases x with
  | error e => cases h
  | ok b => rw [Option.some.inj h]

lemma bind_eq_ok_iff {α β ε : Type} {x : Except ε α} {g : α → Except ε β} {b : β} :
    x >>= g = .ok b ↔ ∃ a, x = .ok a ∧ g a = .ok b := by
  cases x with
  | error e => simp [bind, Except.bind]
  | ok a => simp [bind, Except.bind]

lemma exists_of_mapM_eq_ok {α β ε : Type} {g : α → Except ε β} {l : List α} {bs : List β} (h : l.mapM g = .ok bs) :
    (∀ a ∈ l, ∃ b ∈ bs, g a = .ok b) ∧ ∀ b ∈ bs, ∃ a ∈ l, g a = .ok b := by
  induction l generalizing bs with
  | nil =>
    obtain rfl := Except.ok.inj h
    simp
  | cons a l ih =>
    rw [List.mapM_cons] at h
    obtain ⟨b, ha, h⟩ := bind_eq_ok_iff.mp h
    obtain ⟨cs, hl, h⟩ := bind_eq_ok_iff.mp h
    obtain rfl := Except.ok.inj h
    obtain ⟨hleft, hright⟩ := ih hl
    constructor
    · rintro x (_ | ⟨_, hx⟩)
      · exact ⟨b, by simp, ha⟩
      · obtain ⟨c, hc, hxc⟩ := hleft x hx
        exact ⟨c, by simp [hc], hxc⟩
    · rintro c (_ | ⟨_, hc⟩)
      · exact ⟨a, by simp, ha⟩
      · obtain ⟨x, hx, hxc⟩ := hright c hc
        exact ⟨x, by simp [hx], hxc⟩

namespace Text

lemma slice?_eq_some_iff {t x : Text} {s : Span} :
    slice? t s = some x ↔ ∃ a b, t = a ++ x ++ b ∧ s = ⟨bytes a, bytes a + bytes x⟩ := by
  constructor
  · intro h
    simp only [slice?] at h
    split at h
    · rename_i hle
      obtain ⟨⟨a, r⟩, hr, hm⟩ := Option.bind_eq_some_iff.mp h
      obtain ⟨⟨y, b⟩, hy, rfl⟩ := Option.map_eq_some_iff.mp hm
      obtain ⟨rfl, ha⟩ := cut?_eq_some hr
      obtain ⟨rfl, hb⟩ := cut?_eq_some hy
      refine ⟨a, b, by simp, ?_⟩
      obtain ⟨start, stop⟩ := s
      simp only [Span.mk.injEq] at *
      omega
    · simp at h
  · rintro ⟨a, b, rfl, rfl⟩
    exact slice?_bytes a x b

lemma eq_nil_of_bytes_eq_zero {t : Text} (h : bytes t = 0) : t = [] := by
  cases t with
  | nil => rfl
  | cons c t =>
    have := c.utf8Size_pos
    simp only [bytes_cons] at h
    omega

lemma bytes_pos {t : Text} (h : t ≠ []) : 0 < bytes t :=
  Nat.pos_of_ne_zero fun h0 => h (eq_nil_of_bytes_eq_zero h0)

lemma exists_append_of_bytes_le {a b c d : Text} (h : a ++ b = c ++ d) (hb : bytes a ≤ bytes c) :
    ∃ x, c = a ++ x ∧ b = x ++ d := by
  rcases List.append_eq_append_iff.mp h with ⟨x, rfl, rfl⟩ | ⟨x, rfl, rfl⟩
  · exact ⟨x, rfl, rfl⟩
  · have hx : bytes x = 0 := by simp only [bytes_append] at hb; omega
    obtain rfl := eq_nil_of_bytes_eq_zero hx
    exact ⟨[], by simp, by simp⟩

lemma append_inj_of_bytes_eq {a b c d : Text} (h : a ++ b = c ++ d) (hb : bytes a = bytes c) : a = c ∧ b = d := by
  obtain ⟨x, rfl, rfl⟩ := exists_append_of_bytes_le h hb.le
  obtain rfl : x = [] := by
    apply eq_nil_of_bytes_eq_zero
    rw [bytes_append] at hb
    omega
  simp

end Text

namespace Edit

def Covers (e : Edit) (offset : Nat) : Prop := e.span.start ≤ offset ∧ offset < e.span.stop

instance (e : Edit) (offset : Nat) : Decidable (e.Covers offset) := inferInstanceAs (Decidable (_ ∧ _))

def atChar (es : List Edit) (offset : Nat) (c : Char) : Text :=
  match es.find? (·.Covers offset) with
  | none => [c]
  | some e => if offset = e.span.start then e.replacement.toList else []

def rewritten (es : List Edit) : (offset : Nat) → Text → Text
  | _, [] => []
  | offset, c :: t => atChar es offset c ++ rewritten es (offset + c.utf8Size) t

@[simp] lemma rewritten_nil (es : List Edit) (n : Nat) : rewritten es n [] = [] := rfl

lemma rewritten_append (es : List Edit) (n : Nat) (s t : Text) :
    rewritten es n (s ++ t) = rewritten es n s ++ rewritten es (n + s.bytes) t := by
  induction s generalizing n with
  | nil => simp
  | cons c s ih => simp [rewritten, ih, Nat.add_assoc]

lemma rewritten_of_not_covers {es : List Edit} {n : Nat} {t : Text}
    (h : ∀ e ∈ es, ∀ m, n ≤ m → m < n + t.bytes → ¬ e.Covers m) : rewritten es n t = t := by
  induction t generalizing n with
  | nil => rfl
  | cons c t ih =>
    have hc := c.utf8Size_pos
    have hn : es.find? (·.Covers n) = none := by
      rw [List.find?_eq_none]
      intro e he
      simpa using h e he n le_rfl (by simp only [Text.bytes_cons]; omega)
    have ht : rewritten es (n + c.utf8Size) t = t := ih fun e he m hm hlt =>
      h e he m (by omega) (by simp only [Text.bytes_cons]; omega)
    simp [rewritten, atChar, hn, ht]

lemma rewritten_congr {es es' : List Edit} {n : Nat} {t : Text}
    (h : ∀ m, n ≤ m → m < n + t.bytes → es.find? (·.Covers m) = es'.find? (·.Covers m)) :
    rewritten es n t = rewritten es' n t := by
  induction t generalizing n with
  | nil => rfl
  | cons c t ih =>
    have hc := c.utf8Size_pos
    have ht := ih (n := n + c.utf8Size) fun m hm hlt => h m (by omega) (by simp only [Text.bytes_cons]; omega)
    have hn := h n le_rfl (by simp only [Text.bytes_cons]; omega)
    simp [rewritten, atChar, hn, ht]

def Apart (a b : Edit) : Prop := a.span.stop ≤ b.span.start ∨ b.span.stop ≤ a.span.start

lemma Apart.symm {a b : Edit} (h : a.Apart b) : b.Apart a := Or.symm h

lemma find?_covers {es : List Edit} (hd : es.Pairwise Apart) {e : Edit} (he : e ∈ es) {n : Nat} (hn : e.Covers n) :
    es.find? (·.Covers n) = some e := by
  induction es with
  | nil => simp at he
  | cons f es ih =>
    obtain ⟨hf, hd⟩ := List.pairwise_cons.mp hd
    rcases List.mem_cons.mp he with rfl | he
    · simp [hn]
    · have hfn : ¬ f.Covers n := by
        intro hfn
        have := hf e he
        simp only [Apart, Covers] at *
        omega
      simpa [hfn] using ih hd he

lemma rewritten_inside {es : List Edit} (hd : es.Pairwise Apart) {e : Edit} (he : e ∈ es) {n : Nat} {t : Text}
    (hs : e.span.start < n) (ht : n + t.bytes ≤ e.span.stop) : rewritten es n t = [] := by
  induction t generalizing n with
  | nil => rfl
  | cons c t ih =>
    have hc := c.utf8Size_pos
    simp only [Text.bytes_cons] at ht
    have hf := find?_covers hd he (n := n) ⟨by omega, by omega⟩
    simp [rewritten, atChar, hf, show n ≠ e.span.start by omega, ih (n := n + c.utf8Size) (by omega) (by omega)]

lemma rewritten_start {es : List Edit} (hd : es.Pairwise Apart) {e : Edit} (he : e ∈ es) {t : Text} (hn : t ≠ [])
    (ht : e.span.start + t.bytes ≤ e.span.stop) : rewritten es e.span.start t = e.replacement.toList := by
  cases t with
  | nil => exact absurd rfl hn
  | cons c t =>
    have hc := c.utf8Size_pos
    simp only [Text.bytes_cons] at ht
    have hf := find?_covers hd he (n := e.span.start) ⟨le_rfl, by omega⟩
    have hr := rewritten_inside hd he (n := e.span.start + c.utf8Size) (t := t) (by omega) (by omega)
    simp [rewritten, atChar, hf, hr]

def Fits (t : Text) (e : Edit) : Prop := ∃ x, x ≠ [] ∧ t.slice? e.span = some x

lemma Fits.lt {t : Text} {e : Edit} (h : e.Fits t) : e.span.start < e.span.stop := by
  obtain ⟨x, hx, hs⟩ := h
  obtain ⟨a, b, _, hspan⟩ := Text.slice?_eq_some_iff.mp hs
  have := Text.bytes_pos hx
  rw [hspan]
  simpa using this

lemma applyFrom_eq {source : Text} {es : List Edit} (hf : ∀ e ∈ es, e.Fits source)
    (hd : es.Pairwise fun a b => b.span.stop ≤ a.span.start) (head tail : Text) (hsrc : source = head ++ tail)
    (hin : ∀ e ∈ es, e.span.stop ≤ head.bytes) (done : Text) :
    applyFrom source head done es = .ok (rewritten es 0 head ++ done) := by
  induction es generalizing head tail done with
  | nil =>
    have : rewritten [] 0 head = head := rewritten_of_not_covers (by simp)
    simp [applyFrom, this]
  | cons e es ih =>
    obtain ⟨hlast, hd'⟩ := List.pairwise_cons.mp hd
    obtain ⟨x, hx, hs⟩ := hf e (by simp)
    obtain ⟨a, b, hab, hspan⟩ := Text.slice?_eq_some_iff.mp hs
    have hstart : e.span.start = a.bytes := by rw [hspan]
    have hstop : e.span.stop = (a ++ x).bytes := by rw [hspan]; simp
    have hle : (a ++ x).bytes ≤ head.bytes := hstop ▸ hin e (by simp)
    obtain ⟨k, rfl, -⟩ := Text.exists_append_of_bytes_le (hab.symm.trans hsrc) hle
    have hpair : (e :: es).Pairwise Apart := hd.imp fun h => .inr h
    have hrec := ih (fun f hf' => hf f (by simp [hf'])) hd' a (x ++ k ++ tail) (by simpa using hsrc)
      (fun f hf' => hstart ▸ hlast f hf') (e.replacement.toList ++ k ++ done)
    have ha : rewritten (e :: es) 0 a = rewritten es 0 a := rewritten_congr fun m _ hm => by
      have : ¬ e.Covers m := fun hc => by have := hc.1; omega
      simp [this]
    have hmid : rewritten (e :: es) (0 + a.bytes) x = e.replacement.toList := by
      rw [Nat.zero_add, ← hstart]
      exact rewritten_start hpair (by simp) hx (by simp only [hstart, hstop, Text.bytes_append, le_refl])
    have hk : rewritten (e :: es) (0 + (a ++ x).bytes) k = k := by
      apply rewritten_of_not_covers
      intro f hf' m hm _ hc
      have hfstop : f.span.stop ≤ (a ++ x).bytes := by
        rcases List.mem_cons.mp hf' with rfl | hf'
        · exact hstop.le
        · have := hlast f hf'
          simp only [hstart, Text.bytes_append] at *
          omega
      have := hc.2
      omega
    have hcut : Text.cut? e.span.stop (a ++ x ++ k) = some (a ++ x, k) := hstop ▸ Text.cut?_bytes (a ++ x) k
    have hcut' : Text.cut? e.span.start (a ++ x) = some (a, x) := hstart ▸ Text.cut?_bytes a x
    simp only [applyFrom, hs, hcut, hcut', hrec]
    rw [rewritten_append, rewritten_append, ha, hmid, hk]
    simp

lemma notBefore_trans (a b c : Edit) (h₁ : notBefore a b = true) (h₂ : notBefore b c = true) :
    notBefore a c = true := by
  simp only [notBefore, Bool.or_eq_true, decide_eq_true_eq, Bool.and_eq_true, beq_iff_eq] at *
  omega

lemma notBefore_total (a b : Edit) : (notBefore a b || notBefore b a) = true := by
  simp only [notBefore, Bool.or_eq_true, decide_eq_true_eq, Bool.and_eq_true, beq_iff_eq]
  omega

theorem applyAll_eq_rewritten {t : Text} {es : List Edit} (hf : ∀ e ∈ es, e.Fits t) (hd : es.Pairwise Apart) :
    applyAll t es = .ok (rewritten es 0 t) := by
  have hperm := List.mergeSort_perm es notBefore
  have hsort := List.pairwise_mergeSort notBefore_trans notBefore_total es
  have hd' : (es.mergeSort notBefore).Pairwise Apart := (hperm.pairwise_iff Apart.symm).mpr hd
  have hf' : ∀ e ∈ es.mergeSort notBefore, e.Fits t := fun e he => hf e (hperm.mem_iff.mp he)
  have hdesc : (es.mergeSort notBefore).Pairwise fun a b => b.span.stop ≤ a.span.start := by
    refine (hsort.and hd').imp_of_mem ?_
    rintro a b ha hb ⟨hab, hab'⟩
    have := (hf' a ha).lt
    have := (hf' b hb).lt
    simp only [notBefore, Bool.or_eq_true, decide_eq_true_eq, Bool.and_eq_true, beq_iff_eq] at hab
    rcases hab' with h | h <;> omega
  have hin : ∀ e ∈ es.mergeSort notBefore, e.span.stop ≤ t.bytes := by
    intro e he
    obtain ⟨x, -, hs⟩ := hf' e he
    obtain ⟨a, b, rfl, hspan⟩ := Text.slice?_eq_some_iff.mp hs
    rw [hspan]
    simp only [Text.bytes_append]
    omega
  have hsame : rewritten (es.mergeSort notBefore) 0 t = rewritten es 0 t := by
    apply rewritten_congr
    intro m _ _
    cases hm : es.find? (·.Covers m) with
    | none =>
      rw [List.find?_eq_none] at *
      exact fun e he => hm e (hperm.mem_iff.mp he)
    | some e =>
      have hc : e.Covers m := by simpa using List.find?_some hm
      exact find?_covers hd' (hperm.mem_iff.mpr (List.mem_of_find?_eq_some hm)) hc
  rw [applyAll, applyFrom_eq hf' hdesc t [] (by simp) hin, hsame, List.append_nil]

lemma applyAll_singleton {a x b : Text} {e : Edit} (hx : x ≠ []) (hspan : e.span = ⟨a.bytes, a.bytes + x.bytes⟩) :
    applyAll (a ++ x ++ b) [e] = .ok (a ++ e.replacement.toList ++ b) := by
  have hfits : e.Fits (a ++ x ++ b) := ⟨x, hx, hspan ▸ Text.slice?_bytes a x b⟩
  have hapart : [e].Pairwise Apart := List.pairwise_singleton _ _
  have hstart : e.span.start = a.bytes := congrArg Span.start hspan
  have hstop : e.span.stop = a.bytes + x.bytes := congrArg Span.stop hspan
  have hfront : rewritten [e] 0 a = a := by
    apply rewritten_of_not_covers
    rintro d hd n - hn ⟨hle, -⟩
    rw [List.mem_singleton.mp hd] at hle
    omega
  have hmid : rewritten [e] a.bytes x = e.replacement.toList := by
    rw [← hstart]
    exact rewritten_start hapart List.mem_cons_self hx (by omega)
  have hbehind : rewritten [e] (a.bytes + x.bytes) b = b := by
    apply rewritten_of_not_covers
    rintro d hd n hle - ⟨-, hlt⟩
    rw [List.mem_singleton.mp hd] at hlt
    omega
  rw [applyAll_eq_rewritten (List.forall_mem_singleton.mpr hfits) hapart, rewritten_append,
    rewritten_append, Nat.zero_add, Nat.zero_add, hfront, hmid, Text.bytes_append, hbehind]

end Edit

end DotMend
