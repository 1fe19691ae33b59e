import Mathlib.Data.List.Infix

/-! Words and their occurrences: the last occurrence of a word, the replacement of the first one, and
    words that do not overlap themselves. -/

namespace Words
variable {α : Type} {a b s v w : List α}

/-! ### Words that do not overlap themselves -/

/-- No proper end of `w` is a beginning of `w`, so two occurrences of `w` never overlap. -/
def Unbordered (w : List α) : Prop := ∀ k < w.length, 0 < k → ¬ w.drop k <+: w

instance [DecidableEq α] (w : List α) : Decidable (Unbordered w) :=
  inferInstanceAs (Decidable (∀ k < w.length, 0 < k → ¬ w.drop k <+: w))

theorem Unbordered.no_border {u x y : List α} (hw : Unbordered w) (hx : x ≠ []) (hy : y ≠ [])
    (hl : w = u ++ x) (hr : w = x ++ y) : False := by
  have hlen := congrArg List.length (hl.symm.trans hr)
  have hxl := List.length_pos_iff.mpr hx
  have hyl := List.length_pos_iff.mpr hy
  simp only [List.length_append] at hlen
  refine hw u.length ?_ (by omega) ?_
  · rw [hl, List.length_append]
    omega
  · have hdrop : w.drop u.length = x := by rw [hl, List.drop_left]
    rw [hdrop]
    exact ⟨y, hr.symm⟩

/-- After an occurrence has begun, the next one begins after its end. -/
theorem Unbordered.infix_tail (hw : Unbordered w) (h : w <:+: (w ++ b).tail) : w <:+: b := by
  cases w with
  | nil => exact List.nil_infix
  | cons c t =>
    rw [List.cons_append, List.tail_cons] at h
    rcases List.infix_append_iff_ne_nil.mp h with ht | hb | ⟨x, y, hx, hy, heq, ⟨u, hu⟩, -⟩
    · exact absurd ht.length_le (by simp)
    · exact hb
    · exact (hw.no_border (u := c :: u) hx hy (by rw [List.cons_append, hu]) heq).elim

/-- Before an occurrence ends, the previous one has ended before its beginning. -/
theorem Unbordered.infix_dropLast (hw : Unbordered w) (h : w <:+: (a ++ w).dropLast) : w <:+: a := by
  rcases List.eq_nil_or_concat' w with rfl | ⟨t, c, rfl⟩
  · exact List.nil_infix
  · rw [← List.append_assoc, List.dropLast_concat] at h
    rcases List.infix_append_iff_ne_nil.mp h with ha | ht | ⟨x, y, hx, hy, heq, -, ⟨u, hu⟩⟩
    · exact ha
    · exact absurd ht.length_le (by simp)
    · exact (hw.no_border (u := x) (y := u ++ [c]) hy (by simp) heq (by rw [← List.append_assoc, hu])).elim

/-- A word without the letter `c` does not reach across it. -/
theorem infix_append_cons {c : α} (hc : c ∉ w) (h : w <:+: a ++ c :: b) : w <:+: a ∨ w <:+: b := by
  rcases List.infix_append_iff_ne_nil.mp h with ha | hb | ⟨x, y, -, hy, heq, -, ⟨u, hu⟩⟩
  · exact Or.inl ha
  · rcases List.infix_cons_iff.mp hb with ⟨u, hu⟩ | hb
    · cases w with
      | nil => exact Or.inl List.nil_infix
      | cons d w =>
        obtain ⟨rfl, -⟩ := List.cons_eq_cons.mp hu
        exact absurd List.mem_cons_self hc
    · exact Or.inr hb
  · cases y with
    | nil => exact absurd rfl hy
    | cons d y =>
      obtain ⟨rfl, -⟩ := List.cons_eq_cons.mp hu
      exact absurd (by simp [heq]) hc

theorem suffix_append_cons {c : α} (hc : c ∉ w) : w <:+ a ++ c :: b ↔ w <:+ b := by
  constructor
  · rintro ⟨u, hu⟩
    rcases List.append_eq_append_iff.mp hu with ⟨x, -, hx⟩ | ⟨x, -, hx⟩
    · cases x with
      | nil =>
        rw [List.nil_append] at hx
        exact absurd (by rw [hx]; exact List.mem_cons_self) hc
      | cons d x => exact absurd (by rw [hx]; simp) hc
    · cases x with
      | nil => exact absurd (by rw [← List.nil_append w, ← hx]; exact List.mem_cons_self) hc
      | cons d x =>
        obtain ⟨-, hx⟩ := List.cons_eq_cons.mp hx
        exact ⟨x, hx.symm⟩
  · exact fun h => h.trans ((List.suffix_cons c b).trans (List.suffix_append a _))

theorem eq_of_append_cons {c : α} {a' b' : List α} (hb : c ∉ b) (hb' : c ∉ b')
    (h : a ++ c :: b = a' ++ c :: b') : a = a' ∧ b = b' := by
  rcases List.append_eq_append_iff.mp h with ⟨x, rfl, hx⟩ | ⟨x, rfl, hx⟩
  · cases x with
    | nil => exact ⟨(List.append_nil a).symm, (List.cons_eq_cons.mp hx).2⟩
    | cons d x =>
      obtain ⟨-, rfl⟩ := List.cons_eq_cons.mp hx
      exact absurd (by simp) hb
  · cases x with
    | nil => exact ⟨List.append_nil a', (List.cons_eq_cons.mp hx).2.symm⟩
    | cons d x =>
      obtain ⟨-, rfl⟩ := List.cons_eq_cons.mp hx
      exact absurd (by simp) hb'

section Search
variable [DecidableEq α]

/-! ### The last occurrence -/

def lastIndex? (w : List α) : List α → Option Nat
  | [] => if w = [] then some 0 else none
  | c :: s =>
    match lastIndex? w s with
    | some k => some (k + 1)
    | none => if w <+: c :: s then some 0 else none

theorem lastIndex?_eq_none : lastIndex? w s = none ↔ ¬ w <:+: s := by
  induction s with
  | nil => simp [lastIndex?]
  | cons c s ih =>
    rw [lastIndex?, List.infix_cons_iff]
    cases h : lastIndex? w s with
    | some k =>
      have : w <:+: s := by
        by_contra hn
        rw [ih.mpr hn] at h
        cases h
      simp [this]
    | none => simp [ih.mp h]

/-- An occurrence after whose beginning no other one begins is the last. -/
theorem lastIndex?_append (hw : w ≠ []) (h : ¬ w <:+: (w ++ b).tail) :
    lastIndex? w (a ++ w ++ b) = some a.length := by
  induction a with
  | nil =>
    cases w with
    | nil => exact absurd rfl hw
    | cons c t =>
      rw [List.cons_append, List.tail_cons] at h
      rw [List.nil_append, List.cons_append, lastIndex?, lastIndex?_eq_none.mpr h]
      simp
  | cons c a ih => simp only [List.cons_append, lastIndex?, ih, List.length_cons]

theorem exists_last (hw : w ≠ []) (h : w <:+: s) : ∃ a b, s = a ++ w ++ b ∧ ¬ w <:+: (w ++ b).tail := by
  induction s with
  | nil => exact absurd (List.infix_nil.mp h) hw
  | cons c s ih =>
    by_cases hs : w <:+: s
    · obtain ⟨a, b, rfl, hb⟩ := ih hs
      exact ⟨c :: a, b, rfl, hb⟩
    · obtain ⟨b, hb⟩ := (List.infix_cons_iff.mp h).resolve_right hs
      exact ⟨[], b, hb.symm, by rwa [hb]⟩

/-! ### Replacing the first occurrence -/

/-- `v` in place of the first occurrence of `w`. -/
def replaceFirst (w v : List α) : List α → List α
  | [] => if w = [] then v else []
  | c :: s => if w <+: c :: s then v ++ (c :: s).drop w.length else c :: replaceFirst w v s

theorem replaceFirst_of_absent (h : ¬ w <:+: s) : replaceFirst w v s = s := by
  induction s with
  | nil =>
    have : w ≠ [] := fun hw => h (by rw [hw])
    simp [replaceFirst, this]
  | cons c s ih =>
    rw [List.infix_cons_iff, not_or] at h
    rw [replaceFirst, if_neg h.1, ih h.2]

/-- The last letter stays, or is the last one of the new word. -/
theorem getLast?_replaceFirst (hs : s ≠ []) (hv : v ≠ []) :
    (replaceFirst w v s).getLast? = s.getLast? ∨ (replaceFirst w v s).getLast? = v.getLast? := by
  induction s with
  | nil => exact absurd rfl hs
  | cons c s ih =>
    rw [replaceFirst]
    split
    · by_cases hdrop : (c :: s).drop w.length = []
      · rw [hdrop, List.append_nil]
        exact Or.inr rfl
      · rw [List.getLast?_append_of_ne_nil _ hdrop]
        obtain ⟨front, hfront⟩ := List.drop_suffix w.length (c :: s)
        have hlast := congrArg List.getLast? hfront
        rw [List.getLast?_append_of_ne_nil _ hdrop] at hlast
        exact Or.inl hlast
    · next hpre =>
      by_cases hnil : s = []
      · subst hnil
        have hw : w ≠ [] := fun h => hpre (h ▸ List.nil_prefix)
        rw [replaceFirst, if_neg hw]
        exact Or.inl rfl
      · have hne : replaceFirst w v s ≠ [] := fun h => by
          rcases ih hnil with hlast | hlast <;> rw [h] at hlast
          · exact hnil (List.getLast?_eq_none_iff.mp hlast.symm)
          · exact hv (List.getLast?_eq_none_iff.mp hlast.symm)
        have hcons : ∀ t : List α, t ≠ [] → (c :: t).getLast? = t.getLast? := fun t ht =>
          List.getLast?_append_of_ne_nil [c] ht
        rw [hcons _ hne, hcons _ hnil]
        exact ih hnil

theorem mem_replaceFirst {c : α} (h : c ∈ replaceFirst w v s) : c ∈ v ∨ c ∈ s := by
  induction s with
  | nil =>
    rw [replaceFirst] at h
    split at h
    · exact Or.inl h
    · cases h
  | cons d s ih =>
    rw [replaceFirst] at h
    split at h
    · exact (List.mem_append.mp h).imp_right fun h => (List.drop_suffix _ _).subset h
    · rcases List.mem_cons.mp h with rfl | h
      · exact Or.inr List.mem_cons_self
      · exact (ih h).imp_right (List.mem_cons_of_mem d)

/-- An occurrence before whose end no other one ends is the first. -/
theorem replaceFirst_append (hw : w ≠ []) (h : ¬ w <:+: (a ++ w).dropLast) :
    replaceFirst w v (a ++ w ++ b) = a ++ v ++ b := by
  induction a with
  | nil =>
    cases w with
    | nil => exact absurd rfl hw
    | cons c t =>
      have hp : (c :: t) <+: c :: (t ++ b) := ⟨b, rfl⟩
      simp [replaceFirst, hp]
  | cons c a ih =>
    have hne : a ++ w ≠ [] := by simp [hw]
    rw [List.cons_append, List.dropLast_cons_of_ne_nil hne, List.infix_cons_iff, not_or] at h
    have hp : ¬ w <+: c :: (a ++ w ++ b) := fun hp => by
      refine h.1 (List.prefix_of_prefix_length_le hp ?_ ?_)
      · exact List.prefix_cons_inj c |>.mpr ((List.dropLast_prefix _).trans (List.prefix_append _ _))
      · have := List.length_pos_iff.mpr hw
        simp only [List.length_cons, List.length_dropLast, List.length_append]
        omega
    simp only [List.cons_append, replaceFirst, hp, if_false, ih h.2]

theorem exists_first (hw : w ≠ []) (h : w <:+: s) :
    ∃ a b, s = a ++ w ++ b ∧ ¬ w <:+: (a ++ w).dropLast := by
  induction s with
  | nil => exact absurd (List.infix_nil.mp h) hw
  | cons c s ih =>
    by_cases hp : w <+: c :: s
    · obtain ⟨b, hb⟩ := hp
      refine ⟨[], b, hb.symm, fun hi => ?_⟩
      have hl := hi.length_le
      have := List.length_pos_iff.mpr hw
      simp only [List.nil_append, List.length_dropLast] at hl
      omega
    · obtain ⟨a, b, rfl, hb⟩ := ih ((List.infix_cons_iff.mp h).resolve_left hp)
      refine ⟨c :: a, b, rfl, ?_⟩
      have hne : a ++ w ≠ [] := by simp [hw]
      rw [List.cons_append, List.dropLast_cons_of_ne_nil hne, List.infix_cons_iff, not_or]
      refine ⟨fun hi => hp (hi.trans ?_), hb⟩
      exact List.prefix_cons_inj c |>.mpr ((List.dropLast_prefix _).trans (List.prefix_append _ _))

theorem length_replaceFirst (hl : v.length = w.length) : (replaceFirst w v s).length = s.length := by
  by_cases hw : w = []
  · have hv : v = [] := List.length_eq_zero_iff.mp (by rw [hl, hw, List.length_nil])
    cases s <;> simp [replaceFirst, hw, hv]
  · by_cases hs : w <:+: s
    · obtain ⟨a, b, rfl, h⟩ := exists_first hw hs
      rw [replaceFirst_append hw h]
      simp [hl]
    · rw [replaceFirst_of_absent hs]

/-! ### Equal replacements -/

/-- The first `w` of `s` stands where `t` has `v`, and the first `w` of `t` stands later, where `s` has `v`. -/
def Swapped (w v s t : List α) : Prop :=
  ∃ a b c, s = a ++ w ++ b ++ v ++ c ∧ t = a ++ v ++ b ++ w ++ c ∧ ¬ w <:+: a ++ v ++ b

omit [DecidableEq α] in
/-- Where two texts end in the same way after `a` and after `a ++ x`, both with `v` in between, the second `v`
    begins after the first. -/
theorem append_eq_append_of_unbordered {x b' : List α} (hv : Unbordered v) (hx : x ≠ [])
    (h : v ++ b = x ++ (v ++ b')) : ∃ y, x = v ++ y ∧ b = y ++ (v ++ b') := by
  rcases List.append_eq_append_iff.mp h with ⟨y, hxy, hb⟩ | ⟨y, hvy, hy⟩
  · exact ⟨y, hxy, hb⟩
  · by_cases hne : y = []
    · subst hne
      rw [List.append_nil] at hvy
      exact ⟨[], by rw [List.append_nil, hvy], by simpa using hy.symm⟩
    · -- A part of `v` would be both its end and its beginning.
      have hlen := congrArg List.length hvy
      have hxl := List.length_pos_iff.mpr hx
      rw [List.length_append] at hlen
      obtain ⟨z, hz⟩ : y <+: v := List.prefix_of_prefix_length_le ⟨b, hy.symm⟩ ⟨b', rfl⟩ (by omega)
      have hzne : z ≠ [] := by
        rintro rfl
        rw [List.append_nil] at hz
        rw [hz] at hlen
        omega
      exact (hv.no_border hne hzne hvy hz.symm).elim

theorem replaceFirst_of_swapped {t : List α} (hw : w ≠ []) (hu : Unbordered w) (h : Swapped w v s t) :
    replaceFirst w v s = replaceFirst w v t := by
  obtain ⟨a, b, c, rfl, rfl, habs⟩ := h
  have hs : ¬ w <:+: (a ++ w).dropLast := fun h => habs <| by
    rw [List.append_assoc]
    exact (hu.infix_dropLast h).trans (List.prefix_append _ _).isInfix
  have ht : ¬ w <:+: (a ++ v ++ b ++ w).dropLast := fun h => habs (hu.infix_dropLast h)
  have hassoc : a ++ w ++ b ++ v ++ c = a ++ w ++ (b ++ v ++ c) := by simp
  rw [hassoc, replaceFirst_append hw hs, replaceFirst_append hw ht]
  simp

omit [DecidableEq α] in
theorem eq_or_swapped {t a' b' : List α} (hw : w ≠ []) (hv : Unbordered v)
    (ht : ¬ w <:+: (a' ++ w).dropLast) (hle : a.length ≤ a'.length) (heq : a ++ v ++ b = a' ++ v ++ b')
    (hs : s = a ++ w ++ b) (ht' : t = a' ++ w ++ b') : s = t ∨ Swapped w v s t := by
  have hbegins : ∀ c d : List α, c <+: c ++ v ++ d := fun c d => by
    rw [List.append_assoc]
    exact List.prefix_append _ _
  obtain ⟨x, rfl⟩ := List.prefix_of_prefix_length_le (heq ▸ hbegins a b) (hbegins a' b') hle
  simp only [List.append_assoc, List.append_cancel_left_eq] at heq
  by_cases hx : x = []
  · subst hx
    rw [List.nil_append, List.append_cancel_left_eq] at heq
    exact Or.inl (by rw [hs, ht', heq, List.append_nil])
  · obtain ⟨y, rfl, rfl⟩ := append_eq_append_of_unbordered hv hx heq
    refine Or.inr ⟨a, y, b', by simp [hs], by simp [ht'], fun h => ht ?_⟩
    rw [List.dropLast_append_of_ne_nil hw]
    exact (by simpa using h : w <:+: a ++ (v ++ y)).trans (List.prefix_append _ _).isInfix

/-- If neither word overlaps itself, two texts become equal exactly when they are equal or differ in that the first
    `w` of each is a `v` of the other. -/
theorem replaceFirst_eq_iff {t : List α} (hw : w ≠ []) (hu : Unbordered w) (hv : Unbordered v)
    (h : w <:+: s ↔ w <:+: t) :
    replaceFirst w v s = replaceFirst w v t ↔ s = t ∨ Swapped w v s t ∨ Swapped w v t s := by
  constructor
  · intro heq
    by_cases hs : w <:+: s
    · obtain ⟨a, b, hsplit, ha⟩ := exists_first hw hs
      obtain ⟨a', b', hsplit', ha'⟩ := exists_first hw (h.mp hs)
      rw [hsplit, hsplit', replaceFirst_append hw ha, replaceFirst_append hw ha'] at heq
      rcases Nat.le_total a.length a'.length with hle | hle
      · exact (eq_or_swapped hw hv ha' hle heq hsplit hsplit').imp_right Or.inl
      · exact (eq_or_swapped hw hv ha hle heq.symm hsplit' hsplit).imp Eq.symm Or.inr
    · rw [replaceFirst_of_absent hs, replaceFirst_of_absent (fun ht => hs (h.mpr ht))] at heq
      exact Or.inl heq
  · rintro (rfl | hswap | hswap)
    · rfl
    · exact replaceFirst_of_swapped hw hu hswap
    · exact (replaceFirst_of_swapped hw hu hswap).symm

end Search

end Words
