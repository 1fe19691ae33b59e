import Mathlib.Data.List.Infix

/-! Text formats that can be read back: a writer with a reader that takes one value from the front of any
    text beginning with it, and leaves the rest. A format carries this law, so texts written one after
    another are read back one after another, and no text of a format begins another one. -/

namespace Formats

structure Format (α β : Type) where
  write : β → List α
  read : List α → Option (β × List α)
  read_write : ∀ b rest, read (write b ++ rest) = some (b, rest)

namespace Format
variable {α β γ : Type}

section Laws
variable (F : Format α β)

theorem write_append_inj {b b' : β} {r r' : List α} (h : F.write b ++ r = F.write b' ++ r') : b = b' ∧ r = r' := by
  have hr := F.read_write b r
  rw [h, F.read_write] at hr
  obtain ⟨rfl, rfl⟩ := Prod.mk.injEq _ _ _ _ ▸ Option.some.inj hr
  exact ⟨rfl, rfl⟩

/-- No text of a format begins another one. -/
theorem eq_of_write_prefix {b b' : β} (h : F.write b <+: F.write b') : b = b' := by
  obtain ⟨r, hr⟩ := h
  have hr' : F.write b ++ r = F.write b' ++ [] := by rw [hr, List.append_nil]
  exact (F.write_append_inj hr').1

theorem write_injective : Function.Injective F.write := fun _ _ h =>
  F.eq_of_write_prefix (h ▸ List.prefix_rfl)

end Laws

section Combinators
variable [DecidableEq α]

def after (w : List α) (F : Format α β) : Format α β where
  write b := w ++ F.write b
  read s := if w <+: s then F.read (s.drop w.length) else none
  read_write b rest := by
    rw [List.append_assoc, if_pos (List.prefix_append _ _), List.drop_left, F.read_write]

def before (F : Format α β) (w : List α) : Format α β where
  write b := F.write b ++ w
  read s := (F.read s).bind fun r => if w <+: r.2 then some (r.1, r.2.drop w.length) else none
  read_write b rest := by
    rw [List.append_assoc, F.read_write, Option.bind_some, if_pos (List.prefix_append _ _), List.drop_left]

def pair (F : Format α β) (G : Format α γ) : Format α (β × γ) where
  write b := F.write b.1 ++ G.write b.2
  read s := (F.read s).bind fun r => (G.read r.2).map fun t => ((r.1, t.1), t.2)
  read_write b rest := by
    rw [List.append_assoc, F.read_write, Option.bind_some, G.read_write, Option.map_some]

/-- The same texts for the values of another type. -/
def rename (F : Format α β) (f : β → γ) (g : γ → β) (h : ∀ c, f (g c) = c) : Format α γ where
  write c := F.write (g c)
  read s := (F.read s).map fun r => (f r.1, r.2)
  read_write c rest := by rw [F.read_write, Option.map_some, h]

/-- A number in digits, up to a letter that is not a digit. -/
def numeral (digits : Nat → List α) (value : List α → Nat) (isDigit : α → Bool) (stop : α)
    (hvalue : ∀ n, value (digits n) = n) (hdigits : ∀ n, ∀ c ∈ digits n, isDigit c = true)
    (hne : ∀ n, digits n ≠ []) (hstop : isDigit stop = false) : Format α Nat where
  write n := digits n ++ [stop]
  read s :=
    match s.dropWhile isDigit with
    | [] => none
    | c :: rest =>
      if s.takeWhile isDigit ≠ [] ∧ c = stop then some (value (s.takeWhile isDigit), rest) else none
  read_write n rest := by
    have ht : (digits n ++ [stop] ++ rest).takeWhile isDigit = digits n := by
      rw [List.append_assoc, List.takeWhile_append_of_pos (hdigits n)]
      simp [hstop]
    have hd : (digits n ++ [stop] ++ rest).dropWhile isDigit = stop :: rest := by
      rw [List.append_assoc, List.dropWhile_append_of_pos (hdigits n)]
      simp [hstop]
    simp only [ht, hd]
    rw [if_pos ⟨hne n, trivial⟩, hvalue]

def block (N : Format α Nat) : Format α (List α) where
  write v := N.write v.length ++ v
  read s := (N.read s).bind fun r => if r.1 ≤ r.2.length then some (r.2.take r.1, r.2.drop r.1) else none
  read_write v rest := by
    rw [List.append_assoc, N.read_write, Option.bind_some, if_pos (by simp), List.take_left, List.drop_left]

/-- Texts of two formats; those of the second are not taken for any of the first. -/
def choice (F : Format α β) (G : Format α γ) (h : ∀ c rest, F.read (G.write c ++ rest) = none) : Format α (β ⊕ γ) where
  write
    | .inl b => F.write b
    | .inr c => G.write c
  read s :=
    match F.read s with
    | some r => some (.inl r.1, r.2)
    | none => (G.read s).map fun r => (.inr r.1, r.2)
  read_write v rest := by
    cases v with
    | inl b => rw [F.read_write]
    | inr c => rw [h, G.read_write, Option.map_some]

section Pairs
variable {F : Format α β} {G : Format α γ} {s : List α} {b : β}

omit [DecidableEq α] in
theorem pair_read_of_none (h : F.read s = none) : (F.pair G).read s = none := by simp [pair, h]

omit [DecidableEq α] in
theorem pair_read_write_of_none (h : G.read s = none) : (F.pair G).read (F.write b ++ s) = none := by
  simp [pair, F.read_write, h]

end Pairs

/-! ### What is read stands in the text -/

/-- What is read stands in the text: the letters of the value are letters of the text, and so are those that are
    left, and the value has no longer text of its own. -/
def Yields (F : Format α β) (letters : β → List α) : Prop :=
  ∀ ⦃s : List α⦄ ⦃b : β⦄ ⦃rest : List α⦄, F.read s = some (b, rest) →
    letters b ⊆ s ∧ rest ⊆ s ∧ (F.write b).length + rest.length ≤ s.length

section Yields
variable {F : Format α β} {G : Format α γ} {letters : β → List α} {letters' : γ → List α}

theorem Yields.after (h : F.Yields letters) (w : List α) : (F.after w).Yields letters := by
  intro s b rest hr
  simp only [Format.after, Option.ite_none_right_eq_some] at hr
  obtain ⟨⟨t, rfl⟩, hread⟩ := hr
  rw [List.drop_left] at hread
  obtain ⟨hb, hrest, hlen⟩ := h hread
  have ht := List.subset_append_right w t
  refine ⟨List.Subset.trans hb ht, List.Subset.trans hrest ht, ?_⟩
  simp only [Format.after, List.length_append]
  omega

theorem Yields.before (h : F.Yields letters) (w : List α) : (F.before w).Yields letters := by
  intro s b rest hr
  obtain ⟨⟨b', rest'⟩, hread, hw⟩ := Option.bind_eq_some_iff.mp hr
  simp only [Option.ite_none_right_eq_some, Option.some.injEq, Prod.mk.injEq] at hw
  obtain ⟨⟨t, rfl⟩, rfl, rfl⟩ := hw
  obtain ⟨hb, hrest, hlen⟩ := h hread
  refine ⟨hb, List.Subset.trans (List.drop_subset _ _) hrest, ?_⟩
  simp only [Format.before, List.drop_left, List.length_append] at hlen ⊢
  omega

omit [DecidableEq α] in
theorem Yields.pair (hF : F.Yields letters) (hG : G.Yields letters') :
    (F.pair G).Yields fun b => letters b.1 ++ letters' b.2 := by
  intro s b rest hr
  obtain ⟨⟨b', rest'⟩, hread, ht⟩ := Option.bind_eq_some_iff.mp hr
  obtain ⟨⟨c, rest''⟩, hread', heq⟩ := Option.map_eq_some_iff.mp ht
  obtain ⟨rfl, rfl⟩ := Prod.mk.injEq _ _ _ _ ▸ heq
  obtain ⟨hb, hrest, hlen⟩ := hF hread
  obtain ⟨hc, hrest', hlen'⟩ := hG hread'
  refine ⟨List.append_subset.mpr ⟨hb, List.Subset.trans hc hrest⟩, List.Subset.trans hrest' hrest, ?_⟩
  simp only [Format.pair, List.length_append] at hlen hlen' ⊢
  omega

omit [DecidableEq α] in
theorem Yields.rename {f : β → γ} {g : γ → β} {hfg : ∀ c, f (g c) = c} (h : F.Yields letters)
    (hgf : ∀ b, g (f b) = b) (hf : ∀ b, letters' (f b) = letters b) : (F.rename f g hfg).Yields letters' := by
  intro s c rest hr
  obtain ⟨⟨b, rest'⟩, hread, heq⟩ := Option.map_eq_some_iff.mp hr
  obtain ⟨rfl, rfl⟩ := Prod.mk.injEq _ _ _ _ ▸ heq
  obtain ⟨hb, hrest, hlen⟩ := h hread
  refine ⟨hf b ▸ hb, hrest, ?_⟩
  simpa only [Format.rename, hgf] using hlen

omit [DecidableEq α] in
theorem Yields.block {N : Format α Nat} (h : N.Yields fun _ => []) : (Format.block N).Yields id := by
  intro s v rest hr
  obtain ⟨⟨n, t⟩, hread, hle⟩ := Option.bind_eq_some_iff.mp hr
  simp only [Option.ite_none_right_eq_some, Option.some.injEq, Prod.mk.injEq] at hle
  obtain ⟨hn, rfl, rfl⟩ := hle
  obtain ⟨-, hrest, hlen⟩ := h hread
  refine ⟨List.Subset.trans (List.take_subset n t) hrest, List.Subset.trans (List.drop_subset n t) hrest, ?_⟩
  simp only [Format.block, List.length_append, List.length_take, List.length_drop, Nat.min_eq_left hn] at hlen ⊢
  omega

omit [DecidableEq α] in
theorem Yields.choice {hFG : ∀ c rest, F.read (G.write c ++ rest) = none} (hF : F.Yields letters)
    (hG : G.Yields letters') : (F.choice G hFG).Yields (Sum.elim letters letters') := by
  intro s v rest hr
  simp only [Format.choice] at hr
  split at hr
  · rename_i r hread
    obtain ⟨rfl, rfl⟩ := Prod.mk.injEq _ _ _ _ ▸ Option.some.inj hr
    exact hF hread
  · obtain ⟨⟨c, rest'⟩, hread, heq⟩ := Option.map_eq_some_iff.mp hr
    obtain ⟨rfl, rfl⟩ := Prod.mk.injEq _ _ _ _ ▸ heq
    exact hG hread

section Numerals
variable {digits : Nat → List α} {value : List α → Nat} {isDigit : α → Bool} {stop : α}
  {hvalue : ∀ n, value (digits n) = n} {hdigits : ∀ n, ∀ c ∈ digits n, isDigit c = true} {hne : ∀ n, digits n ≠ []}
  {hstop : isDigit stop = false}

theorem numeral_read_iff {s : List α} {n : Nat} {rest : List α} :
    (numeral digits value isDigit stop hvalue hdigits hne hstop).read s = some (n, rest) ↔
      ∃ ds, ds ≠ [] ∧ (∀ c ∈ ds, isDigit c = true) ∧ s = ds ++ stop :: rest ∧ value ds = n := by
  simp only [numeral]
  constructor
  · intro hr
    have hsplit := List.takeWhile_append_dropWhile (p := isDigit) (l := s)
    split at hr
    · cases hr
    · rename_i c t ht
      simp only [Option.ite_none_right_eq_some, Option.some.injEq, Prod.mk.injEq] at hr
      obtain ⟨⟨hds, rfl⟩, hn, rfl⟩ := hr
      rw [ht] at hsplit
      exact ⟨_, hds, fun c hc => List.all_eq_true.mp List.all_takeWhile c hc, hsplit.symm, hn⟩
  · rintro ⟨ds, hds, hall, rfl, rfl⟩
    have htake : (ds ++ stop :: rest).takeWhile isDigit = ds := by
      rw [List.takeWhile_append_of_pos hall]
      simp [hstop]
    have hdrop : (ds ++ stop :: rest).dropWhile isDigit = stop :: rest := by
      rw [List.dropWhile_append_of_pos hall]
      simp [hstop]
    simp only [htake, hdrop]
    rw [if_pos ⟨hds, trivial⟩]

/-- A number is read from no fewer digits than it is written in. -/
theorem yields_numeral
    (hmin : ∀ ds, ds ≠ [] → (∀ c ∈ ds, isDigit c = true) → (digits (value ds)).length ≤ ds.length) :
    (numeral digits value isDigit stop hvalue hdigits hne hstop).Yields fun _ => [] := by
  intro s n rest hr
  obtain ⟨ds, hds, hall, rfl, rfl⟩ := numeral_read_iff.mp hr
  refine ⟨List.nil_subset _, ?_, ?_⟩
  · exact List.Subset.trans (List.subset_cons_self stop rest) (List.subset_append_right _ _)
  · have := hmin ds hds hall
    simp only [numeral, List.length_append, List.length_cons, List.length_nil]
    omega

end Numerals

end Yields

/-! ### What follows what is read -/

/-- What is read from a text is read from every longer one. -/
def Steady (F : Format α β) : Prop :=
  ∀ ⦃s : List α⦄ ⦃b : β⦄ ⦃rest : List α⦄, F.read s = some (b, rest) → ∀ t, F.read (s ++ t) = some (b, rest ++ t)

section Steady
variable {F : Format α β} {G : Format α γ}

theorem Steady.after (h : F.Steady) (w : List α) : (F.after w).Steady := by
  intro s b rest hr t
  simp only [Format.after, Option.ite_none_right_eq_some] at hr ⊢
  obtain ⟨⟨u, rfl⟩, hread⟩ := hr
  rw [List.drop_left] at hread
  rw [List.append_assoc, List.drop_left]
  exact ⟨List.prefix_append _ _, h hread t⟩

theorem Steady.before (h : F.Steady) (w : List α) : (F.before w).Steady := by
  intro s b rest hr t
  obtain ⟨⟨b', rest'⟩, hread, hw⟩ := Option.bind_eq_some_iff.mp hr
  simp only [Option.ite_none_right_eq_some, Option.some.injEq, Prod.mk.injEq] at hw
  obtain ⟨⟨u, rfl⟩, rfl, rfl⟩ := hw
  simp only [Format.before]
  rw [h hread t, Option.bind_some, List.append_assoc, if_pos (List.prefix_append _ _), List.drop_left, List.drop_left]

omit [DecidableEq α] in
theorem Steady.pair (hF : F.Steady) (hG : G.Steady) : (F.pair G).Steady := by
  intro s b rest hr t
  obtain ⟨⟨b', rest'⟩, hread, ht⟩ := Option.bind_eq_some_iff.mp hr
  obtain ⟨⟨c, rest''⟩, hread', heq⟩ := Option.map_eq_some_iff.mp ht
  obtain ⟨rfl, rfl⟩ := Prod.mk.injEq _ _ _ _ ▸ heq
  simp only [Format.pair]
  rw [hF hread t, Option.bind_some, hG hread' t, Option.map_some]

omit [DecidableEq α] in
theorem Steady.rename {f : β → γ} {g : γ → β} {hfg : ∀ c, f (g c) = c} (h : F.Steady) : (F.rename f g hfg).Steady := by
  intro s c rest hr t
  obtain ⟨⟨b, rest'⟩, hread, heq⟩ := Option.map_eq_some_iff.mp hr
  obtain ⟨rfl, rfl⟩ := Prod.mk.injEq _ _ _ _ ▸ heq
  simp only [Format.rename]
  rw [h hread t, Option.map_some]

omit [DecidableEq α] in
theorem Steady.block {N : Format α Nat} (h : N.Steady) : (Format.block N).Steady := by
  intro s v rest hr t
  obtain ⟨⟨n, u⟩, hread, hle⟩ := Option.bind_eq_some_iff.mp hr
  simp only [Option.ite_none_right_eq_some, Option.some.injEq, Prod.mk.injEq] at hle
  obtain ⟨hn, rfl, rfl⟩ := hle
  simp only [Format.block]
  rw [h hread t, Option.bind_some, if_pos (by simp only [List.length_append]; omega),
    List.take_append_of_le_length hn, List.drop_append_of_le_length hn]

theorem steady_numeral {digits : Nat → List α} {value : List α → Nat} {isDigit : α → Bool} {stop : α}
    {hvalue : ∀ n, value (digits n) = n} {hdigits : ∀ n, ∀ c ∈ digits n, isDigit c = true}
    {hne : ∀ n, digits n ≠ []} {hstop : isDigit stop = false} :
    (numeral digits value isDigit stop hvalue hdigits hne hstop).Steady := by
  intro s n rest hr t
  obtain ⟨ds, hds, hall, rfl, rfl⟩ := numeral_read_iff.mp hr
  exact numeral_read_iff.mpr ⟨ds, hds, hall, List.append_assoc _ _ _, rfl⟩

omit [DecidableEq α] in
/-- What is read from the beginning of a text is what has been written there, if it is whole. -/
theorem Steady.eq_of_read (h : F.Steady) {b c : β} {r left rest : List α} (hleft : left <+: F.write b ++ r)
    (hread : F.read left = some (c, rest)) : c = b ∧ left = F.write b ++ rest ∧ rest <+: r := by
  obtain ⟨t, ht⟩ := hleft
  have hlong := h hread t
  rw [ht, F.read_write] at hlong
  obtain ⟨rfl, rfl⟩ := Prod.mk.injEq _ _ _ _ ▸ Option.some.inj hlong
  rw [← List.append_assoc] at ht
  exact ⟨rfl, List.append_cancel_right ht, List.prefix_append _ _⟩

end Steady

end Combinators

/-! ### Sequences -/

section Sequences
variable (F : Format α β)

/-- Values one after another until the text ends, with fuel for their number. -/
def readMany : Nat → List α → Option (List β)
  | 0, s => if s.isEmpty then some [] else none
  | fuel + 1, s => if s.isEmpty then some [] else (F.read s).bind fun r => (readMany fuel r.2).map (r.1 :: ·)

def readAll (s : List α) : Option (List β) := F.readMany s.length s

theorem readMany_write (hne : ∀ b, F.write b ≠ []) {bs : List β} {fuel : Nat} (hf : bs.length ≤ fuel) :
    F.readMany fuel (bs.flatMap F.write) = some bs := by
  induction bs generalizing fuel with
  | nil => cases fuel <;> rfl
  | cons b bs ih =>
    obtain ⟨fuel, rfl⟩ := Nat.exists_eq_add_of_le' ((Nat.le_add_left 1 _).trans hf)
    have hs : (F.write b ++ bs.flatMap F.write).isEmpty = false := by simp [hne b]
    rw [List.flatMap_cons, readMany, hs, F.read_write, Option.bind_some, ih (Nat.le_of_succ_le_succ hf)]
    rfl

/-- What is written value by value is read back as a whole. -/
theorem readAll_write (hne : ∀ b, F.write b ≠ []) (bs : List β) : F.readAll (bs.flatMap F.write) = some bs := by
  refine F.readMany_write hne ?_
  induction bs with
  | nil => exact Nat.le_refl 0
  | cons b bs ih =>
    have := List.length_pos_iff.mpr (hne b)
    rw [List.flatMap_cons, List.length_append, List.length_cons]
    omega

variable {F} in
theorem Yields.readMany {letters : β → List α} (h : F.Yields letters) {fuel : Nat} {s : List α} {bs : List β}
    (hr : F.readMany fuel s = some bs) :
    (∀ b ∈ bs, letters b ⊆ s) ∧ (bs.flatMap F.write).length ≤ s.length := by
  induction fuel generalizing s bs with
  | zero =>
    simp only [Format.readMany, Option.ite_none_right_eq_some, Option.some.injEq] at hr
    simp [← hr.2]
  | succ fuel ih =>
    rw [Format.readMany] at hr
    split at hr
    · simp [← Option.some.inj hr]
    · obtain ⟨⟨b, rest⟩, hread, hbs⟩ := Option.bind_eq_some_iff.mp hr
      obtain ⟨bs', hbs', rfl⟩ := Option.map_eq_some_iff.mp hbs
      obtain ⟨hb, hrest, hlen⟩ := h hread
      obtain ⟨hmem, hlen'⟩ := ih hbs'
      rw [List.forall_mem_cons, List.flatMap_cons, List.length_append]
      exact ⟨⟨hb, fun c hc => List.Subset.trans (hmem c hc) hrest⟩, (Nat.add_le_add_left hlen' _).trans hlen⟩

variable {F} in
/-- What is read from the beginning of a sequence are its first values, each of them whole. -/
theorem Steady.readMany (h : F.Steady) {fuel : Nat} {bs cs : List β} {left : List α}
    (hleft : left <+: bs.flatMap F.write) (hread : F.readMany fuel left = some cs) :
    cs <+: bs ∧ left = cs.flatMap F.write := by
  have ended : ∀ {bs cs : List β} {left : List α}, left.isEmpty = true → some [] = some cs →
      cs <+: bs ∧ left = cs.flatMap F.write := by
    intro bs cs left hl hcs
    obtain rfl := Option.some.inj hcs
    exact ⟨List.nil_prefix, List.isEmpty_iff.mp hl⟩
  induction fuel generalizing bs cs left with
  | zero =>
    rw [Format.readMany, Option.ite_none_right_eq_some] at hread
    exact ended hread.1 hread.2
  | succ fuel ih =>
    rw [Format.readMany] at hread
    split at hread
    · rename_i hnil
      exact ended hnil hread
    · rename_i hnil
      obtain ⟨⟨c, rest⟩, hc, hcs⟩ := Option.bind_eq_some_iff.mp hread
      obtain ⟨cs', hcs', rfl⟩ := Option.map_eq_some_iff.mp hcs
      cases bs with
      | nil => exact absurd (List.prefix_nil.mp hleft) (by simpa using hnil)
      | cons b bs =>
        obtain ⟨rfl, rfl, hrest⟩ := h.eq_of_read hleft hc
        obtain ⟨hpre, heq⟩ := ih hrest hcs'
        exact ⟨(List.prefix_cons_inj c).mpr hpre, by rw [List.flatMap_cons, ← heq]⟩

end Sequences

end Format

/-! ### Groups -/

section Groups
variable {β γ : Type}

/-- A value of one kind and the values of another that belong to it, in one sequence. -/
def parts (g : β × List γ) : List (β ⊕ γ) := .inl g.1 :: g.2.map .inr

/-- Each value of the first kind with those of the second that follow it, behind those that follow none. -/
def group : List (β ⊕ γ) → List γ × List (β × List γ)
  | [] => ([], [])
  | .inl b :: vs => ([], (b, (group vs).1) :: (group vs).2)
  | .inr c :: vs => (c :: (group vs).1, (group vs).2)

theorem group_parts (cs : List γ) (gs : List (β × List γ)) : group (cs.map .inr ++ gs.flatMap parts) = (cs, gs) := by
  induction gs generalizing cs with
  | nil =>
    induction cs with
    | nil => rfl
    | cons c cs ih => rw [List.map_cons, List.cons_append, group, ih]
  | cons g gs ih =>
    induction cs with
    | nil => rw [List.map_nil, List.nil_append, List.flatMap_cons, parts, List.cons_append, group, ih]
    | cons c cs ih => rw [List.map_cons, List.cons_append, group, ih]

theorem parts_group (vs : List (β ⊕ γ)) : (group vs).1.map .inr ++ (group vs).2.flatMap parts = vs := by
  induction vs with
  | nil => rfl
  | cons v vs ih =>
    cases v with
    | inl b => rw [group, List.map_nil, List.nil_append, List.flatMap_cons, parts, List.cons_append, ih]
    | inr c => rw [group, List.map_cons, List.cons_append, ih]

theorem group_eq_iff {vs : List (β ⊕ γ)} {gs : List (β × List γ)} : group vs = ([], gs) ↔ vs = gs.flatMap parts := by
  constructor
  · intro h
    have hparts := parts_group vs
    rw [h] at hparts
    exact hparts.symm
  · rintro rfl
    exact group_parts [] gs

end Groups

end Formats
