import Mathlib.Data.List.Basic

/-! Runs of a program, seen through the calls it makes to its environment: how a run ends, running one
    program after another and once for each element of a list, and what is left of a run that an error
    cuts off. A program given too little fuel leaves its run unfinished. -/

namespace Runs

inductive Ending (ε : Type) where
  | returned
  | died (error : ε)
  | unfinished
  deriving DecidableEq, Repr

structure Run (ε κ : Type) where
  ending : Ending ε
  calls : List κ
  deriving DecidableEq, Repr

namespace Run
variable {ε κ κ' α : Type}

def skip : Run ε κ := ⟨.returned, []⟩

def call (c : κ) : Run ε κ := ⟨.returned, [c]⟩

def die (e : ε) : Run ε κ := ⟨.died e, []⟩

def unfinished : Run ε κ := ⟨.unfinished, []⟩

/-- `a`, then `b` if `a` has returned. -/
def andThen (a b : Run ε κ) : Run ε κ :=
  match a.ending with
  | .returned => ⟨b.ending, a.calls ++ b.calls⟩
  | _ => a

/-- `f` for each element in turn, as long as it returns. -/
def each (f : α → Run ε κ) : List α → Run ε κ
  | [] => skip
  | x :: xs => (f x).andThen (each f xs)

def map (g : κ → κ') (r : Run ε κ) : Run ε κ' := ⟨r.ending, r.calls.map g⟩

/-- What is left of the calls, under their new names. -/
def filterMap (g : κ → Option κ') (r : Run ε κ) : Run ε κ' := ⟨r.ending, r.calls.filterMap g⟩

def Died (r : Run ε κ) : Prop := ∃ e, r.ending = .died e

variable {a b c : Run ε κ} {f g : α → Run ε κ}

/-! ### Sequencing -/

@[simp] theorem skip_ending : (skip : Run ε κ).ending = .returned := rfl
@[simp] theorem skip_calls : (skip : Run ε κ).calls = [] := rfl
@[simp] theorem call_ending (x : κ) : (call x : Run ε κ).ending = .returned := rfl
@[simp] theorem call_calls (x : κ) : (call x : Run ε κ).calls = [x] := rfl
@[simp] theorem die_ending (e : ε) : (die e : Run ε κ).ending = .died e := rfl
@[simp] theorem die_calls (e : ε) : (die e : Run ε κ).calls = [] := rfl
@[simp] theorem skip_andThen : skip.andThen a = a := rfl
@[simp] theorem die_andThen (e : ε) : (die e).andThen a = die e := rfl

theorem andThen_of_returned (h : a.ending = .returned) : a.andThen b = ⟨b.ending, a.calls ++ b.calls⟩ := by
  simp [andThen, h]

theorem andThen_of_ne (h : a.ending ≠ .returned) : a.andThen b = a := by
  unfold andThen
  split
  · contradiction
  · rfl

@[simp] theorem andThen_skip : a.andThen skip = a := by
  by_cases h : a.ending = .returned
  · simp [andThen_of_returned h, ← h]
  · exact andThen_of_ne h

theorem andThen_assoc : (a.andThen b).andThen c = a.andThen (b.andThen c) := by
  by_cases ha : a.ending = .returned
  · by_cases hb : b.ending = .returned
    · simp [andThen, ha, hb]
    · rw [andThen_of_ne hb, andThen_of_ne]
      rwa [andThen_of_returned ha]
  · rw [andThen_of_ne ha, andThen_of_ne ha, andThen_of_ne ha]

theorem not_died (h : a.ending = .returned) : ¬ a.Died := fun ⟨e, he⟩ => by
  rw [h] at he
  cases he

@[simp] theorem skip_not_died : ¬ (skip : Run ε κ).Died := not_died rfl
@[simp] theorem call_not_died (x : κ) : ¬ (call x : Run ε κ).Died := not_died rfl
@[simp] theorem die_died (e : ε) : (die e : Run ε κ).Died := ⟨e, rfl⟩

theorem andThen_died : (a.andThen b).Died ↔ a.Died ∨ a.ending = .returned ∧ b.Died := by
  by_cases h : a.ending = .returned
  · simp [andThen_of_returned h, Died, h]
  · simp [andThen_of_ne h, h]

theorem andThen_died_of_finished (h : a.ending ≠ .unfinished) : (a.andThen b).Died ↔ a.Died ∨ b.Died := by
  rw [andThen_died]
  refine ⟨Or.imp_right And.right, fun hd => ?_⟩
  cases ha : a.ending with
  | returned => exact hd.imp_right fun hb => ⟨rfl, hb⟩
  | died e => exact Or.inl ⟨e, ha⟩
  | unfinished => exact absurd ha h

theorem andThen_finished (h : (a.andThen b).ending ≠ .unfinished) :
    a.ending ≠ .unfinished ∧ (a.ending = .returned → b.ending ≠ .unfinished) := by
  by_cases ha : a.ending = .returned
  · rw [andThen_of_returned ha] at h
    exact ⟨by simp [ha], fun _ => h⟩
  · rw [andThen_of_ne ha] at h
    exact ⟨h, fun hr => absurd hr ha⟩

theorem finished_andThen (ha : a.ending ≠ .unfinished) (hb : b.ending ≠ .unfinished) :
    (a.andThen b).ending ≠ .unfinished := by
  by_cases hr : a.ending = .returned
  · rwa [andThen_of_returned hr]
  · rwa [andThen_of_ne hr]

theorem andThen_returned (h : (a.andThen b).ending = .returned) : a.ending = .returned ∧ b.ending = .returned := by
  by_cases ha : a.ending = .returned
  · rw [andThen_of_returned ha] at h
    exact ⟨ha, h⟩
  · rw [andThen_of_ne ha] at h
    exact absurd h ha

theorem calls_suffix_andThen (h : a.ending = .returned) : b.calls <:+ (a.andThen b).calls := by
  rw [andThen_of_returned h]
  exact List.suffix_append _ _

theorem calls_begin_andThen : a.calls <+: (a.andThen b).calls := by
  by_cases h : a.ending = .returned
  · rw [andThen_of_returned h]
    exact List.prefix_append _ _
  · simp only [andThen_of_ne h, List.prefix_rfl]

theorem andThen_congr_right {b' : Run ε κ} (h : a.ending = .returned → b' = b) : a.andThen b' = a.andThen b := by
  by_cases ha : a.ending = .returned
  · rw [h ha]
  · rw [andThen_of_ne ha, andThen_of_ne ha]

theorem mem_calls_andThen {x : κ} :
    x ∈ (a.andThen b).calls ↔ x ∈ a.calls ∨ a.ending = .returned ∧ x ∈ b.calls := by
  by_cases h : a.ending = .returned
  · simp [andThen_of_returned h, h]
  · simp [andThen_of_ne h, h]

theorem forall_calls_andThen {P : κ → Prop} (ha : ∀ x ∈ a.calls, P x) (hb : ∀ x ∈ b.calls, P x) :
    ∀ x ∈ (a.andThen b).calls, P x := fun x hx => by
  rcases mem_calls_andThen.mp hx with hx | ⟨-, hx⟩
  · exact ha x hx
  · exact hb x hx

/-! ### Renaming -/

@[simp] theorem map_ending (h : κ → κ') : (a.map h).ending = a.ending := rfl
@[simp] theorem map_calls (h : κ → κ') : (a.map h).calls = a.calls.map h := rfl
@[simp] theorem map_skip (h : κ → κ') : (skip : Run ε κ).map h = skip := rfl
@[simp] theorem map_call (h : κ → κ') (x : κ) : (call x : Run ε κ).map h = call (h x) := rfl
@[simp] theorem map_die (h : κ → κ') (e : ε) : (die e : Run ε κ).map h = die e := rfl

theorem map_andThen (h : κ → κ') : (a.andThen b).map h = (a.map h).andThen (b.map h) := by
  by_cases ha : a.ending = .returned
  · simp [andThen, map, ha]
  · rw [andThen_of_ne ha, andThen_of_ne (a := a.map h) ha]

@[simp] theorem filterMap_ending (h : κ → Option κ') : (a.filterMap h).ending = a.ending := rfl
@[simp] theorem filterMap_calls (h : κ → Option κ') : (a.filterMap h).calls = a.calls.filterMap h := rfl

theorem filterMap_andThen (h : κ → Option κ') : (a.andThen b).filterMap h = (a.filterMap h).andThen (b.filterMap h) := by
  by_cases ha : a.ending = .returned
  · simp [andThen, filterMap, ha]
  · rw [andThen_of_ne ha, andThen_of_ne (a := a.filterMap h) ha]

/-! ### Loops -/

@[simp] theorem each_nil : each f [] = skip := rfl
@[simp] theorem each_cons (x : α) (xs : List α) : each f (x :: xs) = (f x).andThen (each f xs) := rfl

theorem each_not_died {xs : List α} (h : ∀ x ∈ xs, ¬(f x).Died) : ¬(each f xs).Died := by
  induction xs with
  | nil => exact skip_not_died
  | cons x xs ih =>
    rw [each_cons, andThen_died]
    rintro (hx | ⟨-, hxs⟩)
    · exact h x List.mem_cons_self hx
    · exact ih (fun y hy => h y (List.mem_cons_of_mem x hy)) hxs

theorem each_died {xs : List α} (h : ∀ x ∈ xs, (f x).ending ≠ .unfinished) :
    (each f xs).Died ↔ ∃ x ∈ xs, (f x).Died := by
  induction xs with
  | nil => simp
  | cons x xs ih =>
    rw [each_cons, andThen_died_of_finished (h x List.mem_cons_self),
      ih fun y hy => h y (List.mem_cons_of_mem x hy)]
    simp

/-- A loop whose bodies do not die stays unfinished at an unfinished body. -/
theorem each_unfinished {xs : List α} {x : α} (hd : ∀ y ∈ xs, ¬(f y).Died) (hx : x ∈ xs)
    (hf : (f x).ending = .unfinished) : (each f xs).ending = .unfinished := by
  induction xs with
  | nil => cases hx
  | cons y ys ih =>
    have hy := hd y List.mem_cons_self
    rw [each_cons]
    cases h : (f y).ending with
    | returned =>
      rw [andThen_of_returned h]
      rcases List.mem_cons.mp hx with rfl | hx
      · rw [hf] at h
        cases h
      · exact ih (fun z hz => hd z (List.mem_cons_of_mem y hz)) hx
    | died e => exact absurd ⟨e, h⟩ hy
    | unfinished => rw [andThen_of_ne (by rw [h]; simp), h]

theorem forall_calls_each {P : κ → Prop} {xs : List α} (h : ∀ x ∈ xs, ∀ c ∈ (f x).calls, P c) :
    ∀ c ∈ (each f xs).calls, P c := by
  induction xs with
  | nil => simp
  | cons x xs ih =>
    exact forall_calls_andThen (h x List.mem_cons_self) (ih fun y hy => h y (List.mem_cons_of_mem x hy))

theorem each_congr {xs : List α} (h : ∀ x ∈ xs, f x = g x) : each f xs = each g xs := by
  induction xs with
  | nil => rfl
  | cons x xs ih =>
    rw [List.forall_mem_cons] at h
    rw [each_cons, each_cons, h.1, ih h.2]

theorem each_map {β : Type} {h : β → α} {ys : List β} : each f (ys.map h) = each (fun y => f (h y)) ys := by
  induction ys with
  | nil => rfl
  | cons y ys ih => rw [List.map_cons, each_cons, each_cons, ih]

theorem nodup_calls_andThen (ha : a.calls.Nodup) (hb : b.calls.Nodup) (hab : ∀ x ∈ a.calls, x ∉ b.calls) :
    (a.andThen b).calls.Nodup := by
  by_cases h : a.ending = .returned
  · rw [andThen_of_returned h]
    refine List.nodup_append.mpr ⟨ha, hb, ?_⟩
    rintro x hx _ hy rfl
    exact hab x hx hy
  · rwa [andThen_of_ne h]

/-- Bodies that do different things, each once, do each thing once. -/
theorem nodup_calls_each {xs : List α} (h : ∀ x ∈ xs, (f x).calls.Nodup)
    (hxs : xs.Pairwise fun x y => ∀ c ∈ (f x).calls, c ∉ (f y).calls) : (each f xs).calls.Nodup := by
  induction xs with
  | nil => exact List.nodup_nil
  | cons x xs ih =>
    rw [List.forall_mem_cons] at h
    obtain ⟨hx, hxs⟩ := List.pairwise_cons.mp hxs
    have hrest : ∀ c ∈ (f x).calls, ∀ d ∈ (each f xs).calls, d ≠ c := fun c hc =>
      forall_calls_each fun y hy d hd heq => hx y hy c hc (heq ▸ hd)
    exact nodup_calls_andThen h.1 (ih h.2 hxs) fun c hc hc' => hrest c hc c hc' rfl

theorem each_returned {xs : List α} (h : ∀ x ∈ xs, (f x).ending = .returned) : (each f xs).ending = .returned := by
  induction xs with
  | nil => rfl
  | cons x xs ih =>
    rw [List.forall_mem_cons] at h
    rw [each_cons, andThen_of_returned h.1, ih h.2]

theorem map_each (h : κ → κ') (xs : List α) : (each f xs).map h = each (fun x => (f x).map h) xs := by
  induction xs with
  | nil => rfl
  | cons x xs ih => rw [each_cons, map_andThen, ih, each_cons]

/-- A loop that returns has run each body to its end, and what a body does is one piece of what the loop does. -/
theorem each_piece {xs : List α} {x : α} (h : (each f xs).ending = .returned) (hx : x ∈ xs) :
    (f x).ending = .returned ∧ (f x).calls <:+: (each f xs).calls := by
  induction xs with
  | nil => cases hx
  | cons y ys ih =>
    rw [each_cons] at h
    obtain ⟨hy, hys⟩ := andThen_returned h
    rw [each_cons, andThen_of_returned hy]
    rcases List.mem_cons.mp hx with rfl | hx
    · exact ⟨hy, (List.prefix_append _ _).isInfix⟩
    · obtain ⟨hx, hpiece⟩ := ih hys hx
      exact ⟨hx, hpiece.trans (List.suffix_append _ _).isInfix⟩

/-! ### Runs cut off by an error -/

/-- `a` is `b`, or what is left of `b` when an error cuts it off between two calls. -/
def Cut (a b : Run ε κ) : Prop := a = b ∨ a.Died ∧ a.calls <+: b.calls

theorem Cut.refl (a : Run ε κ) : Cut a a := Or.inl rfl

theorem Cut.of_die (e : ε) : Cut (die e) b := Or.inr ⟨⟨e, rfl⟩, List.nil_prefix⟩

theorem Cut.calls (h : Cut a b) : a.calls <+: b.calls := by
  rcases h with rfl | ⟨-, h⟩
  · exact List.prefix_rfl
  · exact h

theorem Cut.andThen {a' b' : Run ε κ} (ha : Cut a a') (hb : Cut b b') : Cut (a.andThen b) (a'.andThen b') := by
  rcases ha with rfl | ⟨⟨e, he⟩, hp⟩
  · by_cases hr : a.ending = .returned
    · rcases hb with rfl | ⟨hd, hp⟩
      · exact .refl _
      · refine Or.inr ⟨andThen_died.mpr (Or.inr ⟨hr, hd⟩), ?_⟩
        rw [andThen_of_returned hr, andThen_of_returned hr]
        exact (List.prefix_append_right_inj _).mpr hp
    · rw [andThen_of_ne hr, andThen_of_ne hr]
      exact .refl _
  · have hne : a.ending ≠ .returned := by rw [he]; simp
    rw [andThen_of_ne hne]
    exact Or.inr ⟨⟨e, he⟩, hp.trans calls_begin_andThen⟩

theorem Cut.each {xs : List α} (h : ∀ x ∈ xs, Cut (f x) (g x)) : Cut (each f xs) (each g xs) := by
  induction xs with
  | nil => exact .refl _
  | cons x xs ih => exact (h x List.mem_cons_self).andThen (ih fun y hy => h y (List.mem_cons_of_mem x hy))

theorem Cut.finished (h : Cut a b) (hb : b.ending ≠ .unfinished) : a.ending ≠ .unfinished := by
  rcases h with rfl | ⟨⟨e, he⟩, -⟩
  · exact hb
  · rw [he]
    simp

theorem Cut.eq_of_not_died (h : Cut a b) (ha : ¬ a.Died) : a = b := h.resolve_right fun hd => ha hd.1

/-! ### Runs that go on with more fuel -/

/-- `a` is `b`, or was left unfinished on the way of `b`. -/
def Begins (a b : Run ε κ) : Prop := a = b ∨ a.ending = .unfinished ∧ a.calls <+: b.calls

theorem Begins.refl (a : Run ε κ) : Begins a a := Or.inl rfl

theorem unfinished_begins : Begins unfinished a := Or.inr ⟨rfl, List.nil_prefix⟩

theorem Begins.calls (h : Begins a b) : a.calls <+: b.calls := by
  rcases h with rfl | ⟨-, h⟩
  · exact List.prefix_rfl
  · exact h

theorem Begins.eq_of_finished (h : Begins a b) (ha : a.ending ≠ .unfinished) : a = b :=
  h.resolve_right fun hr => ha hr.1

theorem Begins.trans (hab : Begins a b) (hbc : Begins b c) : Begins a c := by
  rcases hab with rfl | ⟨ha, hp⟩
  · exact hbc
  · exact Or.inr ⟨ha, hp.trans hbc.calls⟩

theorem Begins.andThen {a' b' : Run ε κ} (ha : Begins a a') (hb : a = a' → Begins b b') :
    Begins (a.andThen b) (a'.andThen b') := by
  rcases ha with rfl | ⟨ha, hp⟩
  · by_cases hr : a.ending = .returned
    · rw [andThen_of_returned hr, andThen_of_returned hr]
      rcases hb rfl with rfl | ⟨hb, hp⟩
      · exact .refl _
      · exact Or.inr ⟨hb, (List.prefix_append_right_inj _).mpr hp⟩
    · rw [andThen_of_ne hr, andThen_of_ne hr]
      exact .refl _
  · rw [andThen_of_ne (b := b) (by rw [ha]; simp)]
    exact Or.inr ⟨ha, hp.trans calls_begin_andThen⟩

theorem Begins.each {xs : List α} (h : ∀ x ∈ xs, Begins (f x) (g x)) : Begins (each f xs) (each g xs) := by
  induction xs with
  | nil => exact .refl _
  | cons x xs ih =>
    rw [List.forall_mem_cons] at h
    exact h.1.andThen fun _ => ih h.2

/-- One that each step takes further is taken further by any number of them. -/
theorem begins_of_le {r : Nat → Run ε κ} (h : ∀ n, Begins (r n) (r (n + 1))) {n m : Nat} (hle : n ≤ m) :
    Begins (r n) (r m) := by
  induction hle with
  | refl => exact .refl _
  | step _ ih => exact ih.trans (h _)

end Run

end Runs
