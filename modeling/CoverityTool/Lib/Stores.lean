import Mathlib.Data.List.Flatten
import Mathlib.Data.List.Infix
import Mathlib.Data.List.Perm.Subperm
import Mathlib.Logic.Function.Basic

/-! Stores that are written at the end: a place holds a text, or nothing yet. What is written to one place is
    held there in order, and every other place holds what it did. -/

namespace Stores

/-- What each place holds; none where there is nothing. -/
abbrev Store (κ α : Type) := κ → Option (List α)

namespace Store
variable {κ α : Type} [DecidableEq κ]

def clear (m : Store κ α) (k : κ) : Store κ α := Function.update m k (some [])

def append (m : Store κ α) (k : κ) (w : List α) : Store κ α := Function.update m k (some ((m k).getD [] ++ w))

/-- The texts one after another. -/
def appendAll (m : Store κ α) (k : κ) (ws : List (List α)) : Store κ α := ws.foldl (fun m w => m.append k w) m

variable {m : Store κ α} {j k : κ} {v w : List α} {ws : List (List α)}

@[simp] theorem clear_self : m.clear k k = some [] := Function.update_self ..
@[simp] theorem append_self : m.append k w k = some ((m k).getD [] ++ w) := Function.update_self ..
@[simp] theorem appendAll_nil : m.appendAll k [] = m := rfl
@[simp] theorem appendAll_cons : m.appendAll k (w :: ws) = (m.append k w).appendAll k ws := rfl

theorem clear_of_ne (h : j ≠ k) : m.clear k j = m j := Function.update_of_ne h ..

theorem append_of_ne (h : j ≠ k) : m.append k w j = m j := Function.update_of_ne h ..

theorem appendAll_self (h : m k = some v) : m.appendAll k ws k = some (v ++ ws.flatten) := by
  induction ws generalizing m v with
  | nil => simpa using h
  | cons w ws ih =>
    have hw : m.append k w k = some (v ++ w) := by rw [append_self, h, Option.getD_some]
    rw [appendAll_cons, ih hw, List.flatten_cons, List.append_assoc]

theorem appendAll_of_ne (h : j ≠ k) : m.appendAll k ws j = m j := by
  induction ws generalizing m with
  | nil => rfl
  | cons w ws ih => rw [appendAll_cons, ih, append_of_ne h]

theorem getD_appendAll : (m.appendAll k ws k).getD [] = (m k).getD [] ++ ws.flatten := by
  induction ws generalizing m with
  | nil => simp
  | cons w ws ih => rw [appendAll_cons, ih, append_self, Option.getD_some, List.flatten_cons, List.append_assoc]

/-- What one place holds in the end depends on what it held. -/
theorem appendAll_congr {m' : Store κ α} (h : m k = m' k) : m.appendAll k ws k = m'.appendAll k ws k := by
  induction ws generalizing m m' with
  | nil => exact h
  | cons w ws ih =>
    rw [appendAll_cons, appendAll_cons]
    refine ih ?_
    rw [append_self, append_self, h]

end Store

/-! ### Texts cut short -/

section Cut
variable {α β : Type} {f g : β → List α} {xs : List β}

theorem length_flatMap_le (h : ∀ x, f x <+: g x) : (xs.flatMap f).length ≤ (xs.flatMap g).length := by
  induction xs with
  | nil => exact Nat.le_refl 0
  | cons x xs ih =>
    rw [List.flatMap_cons, List.flatMap_cons, List.length_append, List.length_append]
    exact Nat.add_le_add (h x).length_le ih

/-- Texts written in part, from their beginnings, are written in full if together they are as long: a text that
    lost something would leave the whole too short. -/
theorem eq_of_length_flatMap_le (h : ∀ x, f x <+: g x) (hlen : (xs.flatMap g).length ≤ (xs.flatMap f).length) :
    ∀ x ∈ xs, f x = g x := by
  induction xs with
  | nil => simp
  | cons x xs ih =>
    have hx := (h x).length_le
    have hxs : (xs.flatMap f).length ≤ (xs.flatMap g).length := length_flatMap_le h
    rw [List.flatMap_cons, List.flatMap_cons, List.length_append, List.length_append] at hlen
    rw [List.forall_mem_cons]
    exact ⟨(h x).eq_of_length_le (by omega), ih (by omega)⟩

/-- If each text is written in part, from its beginning, then all of them together are written in full exactly
    when each is. -/
theorem flatMap_eq_flatMap_iff (h : ∀ x, f x <+: g x) : xs.flatMap f = xs.flatMap g ↔ ∀ x ∈ xs, f x = g x := by
  constructor
  · intro heq
    exact eq_of_length_flatMap_le h (congrArg List.length heq).ge
  · exact List.flatMap_congr

omit f g in
/-- What nothing is written of may be left out. -/
theorem flatMap_filter_of_nil {f : β → List α} {p : β → Bool} (h : ∀ x ∈ xs, p x = false → f x = []) :
    (xs.filter p).flatMap f = xs.flatMap f := by
  induction xs with
  | nil => rfl
  | cons x xs ih =>
    rw [List.forall_mem_cons] at h
    cases hp : p x with
    | true => rw [List.filter_cons_of_pos hp, List.flatMap_cons, List.flatMap_cons, ih h.2]
    | false => rw [List.filter_cons_of_neg (by simp [hp]), List.flatMap_cons, h.1 hp, List.nil_append, ih h.2]

/-- Texts written in full or not at all are those that are written. -/
theorem flatMap_of_whole [DecidableEq α] (h : ∀ x ∈ xs, f x = g x ∨ f x = []) :
    xs.flatMap f = (xs.filter fun x => f x = g x).flatMap g := by
  rw [← flatMap_filter_of_nil (p := fun x => f x = g x)]
  · exact List.flatMap_congr fun x hx => of_decide_eq_true (List.mem_filter.mp hx).2
  · intro x hx hne
    exact (h x hx).resolve_left (of_decide_eq_false hne)

theorem length_flatMap_le_of_subset {ys : List β} (hn : xs.Nodup) (h : xs ⊆ ys) :
    (xs.flatMap f).length ≤ (ys.flatMap f).length := by
  obtain ⟨zs, hperm, hsub⟩ := List.subperm_of_subset hn h
  rw [← (hperm.flatMap_right f).length_eq]
  exact (hsub.flatMap f).length_le

end Cut

end Stores
