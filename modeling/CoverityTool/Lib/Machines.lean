import Mathlib.Data.List.Basic

/-! Machines: a state and acts done one after another, each with an outcome. If each act belongs to one party, is
    not seen by the others, and depends on nothing but what its party sees, then every party sees what it would
    see had the others done nothing, in whatever order the acts come. Acts may be asked to keep to rules. -/

namespace Machines

abbrev Machine (σ α ω : Type) := σ → α → σ × ω

namespace Machine
variable {σ α ω δ : Type} (step : Machine σ α ω)

def final (s : σ) : List α → σ
  | [] => s
  | a :: as => final (step s a).1 as

/-- The acts with their outcomes. -/
def trace (s : σ) : List α → List (α × ω)
  | [] => []
  | a :: as => (a, (step s a).2) :: trace (step s a).1 as

/-- Each act keeps to the rules in the state in which it is done. -/
def Along (ok : σ → α → Prop) (s : σ) : List α → Prop
  | [] => True
  | a :: as => ok s a ∧ Along ok (step s a).1 as

variable {step} {ok : σ → α → Prop} {s t : σ} {a : α} {as bs : List α}

@[simp] theorem final_nil : step.final s [] = s := rfl
@[simp] theorem final_cons : step.final s (a :: as) = step.final (step s a).1 as := rfl
@[simp] theorem trace_nil : step.trace s [] = [] := rfl
@[simp] theorem trace_cons : step.trace s (a :: as) = (a, (step s a).2) :: step.trace (step s a).1 as := rfl
@[simp] theorem along_nil : step.Along ok s [] := trivial
@[simp] theorem along_cons : step.Along ok s (a :: as) ↔ ok s a ∧ step.Along ok (step s a).1 as := Iff.rfl

theorem final_append : step.final s (as ++ bs) = step.final (step.final s as) bs := by
  induction as generalizing s with
  | nil => rfl
  | cons a as ih => exact ih

/-- What holds at first, and is kept by each act that keeps to the rules, holds at the end. -/
theorem Along.final {P : σ → Prop} (h : step.Along ok s as) (hs : P s) (hstep : ∀ s a, ok s a → P s → P (step s a).1) :
    P (step.final s as) := by
  induction as generalizing s with
  | nil => exact hs
  | cons a as ih => exact ih h.2 (hstep s a h.1 hs)

/-- What holds at first of the state and of what is made of the trace, and is kept by each act that keeps to the
    rules, holds at the end. -/
theorem Along.observed {τ : Type} {P : σ → τ → Prop} {see : τ → α × ω → τ} {o : τ} (h : step.Along ok s as)
    (hs : P s o) (hstep : ∀ s o a, ok s a → P s o → P (step s a).1 (see o (a, (step s a).2))) :
    P (step.final s as) ((step.trace s as).foldl see o) := by
  induction as generalizing s o with
  | nil => exact hs
  | cons a as ih => exact ih h.2 (hstep s o a h.1 hs)

/-! ### Parties -/

/-- The acts of a party are not seen by the others, and do what the party's own view says. -/
structure Separated (step : Machine σ α ω) (ok : σ → α → Prop) (party : α → δ) (view : δ → σ → σ → Prop) : Prop where
  unseen : ∀ {s t a d}, ok s a → party a ≠ d → view d s t → view d (step s a).1 t
  own : ∀ {s t a}, ok s a → view (party a) s t →
    view (party a) (step s a).1 (step t a).1 ∧ (step s a).2 = (step t a).2

/-- In the view of a party, the acts of the others might as well not have been done. -/
theorem Separated.purge [DecidableEq δ] {party : α → δ} {view : δ → σ → σ → Prop}
    (h : Separated step ok party view) (d : δ) (hok : step.Along ok s as) (hv : view d s t) :
    view d (step.final s as) (step.final t (as.filter fun a => party a = d)) ∧
      (step.trace s as).filter (fun e => party e.1 = d) = step.trace t (as.filter fun a => party a = d) := by
  induction as generalizing s t with
  | nil => exact ⟨hv, rfl⟩
  | cons a as ih =>
    obtain ⟨ha, has⟩ := hok
    by_cases hd : party a = d
    · subst hd
      obtain ⟨hview, hout⟩ := h.own ha hv
      obtain ⟨hfinal, htrace⟩ := ih has hview
      rw [List.filter_cons_of_pos (by simp), trace_cons, List.filter_cons_of_pos (by simp), htrace, hout]
      exact ⟨hfinal, rfl⟩
    · rw [List.filter_cons_of_neg (by simpa using hd), trace_cons, List.filter_cons_of_neg (by simpa using hd)]
      exact ih has (h.unseen ha hd hv)

end Machine

end Machines
