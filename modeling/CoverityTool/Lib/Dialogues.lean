import CoverityTool.Lib.Runs

/-! Dialogues: programs that ask an environment which others change in the meantime. Its answers depend on all that
    has happened, and are part of what happens. -/

namespace Dialogues
open Runs

/-- What a program does, given the events so far. -/
abbrev Dialogue (ε κ : Type) := List κ → Run ε κ

/-- Each event is allowed after those before it. -/
def Allowed {κ : Type} (ok : List κ → κ → Prop) (past : List κ) : List κ → Prop
  | [] => True
  | e :: es => ok past e ∧ Allowed ok (past ++ [e]) es

section Allowed
variable {κ : Type} {ok : List κ → κ → Prop} {past es es' : List κ} {e : κ}

@[simp] theorem allowed_nil : Allowed ok past [] := trivial
@[simp] theorem allowed_cons : Allowed ok past (e :: es) ↔ ok past e ∧ Allowed ok (past ++ [e]) es := Iff.rfl

theorem allowed_append : Allowed ok past (es ++ es') ↔ Allowed ok past es ∧ Allowed ok (past ++ es) es' := by
  induction es generalizing past with
  | nil => simp
  | cons e es ih => rw [List.cons_append, allowed_cons, allowed_cons, ih, and_assoc, ← List.append_cons]

/-- An event was allowed when it came. -/
theorem Allowed.of_mem (h : Allowed ok past es) (he : e ∈ es) :
    ∃ before after, es = before ++ e :: after ∧ ok (past ++ before) e := by
  obtain ⟨before, after, rfl⟩ := List.append_of_mem he
  exact ⟨before, after, rfl, (allowed_append.mp h).2.1⟩

end Allowed

namespace Dialogue
variable {ε κ β : Type}

def skip : Dialogue ε κ := fun _ => .skip

def die (error : ε) : Dialogue ε κ := fun _ => .die error

def unfinished : Dialogue ε κ := fun _ => .unfinished

def tell (e : κ) : Dialogue ε κ := fun _ => .call e

def andThen (a b : Dialogue ε κ) : Dialogue ε κ := fun past => (a past).andThen (b (past ++ (a past).calls))

/-- A question, whose event has the answer in it, and then what the program does with the answer. -/
def ask (answer : List κ → β) (event : β → κ) (k : β → Dialogue ε κ) : Dialogue ε κ := fun past =>
  (Run.call (event (answer past))).andThen (k (answer past) (past ++ [event (answer past)]))

variable {a b : Dialogue ε κ} {answer : List κ → β} {event : β → κ} {k : β → Dialogue ε κ} {past : List κ}

theorem andThen_apply : a.andThen b past = (a past).andThen (b (past ++ (a past).calls)) := rfl

theorem skip_andThen : (skip : Dialogue ε κ).andThen b = b := by
  funext past
  rw [andThen_apply, skip, Run.skip_andThen, Run.skip_calls, List.append_nil]

theorem ask_apply : ask answer event k past = ⟨(k (answer past) (past ++ [event (answer past)])).ending,
    event (answer past) :: (k (answer past) (past ++ [event (answer past)])).calls⟩ := rfl

/-! ### What holds of every event -/

/-- After every past, the program does only what is allowed. -/
def Obeys (ok : List κ → κ → Prop) (a : Dialogue ε κ) : Prop := ∀ past, Allowed ok past (a past).calls

variable {ok : List κ → κ → Prop}

theorem obeys_skip : Obeys ok (skip : Dialogue ε κ) := fun _ => trivial

theorem obeys_die (error : ε) : Obeys ok (die error : Dialogue ε κ) := fun _ => trivial

theorem obeys_unfinished : Obeys ok (unfinished : Dialogue ε κ) := fun _ => trivial

theorem obeys_tell {e : κ} (h : ∀ past, ok past e) : Obeys ok (tell e : Dialogue ε κ) := fun past => ⟨h past, trivial⟩

theorem Obeys.andThen (ha : a.Obeys ok) (hb : b.Obeys ok) : (a.andThen b).Obeys ok := by
  intro past
  by_cases h : (a past).ending = .returned
  · rw [andThen_apply, Run.andThen_of_returned h]
    exact allowed_append.mpr ⟨ha past, hb _⟩
  · rw [andThen_apply, Run.andThen_of_ne h]
    exact ha past

theorem Obeys.ask (h : ∀ past, ok past (event (answer past))) (hk : ∀ x, (k x).Obeys ok) :
    (ask answer event k).Obeys ok := fun past => ⟨h past, hk _ _⟩

end Dialogue

end Dialogues
