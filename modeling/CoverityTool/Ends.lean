import CoverityTool.Changes

/-! When a run ends. A traversal goes on only by reading names, so it cannot go on when the system runs out of them,
    whatever else the system answers. -/

namespace CoverityTool
open Perl Runs Dialogues

def Event.given? : Event → Option Str
  | .readdir _ name => name
  | _ => none

/-- The names that the system has given, `.` and `..` among them. -/
def given (es : List Event) : List Str := es.filterMap Event.given?

/-- A directory that is open is one step nearer to its next name. -/
def Stage.steps : Stage → Nat
  | .folder _ => 1
  | .entries _ => 0

section Ends
variable {self : CoverageBatch} {env : Env} {fuel fuel' : Nat} {past es es' : List Event} {stage : Stage}

@[simp] theorem given_append : given (es ++ es') = given es ++ given es' := List.filterMap_append

/-- A traversal that has not ended has been given a name at every second step. -/
theorem given_of_unfinished (h : (self.traverseIn env fuel stage past).ending = .unfinished) :
    fuel ≤ 2 * (given (self.traverseIn env fuel stage past).calls).length + stage.steps := by
  induction fuel generalizing stage past with
  | zero => exact Nat.zero_le _
  | succ fuel ih =>
    cases stage with
    | folder folder =>
      cases hdir : env.isDir (past ++ self.top folder) folder with
      | false =>
        rw [traverseIn_other hdir] at h
        cases h
      | true =>
        cases ho : env.opendir (past ++ self.top folder ++ [.isDir folder true]) folder with
        | false =>
          rw [traverseIn_refused hdir ho] at h
          cases h
        | true =>
          rw [traverseIn_opened hdir ho, Run.andThen_of_returned rfl] at h ⊢
          have hentries := ih h
          simp only [given_append, List.length_append, Stage.steps] at hentries ⊢
          omega
    | entries folder =>
      cases hread : env.readdir past folder with
      | none =>
        rw [traverseIn_done hread] at h
        cases h
      | some sub =>
        have hname : given (Run.call (.readdir folder (some sub)) : Run Str Event).calls = [sub] := rfl
        by_cases hdots : sub = lit "." ∨ sub = lit ".."
        · rw [traverseIn_dots hread hdots, Run.andThen_of_returned rfl] at h ⊢
          have hrest := ih h
          simp only [given_append, hname, List.length_append, List.length_singleton, Stage.steps] at hrest ⊢
          omega
        · rw [traverseIn_name hread hdots, Run.andThen_of_returned rfl] at h ⊢
          simp only [given_append, hname, List.length_append, List.length_singleton]
          by_cases hr : (self.traverseIn env fuel (.folder (folder ++ lit "/" ++ sub))
              (past ++ [.readdir folder (some sub)])).ending = .returned
          · rw [Run.andThen_of_returned hr] at h ⊢
            have hrest := ih h
            simp only [given_append, List.length_append, Stage.steps] at hrest ⊢
            omega
          · rw [Run.andThen_of_ne hr] at h ⊢
            have hentry := ih h
            simp only [Stage.steps] at hentry ⊢
            omega

/-- With more fuel a traversal goes on where it was left. -/
theorem traverseIn_begins :
    (self.traverseIn env fuel stage past).Begins (self.traverseIn env (fuel + 1) stage past) := by
  induction fuel generalizing stage past with
  | zero => exact Run.unfinished_begins
  | succ fuel ih =>
    cases stage with
    | folder folder =>
      cases hdir : env.isDir (past ++ self.top folder) folder with
      | false =>
        rw [traverseIn_other hdir, traverseIn_other hdir]
        exact .refl _
      | true =>
        cases ho : env.opendir (past ++ self.top folder ++ [.isDir folder true]) folder with
        | false =>
          rw [traverseIn_refused hdir ho, traverseIn_refused hdir ho]
          exact .refl _
        | true =>
          rw [traverseIn_opened hdir ho, traverseIn_opened hdir ho]
          exact (Run.Begins.refl _).andThen fun _ => ih
    | entries folder =>
      cases hread : env.readdir past folder with
      | none =>
        rw [traverseIn_done hread, traverseIn_done hread]
        exact .refl _
      | some sub =>
        by_cases hdots : sub = lit "." ∨ sub = lit ".."
        · rw [traverseIn_dots hread hdots, traverseIn_dots hread hdots]
          exact (Run.Begins.refl _).andThen fun _ => ih
        · rw [traverseIn_name hread hdots, traverseIn_name hread hdots]
          -- The other entries come after the same past only if this one has been finished.
          refine (Run.Begins.refl _).andThen fun _ => ih.andThen fun hentry => ?_
          rw [← hentry]
          exact ih

theorem createIn_begins (hle : fuel ≤ fuel') : (self.createIn env fuel []).Begins (self.createIn env fuel' []) := by
  refine Run.begins_of_le (r := fun fuel => self.createIn env fuel []) (fun fuel => ?_) hle
  cases ho : env.openOut [] (lit ">" ++ self.output) with
  | error errno =>
    rw [createIn_of_error ho, createIn_of_error ho]
    exact .refl _
  | ok _ =>
    have hopens : env.Opens self := ho
    rw [createIn_of_opens hopens, createIn_of_opens hopens]
    exact (Run.Begins.refl _).andThen fun _ => traverseIn_begins.andThen fun _ => .refl _

/-- A run that has not ended has been given a name at every second step. -/
theorem given_of_createIn_unfinished (h : (self.createIn env fuel []).ending = .unfinished) :
    fuel ≤ 2 * (given (self.createIn env fuel []).calls).length + 1 := by
  cases ho : env.openOut [] (lit ">" ++ self.output) with
  | error errno =>
    rw [createIn_of_error ho] at h
    cases h
  | ok _ =>
    have hopens : env.Opens self := ho
    rw [createIn_of_opens hopens, Run.andThen_of_returned rfl] at h ⊢
    -- The close ends the run, so it is the traversal that has not ended.
    have htraverse : (self.traverseIn env fuel (.folder self.gcdaFolder) self.start).ending = .unfinished := by
      by_contra hfinished
      exact Run.finished_andThen hfinished (b := .call .close) (by simp) h
    have hgiven := given_of_unfinished htraverse
    rw [Run.andThen_of_ne (by rw [htraverse]; simp), given_append, List.length_append]
    rw [Stage.steps] at hgiven
    omega

end Ends

/-- A run ends exactly if the system gives it only so many names, whatever the files are, whatever other programs do,
    and whether or not links lead back; and then in one way. -/
theorem names_end (self : CoverageBatch) (env : Env) (n : Nat) :
    (∀ fuel, (given (self.createIn env fuel []).calls).length ≤ n) ↔
      ∃ r : Run Str Event, r.ending ≠ .unfinished ∧ (given r.calls).length ≤ n ∧
        ∀ fuel, 2 * n + 1 < fuel → self.createIn env fuel [] = r := by
  constructor
  · intro h
    have hfinished : (self.createIn env (2 * n + 2) []).ending ≠ .unfinished := fun hr => by
      have hsteps := given_of_createIn_unfinished hr
      have hn := h (2 * n + 2)
      omega
    refine ⟨self.createIn env (2 * n + 2) [], hfinished, h _, fun fuel hfuel => ?_⟩
    exact ((createIn_begins hfuel).eq_of_finished hfinished).symm
  · rintro ⟨r, -, hn, hr⟩ fuel
    have hbegins : (self.createIn env fuel []).Begins (self.createIn env (fuel + 2 * n + 2) []) :=
      createIn_begins (by omega)
    rw [hr (fuel + 2 * n + 2) (by omega)] at hbegins
    exact (hbegins.calls.sublist.filterMap Event.given?).length_le.trans hn

end CoverityTool
