import CoverityTool.Failures
import CoverityTool.Lib.Dialogues
import CoverityTool.Walk

/-! Runs during which the file system changes. `readdir` gives one name at a time, and between any two calls other
    programs can make and remove files and directories, so an answer depends on all that has happened before. -/

namespace CoverityTool
open Perl Runs Dialogues

/-- The calls to the system, with the answers that the program looks at. -/
inductive Event where
  | openOut (file : Str) (answer : Except Str Unit)
  | print (text : Str)
  | isDir (path : Str) (answer : Bool)
  | opendir (path : Str) (opened : Bool)
  | readdir (path : Str) (name : Option Str)
  | close
  deriving DecidableEq

/-- The answers after what has happened so far. -/
structure Env where
  openOut : List Event → Str → Except Str Unit
  isDir : List Event → Str → Bool
  opendir : List Event → Str → Bool
  /-- The next name of the directory at the path; none at its end. -/
  readdir : List Event → Str → Option Str

/-- The event has the answer of the system in it. -/
def Env.Answers (env : Env) (past : List Event) : Event → Prop
  | .openOut file answer => answer = env.openOut past file
  | .isDir path answer => answer = env.isDir past path
  | .opendir path opened => opened = env.opendir past path
  | .readdir path name => name = env.readdir past path
  | .print _ => True
  | .close => True

/-- What can have happened: each answer is the one that the system gives. -/
def Env.Possible (env : Env) (past : List Event) : Prop := Allowed env.Answers [] past

theorem Env.Possible.append {env : Env} {past es : List Event} (h : env.Possible past)
    (hes : Allowed env.Answers past es) : env.Possible (past ++ es) :=
  allowed_append.mpr ⟨h, by rwa [List.nil_append]⟩

theorem Env.Possible.concat {env : Env} {past : List Event} {e : Event} (h : env.Possible past)
    (he : env.Answers past e) : env.Possible (past ++ [e]) := h.append (allowed_cons.mpr ⟨he, trivial⟩)

/-- An event of a possible past has the answer to what came before it. -/
theorem Env.Possible.of_mem {env : Env} {past es : List Event} {e : Event} (h : env.Possible (past ++ es))
    (he : e ∈ es) : ∃ before after, es = before ++ e :: after ∧ env.Possible (past ++ before) ∧
      env.Answers (past ++ before) e := by
  obtain ⟨before, after, rfl⟩ := List.append_of_mem he
  rw [← List.append_assoc] at h
  obtain ⟨hbefore, hanswer, -⟩ := allowed_append.mp h
  exact ⟨before, after, rfl, hbefore, hanswer⟩

/-- `traverse_gcda` for a path, or its loop for a directory that is open. -/
inductive Stage where
  | folder (path : Str)
  | entries (path : Str)

namespace CoverageBatch

def traverseIn (self : CoverageBatch) (env : Env) : Nat → Stage → Dialogue Str Event
  | 0, _ => .unfinished
  | fuel + 1, .folder folder =>
    (if isGcdaFile folder then .tell (.print (self.batchText folder)) else Dialogue.skip).andThen <|
      .ask (env.isDir · folder) (.isDir folder) fun dir =>
        if !dir then .skip
        else .ask (env.opendir · folder) (.opendir folder) fun opened =>
          if !opened then .die (lit "Died")
          else traverseIn self env fuel (.entries folder)
  | fuel + 1, .entries folder =>
    .ask (env.readdir · folder) (.readdir folder) fun
      | none => .skip
      | some sub => (if sub = lit "." ∨ sub = lit ".." then Dialogue.skip
          else traverseIn self env fuel (.folder (folder ++ lit "/" ++ sub))).andThen
            (traverseIn self env fuel (.entries folder))

def createIn (self : CoverageBatch) (env : Env) (fuel : Nat) : Dialogue Str Event :=
  let filename := self.output
  .ask (env.openOut · (lit ">" ++ filename)) (.openOut (lit ">" ++ filename)) fun
    | .error errno => .die (lit "Could not open file '" ++ filename ++ lit "' " ++ errno)
    | .ok () => (Dialogue.tell (.print self.headerText)).andThen <|
        (self.traverseIn env fuel (.folder self.gcdaFolder)).andThen (.tell .close)

end CoverageBatch

def Event.text? : Event → Option Str
  | .print text => some text
  | _ => none

def texts (r : Run Str Event) : List Str := r.calls.filterMap Event.text?

def Event.asked? : Event → Option Str
  | .isDir path _ => some path
  | _ => none

/-- The paths that the traversal comes to. -/
def asked (r : Run Str Event) : List Str := r.calls.filterMap Event.asked?

/-! ### One step -/

/-- What is printed of a folder before it is asked about. -/
def CoverageBatch.top (self : CoverageBatch) (folder : Str) : List Event :=
  (topPaths folder).map fun path => .print (self.batchText path)

section Step
variable {self : CoverageBatch} {env : Env} {fuel : Nat} {past : List Event} {folder sub : Str}

theorem traverseIn_folder : self.traverseIn env (fuel + 1) (.folder folder) past =
    (⟨.returned, self.top folder⟩ : Run Str Event).andThen
      ((Dialogue.ask (env.isDir · folder) (.isDir folder) fun dir =>
        if !dir then .skip
        else .ask (env.opendir · folder) (.opendir folder) fun opened =>
          if !opened then .die (lit "Died")
          else self.traverseIn env fuel (.entries folder)) (past ++ self.top folder)) := by
  have htop : (if isGcdaFile folder then .tell (.print (self.batchText folder)) else Dialogue.skip :
      Dialogue Str Event) = fun _ => ⟨.returned, self.top folder⟩ := by
    unfold CoverageBatch.top topPaths
    split <;> rfl
  rw [CoverageBatch.traverseIn, htop]
  rfl

/-- Not a directory, or one that cannot be examined. -/
theorem traverseIn_other (h : env.isDir (past ++ self.top folder) folder = false) :
    self.traverseIn env (fuel + 1) (.folder folder) past =
      ⟨.returned, self.top folder ++ [.isDir folder false]⟩ := by
  rw [traverseIn_folder, Run.andThen_of_returned rfl, Dialogue.ask_apply, h]
  rfl

theorem traverseIn_refused (h : env.isDir (past ++ self.top folder) folder = true)
    (ho : env.opendir (past ++ self.top folder ++ [.isDir folder true]) folder = false) :
    self.traverseIn env (fuel + 1) (.folder folder) past =
      ⟨.died (lit "Died"), self.top folder ++ [.isDir folder true, .opendir folder false]⟩ := by
  rw [traverseIn_folder, Run.andThen_of_returned rfl, Dialogue.ask_apply, h]
  simp only [Bool.not_true, Bool.false_eq_true, if_false, Dialogue.ask_apply, ho]
  rfl

theorem traverseIn_opened (h : env.isDir (past ++ self.top folder) folder = true)
    (ho : env.opendir (past ++ self.top folder ++ [.isDir folder true]) folder = true) :
    self.traverseIn env (fuel + 1) (.folder folder) past =
      (⟨.returned, self.top folder ++ [.isDir folder true, .opendir folder true]⟩ : Run Str Event).andThen
        (self.traverseIn env fuel (.entries folder)
          (past ++ self.top folder ++ [.isDir folder true] ++ [.opendir folder true])) := by
  rw [traverseIn_folder, Run.andThen_of_returned rfl, Dialogue.ask_apply, h]
  simp only [Bool.not_true, Bool.false_eq_true, if_false, Dialogue.ask_apply, ho]
  simp only [Run.andThen_of_returned, List.append_assoc, List.cons_append, List.nil_append]

theorem traverseIn_done (h : env.readdir past folder = none) :
    self.traverseIn env (fuel + 1) (.entries folder) past = ⟨.returned, [.readdir folder none]⟩ := by
  rw [CoverageBatch.traverseIn, Dialogue.ask_apply, h]
  rfl

theorem traverseIn_dots (h : env.readdir past folder = some sub) (hdots : sub = lit "." ∨ sub = lit "..") :
    self.traverseIn env (fuel + 1) (.entries folder) past = (Run.call (.readdir folder (some sub))).andThen
      (self.traverseIn env fuel (.entries folder) (past ++ [.readdir folder (some sub)])) := by
  rw [CoverageBatch.traverseIn, Dialogue.ask_apply, h]
  simp only [if_pos hdots, Dialogue.skip_andThen]
  rfl

theorem traverseIn_name (h : env.readdir past folder = some sub) (hdots : ¬(sub = lit "." ∨ sub = lit "..")) :
    self.traverseIn env (fuel + 1) (.entries folder) past = (Run.call (.readdir folder (some sub))).andThen
      ((self.traverseIn env fuel (.folder (folder ++ lit "/" ++ sub)) (past ++ [.readdir folder (some sub)])).andThen
        (self.traverseIn env fuel (.entries folder) (past ++ [.readdir folder (some sub)] ++
          (self.traverseIn env fuel (.folder (folder ++ lit "/" ++ sub)) (past ++ [.readdir folder (some sub)])).calls))) := by
  rw [CoverageBatch.traverseIn, Dialogue.ask_apply, h]
  simp only [if_neg hdots, Dialogue.andThen_apply]
  rfl

end Step

/-! ### The shape of a traversal -/

@[simp] theorem mem_top {self : CoverageBatch} {folder : Str} {e : Event} :
    e ∈ self.top folder ↔ isGcdaFile folder = true ∧ e = .print (self.batchText folder) := by
  unfold CoverageBatch.top topPaths
  split <;> simp [*]

theorem texts_top (self : CoverageBatch) (folder : Str) (es : List Event) :
    (self.top folder ++ es).filterMap Event.text? =
      (topPaths folder).map self.batchText ++ es.filterMap Event.text? := by
  unfold CoverageBatch.top topPaths
  split <;> rfl

theorem asked_top (self : CoverageBatch) (folder : Str) (es : List Event) :
    (self.top folder ++ es).filterMap Event.asked? = es.filterMap Event.asked? := by
  unfold CoverageBatch.top topPaths
  split <;> rfl

theorem map_filter_cons (self : CoverageBatch) (folder : Str) (paths : List Str) :
    ((folder :: paths).filter isGcdaFile).map self.batchText =
      (topPaths folder).map self.batchText ++ (paths.filter isGcdaFile).map self.batchText := by
  rw [List.filter_cons, topPaths]
  split <;> rfl

/-- How a traversal goes, whatever the answers in its events are. -/
inductive Goes (self : CoverageBatch) : Stage → Run Str Event → Prop where
  | unfinished (stage : Stage) : Goes self stage .unfinished
  | other (folder : Str) :
    Goes self (.folder folder) ⟨.returned, self.top folder ++ [.isDir folder false]⟩
  | refused (folder : Str) : Goes self (.folder folder) ⟨.died (lit "Died"),
      self.top folder ++ [.isDir folder true, .opendir folder false]⟩
  | opened {folder : Str} {r : Run Str Event} (h : Goes self (.entries folder) r) :
    Goes self (.folder folder) ⟨r.ending,
      self.top folder ++ .isDir folder true :: .opendir folder true :: r.calls⟩
  | done (folder : Str) : Goes self (.entries folder) ⟨.returned, [.readdir folder none]⟩
  | dots {folder sub : Str} {r : Run Str Event} (hdots : sub = lit "." ∨ sub = lit "..")
    (h : Goes self (.entries folder) r) : Goes self (.entries folder) ⟨r.ending, .readdir folder (some sub) :: r.calls⟩
  | cut {folder sub : Str} {r : Run Str Event} (hdots : ¬(sub = lit "." ∨ sub = lit ".."))
    (h : Goes self (.folder (folder ++ lit "/" ++ sub)) r) (hr : r.ending ≠ .returned) :
    Goes self (.entries folder) ⟨r.ending, .readdir folder (some sub) :: r.calls⟩
  | entry {folder sub : Str} {r r' : Run Str Event} (hdots : ¬(sub = lit "." ∨ sub = lit ".."))
    (h : Goes self (.folder (folder ++ lit "/" ++ sub)) r) (hr : r.ending = .returned)
    (h' : Goes self (.entries folder) r') :
    Goes self (.entries folder) ⟨r'.ending, .readdir folder (some sub) :: (r.calls ++ r'.calls)⟩

section Traverse
variable {self : CoverageBatch} {env : Env} {fuel : Nat} {past : List Event} {stage : Stage}

theorem traverseIn_goes : Goes self stage (self.traverseIn env fuel stage past) := by
  induction fuel generalizing stage past with
  | zero => exact .unfinished stage
  | succ fuel ih =>
    cases stage with
    | folder folder =>
      cases h : env.isDir (past ++ self.top folder) folder with
      | false =>
        rw [traverseIn_other h]
        exact .other folder
      | true =>
        cases ho : env.opendir (past ++ self.top folder ++ [.isDir folder true]) folder with
        | false =>
          rw [traverseIn_refused h ho]
          exact .refused folder
        | true =>
          rw [traverseIn_opened h ho]
          simp only [Run.andThen_of_returned, List.append_assoc, List.cons_append, List.nil_append]
          exact .opened ih
    | entries folder =>
      cases h : env.readdir past folder with
      | none =>
        rw [traverseIn_done h]
        exact .done folder
      | some sub =>
        by_cases hdots : sub = lit "." ∨ sub = lit ".."
        · rw [traverseIn_dots h hdots]
          exact .dots hdots ih
        · rw [traverseIn_name h hdots, Run.andThen_of_returned rfl]
          by_cases hr : (self.traverseIn env fuel (.folder (folder ++ lit "/" ++ sub))
              (past ++ [.readdir folder (some sub)])).ending = .returned
          · rw [Run.andThen_of_returned hr]
            exact .entry hdots ih hr ih
          · rw [Run.andThen_of_ne hr]
            exact .cut hdots ih hr

theorem traverseIn_obeys (stage : Stage) : (self.traverseIn env fuel stage).Obeys env.Answers := by
  induction fuel generalizing stage with
  | zero => exact Dialogue.obeys_unfinished
  | succ fuel ih =>
    cases stage with
    | folder folder =>
      refine Dialogue.Obeys.andThen ?_ (.ask (fun _ => rfl) fun dir => ?_)
      · split
        · exact Dialogue.obeys_tell fun _ => trivial
        · exact Dialogue.obeys_skip
      · split
        · exact Dialogue.obeys_skip
        · refine .ask (fun _ => rfl) fun opened => ?_
          split
          · exact Dialogue.obeys_die _
          · exact ih _
    | entries folder =>
      refine .ask (fun _ => rfl) fun name => ?_
      cases name with
      | none => exact Dialogue.obeys_skip
      | some sub =>
        refine Dialogue.Obeys.andThen ?_ (ih _)
        split
        · exact Dialogue.obeys_skip
        · exact ih _

end Traverse

/-! ### What a traversal does -/

def Stage.path : Stage → Str
  | .folder path => path
  | .entries path => path

/-- The path is made of names that the system has given. -/
inductive Named (es : List Event) (folder : Str) : Str → Prop where
  | top : Named es folder folder
  | sub {path sub : Str} (h : Named es folder path) (hsub : .readdir path (some sub) ∈ es)
    (hdots : ¬(sub = lit "." ∨ sub = lit "..")) : Named es folder (path ++ lit "/" ++ sub)

/-- Nothing is left undone: what is asked about is printed if it is to be, opened if it can be and read to its end,
    and what is read is asked about. -/
structure Thorough (batch : CoverageBatch) (es : List Event) : Prop where
  printed : ∀ {path answer}, .isDir path answer ∈ es → isGcdaFile path = true → .print (batch.batchText path) ∈ es
  opened : ∀ {path}, .isDir path true ∈ es → .opendir path true ∈ es
  ended : ∀ {path}, .opendir path true ∈ es → .readdir path none ∈ es
  entered : ∀ {path sub}, .readdir path (some sub) ∈ es → ¬(sub = lit "." ∨ sub = lit "..") →
    ∃ answer, .isDir (path ++ lit "/" ++ sub) answer ∈ es

def Stage.Ended (es : List Event) : Stage → Prop
  | .folder path => ∃ answer, .isDir path answer ∈ es
  | .entries path => .readdir path none ∈ es

section Goes
variable {self : CoverageBatch} {stage : Stage} {r : Run Str Event} {es es' : List Event} {folder path sub : Str}

theorem Named.mono (h : Named es folder path) (hes : ∀ e ∈ es, e ∈ es') : Named es' folder path := by
  induction h with
  | top => exact .top
  | sub _ hsub hdots ih => exact .sub ih (hes _ hsub) hdots

theorem Named.of_sub (h : Named es (folder ++ lit "/" ++ sub) path) (hsub : .readdir folder (some sub) ∈ es)
    (hdots : ¬(sub = lit "." ∨ sub = lit "..")) : Named es folder path := by
  induction h with
  | top => exact .sub .top hsub hdots
  | sub _ hsub' hdots' ih => exact .sub ih hsub' hdots'

theorem Thorough.append (h : Thorough self es) (h' : Thorough self es') : Thorough self (es ++ es') where
  printed he hg := by
    rcases List.mem_append.mp he with he | he
    · exact List.mem_append_left _ (h.printed he hg)
    · exact List.mem_append_right _ (h'.printed he hg)
  opened he := by
    rcases List.mem_append.mp he with he | he
    · exact List.mem_append_left _ (h.opened he)
    · exact List.mem_append_right _ (h'.opened he)
  ended he := by
    rcases List.mem_append.mp he with he | he
    · exact List.mem_append_left _ (h.ended he)
    · exact List.mem_append_right _ (h'.ended he)
  entered he hdots := by
    rcases List.mem_append.mp he with he | he
    · obtain ⟨answer, ha⟩ := h.entered he hdots
      exact ⟨answer, List.mem_append_left _ ha⟩
    · obtain ⟨answer, ha⟩ := h'.entered he hdots
      exact ⟨answer, List.mem_append_right _ ha⟩

theorem Thorough.readdir (h : Thorough self es) {name : Option Str} (hname : ∀ sub, name = some sub →
    ¬(sub = lit "." ∨ sub = lit "..") → ∃ answer, .isDir (folder ++ lit "/" ++ sub) answer ∈ es) :
    Thorough self (.readdir folder name :: es) where
  printed he hg := by
    simp only [List.mem_cons, reduceCtorEq, false_or] at he ⊢
    exact h.printed he hg
  opened he := by
    simp only [List.mem_cons, reduceCtorEq, false_or] at he ⊢
    exact h.opened he
  ended he := by
    simp only [List.mem_cons, reduceCtorEq, false_or] at he
    exact List.mem_cons_of_mem _ (h.ended he)
  entered he hdots := by
    rcases List.mem_cons.mp he with he | he
    · cases he
      obtain ⟨answer, ha⟩ := hname _ rfl hdots
      exact ⟨answer, List.mem_cons_of_mem _ ha⟩
    · obtain ⟨answer, ha⟩ := h.entered he hdots
      exact ⟨answer, List.mem_cons_of_mem _ ha⟩

/-- A folder that is opened: its own name is looked at, and then its entries. -/
theorem Thorough.opening (h : Thorough self es) (hend : .readdir folder none ∈ es) : Thorough self
    (self.top folder ++ .isDir folder true :: .opendir folder true :: es) where
  printed he hg := by
    simp only [List.mem_append, mem_top, reduceCtorEq, and_false, List.mem_cons, Event.isDir.injEq,
      false_or, Event.print.injEq] at he ⊢
    rcases he with ⟨rfl, -⟩ | he
    · exact Or.inl ⟨hg, rfl⟩
    · exact Or.inr (h.printed he hg)
  opened he := by
    simp only [List.mem_append, mem_top, reduceCtorEq, and_false, List.mem_cons, Event.isDir.injEq,
      Event.opendir.injEq, and_true, false_or] at he ⊢
    exact he.imp_right h.opened
  ended he := by
    simp only [List.mem_append, mem_top, reduceCtorEq, and_false, List.mem_cons,
      Event.opendir.injEq, and_true, false_or] at he ⊢
    rcases he with rfl | he
    · exact hend
    · exact h.ended he
  entered he hdots := by
    simp only [List.mem_append, mem_top, reduceCtorEq, and_false, List.mem_cons, false_or] at he
    obtain ⟨answer, ha⟩ := h.entered he hdots
    exact ⟨answer, List.mem_append_right _ (List.mem_cons_of_mem _ (List.mem_cons_of_mem _ ha))⟩

theorem thorough_nil : Thorough self [] := ⟨by simp, by simp, by simp, by simp⟩

theorem thorough_other (folder : Str) :
    Thorough self (self.top folder ++ [.isDir folder false]) where
  printed he hg := by
    simp only [List.mem_append, mem_top, reduceCtorEq, and_false, List.mem_singleton,
      Event.isDir.injEq, false_or, Event.print.injEq] at he ⊢
    obtain ⟨rfl, -⟩ := he
    exact Or.inl ⟨hg, rfl⟩
  opened he := by simp at he
  ended he := by simp at he
  entered he := by simp at he

/-- A traversal that returns has asked about its own path or read its directory to the end, and has left nothing
    undone. -/
theorem Goes.thorough (h : Goes self stage r) (hr : r.ending = .returned) :
    Thorough self r.calls ∧ stage.Ended r.calls := by
  induction h with
  | unfinished stage => cases hr
  | other folder => exact ⟨thorough_other folder, false, by simp⟩
  | refused folder => cases hr
  | opened _ ih =>
    obtain ⟨hthorough, hend⟩ := ih hr
    exact ⟨hthorough.opening hend, true, by simp⟩
  | done folder => exact ⟨thorough_nil.readdir (by simp), List.mem_cons_self⟩
  | dots hdots _ ih =>
    obtain ⟨hthorough, hend⟩ := ih hr
    refine ⟨hthorough.readdir fun sub hsub hsub' => ?_, List.mem_cons_of_mem _ hend⟩
    cases hsub
    exact absurd hdots hsub'
  | cut _ _ hne _ => exact absurd hr hne
  | entry hdots _ hr₁ _ ih ih' =>
    obtain ⟨hthorough, answer, ha⟩ := ih hr₁
    obtain ⟨hthorough', hend⟩ := ih' hr
    refine ⟨(hthorough.append hthorough').readdir fun sub hsub _ => ?_,
      List.mem_cons_of_mem _ (List.mem_append_right _ hend)⟩
    cases hsub
    exact ⟨answer, List.mem_append_left _ ha⟩

/-- What is printed are the records of the gcda paths that the traversal comes to. -/
theorem Goes.texts (h : Goes self stage r) :
    texts r = ((asked r).filter isGcdaFile).map self.batchText := by
  unfold CoverityTool.texts asked
  induction h with
  | unfinished stage => rfl
  | other folder =>
    rw [texts_top, asked_top]
    exact (map_filter_cons self folder []).symm
  | refused folder =>
    rw [texts_top, asked_top]
    exact (map_filter_cons self folder []).symm
  | opened _ ih =>
    rw [texts_top, asked_top]
    exact (congrArg _ ih).trans (map_filter_cons self _ _).symm
  | done folder => rfl
  | dots _ _ ih => exact ih
  | cut _ _ _ ih => exact ih
  | entry _ _ _ _ ih ih' =>
    rw [List.filterMap_cons_none rfl, List.filterMap_cons_none rfl, List.filterMap_append, List.filterMap_append,
      List.filter_append, List.map_append, ih, ih']

/-- The traversal comes to paths that the system has named. -/
theorem Goes.named (h : Goes self stage r) : ∀ p answer, .isDir p answer ∈ r.calls → Named r.calls stage.path p := by
  induction h with
  | unfinished stage => simp [Run.unfinished]
  | other folder =>
    intro p answer hp
    simp at hp
    exact hp.1 ▸ .top
  | refused folder =>
    intro p answer hp
    simp at hp
    exact hp.1 ▸ .top
  | opened _ ih =>
    intro p answer hp
    simp only [List.mem_append, mem_top, reduceCtorEq, and_false, List.mem_cons, Event.isDir.injEq, false_or] at hp
    rcases hp with ⟨rfl, -⟩ | hp
    · exact .top
    · exact (ih p answer hp).mono fun e he => by simp [he]
  | done folder => simp
  | dots _ _ ih =>
    intro p answer hp
    simp only [List.mem_cons, reduceCtorEq, false_or] at hp
    exact (ih p answer hp).mono fun e he => List.mem_cons_of_mem _ he
  | cut hdots _ _ ih =>
    intro p answer hp
    simp only [List.mem_cons, reduceCtorEq, false_or] at hp
    exact ((ih p answer hp).mono fun e he => List.mem_cons_of_mem _ he).of_sub List.mem_cons_self hdots
  | entry hdots _ _ _ ih ih' =>
    intro p answer hp
    simp only [List.mem_cons, reduceCtorEq, false_or, List.mem_append] at hp
    rcases hp with hp | hp
    · exact ((ih p answer hp).mono fun e he => by simp [he]).of_sub List.mem_cons_self hdots
    · exact (ih' p answer hp).mono fun e he => by simp [he]

/-- It dies exactly when a directory cannot be opened. -/
theorem Goes.died (h : Goes self stage r) : r.Died ↔ ∃ path, .opendir path false ∈ r.calls := by
  induction h with
  | unfinished stage => simp [Run.Died, Run.unfinished]
  | other folder => simp [Run.Died]
  | refused folder => simp [Run.Died]
  | opened _ ih =>
    simp only [List.mem_append, mem_top, reduceCtorEq, and_false, List.mem_cons, Event.opendir.injEq,
      Bool.false_eq_true, false_or]
    exact ih
  | done folder => simp [Run.Died]
  | dots _ _ ih =>
    simp only [List.mem_cons, reduceCtorEq, false_or]
    exact ih
  | cut _ _ _ ih =>
    simp only [List.mem_cons, reduceCtorEq, false_or]
    exact ih
  | entry _ _ hr _ ih ih' =>
    simp only [List.mem_cons, reduceCtorEq, false_or, List.mem_append, exists_or]
    rw [← ih, or_iff_right (Run.not_died hr)]
    exact ih'

end Goes

/-! ### Each path once -/

/-- What has happened since the directory was last opened, the latest first. -/
def since (path : Str) (past : List Event) : List Event := past.reverse.takeWhile (· ≠ .opendir path true)

/-- While a directory is read, it gives no name twice; and names have no separator in them. -/
structure Env.Proper (env : Env) : Prop where
  fresh : ∀ {past path sub}, env.Possible past → env.readdir past path = some sub →
    .readdir path (some sub) ∉ since path past
  no_slash : ∀ {past path sub}, env.Possible past → env.readdir past path = some sub → slash ∉ sub

def Stage.Covers (es : List Event) (q : Str) : Stage → Prop
  | .folder path => Below path q
  | .entries path => ∃ sub, .readdir path (some sub) ∈ es ∧ Below (path ++ lit "/" ++ sub) q

def Stage.Opens (q : Str) : Stage → Prop
  | .folder path => path <+: q
  | .entries path => path ++ lit "/" <+: q

/-- The names that are read have not been read since the directory was opened. -/
def Stage.Fresh (past es : List Event) : Stage → Prop
  | .folder _ => True
  | .entries path => ∀ sub, .readdir path (some sub) ∈ es → .readdir path (some sub) ∉ since path past

section Once
variable {self : CoverageBatch} {env : Env} {stage : Stage} {r : Run Str Event} {past es : List Event}
variable {path q sub sub' : Str}

theorem since_append (h : .opendir path true ∉ es) : since path (past ++ es) = es.reverse ++ since path past := by
  rw [since, List.reverse_append, List.takeWhile_append_of_pos, since]
  intro e he
  have hne : e ≠ .opendir path true := fun heq => h (heq ▸ List.mem_reverse.mp he)
  simpa using hne

theorem takeWhile_of_below (hs : slash ∉ sub) (h : Below (path ++ lit "/" ++ sub) q) :
    (q.drop (path ++ lit "/").length).takeWhile (· ≠ slash) = sub := by
  have hpos : ∀ c ∈ sub, (decide (c ≠ slash)) = true := fun c hc => decide_eq_true fun heq => hs (heq ▸ hc)
  rcases h with rfl | ⟨t, rfl⟩
  · rw [List.drop_left, List.takeWhile_eq_self_iff.mpr hpos]
  · have hsplit : path ++ lit "/" ++ sub ++ lit "/" ++ t = path ++ lit "/" ++ (sub ++ slash :: t) := by
      simp [lit_slash]
    rw [hsplit, List.drop_left, List.takeWhile_append_of_pos hpos]
    simp

/-- What lies below one entry does not lie below another. -/
theorem below_unique (hs : slash ∉ sub) (hs' : slash ∉ sub') (h : Below (path ++ lit "/" ++ sub) q)
    (h' : Below (path ++ lit "/" ++ sub') q) : sub = sub' :=
  (takeWhile_of_below hs h).symm.trans (takeWhile_of_below hs' h')

/-- A traversal of a folder stays at and below its path; the loop over its entries opens directories below it. -/
theorem Goes.stays (h : Goes self stage r) :
    (∀ q answer, .isDir q answer ∈ r.calls → stage.Covers r.calls q) ∧
    (∀ q opened, .opendir q opened ∈ r.calls → stage.Opens q) ∧
    ∀ q name, .readdir q name ∈ r.calls → stage.path <+: q := by
  have trans : ∀ {path sub q : Str}, path ++ lit "/" ++ sub <+: q → path ++ lit "/" <+: q ∧ path <+: q := by
    intro path sub q h
    have hslash := (List.prefix_append (path ++ lit "/") sub).trans h
    exact ⟨hslash, (List.prefix_append path (lit "/")).trans hslash⟩
  induction h with
  | unfinished stage => simp [Run.unfinished]
  | other folder => simp [Stage.Covers, Below]
  | refused folder => simp [Stage.Covers, Stage.Opens, Below]
  | opened _ ih =>
    obtain ⟨hasked, hopened, hread⟩ := ih
    simp only [List.mem_append, mem_top, reduceCtorEq, and_false, List.mem_cons, Event.isDir.injEq,
      Event.opendir.injEq, false_or]
    refine ⟨fun q answer hq => ?_, fun q opened hq => ?_, hread⟩
    · rcases hq with ⟨rfl, -⟩ | hq
      · exact Or.inl rfl
      · obtain ⟨sub, -, hbelow⟩ := hasked q answer hq
        exact Or.inr hbelow.of_sub
    · rcases hq with ⟨rfl, -⟩ | hq
      · exact List.prefix_rfl
      · exact (List.prefix_append _ _).trans (hopened q opened hq)
  | done folder => simp [Stage.path]
  | dots _ _ ih =>
    obtain ⟨hasked, hopened, hread⟩ := ih
    simp only [List.mem_cons, reduceCtorEq, false_or, Event.readdir.injEq]
    refine ⟨fun q answer hq => ?_, hopened, fun q name hq => ?_⟩
    · obtain ⟨sub, hsub, hbelow⟩ := hasked q answer hq
      exact ⟨sub, List.mem_cons_of_mem _ hsub, hbelow⟩
    · rcases hq with ⟨rfl, -⟩ | hq
      · exact List.prefix_rfl
      · exact hread q name hq
  | cut _ _ _ ih =>
    obtain ⟨hasked, hopened, hread⟩ := ih
    simp only [List.mem_cons, reduceCtorEq, false_or, Event.readdir.injEq]
    refine ⟨fun q answer hq => ⟨_, List.mem_cons_self, hasked q answer hq⟩, fun q opened hq => ?_, fun q name hq => ?_⟩
    · exact (trans (hopened q opened hq)).1
    · rcases hq with ⟨rfl, -⟩ | hq
      · exact List.prefix_rfl
      · exact (trans (hread q name hq)).2
  | entry _ _ _ _ ih ih' =>
    obtain ⟨hasked, hopened, hread⟩ := ih
    obtain ⟨hasked', hopened', hread'⟩ := ih'
    simp only [List.mem_cons, reduceCtorEq, false_or, List.mem_append, Event.readdir.injEq]
    refine ⟨fun q answer hq => ?_, fun q opened hq => ?_, fun q name hq => ?_⟩
    · rcases hq with hq | hq
      · exact ⟨_, List.mem_cons_self, hasked q answer hq⟩
      · obtain ⟨sub, hsub, hbelow⟩ := hasked' q answer hq
        exact ⟨sub, List.mem_cons_of_mem _ (List.mem_append_right _ hsub), hbelow⟩
    · rcases hq with hq | hq
      · exact (trans (hopened q opened hq)).1
      · exact hopened' q opened hq
    · rcases hq with ⟨rfl, -⟩ | hq | hq
      · exact List.prefix_rfl
      · exact (trans (hread q name hq)).2
      · exact hread' q name hq

theorem mem_asked : q ∈ asked r ↔ ∃ answer, .isDir q answer ∈ r.calls := by
  constructor
  · intro h
    obtain ⟨e, he, hq⟩ := List.mem_filterMap.mp h
    cases e <;> simp [Event.asked?] at hq
    exact ⟨_, hq ▸ he⟩
  · rintro ⟨answer, h⟩
    exact List.mem_filterMap.mpr ⟨_, h, rfl⟩

theorem not_prefix_self : ¬ path ++ lit "/" <+: path := by
  intro h
  have hlen := h.length_le
  rw [lit_slash, List.length_append, List.length_singleton] at hlen
  omega

/-- The traversal of an entry neither opens nor reads the directory of the entry. -/
theorem Goes.leaves (h : Goes self (.folder (path ++ lit "/" ++ sub)) r) :
    (∀ opened, .opendir path opened ∉ r.calls) ∧ ∀ name, .readdir path name ∉ r.calls := by
  obtain ⟨-, hopened, hread⟩ := h.stays
  have hpath : ¬ path ++ lit "/" ++ sub <+: path := fun hpre => not_prefix_self ((List.prefix_append _ _).trans hpre)
  exact ⟨fun opened ho => hpath (hopened _ _ ho), fun name hr => hpath (hread _ _ hr)⟩

/-- What an entry's traversal does leaves what has happened since its directory was opened. -/
theorem since_entry (h : Goes self (.folder (path ++ lit "/" ++ sub)) r) :
    since path (past ++ [.readdir path (some sub)] ++ r.calls) =
      r.calls.reverse ++ .readdir path (some sub) :: since path past := by
  rw [since_append (h.leaves.1 true), since_append (by simp)]
  rfl

/-- A name that has just been read is new. -/
theorem fresh_cons (hp : env.Proper) (hpast : env.Possible past) (hread : env.Answers past (.readdir path (some sub)))
    (hrest : ∀ sub', .readdir path (some sub') ∈ es → .readdir path (some sub') ∉ since path past) :
    (Stage.entries path).Fresh past (.readdir path (some sub) :: es) := by
  intro sub' hsub'
  rcases List.mem_cons.mp hsub' with heq | hsub'
  · cases heq
    exact hp.fresh hpast hread.symm
  · exact hrest sub' hsub'

/-- The rest of a loop does not come to what the traversal of an entry has come to: the entry would have been named
    twice. -/
theorem Goes.apart {r' : Run Str Event} (hp : env.Proper) (h : Goes self (.folder (path ++ lit "/" ++ sub)) r)
    (h' : Goes self (.entries path) r') (hpast : env.Possible past) (hs : slash ∉ sub)
    (hok : Allowed env.Answers past r'.calls) (hsub : .readdir path (some sub) ∉ r'.calls) (hq : q ∈ asked r) :
    q ∉ asked r' := by
  intro hq'
  obtain ⟨answer, ha⟩ := mem_asked.mp hq
  obtain ⟨answer', ha'⟩ := mem_asked.mp hq'
  obtain ⟨sub', hsub', hbelow'⟩ := h'.stays.1 _ _ ha'
  obtain ⟨before, after, hbefore, hanswer⟩ := hok.of_mem hsub'
  rw [hbefore] at hok
  have hpossible := hpast.append (allowed_append.mp hok).1
  obtain rfl := below_unique hs (hp.no_slash hpossible hanswer.symm) (h.stays.1 _ _ ha) hbelow'
  exact hsub hsub'

/-- No path is come to twice, because no directory gives a name twice. -/
theorem Goes.once (hp : env.Proper) (h : Goes self stage r) (hpast : env.Possible past)
    (hok : Allowed env.Answers past r.calls) : (asked r).Nodup ∧ stage.Fresh past r.calls := by
  induction h generalizing past with
  | unfinished stage => cases stage <;> simp [asked, Run.unfinished, Stage.Fresh]
  | other folder =>
    rw [asked, asked_top]
    exact ⟨List.nodup_singleton folder, trivial⟩
  | refused folder =>
    rw [asked, asked_top]
    exact ⟨List.nodup_singleton folder, trivial⟩
  | @opened folder r h ih =>
    have hsplit : self.top folder ++ .isDir folder true :: .opendir folder true :: r.calls =
        self.top folder ++ [.isDir folder true, .opendir folder true] ++ r.calls := by simp
    rw [hsplit] at hok
    obtain ⟨hopening, hcalls⟩ := allowed_append.mp hok
    obtain ⟨hnodup, -⟩ := ih (hpast.append hopening) hcalls
    refine ⟨?_, trivial⟩
    rw [asked, asked_top]
    refine List.nodup_cons.mpr ⟨fun hmem => ?_, hnodup⟩
    obtain ⟨answer, ha⟩ := mem_asked.mp hmem
    obtain ⟨sub, -, hbelow⟩ := h.stays.1 _ _ ha
    exact not_prefix_self hbelow.of_sub
  | done folder => exact ⟨List.nodup_nil, by simp [Stage.Fresh]⟩
  | dots _ _ ih =>
    obtain ⟨hnodup, hfresh⟩ := ih (hpast.concat hok.1) hok.2
    refine ⟨hnodup, fresh_cons hp hpast hok.1 fun sub hsub hmem => hfresh sub hsub ?_⟩
    rw [since_append (by simp)]
    exact List.mem_append_right _ hmem
  | cut _ h _ ih =>
    obtain ⟨hnodup, -⟩ := ih (hpast.concat hok.1) hok.2
    exact ⟨hnodup, fresh_cons hp hpast hok.1 fun sub hsub => absurd hsub (h.leaves.2 _)⟩
  | @entry folder sub r r' _ h _ h' ih ih' =>
    obtain ⟨hcalls, hcalls'⟩ := allowed_append.mp hok.2
    have hread := hpast.concat hok.1
    obtain ⟨hnodup, -⟩ := ih hread hcalls
    obtain ⟨hnodup', hfresh⟩ := ih' (hread.append hcalls) hcalls'
    rw [Stage.Fresh, since_entry h] at hfresh
    have hsub : .readdir folder (some sub) ∉ r'.calls := fun hsub => hfresh sub hsub (by simp)
    have hasked : asked ⟨r'.ending, .readdir folder (some sub) :: (r.calls ++ r'.calls)⟩ = asked r ++ asked r' :=
      List.filterMap_append
    refine ⟨?_, fresh_cons hp hpast hok.1 fun sub' hsub' hmem => ?_⟩
    · rw [hasked]
      refine List.nodup_append.mpr ⟨hnodup, hnodup', fun q hq q' hq' heq => ?_⟩
      exact h.apart hp h' (hread.append hcalls) (hp.no_slash hpast hok.1.symm) hcalls' hsub hq (heq ▸ hq')
    · rcases List.mem_append.mp hsub' with hsub' | hsub'
      · exact h.leaves.2 _ hsub'
      · exact hfresh sub' hsub' (by simp [hmem])

end Once

/-! ### Whole runs -/

/-- The system answers that the output has been opened. -/
def Env.Opens (env : Env) (self : CoverageBatch) : Prop := env.openOut [] (lit ">" ++ self.output) = .ok ()

/-- What happens before the traversal, once the output is open. -/
def CoverageBatch.start (self : CoverageBatch) : List Event :=
  [.openOut (lit ">" ++ self.output) (.ok ()), .print self.headerText]

section Create
variable {self : CoverageBatch} {env : Env} {fuel : Nat}

theorem start_possible (ho : env.Opens self) : env.Possible self.start := ⟨ho.symm, trivial, trivial⟩

theorem createIn_of_opens (ho : env.Opens self) (fuel : Nat) : self.createIn env fuel [] =
    (⟨.returned, self.start⟩ : Run Str Event).andThen
      ((self.traverseIn env fuel (.folder self.gcdaFolder) self.start).andThen (.call .close)) := by
  have ho' : env.openOut [] (lit ">" ++ self.output) = .ok () := ho
  rw [CoverageBatch.createIn, Dialogue.ask_apply, ho']
  rfl

theorem createIn_of_error {errno : Str} (h : env.openOut [] (lit ">" ++ self.output) = .error errno) (fuel : Nat) :
    self.createIn env fuel [] = ⟨.died (lit "Could not open file '" ++ self.output ++ lit "' " ++ errno),
      [.openOut (lit ">" ++ self.output) (.error errno)]⟩ := by
  rw [CoverageBatch.createIn, Dialogue.ask_apply, h]
  rfl

/-- A run is the `open`, the header, a traversal, and at the end the `close` if the traversal returns. -/
theorem createIn_cases (ho : env.Opens self) (fuel : Nat) : ∃ (r : Run Str Event) (tail : List Event),
    Goes self (.folder self.gcdaFolder) r ∧ (∀ e ∈ tail, e = .close) ∧
    (self.createIn env fuel []).ending = r.ending ∧
    (self.createIn env fuel []).calls = self.start ++ (r.calls ++ tail) ∧ env.Possible (self.start ++ r.calls) := by
  have hobeys : (self.traverseIn env fuel (.folder self.gcdaFolder)).Obeys env.Answers := traverseIn_obeys _
  have hpossible := (start_possible ho).append (hobeys self.start)
  rw [createIn_of_opens ho, Run.andThen_of_returned rfl]
  by_cases hr : (self.traverseIn env fuel (.folder self.gcdaFolder) self.start).ending = .returned
  · rw [Run.andThen_of_returned hr]
    exact ⟨_, [.close], traverseIn_goes, by simp, hr.symm, rfl, hpossible⟩
  · rw [Run.andThen_of_ne hr]
    exact ⟨_, [], traverseIn_goes, by simp, rfl, by simp, hpossible⟩

theorem texts_createIn {r : Run Str Event} {tail : List Event} (h : Goes self (.folder self.gcdaFolder) r)
    (htail : ∀ e ∈ tail, e = .close) (hcalls : (self.createIn env fuel []).calls = self.start ++ (r.calls ++ tail)) :
    texts (self.createIn env fuel []) = self.headerText :: ((asked r).filter isGcdaFile).map self.batchText := by
  have hclose : tail.filterMap Event.text? = [] := by
    rw [List.filterMap_eq_nil_iff]
    intro e he
    rw [htail e he]
    rfl
  have hheader : self.start.filterMap Event.text? = [self.headerText] := rfl
  rw [texts, hcalls, List.filterMap_append, List.filterMap_append, hclose, List.append_nil, hheader, ← h.texts]
  rfl

end Create

/-- Whatever other programs do in the meantime: once the output is open, a run prints the header and records, and
    what it prints can be read back; the records are for gcda paths made of names that the system has given; and
    the run dies exactly when a directory cannot be opened. -/
theorem changes_safe (self : CoverageBatch) (env : Env) (fuel : Nat) (ho : env.Opens self) :
    ∃ paths : List Str,
      texts (self.createIn env fuel []) = header.write self.header :: (paths.map self.record).map record.write ∧
      readBatch (texts (self.createIn env fuel [])).flatten = some (self.header, paths.map self.record) ∧
      (∀ p ∈ paths, isGcdaFile p = true ∧ Named (self.createIn env fuel []).calls self.gcdaFolder p) ∧
      ((self.createIn env fuel []).Died ↔ ∃ path, .opendir path false ∈ (self.createIn env fuel []).calls) := by
  obtain ⟨r, tail, hgoes, htail, hend, hcalls, -⟩ := createIn_cases ho fuel
  have htexts := texts_createIn hgoes htail hcalls
  refine ⟨(asked r).filter isGcdaFile, ?_, ?_, fun p hp => ?_, ?_⟩
  · rw [htexts, headerText_eq, map_batchText]
  · rw [htexts, List.flatten_cons, ← List.flatMap_def, readBatch_texts]
  · obtain ⟨hp, hg⟩ := List.mem_filter.mp hp
    obtain ⟨answer, ha⟩ := mem_asked.mp hp
    refine ⟨hg, (hgoes.named p answer ha).mono fun e he => ?_⟩
    rw [hcalls]
    simp [he]
  · have hdied : (self.createIn env fuel []).Died ↔ r.Died := by rw [Run.Died, Run.Died, hend]
    have hclose : ∀ path, .opendir path false ∉ tail := fun path h => by cases htail _ h
    simp [hdied, hgoes.died, hcalls, hclose, CoverageBatch.start]

/-- The directory is there when it is asked about, and gone when it is opened. -/
def goneEnv : Env where
  openOut _ _ := .ok ()
  isDir past _ := past.length < 3
  opendir past _ := past.length < 3
  readdir _ _ := none

theorem changes_safe_sample : ∃ paths : List Str,
    texts (sampleBatch.createIn goneEnv 3 []) =
      header.write sampleBatch.header :: (paths.map sampleBatch.record).map record.write ∧
    ((sampleBatch.createIn goneEnv 3 []).Died ↔
      ∃ path, .opendir path false ∈ (sampleBatch.createIn goneEnv 3 []).calls) := by
  obtain ⟨paths, htexts, -, -, hdied⟩ := changes_safe sampleBatch goneEnv 3 rfl
  exact ⟨paths, htexts, hdied⟩

end CoverityTool
