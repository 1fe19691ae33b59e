import CoverityTool.Reading
import CoverityTool.Unchanging

/-! Files that come and go. What the system answers depends on the files that are there when it is asked, and a run
    makes one of them: its output is open before it asks about a directory. After that it makes no file, so it comes
    out like a run in a system that does not change. -/

namespace CoverityTool
open Perl Runs Dialogues Stores

/-! ### A system that does not change once the output is open -/

def Event.isOpen : Event → Bool
  | .openOut _ _ => true
  | _ => false

/-- The two answer alike after these events, and after any others as long as no output is opened. -/
def Env.Alike (past : List Event) (env env' : Env) : Prop :=
  ∀ es, (∀ e ∈ es, e.isOpen = false) → ∀ path, env.isDir (past ++ es) path = env'.isDir (past ++ es) path ∧
    env.opendir (past ++ es) path = env'.opendir (past ++ es) path ∧
    env.readdir (past ++ es) path = env'.readdir (past ++ es) path

section Alike
variable {self : CoverageBatch} {env env' : Env} {past es : List Event} {stage : Stage} {r : Run Str Event}

theorem top_quiet (self : CoverageBatch) (folder : Str) : ∀ e ∈ self.top folder, e.isOpen = false := by
  intro e he
  obtain ⟨-, rfl⟩ := mem_top.mp he
  rfl

/-- A traversal opens no output. -/
theorem Goes.quiet (h : Goes self stage r) : ∀ e ∈ r.calls, e.isOpen = false := by
  have htop := top_quiet self
  induction h with
  | unfinished stage => simp [Run.unfinished]
  | other folder => exact List.forall_mem_append.mpr ⟨htop folder, by simp [Event.isOpen]⟩
  | refused folder => exact List.forall_mem_append.mpr ⟨htop folder, by simp [Event.isOpen]⟩
  | opened _ ih =>
    refine List.forall_mem_append.mpr ⟨htop _, List.forall_mem_cons.mpr ⟨rfl, ?_⟩⟩
    exact List.forall_mem_cons.mpr ⟨rfl, ih⟩
  | done folder => simp [Event.isOpen]
  | dots _ _ ih => exact List.forall_mem_cons.mpr ⟨rfl, ih⟩
  | cut _ _ _ ih => exact List.forall_mem_cons.mpr ⟨rfl, ih⟩
  | entry _ _ _ _ ih ih' => exact List.forall_mem_cons.mpr ⟨rfl, List.forall_mem_append.mpr ⟨ih, ih'⟩⟩

theorem Env.Alike.append (h : Env.Alike past env env') (hes : ∀ e ∈ es, e.isOpen = false) :
    Env.Alike (past ++ es) env env' := by
  intro es' hes' path
  rw [List.append_assoc]
  exact h (es ++ es') (List.forall_mem_append.mpr ⟨hes, hes'⟩) path

theorem Env.Alike.concat {e : Event} (h : Env.Alike past env env') (he : e.isOpen = false) :
    Env.Alike (past ++ [e]) env env' := h.append (by simpa using he)

theorem Env.Alike.now (h : Env.Alike past env env') (path : Str) : env.isDir past path = env'.isDir past path ∧
    env.opendir past path = env'.opendir past path ∧ env.readdir past path = env'.readdir past path := by
  have hnow := h [] (by simp) path
  rwa [List.append_nil] at hnow

theorem traverseIn_congr (h : Env.Alike past env env') (fuel : Nat) :
    self.traverseIn env fuel stage past = self.traverseIn env' fuel stage past := by
  induction fuel generalizing stage past with
  | zero => rfl
  | succ fuel ih =>
    cases stage with
    | folder folder =>
      have htop := h.append (top_quiet self folder)
      cases hdir : env.isDir (past ++ self.top folder) folder with
      | false => rw [traverseIn_other hdir, traverseIn_other ((htop.now folder).1.symm.trans hdir)]
      | true =>
        have hdir' := (htop.now folder).1.symm.trans hdir
        have hasked : Env.Alike (past ++ self.top folder ++ [.isDir folder true]) env env' := htop.concat rfl
        cases ho : env.opendir (past ++ self.top folder ++ [.isDir folder true]) folder with
        | false =>
          rw [traverseIn_refused hdir ho, traverseIn_refused hdir' ((hasked.now folder).2.1.symm.trans ho)]
        | true =>
          rw [traverseIn_opened hdir ho, traverseIn_opened hdir' ((hasked.now folder).2.1.symm.trans ho)]
          rw [ih (hasked.concat rfl)]
    | entries folder =>
      cases hread : env.readdir past folder with
      | none => rw [traverseIn_done hread, traverseIn_done ((h.now folder).2.2.symm.trans hread)]
      | some sub =>
        have hread' := (h.now folder).2.2.symm.trans hread
        have hnamed : Env.Alike (past ++ [.readdir folder (some sub)]) env env' := h.concat rfl
        by_cases hdots : sub = lit "." ∨ sub = lit ".."
        · rw [traverseIn_dots hread hdots, traverseIn_dots hread' hdots, ih hnamed]
        · rw [traverseIn_name hread hdots, traverseIn_name hread' hdots, ih hnamed]
          refine congrArg _ (Run.andThen_congr_right fun _ => ?_)
          exact ih (hnamed.append traverseIn_goes.quiet)

end Alike

/-! ### Files in the course of a run -/

section Files
variable {π η : Type} [DecidableEq π] [DecidableEq η]

/-- The files that are there after the events. -/
def World.filesAfter (w : World π η) (s : Storage) (before : Held π η) (past : List Event) : π → Bool :=
  (w.after s before (observed ⟨.returned, past⟩)).files

/-- A system that answers by the files that are there when it is asked. -/
def World.env (w : World π η) (s : Storage) (before : Held π η) (answers : (π → Bool) → Sys) : Env :=
  let now (past : List Event) := w.sys (answers (w.filesAfter s before past))
  { openOut := fun past => (now past).env.openOut past
    isDir := fun past => (now past).env.isDir past
    opendir := fun past => (now past).env.opendir past
    readdir := fun past => (now past).env.readdir past }

/-- The file that is written to is there. -/
def Writing.Sound (st : Writing π η) : Prop := ∀ p, st.out = some (.file p) → st.held.files p = true

variable {w : World π η} {s : Storage} {m : Held π η} {st : Writing π η} {self : CoverageBatch}

theorem files_append {p : π} {k : Sink π η} {text : List Nat} (h : k = .file p → m.files p = true) :
    Held.files (m.append k text) p = m.files p := by
  by_cases hk : .file p = k
  · subst hk
    rw [h rfl, Held.files, Store.append_self, Option.isSome_some]
  · rw [Held.files, Store.append_of_ne hk, Held.files]

/-- Only an `open` makes a file. -/
theorem step_files {c : Call} (hc : ∀ expr, c ≠ .openOut expr) (h : st.Sound) :
    (w.step s st c).Sound ∧ (w.step s st c).held.files = st.held.files := by
  cases c with
  | openOut expr => exact absurd rfl (hc expr)
  | print text =>
    simp only [World.step]
    cases ho : st.out with
    | none => exact ⟨h, rfl⟩
    | some k =>
      have hfiles : Held.files (st.held.append k (s.storedOctets text)) = st.held.files :=
        funext fun p => files_append fun hk => h p (hk ▸ ho)
      refine ⟨fun p hp => ?_, hfiles⟩
      exact (congrFun hfiles p).trans (h p (ho.trans hp))
  | opendir folder => exact ⟨h, rfl⟩
  | close => exact ⟨fun p hp => (by cases hp), rfl⟩

theorem foldl_step_files {cs : List Call} (hcs : ∀ c ∈ cs, ∀ expr, c ≠ .openOut expr) (h : st.Sound) :
    (cs.foldl (w.step s) st).held.files = st.held.files := by
  induction cs generalizing st with
  | nil => rfl
  | cons c cs ih =>
    rw [List.forall_mem_cons] at hcs
    obtain ⟨hsound, hfiles⟩ := step_files (w := w) (s := s) hcs.1 h
    rw [List.foldl_cons, ih hcs.2 hsound, hfiles]

theorem call_of_quiet {e : Event} {c : Call} (he : e.isOpen = false) (hc : e.call? = some c) :
    ∀ expr, c ≠ .openOut expr := by
  rintro expr rfl
  cases e with
  | openOut file answer => cases he
  | opendir path opened => cases opened <;> simp [Event.call?] at hc
  | _ => simp [Event.call?] at hc

/-- Once the output is open, the files that are there do not change. -/
theorem filesAfter_start {t : Mode × Sink π η} (ht : w.target (lit ">" ++ self.output) = .ok t) {es : List Event}
    (hes : ∀ e ∈ es, e.isOpen = false) :
    w.filesAfter s m (self.start ++ es) = w.present s m (lit ">" ++ self.output) := by
  obtain ⟨mode, k⟩ := t
  have hsound : (w.step s ⟨m, none⟩ (.openOut (lit ">" ++ self.output))).Sound := by
    intro p hp
    have hk : k = .file p := by simpa only [World.step, ht, Option.some.injEq] using hp
    exact present_iff.mpr (Or.inr ⟨mode, hk ▸ ht⟩)
  have hcalls : (observed ⟨.returned, self.start ++ es⟩).calls = .openOut (lit ">" ++ self.output) ::
      .print self.headerText :: es.filterMap Event.call? := by
    rw [observed, Run.filterMap_calls, List.filterMap_append]
    rfl
  rw [World.filesAfter, World.after, hcalls, List.foldl_cons, foldl_step_files _ hsound, World.present]
  rw [List.forall_mem_cons]
  refine ⟨fun _ h => (by cases h), fun c hc => ?_⟩
  obtain ⟨e, he, hec⟩ := List.mem_filterMap.mp hc
  exact call_of_quiet (hes e he) hec

/-- A run that makes its output before it asks is answered as if the file had been there all the time. -/
theorem createIn_env {t : Mode × Sink π η} (ht : w.target (lit ">" ++ self.output) = .ok t)
    (answers : (π → Bool) → Sys) (fuel : Nat) : self.createIn (w.env s m answers) fuel [] =
      self.createIn (w.sys (answers (w.present s m (lit ">" ++ self.output)))).env fuel [] := by
  have ho : ∀ files, (w.sys (answers files)).Opens self := fun _ => sys_opens_iff.mpr ⟨t, ht⟩
  have hopens : (w.env s m answers).Opens self := ho (w.filesAfter s m [])
  have hopens' : (w.sys (answers (w.present s m (lit ">" ++ self.output)))).env.Opens self :=
    ho (w.present s m (lit ">" ++ self.output))
  have halike : Env.Alike self.start (w.env s m answers)
      (w.sys (answers (w.present s m (lit ">" ++ self.output)))).env := by
    intro es hes path
    simp only [World.env, filesAfter_start ht hes, and_self]
  rw [createIn_of_opens hopens, createIn_of_opens hopens', traverseIn_congr halike]

end Files

/-! ### The batch file in the tree -/

/-- The file at the path is there, given which places have a file. What cannot be opened for writing is there in any
    case. -/
def World.shows {π η : Type} (w : World π η) (files : π → Bool) (path : Str) : Bool :=
  match w.place path with
  | .ok p => files p
  | .error _ => true

/-- While files come and go, the directories at `g` stay, and of the files in `all` those are listed that are there,
    in any order. -/
structure World.Lives {π η : Type} (w : World π η) (g : Str) (disk : (π → Bool) → Disk) (tree : (π → Bool) → Tree)
    (all : Entry → Prop) : Prop where
  holds : ∀ files, (disk files).Holds g (tree files)
  there : ∀ files e, e ∈ (tree files).listing.entries ↔
    all e ∧ (e.isDir = true ∨ w.shows files (pathOf g e.path) = true)

theorem shows_present_iff {π η : Type} [DecidableEq π] [DecidableEq η] {w : World π η} {s : Storage} {m : Held π η}
    {expr path : Str} : w.shows (w.present s m expr) path = true ↔
      w.shows m.files path = true ∨ ∃ mode p, w.target expr = .ok (mode, .file p) ∧ w.place path = .ok p := by
  unfold World.shows
  cases w.place path with
  | error errno => simp
  | ok p => simp only [present_iff, Except.ok.injEq, exists_eq_right']

/-- The output is opened before a directory is listed. So a run, given enough fuel, returns, and records the gcda entries
    that were there before it, and its own batch file wherever that lies in the tree under the name of a gcda file, and
    nothing else; which records there are does not depend on the output in any other way, or on the names and the gcno
    folder. -/
theorem records_decided {π η : Type} [DecidableEq π] [DecidableEq η] (self : CoverageBatch) (w : World π η)
    (t : Mode × Sink π η) (ht : w.target (lit ">" ++ self.output) = .ok t) (disk : (π → Bool) → Disk)
    (tree : (π → Bool) → Tree) (all : Entry → Prop) (hlives : w.Lives self.gcdaFolder disk tree all) (s : Storage)
    (m : Held π η) :
    let run := self.createIn (w.env s m fun files => (disk files).sys .none)
    ∃ entries : List Entry, entries.Nodup ∧
      (∃ n, ∀ fuel, n ≤ fuel → (run fuel []).ending = .returned ∧ texts (run fuel []) = header.write self.header ::
        ((topPaths self.gcdaFolder ++ entries.map fun e => pathOf self.gcdaFolder e.path).map self.record).map
          record.write) ∧
      ∀ e, e ∈ entries ↔ e ∈ (tree m.files).gcdaEntries ∨
        all e ∧ e.isDir = false ∧ e.name.isGcda = true ∧
          ∃ mode p, w.target (lit ">" ++ self.output) = .ok (mode, .file p) ∧
            w.place (pathOf self.gcdaFolder e.path) = .ok p := by
  intro run
  let files := w.present s m (lit ">" ++ self.output)
  let sys := w.sys ((disk files).sys .none)
  have ho : sys.Opens self := sys_opens_iff.mpr ⟨t, ht⟩
  have hdepth := Nat.lt_succ_self (tree files).listing.depth
  obtain ⟨hend, hprinted⟩ := create_sys ho ((opens_iff self).mpr rfl) (tree files).listing.depth.succ
  rw [(create_tree_none self (hlives.holds files) hdepth).1] at hend
  rw [create_records self (hlives.holds files) hdepth] at hprinted
  obtain ⟨n, hn⟩ := (unchanging_create self sys _ (by rw [hend]; simp)).mpr ⟨_, rfl⟩
  refine ⟨(tree files).gcdaEntries, (tree files).gcdaEntries_nodup.of_map _, ⟨n, fun fuel hfuel => ?_⟩, fun e => ?_⟩
  · have hrun : run fuel [] = self.createIn sys.env fuel [] := createIn_env ht _ fuel
    have hobserved := hn fuel hfuel
    rw [hrun, ← printed_observed, ← Run.filterMap_ending Event.call?, ← observed, hobserved]
    exact ⟨hend, hprinted⟩
  · have hshows : w.shows files (pathOf self.gcdaFolder e.path) = true ↔ _ := shows_present_iff
    simp only [Tree.gcdaEntries, List.mem_filter, hlives.there, hshows]
    -- A directory was there before.
    cases e.isDir <;> grind

def grownTree : Tree where
  listing := .file (.of "own.gcda") plainTree.listing
  distinct := by decide

def ownBatch : CoverageBatch := { sampleBatch with output := lit "gcda/Application/own.gcda" }

/-- One path can be opened for writing. -/
def ownWorld : World Unit Unit where
  place path := if path = ownBatch.output then .ok () else .error (lit "Permission denied")
  handle _ := .error (lit "Invalid argument")
  stdout := ()

def ownTree (files : Unit → Bool) : Tree := if files () then grownTree else plainTree

theorem ownTree_lives : ownWorld.Lives ownBatch.gcdaFolder (fun files => mount ownBatch.gcdaFolder (ownTree files))
    ownTree (· ∈ grownTree.listing.entries) := by
  refine ⟨fun files => mount_holds _ _, fun files e => ?_⟩
  cases h : files () with
  | true =>
    obtain rfl : files = fun _ => true := funext fun _ => h
    have hall : ∀ e ∈ grownTree.listing.entries, e.isDir = true ∨
        ownWorld.shows (fun _ => true) (pathOf ownBatch.gcdaFolder e.path) = true := by decide
    exact ⟨fun he => ⟨he, hall e he⟩, And.left⟩
  | false =>
    obtain rfl : files = fun _ => false := funext fun _ => h
    have hall : ∀ e ∈ plainTree.listing.entries, e ∈ grownTree.listing.entries ∧ (e.isDir = true ∨
        ownWorld.shows (fun _ => false) (pathOf ownBatch.gcdaFolder e.path) = true) := by decide
    have hall' : ∀ e ∈ grownTree.listing.entries, (e.isDir = true ∨
        ownWorld.shows (fun _ => false) (pathOf ownBatch.gcdaFolder e.path) = true) →
          e ∈ plainTree.listing.entries := by decide
    exact ⟨hall e, fun he => hall' e he.1 he.2⟩

theorem records_decided_sample : ∃ n, ∀ fuel, n ≤ fuel →
    (ownBatch.createIn (ownWorld.env soundDisk (fun _ => none) fun files =>
      (mount ownBatch.gcdaFolder (ownTree files)).sys .none) fuel []).ending = .returned ∧
    record.write (ownBatch.record (lit "gcda/Application/own.gcda")) ∈
      texts (ownBatch.createIn (ownWorld.env soundDisk (fun _ => none) fun files =>
        (mount ownBatch.gcdaFolder (ownTree files)).sys .none) fuel []) := by
  -- No file is there before the run.
  obtain ⟨entries, -, ⟨n, hn⟩, hentries⟩ := records_decided ownBatch ownWorld (.truncate, .file ()) (by decide)
    _ _ _ ownTree_lives soundDisk fun _ => none
  have hown : (⟨[], .of "own.gcda", false⟩ : Entry) ∈ entries :=
    (hentries _).mpr (Or.inr ⟨by decide, rfl, by decide, .truncate, (), by decide, by decide⟩)
  refine ⟨n, fun fuel hfuel => ⟨(hn fuel hfuel).1, ?_⟩⟩
  rw [(hn fuel hfuel).2]
  refine List.mem_cons_of_mem _ (List.mem_map_of_mem (List.mem_map_of_mem (List.mem_append_right _ ?_)))
  exact List.mem_map.mpr ⟨_, hown, by decide⟩

end CoverityTool
