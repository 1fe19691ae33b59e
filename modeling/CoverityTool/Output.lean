import CoverityTool.Lib.Stores
import CoverityTool.Failures
import CoverityTool.Octets

/-! What a run leaves in files and in open handles. `create` gives `open` the text `>` with the name of the
    output behind it, and `open` reads the mode from the front of this text and drops the blanks at its ends.
    So the name itself can ask for another mode or another file. -/

namespace CoverityTool
open Perl Runs Stores

/-- Where octets are written to: a file, or the place of one that is not there yet, or an open handle. -/
inductive Sink (π η : Type) where
  | file (place : π)
  | handle (handle : η)
  deriving DecidableEq, Repr

/-- Where names lead. Several paths can lead to one place. An error is the text of `$!`. -/
structure World (π η : Type) where
  /-- The place of the file that is opened for writing at a path. -/
  place : Str → Except Str π
  /-- The open handle with a name or a number. -/
  handle : Str → Except Str η
  stdout : η

inductive Mode where
  | truncate
  | append
  | dup
  deriving DecidableEq, Repr

/-- The octets that each file holds, if it exists, and those that each open handle has been given. -/
abbrev Held (π η : Type) := Store (Sink π η) Nat

/-- A run under way: what is held, and where the file handle of `create` leads. -/
structure Writing (π η : Type) where
  held : Held π η
  out : Option (Sink π η)

/-- The octets that are stored of a printed text. -/
def Storage.storedOctets (s : Storage) (text : Str) : List Nat := octets text (s.stored text)

section Target
variable {π η : Type}

/-- What `open` makes of the text `expr`, and the sink it leads to. -/
def World.target (w : World π η) (expr : Str) : Except Str (Mode × Sink π η) :=
  match twoArgOpen expr with
  | some (.truncate name) => (w.place name).map fun p => (.truncate, .file p)
  | some (.append name) => (w.place name).map fun p => (.append, .file p)
  | some (.dup handle) => (w.handle handle).map fun h => (.dup, .handle h)
  | some .stdout => .ok (.dup, .handle w.stdout)
  -- `create` asks for no other mode.
  | none => .error []

/-- The answers of a system in which names lead where they do in `w`. -/
def World.sys (w : World π η) (answers : Sys) : Sys :=
  { answers with openOut := fun expr => (w.target expr).map fun _ => () }

variable {w : World π η} {answers : Sys} {self : CoverageBatch}

theorem map_eq_ok {α β : Type} {f : α → β} {x : Except Str α} {b : β} :
    x.map f = .ok b ↔ ∃ a, x = .ok a ∧ f a = b := by
  cases x <;> simp [Except.map]

theorem openOut_eq_ok_iff {expr : Str} : (w.sys answers).openOut expr = .ok () ↔ ∃ t, w.target expr = .ok t := by
  simp only [World.sys, map_eq_ok, and_true]

theorem sys_opens_iff : (w.sys answers).Opens self ↔ ∃ t, w.target (lit ">" ++ self.output) = .ok t :=
  openOut_eq_ok_iff

/-- Only handles are duplicated. -/
theorem target_dup {expr : Str} {k : Sink π η} (h : w.target expr = .ok (.dup, k)) : ∃ handle, k = .handle handle := by
  unfold World.target at h
  split at h
  · obtain ⟨_, -, heq⟩ := map_eq_ok.mp h
    cases heq
  · obtain ⟨_, -, heq⟩ := map_eq_ok.mp h
    cases heq
  · obtain ⟨handle, -, heq⟩ := map_eq_ok.mp h
    cases heq
    exact ⟨handle, rfl⟩
  · cases h
    exact ⟨w.stdout, rfl⟩
  · cases h

/-- The output is truncated at the place `p` exactly when its name asks for no other mode, does not stand for the
    standard output, and leads there without the blanks at its ends. -/
theorem target_eq_truncate_iff {out : Str} {p : π} : w.target (lit ">" ++ out) = .ok (.truncate, .file p) ↔
    ¬ lit ">" <+: out ∧ ¬ lit "&" <+: out ∧ isStd (trim out) = false ∧ w.place (trim out) = .ok p := by
  have hname : (∃ name, twoArgOpen (lit ">" ++ out) = some (.truncate name) ∧ w.place name = .ok p) ↔
      ¬ lit ">" <+: out ∧ ¬ lit "&" <+: out ∧ isStd (trim out) = false ∧ w.place (trim out) = .ok p := by
    simp only [twoArgOpen_eq_truncate_iff]
    constructor
    · rintro ⟨name, ⟨h1, h2, h3, rfl⟩, hp⟩
      exact ⟨h1, h2, h3, hp⟩
    · rintro ⟨h1, h2, h3, hp⟩
      exact ⟨_, ⟨h1, h2, h3, rfl⟩, hp⟩
  rw [← hname, World.target]
  cases twoArgOpen (lit ">" ++ out) with
  | none => simp
  | some o => cases o <;> simp [map_eq_ok]

end Target

section Step
variable {π η : Type} [DecidableEq π] [DecidableEq η]

/-- What is held once the sink is open. -/
def Mode.opened (mode : Mode) (held : Held π η) (k : Sink π η) : Held π η :=
  match mode with
  | .truncate => held.clear k
  | .append => held.append k []
  | .dup => held

def World.step (w : World π η) (s : Storage) (st : Writing π η) : Call → Writing π η
  | .openOut expr =>
    match w.target expr with
    | .ok (mode, k) => ⟨mode.opened st.held k, some k⟩
    | .error _ => st
  | .print text =>
    match st.out with
    | some k => { st with held := st.held.append k (s.storedOctets text) }
    | none => st
  | .opendir _ => st
  | .close => { st with out := none }

/-- What is held after the run `r`. -/
def World.after (w : World π η) (s : Storage) (before : Held π η) (r : Prog) : Held π η :=
  (r.calls.foldl (w.step s) ⟨before, none⟩).held

/-- Which files are there. -/
def Held.files (held : Held π η) (p : π) : Bool := (held (.file p)).isSome

/-- Which files are there while a run lists directories: those that are there once `open` has been given `expr`. -/
def World.present (w : World π η) (s : Storage) (before : Held π η) (expr : Str) : π → Bool :=
  (w.step s ⟨before, none⟩ (.openOut expr)).held.files

end Step

/-! ### What a run writes -/

section Run
variable {π η : Type} [DecidableEq π] [DecidableEq η] {w : World π η} {s : Storage} {m : Held π η}
variable {k : Sink π η} {self : CoverageBatch} {sys answers : Sys}

/-- Prints go to the open sink one after another, and opening a directory writes nothing. -/
theorem foldl_step_prints {cs : List Call}
    (h : ∀ c ∈ cs, (∃ text, c = .print text) ∨ ∃ folder, c = .opendir folder) :
    cs.foldl (w.step s) ⟨m, some k⟩ = ⟨m.appendAll k ((cs.filterMap Call.text?).map s.storedOctets), some k⟩ := by
  induction cs generalizing m with
  | nil => rfl
  | cons c cs ih =>
    have hcs := fun m => ih (m := m) fun d hd => h d (List.mem_cons_of_mem c hd)
    rcases h c List.mem_cons_self with ⟨text, rfl⟩ | ⟨folder, rfl⟩
    · have hc : (Call.print text).text? = some text := rfl
      rw [List.foldl_cons, World.step, hcs, List.filterMap_cons_some hc, List.map_cons, Store.appendAll_cons]
    · have hc : (Call.opendir folder).text? = none := rfl
      rw [List.foldl_cons, World.step, hcs, List.filterMap_cons_none hc]

theorem foldl_step_closes {cs : List Call} (h : ∀ c ∈ cs, c = .close) (st : Writing π η) :
    (cs.foldl (w.step s) st).held = st.held := by
  induction cs generalizing st with
  | nil => rfl
  | cons c cs ih =>
    obtain rfl := h c List.mem_cons_self
    rw [List.foldl_cons, ih fun d hd => h d (List.mem_cons_of_mem _ hd), World.step]

/-- Everything that a run prints ends up in the sink that has been opened, and nothing anywhere else. -/
theorem after_createWith {mode : Mode} {out text : Str} (ht : w.target (lit ">" ++ out) = .ok (mode, k)) {r : Prog}
    (hr : ∀ c ∈ r.calls, (∃ text, c = .print text) ∨ ∃ folder, c = .opendir folder) :
    w.after s m (createWith (w.sys answers) out text r) = (mode.opened m k).appendAll k
      ((printed (createWith (w.sys answers) out text r)).map s.storedOctets) := by
  have ho : (w.sys answers).openOut (lit ">" ++ out) = .ok () := openOut_eq_ok_iff.mpr ⟨_, ht⟩
  obtain ⟨-, tail, htail, hcalls⟩ := createWith_calls text r ho
  have hprints : ∀ c ∈ .print text :: r.calls, (∃ text, c = .print text) ∨ ∃ folder, c = .opendir folder :=
    List.forall_mem_cons.mpr ⟨Or.inl ⟨text, rfl⟩, hr⟩
  have hopen : w.step s ⟨m, none⟩ (.openOut (lit ">" ++ out)) = ⟨mode.opened m k, some k⟩ := by
    simp only [World.step, ht]
  have htext : (Call.print text).text? = some text := rfl
  rw [World.after, hcalls, List.foldl_cons, hopen, List.foldl_append, foldl_step_closes htail,
    foldl_step_prints hprints, List.filterMap_cons_some htext, printed_createWith ho]
  rfl

theorem traverseGcda_prints (fuel : Nat) (folder : Str) : ∀ c ∈ (self.traverseGcda sys fuel folder).calls,
    (∃ text, c = .print text) ∨ ∃ subfolder, c = .opendir subfolder := fun c hc =>
  (traverseGcda_calls self sys fuel folder c hc).imp_left fun ⟨_, hp⟩ => ⟨_, hp⟩

theorem after_create {mode : Mode} (ht : w.target (lit ">" ++ self.output) = .ok (mode, k)) (fuel : Nat) :
    w.after s m (self.create (w.sys answers) fuel) = (mode.opened m k).appendAll k
      ((printed (self.create (w.sys answers) fuel)).map s.storedOctets) :=
  after_createWith ht (traverseGcda_prints fuel _)

end Run

/-! ### What is left of it -/

section Stored
variable {s : Storage} {text : Str}

theorem Storage.storedOctets_prefix (s : Storage) (text : Str) : s.storedOctets text <+: octets text text := by
  obtain ⟨rest, hrest⟩ := s.stored_prefix text
  have h := congrArg (octets text) hrest
  rw [octets_append] at h
  exact ⟨_, h⟩

theorem Storage.storedOctets_eq_iff : s.storedOctets text = octets text text ↔ s.Keeps text := by
  rw [← Storage.stored_eq_iff]
  constructor
  · intro h
    obtain ⟨rest, hrest⟩ := s.stored_prefix text
    have hoctets := congrArg (octets text) hrest
    rw [octets_append, ← h] at hoctets
    have hempty : octets text rest = [] := List.append_right_eq_self.mp hoctets
    have hlen := length_le_octets text rest
    rw [hempty, List.length_nil] at hlen
    rw [List.length_eq_zero_iff.mp (Nat.le_zero.mp hlen), List.append_nil] at hrest
    exact hrest
  · intro h
    rw [Storage.storedOctets, h]

end Stored

/-! ### Which files are there -/

section Present
variable {π η : Type} [DecidableEq π] [DecidableEq η] {w : World π η} {s : Storage} {m m' : Held π η}
variable {mode : Mode} {j k : Sink π η} {p : π} {expr : Str}

theorem Mode.opened_of_ne (h : j ≠ k) : mode.opened m k j = m j := by
  cases mode with
  | truncate => exact Store.clear_of_ne h
  | append => exact Store.append_of_ne h
  | dup => rfl

/-- What a sink holds once an output is open depends on what it held, and not on other sinks. -/
theorem Mode.opened_congr (h : m j = m' j) : mode.opened m k j = mode.opened m' k j := by
  by_cases hj : j = k
  · subst hj
    cases mode with
    | truncate => rw [Mode.opened, Mode.opened, Store.clear_self, Store.clear_self]
    | append => rw [Mode.opened, Mode.opened, Store.append_self, Store.append_self, h]
    | dup => exact h
  · rw [Mode.opened_of_ne hj, Mode.opened_of_ne hj, h]

theorem present_of_target (ht : w.target expr = .ok (mode, k)) : w.present s m expr = (mode.opened m k).files := by
  simp only [World.present, World.step, ht]

theorem present_of_error {errno : Str} (ht : w.target expr = .error errno) : w.present s m expr = m.files := by
  simp only [World.present, World.step, ht]

theorem present_congr (h : m (.file p) = m' (.file p)) : w.present s m expr p = w.present s m' expr p := by
  cases ht : w.target expr with
  | error errno =>
    rw [present_of_error ht, present_of_error ht]
    exact congrArg Option.isSome h
  | ok t =>
    rw [present_of_target ht, present_of_target ht]
    exact congrArg Option.isSome (Mode.opened_congr h)

/-- A file is there when it was there before, or is the output. -/
theorem present_iff : w.present s m expr p = true ↔ m.files p = true ∨ ∃ mode, w.target expr = .ok (mode, .file p) := by
  cases ht : w.target expr with
  | error errno => simp [present_of_error ht]
  | ok t =>
    obtain ⟨mode, k⟩ := t
    rw [present_of_target ht]
    by_cases hk : .file p = k
    · subst hk
      cases mode with
      | truncate => simp [Held.files, Mode.opened]
      | append => simp [Held.files, Mode.opened]
      | dup =>
        obtain ⟨handle, heq⟩ := target_dup ht
        cases heq
    · have hother : k ≠ .file p := fun heq => hk heq.symm
      simp [Held.files, Mode.opened_of_ne hk, hother]

end Present

/-! ### The frame of a run -/

/-- The file at `p` holds the printed texts and nothing else, and every other file and every handle holds what it
    did. -/
structure Framed {π η : Type} (p : π) (texts : List Str) (before after : Held π η) : Prop where
  holds : after (.file p) = some (texts.flatMap fun text => octets text text)
  others : ∀ k, k ≠ .file p → after k = before k

section Frame
variable {π η : Type} [DecidableEq π] [DecidableEq η] {mode : Mode} {k : Sink π η} {p : π} {m : Held π η}
variable {s : Storage} {texts : List Str}

theorem Mode.opened_self {held : List Nat} (hmode : mode ≠ .truncate) (h : m k = some held) :
    mode.opened m k k = some held := by
  cases mode with
  | truncate => exact absurd rfl hmode
  | append => rw [Mode.opened, Store.append_self, h, Option.getD_some, List.append_nil]
  | dup => exact h

theorem framed_of_truncate :
    Framed p texts m ((Mode.truncate.opened m (.file p)).appendAll (.file p) (texts.map s.storedOctets)) ↔
      ∀ text ∈ texts, s.Keeps text := by
  have hfile : (Mode.truncate.opened m (.file p)).appendAll (.file p) (texts.map s.storedOctets) (.file p) =
      some (texts.flatMap s.storedOctets) := by
    rw [Mode.opened, Store.appendAll_self Store.clear_self, List.nil_append, List.flatMap_def]
  have hall : texts.flatMap s.storedOctets = texts.flatMap (fun text => octets text text) ↔
      ∀ text ∈ texts, s.Keeps text := by
    rw [flatMap_eq_flatMap_iff s.storedOctets_prefix]
    simp only [Storage.storedOctets_eq_iff]
  rw [← hall]
  constructor
  · intro h
    exact Option.some.inj (hfile.symm.trans h.holds)
  · intro h
    refine ⟨hfile.trans (congrArg some h), fun k hk => ?_⟩
    rw [Store.appendAll_of_ne hk, Mode.opened_of_ne hk]

/-- Whatever was held before, the frame is that of a file which has been truncated: what an appended file or another
    one held before stays. -/
theorem framed_iff : (∀ before : Held π η, Framed p texts before
      ((mode.opened before k).appendAll k (texts.map s.storedOctets))) ↔
    (mode = .truncate ∧ k = .file p) ∧ ∀ text ∈ texts, s.Keeps text := by
  by_cases ht : mode = .truncate ∧ k = .file p
  · obtain ⟨rfl, rfl⟩ := ht
    simp [framed_of_truncate]
  · refine iff_of_false (fun h => ?_) fun h => ht h.1
    -- Before the run, every file holds one octet more than the run should leave.
    let full := texts.flatMap fun text => octets text text
    have hholds := (h fun _ => some (full ++ [0])).holds
    by_cases hk : .file p = k
    · have hmode : mode ≠ .truncate := fun hm => ht ⟨hm, hk.symm⟩
      rw [hk, Store.appendAll_self (Mode.opened_self hmode rfl)] at hholds
      have hlen := congrArg List.length (Option.some.inj hholds)
      simp only [List.length_append, List.length_singleton, full] at hlen
      omega
    · rw [Store.appendAll_of_ne hk, Mode.opened_of_ne hk] at hholds
      simp [full] at hholds

end Frame

/-- In every run that returns, whatever was held before, the file that `output` names holds the header and the
    records of the run and nothing else has changed, exactly when the name asks for no other mode and does not
    stand for the standard output, leads to the same file without the blanks at its ends, and no failure shortens
    a text. -/
theorem output_framed_iff {π η : Type} [DecidableEq π] [DecidableEq η] (self : CoverageBatch) (w : World π η)
    (answers : Sys) (s : Storage) (fuel : Nat) (p : π) (hp : w.place self.output = .ok p)
    (hr : (self.create (w.sys answers) fuel).ending = .returned) :
    ∃ recs : List Record,
      printed (self.create (w.sys answers) fuel) = header.write self.header :: recs.map record.write ∧
      ((∀ before : Held π η, Framed p (printed (self.create (w.sys answers) fuel)) before
          (w.after s before (self.create (w.sys answers) fuel))) ↔
        (¬ lit ">" <+: self.output ∧ ¬ lit "&" <+: self.output ∧ isStd (trim self.output) = false ∧
          w.place (trim self.output) = w.place self.output) ∧
        s.Keeps (header.write self.header) ∧ ∀ r ∈ recs, s.Keeps (record.write r)) := by
  have ho : (w.sys answers).Opens self := opens_of_returned hr
  obtain ⟨⟨mode, k⟩, ht⟩ := sys_opens_iff.mp ho
  obtain ⟨paths, hprinted⟩ := printed_create_eq self ho fuel
  have hafter : ∀ before : Held π η, w.after s before (self.create (w.sys answers) fuel) = _ :=
    fun before => after_create ht fuel
  have htarget : mode = .truncate ∧ k = .file p ↔ w.target (lit ">" ++ self.output) = .ok (.truncate, .file p) := by
    rw [ht, Except.ok.injEq, Prod.mk.injEq]
  refine ⟨_, hprinted, ?_⟩
  simp only [hafter]
  rw [framed_iff, htarget, target_eq_truncate_iff, hp, hprinted, List.forall_mem_cons, List.forall_mem_map]

/-- Every path leads to a file of its own, and no handle is open but the standard output. -/
def plainWorld : World Str Unit where
  place := .ok
  handle name := if name = lit "STDOUT" ∨ name = lit "1" then .ok () else .error (lit "Invalid argument")
  stdout := ()

def plainRun (self : CoverageBatch) : Prog :=
  self.create (plainWorld.sys ((mount self.gcdaFolder plainTree).sys .none)) 3

theorem output_framed_sample : (plainRun sampleBatch).ending = .returned ∧
    ∀ before : Held Str Unit, Framed (lit "temp.batch") (printed (plainRun sampleBatch)) before
      (plainWorld.after soundDisk before (plainRun sampleBatch)) := by
  have hr : (plainRun sampleBatch).ending = .returned := by decide
  have hkeeps : ∀ text, soundDisk.Keeps text := fun text => (soundDisk.stored_eq_iff text).mp rfl
  obtain ⟨recs, -, hframed⟩ := output_framed_iff sampleBatch plainWorld _ soundDisk 3 _ rfl hr
  exact ⟨hr, hframed.mpr ⟨by decide, hkeeps _, fun r _ => hkeeps _⟩⟩

def appendedBatch : CoverageBatch := { sampleBatch with output := lit ">temp.batch" }

/-- The file `temp.batch` exists, with one octet in it, and no other file does. -/
def oneFile : Held Str Unit := fun k => if k = .file (lit "temp.batch") then some [0x41] else none

/-- With `>` in front of the name, what is printed is appended to the file with the rest of the name, and the named
    file is not created. -/
theorem other_file_appended :
    (plainRun appendedBatch).ending = .returned ∧
    plainWorld.after soundDisk oneFile (plainRun appendedBatch) (.file (lit ">temp.batch")) = none ∧
    plainWorld.after soundDisk oneFile (plainRun appendedBatch) (.file (lit "temp.batch")) =
      some (0x41 :: (printed (plainRun appendedBatch)).flatMap soundDisk.storedOctets) ∧
    ¬ Framed (lit ">temp.batch") (printed (plainRun appendedBatch)) oneFile
      (plainWorld.after soundDisk oneFile (plainRun appendedBatch)) := by
  have ht : plainWorld.target (lit ">" ++ appendedBatch.output) = .ok (.append, .file (lit "temp.batch")) := by decide
  have hnamed : plainWorld.after soundDisk oneFile (plainRun appendedBatch) (.file (lit ">temp.batch")) = none := by
    rw [plainRun, after_create ht, Store.appendAll_of_ne (by decide), Mode.opened_of_ne (by decide)]
    decide
  refine ⟨by decide, hnamed, ?_, fun h => ?_⟩
  · have hheld : oneFile (.file (lit "temp.batch")) = some [0x41] := by decide
    rw [plainRun, after_create ht, Store.appendAll_self (Mode.opened_self (by decide) hheld), List.flatMap_def]
    rfl
  · have hholds := h.holds
    rw [hnamed] at hholds
    cases hholds

end CoverityTool
