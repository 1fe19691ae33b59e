import CoverityTool.Lib.Machines
import CoverityTool.Files
import CoverityTool.Objects

/-! Sessions: a program makes objects, sets their fields and lets them create batch files, in any order. Objects made
    of one hash are one object. What the system answers in a run depends on the files that are there, those of
    earlier runs and that of the run itself among them; how it does, and what is stored of the texts of the run, comes
    with the `create`. Where names lead does not change in a session. Each act is in an `eval` of its own, which
    empties `$@`, so a bare `die` has the same text in each. -/

namespace CoverityTool
open Perl Runs Stores Machines

def Field.name : Field → Str
  | .gcdaFolder => lit "gcdaFolder"
  | .gcnoFolder => lit "gcnoFolder"
  | .testname => lit "testname"
  | .suitename => lit "suitename"
  | .teststart => lit "teststart"
  | .output => lit "output"

/-- The hashes that references lead to, those that have been blessed, and what is held in files and handles. -/
structure Session (ρ π η : Type) where
  hashes : ρ → Hash
  blessed : ρ → Bool
  held : Held π η

inductive Act (ρ π : Type) where
  | new (param : ρ)
  | access (self : ρ) (field : Field) (args : List (Option Str))
  /-- The answers of the system, by which files are there. -/
  | create (self : ρ) (answers : (π → Bool) → Sys) (storage : Storage) (fuel : Nat)

def Act.self {ρ π : Type} : Act ρ π → ρ
  | .new param => param
  | .access self _ _ => self
  | .create self _ _ _ => self

inductive Outcome (ρ : Type) where
  | object (self : ρ)
  | value (value : Option Str)
  | run (r : Prog)
  | died (error : Str)

def unblessed (method : Str) : Str := lit "Can't call method \"" ++ method ++ lit "\" on unblessed reference"

/-- What `open` makes of the output. -/
def Hash.target {π η : Type} (self : Hash) (w : World π η) : Except Str (Mode × Sink π η) :=
  w.target (lit ">" ++ self.batch.output)

section Target
variable {π η : Type} {w : World π η} {self : Hash} {t : Mode × Sink π η} {errno : Str}

theorem hash_create_of_error (ht : self.target w = .error errno) (answers : Sys) (fuel : Nat) :
    self.create (w.sys answers) fuel =
      .die (lit "Could not open file '" ++ self.batch.output ++ lit "' " ++ errno) := by
  have ht' : w.target (lit ">" ++ self.batch.output) = .error errno := ht
  exact createWith_of_error (by simp only [World.sys, ht', Except.map])

/-- A run depends on what the system answers at its folder and below. -/
theorem hash_create_congr {answers answers' : Sys} (h : Sys.Alike self.batch.gcdaFolder answers answers') (fuel : Nat) :
    self.create (w.sys answers) fuel = self.create (w.sys answers') fuel := by
  have halike : Sys.Alike self.batch.gcdaFolder (w.sys answers) (w.sys answers') := h
  rw [Hash.create, Hash.create, traverseGcda_congr halike]
  rfl

/-- The run of an object with its three names prints a header and records. -/
theorem printed_hash_create_of_named (hn : self.Named) (ht : self.target w = .ok t) (answers : Sys) (fuel : Nat) :
    ∃ recs : List Record, printed (self.create (w.sys answers) fuel) =
      header.write self.batch.header :: recs.map record.write := by
  have ho : (w.sys answers).Opens self.batch := sys_opens_iff.mpr ⟨_, ht⟩
  obtain ⟨paths, hpaths⟩ := printed_traverseGcda self.batch (w.sys answers) fuel self.batch.gcdaFolder
  refine ⟨paths.map self.batch.record, ?_⟩
  rw [printed_hash_create ho, hpaths, headerText_of_named hn, headerText_eq, map_batchText]

end Target

section Act
variable {ρ π η : Type} [DecidableEq ρ] [DecidableEq π] [DecidableEq η]

/-- The run of an object. Its output is open, and so the file is there, when the system answers (`createIn_env`). -/
def World.run (w : World π η) (s : Storage) (held : Held π η) (self : Hash) (answers : (π → Bool) → Sys) (fuel : Nat) :
    Prog := self.create (w.sys (answers (w.present s held (lit ">" ++ self.batch.output)))) fuel

def World.act (w : World π η) : Machine (Session ρ π η) (Act ρ π) (Outcome ρ)
  | s, .new param => ({ s with blessed := Function.update s.blessed param true }, .object param)
  | s, .access self field args =>
    if s.blessed self then
      let returned := (s.hashes self).accessor field args
      ({ s with hashes := Function.update s.hashes self returned.2 }, .value returned.1)
    else (s, .died (unblessed field.name))
  | s, .create self answers storage fuel =>
    if s.blessed self then
      let run := w.run storage s.held (s.hashes self) answers fuel
      ({ s with held := w.after storage s.held run }, .run run)
    else (s, .died (unblessed (lit "create")))

end Act

/-! ### What a run of an object writes -/

section Run
variable {π η : Type} [DecidableEq π] [DecidableEq η] {w : World π η} {s : Storage} {m m' : Held π η}
variable {k : Sink π η} {mode : Mode} {self : Hash} {answers : Sys} {fuel : Nat}

theorem after_hash_create (ht : self.target w = .ok (mode, k)) :
    w.after s m (self.create (w.sys answers) fuel) = (mode.opened m k).appendAll k
      ((printed (self.create (w.sys answers) fuel)).map s.storedOctets) :=
  after_createWith ht (traverseGcda_prints fuel _)

/-- A run writes to the sink that its output leads to, and to no other. -/
theorem after_hash_create_of_ne (hk : ∀ mode, self.target w ≠ .ok (mode, k)) :
    w.after s m (self.create (w.sys answers) fuel) k = m k := by
  cases ht : self.target w with
  | error errno =>
    rw [hash_create_of_error ht]
    rfl
  | ok t =>
    obtain ⟨mode, j⟩ := t
    have hne : k ≠ j := fun h => hk mode (h ▸ ht)
    rw [after_hash_create ht, Store.appendAll_of_ne hne, Mode.opened_of_ne hne]

/-- What a sink holds after a run depends on what it held before, and not on other sinks. -/
theorem after_hash_create_congr (h : m k = m' k) : w.after s m (self.create (w.sys answers) fuel) k =
    w.after s m' (self.create (w.sys answers) fuel) k := by
  by_cases hk : ∃ mode, self.target w = .ok (mode, k)
  · obtain ⟨mode, ht⟩ := hk
    rw [after_hash_create ht, after_hash_create ht, Store.appendAll_congr (Mode.opened_congr h)]
  · rw [after_hash_create_of_ne (not_exists.mp hk), after_hash_create_of_ne (not_exists.mp hk), h]

end Run

/-! ### Parties -/

section Parties
variable {ρ π η δ : Type}

/-- What the party `d` sees of a session: its own objects, its own sinks, and those of no party. -/
structure Session.View (owner : ρ → δ) (place : Sink π η → Option δ) (d : δ) (s t : Session ρ π η) : Prop where
  hashes : ∀ r, owner r = d → s.hashes r = t.hashes r
  blessed : ∀ r, owner r = d → s.blessed r = t.blessed r
  held : ∀ k, place k = none ∨ place k = some d → s.held k = t.held k

/-- An object creates its batch in a sink of its own party, and no file of another party shows at its folder or
    below. -/
def World.Confined (w : World π η) (owner : ρ → δ) (place : Sink π η → Option δ) (s : Session ρ π η) : Act ρ π → Prop
  | .create self answers _ _ => s.blessed self = true →
      (∀ mode k, (s.hashes self).target w = .ok (mode, k) → place k = some (owner self)) ∧
      ∀ files files' : π → Bool,
        (∀ p, place (.file p) = none ∨ place (.file p) = some (owner self) → files p = files' p) →
        Sys.Alike (s.hashes self).batch.gcdaFolder (answers files) (answers files')
  | _ => True

end Parties

section Isolation
variable {ρ π η δ : Type} [DecidableEq ρ] [DecidableEq π] [DecidableEq η] (w : World π η)
variable (owner : ρ → δ) (place : Sink π η → Option δ)

theorem act_unseen {s t : Session ρ π η} {a : Act ρ π} {d : δ} (hok : w.Confined owner place s a)
    (hne : owner a.self ≠ d) (hv : Session.View owner place d s t) :
    Session.View owner place d (w.act s a).1 t := by
  have other : ∀ r, owner r = d → r ≠ a.self := fun r hr h => hne (h ▸ hr)
  cases a with
  | new param =>
    refine ⟨hv.hashes, fun r hr => ?_, hv.held⟩
    exact (Function.update_of_ne (other r hr) ..).trans (hv.blessed r hr)
  | access self field args =>
    rw [World.act]
    split
    · refine ⟨fun r hr => ?_, hv.blessed, hv.held⟩
      exact (Function.update_of_ne (other r hr) ..).trans (hv.hashes r hr)
    · exact hv
  | create self answers storage fuel =>
    rw [World.act]
    split
    · rename_i hb
      refine ⟨hv.hashes, hv.blessed, fun k hk => ?_⟩
      have hto : ∀ mode, (s.hashes self).target w ≠ .ok (mode, k) := by
        intro mode ht
        rw [(hok hb).1 mode k ht, Option.some.injEq] at hk
        exact hne (hk.resolve_left (by simp))
      exact (after_hash_create_of_ne hto).trans (hv.held k hk)
    · exact hv

theorem act_own {s t : Session ρ π η} {a : Act ρ π} (hok : w.Confined owner place s a)
    (hv : Session.View owner place (owner a.self) s t) :
    Session.View owner place (owner a.self) (w.act s a).1 (w.act t a).1 ∧ (w.act s a).2 = (w.act t a).2 := by
  cases a with
  | new param =>
    refine ⟨⟨hv.hashes, fun r hr => ?_, hv.held⟩, rfl⟩
    simp only [World.act, Function.update_apply, hv.blessed r hr]
  | access self field args =>
    have hself := hv.hashes self rfl
    have hblessed := hv.blessed self rfl
    rw [World.act, World.act, hblessed, hself]
    split
    · refine ⟨⟨fun r hr => ?_, hv.blessed, hv.held⟩, rfl⟩
      simp only [Function.update_apply, hv.hashes r hr]
    · exact ⟨hv, rfl⟩
  | create self answers storage fuel =>
    have hself := hv.hashes self rfl
    have hblessed := hv.blessed self rfl
    rw [World.act, World.act, ← hblessed, ← hself]
    split
    · -- The files that show at the folder are those that the party sees.
      have hrun : w.run storage s.held (s.hashes self) answers fuel =
          w.run storage t.held (s.hashes self) answers fuel :=
        hash_create_congr ((hok ‹_›).2 _ _ fun p hp => present_congr (hv.held _ hp)) fuel
      rw [hrun]
      exact ⟨⟨hv.hashes, hv.blessed, fun k hk => after_hash_create_congr (hv.held k hk)⟩, rfl⟩
    · exact ⟨hv, rfl⟩

end Isolation

/-- Parties that share no object and no output do not disturb each other: in every session in which each object
    creates its batches in sinks of its own party, and no file of one party shows at or below the folder of another,
    a party's objects and sinks end up as they would, and each of its acts comes out as it would, if the other parties
    did nothing. -/
theorem sessions_isolated {ρ π η δ : Type} [DecidableEq ρ] [DecidableEq π] [DecidableEq η] [DecidableEq δ]
    (w : World π η) (owner : ρ → δ) (place : Sink π η → Option δ) (s : Session ρ π η) (acts : List (Act ρ π))
    (h : w.act.Along (w.Confined owner place) s acts) (d : δ) :
    let own := acts.filter fun a => owner a.self = d
    Session.View owner place d (w.act.final s acts) (w.act.final s own) ∧
      (w.act.trace s acts).filter (fun e => owner e.1.self = d) = w.act.trace s own := by
  have hsep : Machine.Separated w.act (w.Confined owner place) (fun a : Act ρ π => owner a.self)
      (Session.View owner place) := ⟨act_unseen w owner place, fun hok hv => act_own w owner place hok hv⟩
  exact hsep.purge d h ⟨fun _ _ => rfl, fun _ _ => rfl, fun _ _ => rfl⟩

/-- Two folders with a tree each. In the second one, a batch can lie that is named like a gcda file. -/
def twoFolders (files : Str → Bool) : Sys :=
  let other := (mount (lit "other") (if files (lit "other/own.gcda") then grownTree else plainTree)).sys .none
  { sampleSys with
    isDir := fun p => if lit "other" <+: p then other.isDir p else sampleSys.isDir p
    opendir := fun p => if lit "other" <+: p then other.opendir p else sampleSys.opendir p }

/-- Two objects with a folder each, and with batches in files of their own. -/
def twoObjects : Session Bool Str Unit where
  hashes self := if self then { otherBatch with gcdaFolder := lit "other", output := lit "other/own.gcda" }.hash
    else sampleBatch.hash
  blessed _ := true
  held _ := none

def sinkOwner (k : Sink Str Unit) : Option Bool :=
  if k = .file (lit "other/own.gcda") then some true
  else if k = .file (lit "temp.batch") then some false
  else none

def creates (self : Bool) : Act Bool Str := .create self twoFolders soundDisk 3

/-- The batch in the second folder does not show in the first. -/
theorem twoFolders_alike {self : Bool} {files files' : Str → Bool}
    (h : ∀ p, sinkOwner (.file p) = none ∨ sinkOwner (.file p) = some self → files p = files' p) :
    Sys.Alike (if self then lit "other" else lit "gcda/Application") (twoFolders files) (twoFolders files') := by
  cases self with
  | true =>
    have hown : files (lit "other/own.gcda") = files' (lit "other/own.gcda") := h _ (Or.inr (by decide))
    intro path _
    simp only [twoFolders, hown, and_self]
  | false =>
    intro path hpath
    have hother : ¬ lit "other" <+: path := by
      rintro ⟨rest, rfl⟩
      rcases hpath with hpath | ⟨rest', hpath⟩
      · exact absurd (congrArg List.head? hpath) (by simp [lit])
      · exact absurd (congrArg List.head? hpath) (by simp [lit])
    simp only [twoFolders, hother, if_false, and_self]

theorem creates_confined {s : Session Bool Str Unit} {self : Bool} (mode : Mode) (k : Sink Str Unit)
    (ht : (s.hashes self).target plainWorld = .ok (mode, k)) (hk : sinkOwner k = some self)
    (hfolder : (s.hashes self).batch.gcdaFolder = if self then lit "other" else lit "gcda/Application") :
    plainWorld.Confined id sinkOwner s (creates self) := by
  refine fun _ => ⟨fun mode' k' ht' => ?_, fun files files' h => ?_⟩
  · rw [ht] at ht'
    cases ht'
    exact hk
  · rw [hfolder]
    exact twoFolders_alike h

theorem sessions_isolated_sample :
    let acts := [creates true, .access false .suitename [some (lit "suite")], creates false]
    (plainWorld.act.trace twoObjects acts).filter (fun e => e.1.self = false) =
      plainWorld.act.trace twoObjects [.access false .suitename [some (lit "suite")], creates false] := by
  have hconfined : plainWorld.act.Along (plainWorld.Confined id sinkOwner) twoObjects
      [creates true, .access false .suitename [some (lit "suite")], creates false] := by
    refine ⟨creates_confined .truncate (.file (lit "other/own.gcda")) (by decide) (by decide) (by decide), trivial,
      creates_confined .truncate (.file (lit "temp.batch")) ?_ (by decide) ?_, trivial⟩
    · decide
    · decide
  exact (sessions_isolated plainWorld id sinkOwner twoObjects _ hconfined false).2

/-! ### What is left of earlier acts -/

section Last
variable {ρ π η : Type} [DecidableEq ρ]

/-- The value of a field after the acts: the one that was set last. -/
def lastSet {π : Type} (self : ρ) (field : Field) (value : Option Str) (acts : List (Act ρ π)) : Option Str :=
  acts.foldl (fun value a =>
    match a with
    | .access r f (v :: _) => if r = self ∧ f = field then v else value
    | _ => value) value

/-- No batch is created in the sink `k`. -/
def World.Spares (w : World π η) (k : Sink π η) (s : Session ρ π η) : Act ρ π → Prop
  | .create self _ _ _ => s.blessed self = true → ∀ mode, (s.hashes self).target w ≠ .ok (mode, k)
  | _ => True

variable [DecidableEq π] [DecidableEq η] {w : World π η} {s : Session ρ π η} {self : ρ} {a : Act ρ π}

theorem act_create_held {answers : (π → Bool) → Sys} {storage : Storage} {fuel : Nat} (hb : s.blessed self = true) :
    (w.act s (.create self answers storage fuel)).1.held =
      w.after storage s.held (w.run storage s.held (s.hashes self) answers fuel) := by
  rw [World.act, if_pos hb]

theorem act_hashes (hb : s.blessed self = true) : (w.act s a).1.blessed self = true ∧
    ∀ field, (w.act s a).1.hashes self field = lastSet self field (s.hashes self field) [a] := by
  cases a with
  | new param =>
    refine ⟨?_, fun field => rfl⟩
    simp [World.act, Function.update_apply, hb]
  | access r f args =>
    by_cases hr : s.blessed r = true
    · rw [World.act, if_pos hr]
      refine ⟨hb, fun field => ?_⟩
      cases args with
      | nil =>
        have hsame : Function.update s.hashes r (s.hashes r) self field = s.hashes self field := by
          rw [Function.update_eq_self]
        exact hsame
      | cons v args =>
        by_cases hself : r = self
        · subst hself
          simp [Hash.accessor, lastSet, Function.update_apply, eq_comm]
        · have hne : self ≠ r := Ne.symm hself
          simp [lastSet, hne, hself]
    · -- A setter of another object that is none yet dies.
      have hself : r ≠ self := fun h => hr (h ▸ hb)
      rw [World.act, if_neg hr]
      refine ⟨hb, fun field => ?_⟩
      cases args <;> simp [lastSet, hself]
  | create r answers storage fuel =>
    rw [World.act]
    split <;> exact ⟨hb, fun field => rfl⟩

theorem final_hashes (hb : s.blessed self = true) (acts : List (Act ρ π)) : (w.act.final s acts).blessed self = true ∧
    ∀ field, (w.act.final s acts).hashes self field = lastSet self field (s.hashes self field) acts := by
  induction acts generalizing s with
  | nil => exact ⟨hb, fun _ => rfl⟩
  | cons a acts ih =>
    obtain ⟨hblessed, hhash⟩ := act_hashes (w := w) (a := a) hb
    obtain ⟨hblessed', hhash'⟩ := ih hblessed
    refine ⟨hblessed', fun field => ?_⟩
    rw [Machine.final_cons, hhash', hhash]
    rfl

theorem act_spares {k : Sink π η} (h : w.Spares k s a) : (w.act s a).1.held k = s.held k := by
  cases a with
  | new param => rfl
  | access r f args =>
    rw [World.act]
    split <;> rfl
  | create r answers storage fuel =>
    rw [World.act]
    split
    · exact after_hash_create_of_ne (h ‹_›)
    · rfl

end Last

/-- A file that an object truncates holds its batch to the end of the session, if no batch is created there later:
    it is read back with the names that were set last before the `create` and the records of that run, whoever else
    has written to the file before and whatever is set or created elsewhere, exactly when its texts are stored whole
    and have no character above 0xFF. -/
theorem last_batch {ρ π η : Type} [DecidableEq ρ] [DecidableEq π] [DecidableEq η] (w : World π η)
    (s : Session ρ π η) (self : ρ) (hb : s.blessed self = true) (earlier later : List (Act ρ π))
    (answers : (π → Bool) → Sys) (storage : Storage) (fuel : Nat) (p : π) (hash : Hash)
    (hhash : ∀ field, hash field = lastSet self field (s.hashes self field) earlier) (hnamed : hash.Named)
    (ht : hash.target w = .ok (.truncate, .file p))
    (hlater : w.act.Along (w.Spares (.file p)) (w.act.final s (earlier ++ [.create self answers storage fuel])) later) :
    ∃ (recs : List Record) (file : List Nat),
      printed (w.run storage (w.act.final s earlier).held hash answers fuel) =
        header.write hash.batch.header :: recs.map record.write ∧
      (w.act.final s (earlier ++ .create self answers storage fuel :: later)).held (.file p) = some file ∧
      (readBatch file = some (hash.batch.header, recs) ↔
        ∀ text ∈ header.write hash.batch.header :: recs.map record.write, storage.Keeps text ∧ ∀ c ∈ text, c ≤ 0xFF) := by
  obtain ⟨recs, hprinted⟩ : ∃ recs : List Record,
      printed (w.run storage (w.act.final s earlier).held hash answers fuel) =
        header.write hash.batch.header :: recs.map record.write := printed_hash_create_of_named hnamed ht _ fuel
  obtain ⟨hblessed, hfields⟩ := final_hashes (w := w) hb earlier
  have hself : (w.act.final s earlier).hashes self = hash := funext fun field => (hfields field).trans (hhash field).symm
  have hcreated : (w.act.final s (earlier ++ [.create self answers storage fuel])).held (.file p) =
      some ((header.write hash.batch.header :: recs.map record.write).flatMap storage.storedOctets) := by
    have hafter : w.after storage (w.act.final s earlier).held
        (w.run storage (w.act.final s earlier).held hash answers fuel) = _ := after_hash_create ht
    rw [← World.run, hprinted] at hafter
    rw [Machine.final_append, Machine.final_cons, Machine.final_nil, act_create_held hblessed, hself, hafter,
      Mode.opened, Store.appendAll_self Store.clear_self, List.nil_append, List.flatMap_def]
  refine ⟨recs, _, hprinted, ?_, readBatch_stored_iff storage _ _⟩
  rw [List.append_cons, Machine.final_append]
  exact hlater.final hcreated fun t a ha hheld => (act_spares ha).trans hheld

theorem creates_spares {s : Session Bool Str Unit} {self : Bool} {j : Sink Str Unit} (mode : Mode) (k : Sink Str Unit)
    (ht : (s.hashes self).target plainWorld = .ok (mode, k)) (hk : k ≠ j) : plainWorld.Spares j s (creates self) := by
  intro _ mode' ht'
  rw [ht] at ht'
  cases ht'
  exact hk rfl

def renamedHash : Hash := (sampleBatch.hash.testname [some (lit "testB")]).2

theorem last_batch_sample : ∃ (recs : List Record) (file : List Nat),
    (plainWorld.act.final twoObjects [creates true, .access false .testname [some (lit "testB")], creates false,
      .access false .testname [none], creates true]).held (.file (lit "temp.batch")) = some file ∧
    (readBatch file = some (⟨lit "suiteSimple1", lit "testB", lit "2014-10-14 14:07:21"⟩, recs) ↔
      ∀ text ∈ header.write renamedHash.batch.header :: recs.map record.write,
        soundDisk.Keeps text ∧ ∀ c ∈ text, c ≤ 0xFF) := by
  have hhash : ∀ field, renamedHash field = lastSet false field (twoObjects.hashes false field)
      [creates true, .access false .testname [some (lit "testB")]] := fun field => by cases field <;> rfl
  have hlater : plainWorld.act.Along (plainWorld.Spares (.file (lit "temp.batch")))
      (plainWorld.act.final twoObjects ([creates true, .access false .testname [some (lit "testB")]] ++ [creates false]))
      [.access false .testname [none], creates true] := by
    exact ⟨trivial, creates_spares .truncate (.file (lit "other/own.gcda")) (by decide) (by decide), trivial⟩
  obtain ⟨recs, file, -, hheld, hread⟩ := last_batch plainWorld twoObjects false rfl
    [creates true, .access false .testname [some (lit "testB")]] [.access false .testname [none], creates true]
    twoFolders soundDisk 3 (lit "temp.batch") renamedHash hhash (by decide) (by decide) hlater
  exact ⟨recs, file, hheld, hread⟩

end CoverityTool
