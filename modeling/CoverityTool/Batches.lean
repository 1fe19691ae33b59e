import CoverityTool.Sessions

/-! Files with several batches. Where the output is opened to append, or leads to an open handle, the batches that a
    session creates there stand one after another, and are read back in this order. -/

namespace CoverityTool
open Perl Runs Stores Machines Formats

/-! ### Batches one after another -/

def piece : Format Nat (Header ⊕ Record) := header.choice record header_read_of_record

theorem piece_write_ne_nil (v : Header ⊕ Record) : piece.write v ≠ [] := by
  cases v with
  | inl h => exact fun hnil => absurd ((congrArg List.head? hnil).symm.trans (header_write_head h)) (by simp)
  | inr r => exact record_write_ne_nil r

theorem piece_yields : piece.Yields (Sum.elim Header.letters Record.letters) := header_yields.choice record_yields

theorem piece_narrow (v : Header ⊕ Record) : (∀ c ∈ piece.write v, c ≤ 0xFF) ↔
    ∀ c ∈ Sum.elim Header.letters Record.letters v, c ≤ 0xFF := by
  cases v with
  | inl h => exact header_narrow h
  | inr r => exact record_narrow r

/-- Batches up to the end of the text. -/
def readBatches (s : Str) : Option (List (Header × List Record)) :=
  (piece.readAll s).bind fun vs => if (group vs).1.isEmpty then some (group vs).2 else none

theorem readBatches_eq_some_iff {s : Str} {bs : List (Header × List Record)} :
    readBatches s = some bs ↔ piece.readAll s = some (bs.flatMap parts) := by
  rw [readBatches, Option.bind_eq_some_iff]
  constructor
  · rintro ⟨vs, hread, hgroup⟩
    rw [Option.ite_none_right_eq_some, List.isEmpty_iff, Option.some.injEq] at hgroup
    rw [hread, ← group_eq_iff.mp (Prod.ext hgroup.1 hgroup.2)]
  · intro hread
    refine ⟨_, hread, ?_⟩
    rw [group_eq_iff.mpr rfl]
    rfl

/-- The texts of a batch. -/
def batchTexts (b : Header × List Record) : List Str := header.write b.1 :: b.2.map record.write

theorem batchTexts_eq (b : Header × List Record) : batchTexts b = (parts b).map piece.write := by
  rw [batchTexts, parts, List.map_cons, List.map_map]
  rfl

/-- Batches with what is stored of their texts are read back exactly when every text is stored whole and has no
    character above 0xFF. -/
theorem readBatches_stored_iff (xs : List (Storage × (Header × List Record))) :
    readBatches (xs.flatMap fun x => (batchTexts x.2).flatMap x.1.storedOctets) = some (xs.map Prod.snd) ↔
      ∀ x ∈ xs, ∀ text ∈ batchTexts x.2, x.1.Keeps text ∧ ∀ c ∈ text, c ≤ 0xFF := by
  -- The pieces of all batches, each with the storage of its own.
  let pieces : List (Storage × (Header ⊕ Record)) := xs.flatMap fun x => (parts x.2).map fun v => (x.1, v)
  have hvalues : (xs.map Prod.snd).flatMap parts = pieces.map Prod.snd := by
    simp only [pieces, List.flatMap_map, List.map_flatMap, List.map_map]
    exact List.flatMap_congr fun x _ => (List.map_id _).symm
  have hstored : (xs.flatMap fun x => (batchTexts x.2).flatMap x.1.storedOctets) =
      pieces.flatMap fun y => y.1.storedOctets (piece.write y.2) := by
    simp only [pieces, List.flatMap_assoc, List.flatMap_map, batchTexts_eq]
  have hwhole : (pieces.flatMap fun y => piece.write y.2) = (pieces.map Prod.snd).flatMap piece.write := by
    rw [List.flatMap_map]
  have hall : (∀ x ∈ xs, ∀ text ∈ batchTexts x.2, x.1.Keeps text ∧ ∀ c ∈ text, c ≤ 0xFF) ↔
      ∀ y ∈ pieces, y.1.Keeps (piece.write y.2) ∧ ∀ c ∈ piece.write y.2, c ≤ 0xFF := by
    simp only [pieces, List.forall_mem_flatMap, List.forall_mem_map, batchTexts_eq]
  rw [readBatches_eq_some_iff, hvalues, hstored, hall]
  constructor
  · intro hread
    obtain ⟨hletters, hlen⟩ := piece_yields.readMany hread
    have hnarrow : ∀ y ∈ pieces, ∀ c ∈ piece.write y.2, c ≤ 0xFF := fun y hy =>
      (piece_narrow y.2).mpr fun c hc => stored_le c (hletters y.2 (List.mem_map_of_mem hy) hc)
    rw [← hwhole] at hlen
    exact fun y hy => ⟨keeps_of_length hnarrow hlen y hy, hnarrow y hy⟩
  · intro hkeeps
    rw [stored_of_keeps hkeeps, hwhole]
    exact piece.readAll_write piece_write_ne_nil _

/-! ### What a session leaves in one place -/

section Session
variable {ρ π η : Type}

/-- Where a run has opened its output, by its first call. -/
def World.opened (w : World π η) (r : Prog) : Option (Mode × Sink π η) :=
  match r.calls with
  | .openOut expr :: _ => (w.target expr).toOption
  | _ => none

/-- The objects that create their batch in the sink `k` have their three names. -/
def World.Titled (w : World π η) (k : Sink π η) (s : Session ρ π η) : Act ρ π → Prop
  | .create self _ _ _ => s.blessed self = true → ∀ mode, (s.hashes self).target w = .ok (mode, k) →
      (s.hashes self).Named
  | _ => True

/-- The sink `k` holds what has been stored of batches, and these are what the runs have printed. -/
def Collected (k : Sink π η) (s : Session ρ π η) (runs : List (Storage × Prog)) : Prop :=
  ∃ xs : List (Storage × (Header × List Record)),
    runs.map (fun x => (x.1, printed x.2)) = xs.map (fun x => (x.1, batchTexts x.2)) ∧
      (s.held k).getD [] = xs.flatMap fun x => (batchTexts x.2).flatMap x.1.storedOctets

variable {w : World π η} {s : Session ρ π η} {k : Sink π η} {mode : Mode} {runs : List (Storage × Prog)}

theorem opened_of_target {hash : Hash} {answers : Sys} {fuel : Nat} (ht : hash.target w = .ok (mode, k)) :
    w.opened (hash.create (w.sys answers) fuel) = some (mode, k) := by
  have ho : (w.sys answers).Opens hash.batch := sys_opens_iff.mpr ⟨_, ht⟩
  obtain ⟨-, tail, -, hcalls⟩ : (hash.create (w.sys answers) fuel).ending = _ ∧ ∃ tail : List Call, _ ∧
    (hash.create (w.sys answers) fuel).calls = _ := createWith_calls _ _ ho
  have ht' : w.target (lit ">" ++ hash.batch.output) = .ok (mode, k) := ht
  simp only [World.opened, hcalls, ht', Except.toOption]

theorem opened_of_error {hash : Hash} {answers : Sys} {fuel : Nat} {errno : Str} (ht : hash.target w = .error errno) :
    w.opened (hash.create (w.sys answers) fuel) = none := by
  rw [hash_create_of_error ht]
  rfl

theorem Collected.of_held {t : Session ρ π η} (h : Collected k s runs) (hk : t.held k = s.held k) :
    Collected k t runs := by
  obtain ⟨xs, hruns, hheld⟩ := h
  exact ⟨xs, hruns, hk ▸ hheld⟩

variable [DecidableEq π] [DecidableEq η]

/-- The runs with a text in the sink `k`, and what has been stored of them: those that have opened it since it was
    truncated last. -/
def World.collect (w : World π η) (k : Sink π η) (runs : List (Storage × Prog)) :
    Act ρ π × Outcome ρ → List (Storage × Prog)
  | (.create _ _ storage _, .run r) =>
    match w.opened r with
    | some (mode, j) => if j = k then (if mode = .truncate then [] else runs) ++ [(storage, r)] else runs
    | none => runs
  | _ => runs

theorem getD_opened (mode : Mode) (m : Held π η) (k : Sink π η) :
    (mode.opened m k k).getD [] = if mode = .truncate then [] else (m k).getD [] := by
  cases mode with
  | truncate => rw [Mode.opened, Store.clear_self, Option.getD_some, if_pos rfl]
  | append => rw [Mode.opened, Store.append_self, Option.getD_some, List.append_nil, if_neg (by decide)]
  | dup => rw [Mode.opened, if_neg (by decide)]

/-- A run is added to what its sink has collected, which is nothing if it truncates it. -/
theorem Collected.create {hash : Hash} {answers : Sys} {storage : Storage} {fuel : Nat} (h : Collected k s runs)
    (hn : hash.Named) (ht : hash.target w = .ok (mode, k)) :
    Collected k { s with held := w.after storage s.held (hash.create (w.sys answers) fuel) }
      ((if mode = .truncate then [] else runs) ++ [(storage, hash.create (w.sys answers) fuel)]) := by
  obtain ⟨xs, hruns, hheld⟩ := h
  obtain ⟨recs, hprinted⟩ := printed_hash_create_of_named hn ht answers fuel
  let last : Storage × (Header × List Record) := (storage, hash.batch.header, recs)
  have hlast : printed (hash.create (w.sys answers) fuel) = batchTexts last.2 := hprinted
  refine ⟨(if mode = .truncate then [] else xs) ++ [last], ?_, ?_⟩
  · rw [List.map_append, List.map_append, List.map_singleton, List.map_singleton, hlast]
    split
    · rfl
    · rw [hruns]
  · rw [after_hash_create ht, Store.getD_appendAll, getD_opened, hlast, hheld, List.flatMap_append,
      List.flatMap_singleton, List.flatMap_def]
    split <;> rfl

theorem act_collected [DecidableEq ρ] {a : Act ρ π} (hok : w.Titled k s a) (h : Collected k s runs) :
    Collected k (w.act s a).1 (w.collect k runs (a, (w.act s a).2)) := by
  cases a with
  | new param => exact h
  | access r field args =>
    rw [World.act]
    split <;> exact h
  | create r answers storage fuel =>
    rw [World.act]
    split
    · rename_i hb
      simp only [World.collect, World.run]
      cases ht : (s.hashes r).target w with
      | error errno =>
        have hne : ∀ mode, (s.hashes r).target w ≠ .ok (mode, k) := by simp [ht]
        rw [opened_of_error ht]
        exact h.of_held (after_hash_create_of_ne hne)
      | ok t =>
        obtain ⟨mode, j⟩ := t
        rw [opened_of_target ht]
        by_cases hj : j = k
        · subst hj
          simp only [if_true]
          exact h.create (hok hb mode ht) ht
        · have hne : ∀ mode, (s.hashes r).target w ≠ .ok (mode, k) := by
            intro mode' ht'
            rw [ht] at ht'
            cases ht'
            exact hj rfl
          simp only [if_neg hj]
          exact h.of_held (after_hash_create_of_ne hne)
    · exact h

end Session

/-- At the end of every session, a file or a handle that held nothing at first holds the batches that were created
    there since it was truncated last, one after another: they are read back as they were printed, in this order,
    exactly when all their texts were stored whole and have no character above 0xFF. -/
theorem batches_in_order {ρ π η : Type} [DecidableEq ρ] [DecidableEq π] [DecidableEq η] (w : World π η)
    (s : Session ρ π η) (k : Sink π η) (hk : (s.held k).getD [] = []) (acts : List (Act ρ π))
    (hok : w.act.Along (w.Titled k) s acts) :
    let runs := (w.act.trace s acts).foldl (w.collect k) []
    ∃ batches : List (Header × List Record), runs.map (fun x => printed x.2) = batches.map batchTexts ∧
      (readBatches (((w.act.final s acts).held k).getD []) = some batches ↔
        ∀ x ∈ runs, ∀ text ∈ printed x.2, x.1.Keeps text ∧ ∀ c ∈ text, c ≤ 0xFF) := by
  intro runs
  have hcollected : Collected k (w.act.final s acts) runs :=
    hok.observed ⟨[], rfl, hk⟩ fun _ _ _ => act_collected
  obtain ⟨xs, hruns, hheld⟩ := hcollected
  refine ⟨xs.map Prod.snd, ?_, ?_⟩
  · have hprinted := congrArg (List.map Prod.snd) hruns
    simpa only [List.map_map, Function.comp_def] using hprinted
  · rw [hheld, readBatches_stored_iff]
    have hall : ∀ P : Storage → Str → Prop, (∀ x ∈ runs, ∀ text ∈ printed x.2, P x.1 text) ↔
        ∀ x ∈ xs, ∀ text ∈ batchTexts x.2, P x.1 text := by
      intro P
      have hboth := congrArg (fun l : List (Storage × List Str) => ∀ y ∈ l, ∀ text ∈ y.2, P y.1 text) hruns
      simpa only [List.forall_mem_map, eq_iff_iff] using hboth
    exact (hall fun storage text => storage.Keeps text ∧ ∀ c ∈ text, c ≤ 0xFF).symm

/-- Two objects that append to one file. -/
def appendingObjects : Session Bool Str Unit where
  hashes self := if self then { otherBatch with output := lit ">temp.batch" }.hash else appendedBatch.hash
  blessed _ := true
  held _ := none

theorem batches_in_order_sample : ∃ batches : List (Header × List Record), batches.length = 2 ∧
    readBatches (((plainWorld.act.final appendingObjects [creates true, .new true, creates false]).held
      (.file (lit "temp.batch"))).getD []) = some batches := by
  have htitled : plainWorld.act.Along (plainWorld.Titled (.file (lit "temp.batch"))) appendingObjects
      [creates true, .new true, creates false] := ⟨fun _ _ _ => by decide, trivial, fun _ _ _ => by decide, trivial⟩
  obtain ⟨batches, hprinted, hread⟩ := batches_in_order plainWorld appendingObjects (.file (lit "temp.batch")) rfl
    [creates true, .new true, creates false] htitled
  have hruns : (plainWorld.act.trace appendingObjects [creates true, .new true, creates false]).foldl
      (plainWorld.collect (.file (lit "temp.batch"))) [] =
      [(soundDisk, plainWorld.run soundDisk _ (appendingObjects.hashes true) twoFolders 3),
        (soundDisk, plainWorld.run soundDisk _ (appendingObjects.hashes false) twoFolders 3)] := rfl
  rw [hruns] at hprinted hread
  have hkeeps : ∀ text, soundDisk.Keeps text := fun text => (soundDisk.stored_eq_iff text).mp rfl
  refine ⟨batches, by simpa using (congrArg List.length hprinted).symm, hread.mpr ?_⟩
  simp only [List.forall_mem_cons, hkeeps, true_and]
  exact ⟨by decide, by decide, by simp⟩

end CoverityTool
