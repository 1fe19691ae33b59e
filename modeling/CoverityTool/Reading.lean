import CoverityTool.Output
import CoverityTool.Walk

/-! The batch file read back. A reader takes the octets of the file for characters, so it finds the header and the
    records of the run exactly when no failure shortens a text and no character of them is above 0xFF. -/

namespace CoverityTool
open Perl Formats Runs Stores

/-! ### Narrow texts -/

theorem isDigit_le {c : Nat} (h : isDigit c = true) : c ≤ 0xFF := by
  simp only [isDigit, Bool.and_eq_true, decide_eq_true_eq, Char.reduceToNat] at h
  omega

theorem field_narrow {key : String} (hkey : ∀ c ∈ lit key, c ≤ 0xFF) (v : Str) :
    (∀ c ∈ (field key).write v, c ≤ 0xFF) ↔ ∀ c ∈ v, c ≤ 0xFF := by
  have hcolon : ∀ c ∈ lit ":", c ≤ 0xFF := by decide
  have hnewline : ∀ c ∈ lit "\n", c ≤ 0xFF := by decide
  have hlength : ∀ c ∈ decimal v.length, c ≤ 0xFF := fun c hc => isDigit_le (isDigit_decimal _ c hc)
  simp only [field_write, List.forall_mem_append]
  exact ⟨fun h => h.2.1.2, fun h => ⟨hkey, ⟨⟨hlength, hcolon⟩, h⟩, hnewline⟩⟩

theorem header_narrow (h : Header) : (∀ c ∈ header.write h, c ≤ 0xFF) ↔ ∀ c ∈ h.letters, c ≤ 0xFF := by
  have hend : ∀ c ∈ lit "verbose\n", c ≤ 0xFF := by decide
  simp only [header, Format.rename, Format.before, Format.pair, Header.letters, List.forall_mem_append,
    field_narrow (by decide : ∀ c ∈ lit "suitename:", c ≤ 0xFF), field_narrow (by decide : ∀ c ∈ lit "testname:", c ≤ 0xFF),
    field_narrow (by decide : ∀ c ∈ lit "teststart:", c ≤ 0xFF)]
  exact and_iff_left hend

theorem record_narrow (r : Record) : (∀ c ∈ record.write r, c ≤ 0xFF) ↔ ∀ c ∈ r.letters, c ≤ 0xFF := by
  have hend : ∀ c ∈ lit "run\n", c ≤ 0xFF := by decide
  simp only [record, Format.rename, Format.before, Format.pair, Record.letters, List.forall_mem_append,
    field_narrow (by decide : ∀ c ∈ lit "gcda:", c ≤ 0xFF), field_narrow (by decide : ∀ c ∈ lit "gcno:", c ≤ 0xFF),
    field_narrow (by decide : ∀ c ∈ lit "compilation-directory:", c ≤ 0xFF)]
  exact and_iff_left hend

/-! ### The file -/

theorem octets_le (text : Str) : ∀ o ∈ octets text text, o ≤ 0xFF := by
  unfold octets
  split
  · assumption
  · exact Utf8.encodeAll_le text

theorem octets_of_narrow {text : Str} (h : ∀ c ∈ text, c ≤ 0xFF) : octets text text = text := if_pos h

section Stored
variable {ι : Type} {storage : ι → Storage} {text : ι → Str} {xs : List ι}

theorem stored_le : ∀ o ∈ xs.flatMap fun x => (storage x).storedOctets (text x), o ≤ 0xFF := by
  rw [List.forall_mem_flatMap]
  intro x _ o ho
  have hbegins := Storage.storedOctets_prefix (storage x) (text x)
  exact octets_le (text x) o (hbegins.subset ho)

/-- Texts of narrow letters are stored whole if as many octets are stored as there are letters: what is stored of
    each is a beginning of it. -/
theorem keeps_of_length (hnarrow : ∀ x ∈ xs, ∀ c ∈ text x, c ≤ 0xFF)
    (hlen : (xs.flatMap text).length ≤ (xs.flatMap fun x => (storage x).storedOctets (text x)).length) :
    ∀ x ∈ xs, (storage x).Keeps (text x) := by
  have hfull : xs.flatMap (fun x => octets (text x) (text x)) = xs.flatMap text :=
    List.flatMap_congr fun x hx => octets_of_narrow (hnarrow x hx)
  rw [← hfull] at hlen
  have hbegins : ∀ x, (storage x).storedOctets (text x) <+: octets (text x) (text x) := fun x =>
    Storage.storedOctets_prefix (storage x) (text x)
  exact fun x hx => Storage.storedOctets_eq_iff.mp (eq_of_length_flatMap_le hbegins hlen x hx)

theorem stored_of_keeps (h : ∀ x ∈ xs, (storage x).Keeps (text x) ∧ ∀ c ∈ text x, c ≤ 0xFF) :
    (xs.flatMap fun x => (storage x).storedOctets (text x)) = xs.flatMap text :=
  List.flatMap_congr fun x hx => by
    rw [Storage.storedOctets_eq_iff.mpr (h x hx).1, octets_of_narrow (h x hx).2]

end Stored

/-- The file with the stored texts of a batch is read back as that batch exactly when no text has been shortened
    and no character is above 0xFF. -/
theorem readBatch_stored_iff (s : Storage) (h : Header) (rs : List Record) :
    readBatch ((header.write h :: rs.map record.write).flatMap s.storedOctets) = some (h, rs) ↔
      ∀ text ∈ header.write h :: rs.map record.write, s.Keeps text ∧ ∀ c ∈ text, c ≤ 0xFF := by
  have htexts : (header.write h :: rs.map record.write).flatMap id = header.write h ++ rs.flatMap record.write := by
    rw [List.flatMap_cons, List.flatMap_map]
    rfl
  constructor
  · intro hr
    obtain ⟨⟨hheader, hrecords⟩, hlen⟩ := readBatch_yields hr
    have hoctets : ∀ o ∈ (header.write h :: rs.map record.write).flatMap s.storedOctets, o ≤ 0xFF := stored_le
    have hnarrow : ∀ text ∈ header.write h :: rs.map record.write, ∀ c ∈ text, c ≤ 0xFF := by
      rw [List.forall_mem_cons, List.forall_mem_map]
      refine ⟨(header_narrow h).mpr fun c hc => hoctets c (hheader hc), fun r hr => ?_⟩
      exact (record_narrow r).mpr fun c hc => hoctets c (hrecords r hr hc)
    rw [← htexts] at hlen
    exact fun text ht => ⟨keeps_of_length hnarrow hlen text ht, hnarrow text ht⟩
  · intro hall
    have hstored : (header.write h :: rs.map record.write).flatMap s.storedOctets = _ := stored_of_keeps hall
    rw [hstored]
    exact htexts ▸ readBatch_write h rs

/-! ### Trees -/

section Trees
variable {π η : Type} {w : World π η} {answers : Sys} {self : CoverageBatch}

/-- Where names lead does not matter to the traversal. -/
theorem traverseGcda_sys (fuel : Nat) (folder : Str) :
    self.traverseGcda (w.sys answers) fuel folder = self.traverseGcda answers fuel folder := by
  have halike : Sys.Alike folder (w.sys answers) answers := fun _ _ => ⟨rfl, rfl⟩
  exact traverseGcda_congr halike fuel

theorem create_sys (ho : (w.sys answers).Opens self) (ho' : answers.Opens self) (fuel : Nat) :
    (self.create (w.sys answers) fuel).ending = (self.create answers fuel).ending ∧
      printed (self.create (w.sys answers) fuel) = printed (self.create answers fuel) := by
  rw [create_ending ho, create_ending ho', printed_create ho, printed_create ho', traverseGcda_sys]
  exact ⟨rfl, rfl⟩

end Trees

/-- From the tree to the file: whatever was held before and whatever is stored of the texts, a run whose output is
    a truncated file changes that file alone, and it is read back as the header and one record for each gcda entry
    exactly when every text is stored whole and has no character above 0xFF. -/
theorem file_read_iff {π η : Type} [DecidableEq π] [DecidableEq η] (self : CoverageBatch) (w : World π η) (p : π)
    (ht : w.target (lit ">" ++ self.output) = .ok (.truncate, .file p)) (d : Disk) (t : Tree) (fuel : Nat)
    (hd : d.Holds self.gcdaFolder t) (hf : t.listing.depth < fuel) (s : Storage) (before : Held π η) :
    let recs := (topPaths self.gcdaFolder ++ t.gcdaEntries.map fun e => pathOf self.gcdaFolder e.path).map self.record
    let run := self.create (w.sys (d.sys .none)) fuel
    run.ending = .returned ∧ (∀ k, k ≠ .file p → w.after s before run k = before k) ∧
      ∃ file : List Nat, w.after s before run (.file p) = some file ∧
        (readBatch file = some (self.header, recs) ↔
          ∀ text ∈ header.write self.header :: recs.map record.write, s.Keeps text ∧ ∀ c ∈ text, c ≤ 0xFF) := by
  intro recs run
  have ho : (w.sys (d.sys .none)).Opens self := sys_opens_iff.mpr ⟨_, ht⟩
  obtain ⟨hend, hprinted⟩ := create_sys ho ((opens_iff self).mpr rfl) fuel
  rw [(create_tree_none self hd hf).1] at hend
  rw [create_records self hd hf] at hprinted
  have hafter : w.after s before run = _ := after_create ht fuel
  refine ⟨hend, fun k hk => ?_, _, ?_, readBatch_stored_iff s self.header recs⟩
  · rw [hafter, Store.appendAll_of_ne hk, Mode.opened_of_ne hk]
  · rw [hafter, Mode.opened, Store.appendAll_self Store.clear_self, List.nil_append, hprinted, List.flatMap_def]

theorem file_read_sample : ∃ file : List Nat,
    plainWorld.after soundDisk oneFile (plainRun sampleBatch) (.file (lit "temp.batch")) = some file ∧
    readBatch file = some (sampleBatch.header,
      [lit "gcda/Application/a.gcda", lit "gcda/Application/d/b.gcda"].map sampleBatch.record) := by
  have hd := mount_holds sampleBatch.gcdaFolder plainTree
  obtain ⟨-, -, file, hfile, hread⟩ := file_read_iff sampleBatch plainWorld (lit "temp.batch") (by decide) _ plainTree 3
    hd (by decide) soundDisk oneFile
  have hkeeps : ∀ text, soundDisk.Keeps text := fun text => (soundDisk.stored_eq_iff text).mp rfl
  refine ⟨file, hfile, hread.mpr ?_⟩
  rw [List.forall_mem_cons, List.forall_mem_map]
  refine ⟨⟨hkeeps _, (header_narrow _).mpr (by decide)⟩, fun r hr => ⟨hkeeps _, (record_narrow r).mpr ?_⟩⟩
  revert r
  decide

/-! ### A stream that is cut off -/

theorem number_steady : number.Steady := Format.steady_numeral

theorem field_steady (key : String) : (field key).Steady := (number_steady.block.before _).after _

theorem header_steady : header.Steady :=
  (((field_steady _).pair ((field_steady _).pair (field_steady _))).before _).rename

theorem record_steady : record.Steady :=
  (((field_steady _).pair ((field_steady _).pair (field_steady _))).before _).rename

theorem readBatch_cut_iff {h h' : Header} {rs rs' : List Record} {left : Str}
    (hleft : left <+: header.write h ++ rs.flatMap record.write) :
    readBatch left = some (h', rs') ↔ h' = h ∧ rs' <+: rs ∧ left = header.write h ++ rs'.flatMap record.write := by
  constructor
  · intro hr
    obtain ⟨⟨h', rest⟩, hread, hrs⟩ := Option.bind_eq_some_iff.mp hr
    obtain ⟨rs', hrecs, heq⟩ := Option.map_eq_some_iff.mp hrs
    obtain ⟨rfl, rfl⟩ := Prod.mk.injEq _ _ _ _ ▸ heq
    obtain ⟨rfl, rfl, hrest⟩ := header_steady.eq_of_read hleft hread
    obtain ⟨hfirst, hwhole⟩ := record_steady.readMany hrest hrecs
    exact ⟨rfl, hfirst, by rw [← hwhole]⟩
  · rintro ⟨rfl, -, rfl⟩
    exact readBatch_write h' rs'

/-- A stream that is cut off anywhere is refused, unless it is cut after the header or after a record. Then it is
    read as the batch of the records before, and nothing in it tells that there have been more. -/
theorem cut_read_iff {sys : Sys} {self : CoverageBatch} (ho : sys.Opens self) (fuel : Nat) :
    ∃ recs : List Record, readBatch (stream (self.create sys fuel)) = some (self.header, recs) ∧
      ∀ left, left <+: stream (self.create sys fuel) → ∀ h rs, readBatch left = some (h, rs) ↔
        h = self.header ∧ rs <+: recs ∧ left = header.write self.header ++ rs.flatMap record.write := by
  obtain ⟨paths, hprinted⟩ := printed_create_eq self ho fuel
  have hstream : stream (self.create sys fuel) =
      header.write self.header ++ (paths.map self.record).flatMap record.write := by
    rw [stream, hprinted, List.flatten_cons, List.flatMap_def]
  refine ⟨paths.map self.record, ?_, fun left hleft h rs => ?_⟩
  · rw [hstream, readBatch_write]
  · rw [hstream] at hleft
    exact readBatch_cut_iff hleft

theorem cut_read_sample : ∃ left, left <+: stream (plainRun sampleBatch) ∧ left ≠ stream (plainRun sampleBatch) ∧
    readBatch left = some (sampleBatch.header, [sampleBatch.record (lit "gcda/Application/a.gcda")]) := by
  have ho : (plainWorld.sys ((mount sampleBatch.gcdaFolder plainTree).sys .none)).Opens sampleBatch := rfl
  obtain ⟨recs, hread, hcut⟩ := cut_read_iff ho 3
  have hprinted : printed (plainRun sampleBatch) = header.write sampleBatch.header ::
      ([lit "gcda/Application/a.gcda", lit "gcda/Application/d/b.gcda"].map sampleBatch.record).map record.write := by
    decide
  have hstream : stream (plainRun sampleBatch) = header.write sampleBatch.header ++
      ([lit "gcda/Application/a.gcda", lit "gcda/Application/d/b.gcda"].map sampleBatch.record).flatMap
        record.write := by
    rw [stream, hprinted, List.flatten_cons, List.flatMap_def]
  have hrecs : recs = [lit "gcda/Application/a.gcda", lit "gcda/Application/d/b.gcda"].map sampleBatch.record := by
    rw [← plainRun, hstream, readBatch_write] at hread
    exact (Prod.mk.inj (Option.some.inj hread)).2.symm
  have hleft : header.write sampleBatch.header ++ [sampleBatch.record (lit "gcda/Application/a.gcda")].flatMap
      record.write <+: stream (plainRun sampleBatch) := by
    rw [hstream, List.prefix_append_right_inj, List.map_cons, List.flatMap_cons, List.flatMap_cons, List.flatMap_nil]
    exact (List.prefix_append_right_inj _).mpr List.nil_prefix
  have hfirst := (hcut _ hleft sampleBatch.header [sampleBatch.record (lit "gcda/Application/a.gcda")]).mpr
    ⟨rfl, hrecs ▸ by decide, rfl⟩
  refine ⟨_, hleft, fun heq => ?_, hfirst⟩
  rw [heq, plainRun, hread, hrecs, Option.some.injEq, Prod.mk.injEq] at hfirst
  exact absurd hfirst.2 (by decide)

end CoverityTool
