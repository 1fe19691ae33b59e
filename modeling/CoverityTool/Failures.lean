import CoverityTool.Lib.Stores
import CoverityTool.Traversal

/-! Runs in which operations fail. A directory that cannot be opened ends the run between two records. What
    fails in `-d`, in a `print` or in the `close` is not noticed, so a run can return with records missing
    from the file. -/

namespace CoverityTool
open Perl Formats Runs Stores

/-! ### Directories that cannot be opened -/

section Directories
variable {self : CoverageBatch} {d : Disk} {f : Faults} {t : Tree} {fuel : Nat}

/-- A visit hands over the first of the paths that it would hand over if it did not die. -/
theorem handed_begins (g : Str) (o : Obstacles) (t : Tree) :
    topPaths g ++ (found (o.visitTree t)).map (pathOf g) <+:
      topPaths g ++ (o.visible t).map fun e => pathOf g e.path := by
  have hpaths := (found_visitTree_begins o t).map (pathOf g)
  rw [List.map_map] at hpaths
  exact (List.prefix_append_right_inj (topPaths g)).mpr hpaths

theorem create_died (hd : d.Holds self.gcdaFolder t) (hf : t.listing.depth < fuel) (ho : f.openOut = .none) :
    (self.create (d.sys f) fuel).Died ↔ ∃ ns ∈ t.dirs, (f.obstacles self.gcdaFolder).Clear ns ∧
      f.unopened (pathOf self.gcdaFolder ns) = true := by
  rw [Run.Died, (create_tree self hd hf ho).1]
  exact visitTree_died _ t

theorem create_finished (hd : d.Holds self.gcdaFolder t) (hf : t.listing.depth < fuel) (ho : f.openOut = .none) :
    (self.create (d.sys f) fuel).ending ≠ .unfinished := by
  rw [(create_tree self hd hf ho).1]
  exact ((f.obstacles self.gcdaFolder).visitTree_cut t).finished (by simp)

theorem create_returned (hd : d.Holds self.gcdaFolder t) (hf : t.listing.depth < fuel) (ho : f.openOut = .none)
    (hr : (self.create (d.sys f) fuel).ending = .returned) :
    printed (self.create (d.sys f) fuel) = self.headerText :: (topPaths self.gcdaFolder ++
      ((f.obstacles self.gcdaFolder).visible t).map fun e => pathOf self.gcdaFolder e.path).map self.batchText := by
  obtain ⟨hend, hprinted⟩ := create_tree self hd hf ho
  rw [hr] at hend
  obtain ⟨-, hfound⟩ := visitTree_of_not_died (Run.not_died hend.symm)
  rw [hprinted, hfound, List.map_map]
  rfl

end Directories

def Faults.locking (U : Str → Bool) : Faults := ⟨.none, fun _ => false, U⟩

/-- A run dies exactly when some directory of the tree cannot be opened, and it has then written the header
    and the first records of the run in which every directory can be. -/
theorem unopened_cut (self : CoverageBatch) (d : Disk) (t : Tree) (fuel : Nat) (U : Str → Bool)
    (hd : d.Holds self.gcdaFolder t) (hf : t.listing.depth < fuel) :
    (self.create (d.sys (.locking U)) fuel).ending ≠ .unfinished ∧
    ((self.create (d.sys (.locking U)) fuel).Died ↔ ∃ ns ∈ t.dirs, U (pathOf self.gcdaFolder ns) = true) ∧
    ∃ (recs : List Record) (k : Nat),
      printed (self.create (d.sys .none) fuel) = header.write self.header :: recs.map record.write ∧
      printed (self.create (d.sys (.locking U)) fuel) =
        header.write self.header :: (recs.take k).map record.write := by
  have hclear := Obstacles.clear_of_seeing (o := (Faults.locking U).obstacles self.gcdaFolder) fun _ => rfl
  refine ⟨create_finished hd hf rfl, ?_, ?_⟩
  · rw [create_died hd hf rfl]
    simp only [hclear, true_and]
    rfl
  · obtain ⟨-, hprinted⟩ := create_tree (f := .locking U) self hd hf rfl
    have hpaths := handed_begins self.gcdaFolder ((Faults.locking U).obstacles self.gcdaFolder) t
    rw [Obstacles.visible_of_seeing fun _ => rfl] at hpaths
    obtain ⟨k, hk⟩ : ∃ k, _ = List.take k _ := ⟨_, List.prefix_iff_eq_take.mp hpaths⟩
    refine ⟨_, k, create_records self hd hf, ?_⟩
    rw [hprinted, hk, headerText_eq, map_batchText, List.map_take]

theorem unopened_cut_sample :
    (sampleBatch.create ((mount sampleBatch.gcdaFolder sampleTree).sys
      (.locking fun p => p = lit "gcda/Application/d.gcda")) 3).Died := by
  obtain ⟨-, hdied, -⟩ := unopened_cut sampleBatch _ sampleTree 3 (fun p => p = lit "gcda/Application/d.gcda")
    (mount_holds sampleBatch.gcdaFolder sampleTree) (by decide)
  exact hdied.mpr (by decide)

/-! ### What is left in the file -/

/-- What becomes of the printed texts. The program does not look at what `print` and `close` answer, so this
    does not change its run. No text is printed twice (`printed_nodup`), so a failure of a `print` is a
    failure at its text. -/
structure Storage where
  /-- A `print` that fails, and how many characters of its text are stored. -/
  print : Str → Option Nat
  /-- A `close` whose flush fails, and how many characters of each text are left. -/
  close : Option (Str → Nat)

/-- What a `print` stores of its text. -/
def Storage.written (s : Storage) (text : Str) : Str :=
  match s.print text with
  | none => text
  | some n => text.take n

/-- What the file holds of a printed text. -/
def Storage.stored (s : Storage) (text : Str) : Str :=
  match s.close with
  | none => s.written text
  | some kept => (s.written text).take (kept text)

/-- What the file holds after a run: what is left of each text stands right behind what is left of the one before. -/
def Storage.file (s : Storage) (r : Prog) : Str := (printed r).flatMap s.stored

/-- No failure shortens the text. -/
def Storage.Keeps (s : Storage) (text : Str) : Prop :=
  (∀ n, s.print text = some n → text.length ≤ n) ∧ ∀ kept, s.close = some kept → text.length ≤ kept text

/-- The text is in the file as a whole, or nothing of it is. -/
def Storage.Uncut (s : Storage) (text : Str) : Prop := s.stored text = text ∨ s.stored text = []

section Stored
variable (s : Storage) (text : Str)

theorem Storage.written_prefix : s.written text <+: text := by
  unfold Storage.written
  cases s.print text with
  | none => exact List.prefix_rfl
  | some n => exact List.take_prefix n text

theorem Storage.stored_prefix_written : s.stored text <+: s.written text := by
  unfold Storage.stored
  cases s.close with
  | none => exact List.prefix_rfl
  | some kept => exact List.take_prefix _ _

theorem Storage.stored_prefix : s.stored text <+: text :=
  (s.stored_prefix_written text).trans (s.written_prefix text)

theorem Storage.written_eq_iff : s.written text = text ↔ ∀ n, s.print text = some n → text.length ≤ n := by
  unfold Storage.written
  cases s.print text <;> simp

theorem Storage.stored_eq_iff : s.stored text = text ↔ s.Keeps text := by
  rw [Storage.Keeps, ← Storage.written_eq_iff]
  constructor
  · intro h
    -- What `close` leaves is a beginning of what `print` stored, so that was the whole text.
    have hlen : text.length ≤ (s.written text).length :=
      (congrArg List.length h).symm.trans_le (s.stored_prefix_written text).length_le
    have hwritten := (s.written_prefix text).eq_of_length_le hlen
    refine ⟨hwritten, fun kept hk => ?_⟩
    rw [Storage.stored, hk, hwritten] at h
    exact List.take_eq_self_iff text |>.mp h
  · rintro ⟨hwritten, hkept⟩
    rw [Storage.stored, hwritten]
    cases hc : s.close with
    | none => rfl
    | some kept => exact List.take_of_length_le (hkept kept hc)

end Stored

/-! The header and the records begin with different letters. -/

theorem header_write_head (h : Header) : (header.write h).head? = some 's'.toNat := rfl

theorem record_write_head (r : Record) : (record.write r).head? = some 'g'.toNat := rfl

theorem not_begins {a b : Str} {x y : Nat} (ha : a.head? = some x) (hb : b.head? = some y) (hne : x ≠ y) :
    ¬ a <+: b := by
  rintro ⟨c, rfl⟩
  rw [List.head?_append, ha, Option.some_or] at hb
  exact hne (Option.some.inj hb)

theorem field_read_of_absent {key : String} {s : Str} (h : ¬ lit key <+: s) : (field key).read s = none := if_neg h

theorem header_read_of_record (r : Record) (rest : Str) : header.read (record.write r ++ rest) = none := by
  have hkey : (lit "suitename:").head? = some 's'.toNat := by decide
  have hrecord : (record.write r ++ rest).head? = some 'g'.toNat := rfl
  have hline := field_read_of_absent (not_begins hkey hrecord (by decide))
  have hfields : ((field "suitename:").pair ((field "testname:").pair (field "teststart:"))).read
      (record.write r ++ rest) = none := Format.pair_read_of_none hline
  simp [header, Format.rename, Format.before, hfields]

section Texts
variable {self : CoverageBatch} {paths : List Str}

theorem headerText_head : self.headerText.head? = some 's'.toNat := by rw [headerText_eq, header_write_head]

theorem batchText_head (p : Str) : (self.batchText p).head? = some 'g'.toNat := by rw [batchText_eq, record_write_head]

theorem texts_nodup (h : paths.Nodup) : (self.headerText :: paths.map self.batchText).Nodup := by
  refine List.nodup_cons.mpr ⟨?_, h.map (batchText_injective self)⟩
  intro hm
  obtain ⟨p, -, hp⟩ := List.mem_map.mp hm
  exact not_begins (batchText_head p) headerText_head (by decide) (by rw [hp])

end Texts

section Nodup
variable {self : CoverageBatch} {d : Disk} {f : Faults} {t : Tree} {fuel : Nat}

theorem topPaths_append_nodup (o : Obstacles) :
    (topPaths self.gcdaFolder ++ (o.visible t).map fun e => pathOf self.gcdaFolder e.path).Nodup := by
  have hbelow := (t.gcdaPaths_nodup self.gcdaFolder).sublist ((o.visible_sublist t).map _)
  have htop : (topPaths self.gcdaFolder).Nodup := by
    unfold topPaths
    split <;> simp
  refine List.nodup_append.mpr ⟨htop, hbelow, ?_⟩
  rintro p hp q hq rfl
  obtain ⟨-, rfl⟩ := mem_topPaths.mp hp
  obtain ⟨e, -, he⟩ := List.mem_map.mp hq
  exact pathOf_entry_ne self.gcdaFolder e he

theorem printed_nodup (hd : d.Holds self.gcdaFolder t) (hf : t.listing.depth < fuel) (ho : f.openOut = .none) :
    (printed (self.create (d.sys f) fuel)).Nodup := by
  obtain ⟨-, hprinted⟩ := create_tree self hd hf ho
  have hpaths := handed_begins self.gcdaFolder (f.obstacles self.gcdaFolder) t
  rw [hprinted]
  exact texts_nodup ((topPaths_append_nodup (f.obstacles self.gcdaFolder)).sublist hpaths.sublist)

theorem mem_handed (o : Obstacles) {e : Entry} (he : e ∈ t.listing.entries) (hg : e.name.isGcda = true) :
    pathOf self.gcdaFolder e.path ∈
        topPaths self.gcdaFolder ++ (o.visible t).map (fun e => pathOf self.gcdaFolder e.path) ↔
      o.Clear e.folder := by
  rw [List.mem_append, mem_topPaths, List.mem_map]
  constructor
  · rintro (⟨-, h⟩ | ⟨e', he', h⟩)
    · exact absurd h (pathOf_entry_ne _ e)
    · obtain ⟨he', hc⟩ := List.mem_filter.mp he'
      obtain rfl := Listing.entry_eq_of_path t.distinct he' he (pathOf_injective h)
      exact (decide_eq_true_iff.mp hc).2
  · intro hc
    exact Or.inr ⟨e, List.mem_filter.mpr ⟨he, decide_eq_true_iff.mpr ⟨hg, hc⟩⟩, rfl⟩

end Nodup

/-! ### Files in which no text is cut -/

section Uncut
variable {s : Storage} {h : Header} {rs : List Record}

/-- The texts of a batch as they are in the file. -/
theorem flatMap_stored (h : Header) (rs : List Record) : (header.write h :: rs.map record.write).flatMap s.stored =
    s.stored (header.write h) ++ rs.flatMap fun r => s.stored (record.write r) := by
  rw [List.flatMap_cons, List.flatMap_map]

theorem readBatch_of_uncut (hheader : s.Keeps (header.write h)) (hrecords : ∀ r ∈ rs, s.Uncut (record.write r)) :
    readBatch ((header.write h :: rs.map record.write).flatMap s.stored) =
      some (h, rs.filter fun r => s.stored (record.write r) = record.write r) := by
  rw [flatMap_stored, (s.stored_eq_iff _).mpr hheader, flatMap_of_whole hrecords, readBatch_write]

/-- Without its header, no batch can be read. -/
theorem readBatch_of_lost (hheader : s.stored (header.write h) = []) (hrecords : ∀ r ∈ rs, s.Uncut (record.write r)) :
    readBatch ((header.write h :: rs.map record.write).flatMap s.stored) = none := by
  rw [flatMap_stored, hheader, List.nil_append, flatMap_of_whole hrecords, readBatch]
  cases rs.filter fun r => s.stored (record.write r) = record.write r with
  | nil => rfl
  | cons r rs => rw [List.flatMap_cons, header_read_of_record, Option.bind_none]

end Uncut

/-! ### Silent loss -/

/-- The file can be read, with the header of the object and one record for each data file of the tree. -/
def CoverageBatch.Saved (self : CoverageBatch) (t : Tree) (file : Str) : Prop :=
  ∃ recs : List Record, readBatch file = some (self.header, recs) ∧
    ∀ e ∈ t.dataEntries, recs.count (self.record (pathOf self.gcdaFolder e.path)) = 1

/-- The paths that a run that returns has handed over. -/
def CoverageBatch.handedPaths (self : CoverageBatch) (t : Tree) (f : Faults) : List Str :=
  topPaths self.gcdaFolder ++ ((f.obstacles self.gcdaFolder).visible t).map fun e => pathOf self.gcdaFolder e.path

/-- Those of them that are not paths of data files: `gcdaFolder` itself, and directories. -/
def CoverageBatch.otherPaths (self : CoverageBatch) (t : Tree) (f : Faults) : List Str :=
  topPaths self.gcdaFolder ++
    (((f.obstacles self.gcdaFolder).visible t).filter (·.isDir)).map fun e => pathOf self.gcdaFolder e.path

/-- The header and the records of the data files of the tree are stored in full, no folder of a data file has failed
    to be examined, and no other text is cut. -/
structure CoverageBatch.Unharmed (batch : CoverageBatch) (t : Tree) (f : Faults) (s : Storage) : Prop where
  header : s.Keeps batch.headerText
  data : ∀ e ∈ t.dataEntries,
    (f.obstacles batch.gcdaFolder).Clear e.folder ∧ s.Keeps (batch.batchText (pathOf batch.gcdaFolder e.path))
  others : ∀ p ∈ batch.otherPaths t f, s.Uncut (batch.batchText p)

/-- The output cannot be opened, or a directory that the traversal comes to cannot be, so that the run dies; or what
    fails does no harm. -/
def CoverageBatch.Guarded (self : CoverageBatch) (t : Tree) (f : Faults) (s : Storage) : Prop :=
  f.openOut ≠ .none ∨
  (∃ ns ∈ t.dirs, (f.obstacles self.gcdaFolder).Clear ns ∧ f.unopened (pathOf self.gcdaFolder ns) = true) ∨
  self.Unharmed t f s

/-- Of the other paths there is nothing in the file, or no text at all is cut. Where neither holds, what is left of one
    text can run into another one, so that the two read like the text that was cut. -/
def CoverageBatch.Coarse (self : CoverageBatch) (t : Tree) (f : Faults) (s : Storage) : Prop :=
  (∀ p ∈ self.otherPaths t f, s.stored (self.batchText p) = []) ∨
  s.Uncut self.headerText ∧ ∀ p ∈ self.handedPaths t f, s.Uncut (self.batchText p)

section Saved
variable {self : CoverageBatch} {d : Disk} {t : Tree} {f : Faults} {s : Storage} {fuel : Nat}

theorem record_injective (self : CoverageBatch) : Function.Injective self.record := fun _ _ h =>
  congrArg Record.gcda h

theorem file_of_returned (hd : d.Holds self.gcdaFolder t) (hf : t.listing.depth < fuel) (ho : f.openOut = .none)
    (hr : (self.create (d.sys f) fuel).ending = .returned) : s.file (self.create (d.sys f) fuel) =
      (header.write self.header :: ((self.handedPaths t f).map self.record).map record.write).flatMap s.stored := by
  rw [Storage.file, create_returned hd hf ho hr, headerText_eq, map_batchText]
  rfl

/-- Where no record is cut, those in the file are the ones that are stored. -/
theorem saved_iff_of_uncut (hd : d.Holds self.gcdaFolder t) (hf : t.listing.depth < fuel) (ho : f.openOut = .none)
    (hr : (self.create (d.sys f) fuel).ending = .returned) (hheader : s.Keeps self.headerText)
    (huncut : ∀ p ∈ self.handedPaths t f, s.Uncut (self.batchText p)) :
    self.Saved t (s.file (self.create (d.sys f) fuel)) ↔ ∀ e ∈ t.dataEntries,
      (f.obstacles self.gcdaFolder).Clear e.folder ∧ s.Keeps (self.batchText (pathOf self.gcdaFolder e.path)) := by
  let recs := ((self.handedPaths t f).map self.record).filter fun r => s.stored (record.write r) = record.write r
  have hread : readBatch (s.file (self.create (d.sys f) fuel)) = some (self.header, recs) := by
    rw [file_of_returned hd hf ho hr]
    refine readBatch_of_uncut (headerText_eq self ▸ hheader) ?_
    rw [List.forall_mem_map]
    exact fun p hp => batchText_eq self p ▸ huncut p hp
  have hnodup : recs.Nodup :=
    ((topPaths_append_nodup (f.obstacles self.gcdaFolder)).map (record_injective self)).filter _
  have hcount : ∀ e ∈ t.dataEntries, (recs.count (self.record (pathOf self.gcdaFolder e.path)) = 1 ↔
      (f.obstacles self.gcdaFolder).Clear e.folder ∧ s.Keeps (self.batchText (pathOf self.gcdaFolder e.path))) := by
    intro e he
    obtain ⟨he, hg, -⟩ := Tree.mem_dataEntries.mp he
    have hone : ∀ r : Record, recs.count r = 1 ↔ r ∈ recs := fun r => by
      rw [hnodup.count]
      split <;> simp [*]
    rw [hone, List.mem_filter, decide_eq_true_iff, ← batchText_eq, Storage.stored_eq_iff,
      List.mem_map_of_injective (record_injective self), CoverageBatch.handedPaths, mem_handed _ he hg]
  unfold CoverageBatch.Saved
  rw [hread]
  constructor
  · rintro ⟨recs', heq, hall⟩ e he
    obtain rfl : recs = recs' := (Prod.mk.inj (Option.some.inj heq)).2
    exact (hcount e he).mp (hall e he)
  · intro hall
    exact ⟨recs, rfl, fun e he => (hcount e he).mpr (hall e he)⟩

/-- A path that is handed over is that of a data file or another one. -/
theorem uncut_of_unharmed (h : self.Unharmed t f s) : ∀ p ∈ self.handedPaths t f, s.Uncut (self.batchText p) := by
  intro p hp
  rcases List.mem_append.mp hp with hp | hp
  · exact h.others p (List.mem_append_left _ hp)
  · obtain ⟨e, he, rfl⟩ := List.mem_map.mp hp
    cases hdir : e.isDir with
    | true =>
      exact h.others _ (List.mem_append_right _ (List.mem_map_of_mem (List.mem_filter.mpr ⟨he, hdir⟩)))
    | false =>
      obtain ⟨hentry, hg⟩ := List.mem_filter.mp he
      have hdata := Tree.mem_dataEntries.mpr ⟨hentry, (decide_eq_true_iff.mp hg).1, hdir⟩
      exact Or.inl ((s.stored_eq_iff _).mpr (h.data e hdata).2)

theorem saved_of_unharmed (hd : d.Holds self.gcdaFolder t) (hf : t.listing.depth < fuel) (ho : f.openOut = .none)
    (hr : (self.create (d.sys f) fuel).ending = .returned) (h : self.Unharmed t f s) :
    self.Saved t (s.file (self.create (d.sys f) fuel)) :=
  (saved_iff_of_uncut hd hf ho hr h.header (uncut_of_unharmed h)).mpr h.data

theorem unharmed_of_saved_of_uncut (hd : d.Holds self.gcdaFolder t) (hf : t.listing.depth < fuel)
    (ho : f.openOut = .none) (hr : (self.create (d.sys f) fuel).ending = .returned) (hheader : s.Uncut self.headerText)
    (huncut : ∀ p ∈ self.handedPaths t f, s.Uncut (self.batchText p))
    (hsaved : self.Saved t (s.file (self.create (d.sys f) fuel))) : self.Unharmed t f s := by
  have hothers : ∀ p ∈ self.otherPaths t f, p ∈ self.handedPaths t f := fun p hp =>
    List.Sublist.subset ((List.Sublist.refl _).append (List.filter_sublist.map _)) hp
  rcases hheader with hheader | hlost
  · have hkeeps := (s.stored_eq_iff _).mp hheader
    exact ⟨hkeeps, (saved_iff_of_uncut hd hf ho hr hkeeps huncut).mp hsaved, fun p hp => huncut p (hothers p hp)⟩
  · obtain ⟨recs, hread, -⟩ := hsaved
    rw [file_of_returned hd hf ho hr, readBatch_of_lost] at hread
    · cases hread
    · exact headerText_eq self ▸ hlost
    · rw [List.forall_mem_map]
      exact fun p hp => batchText_eq self p ▸ huncut p hp

/-- What is left of the texts of the data files, if nothing is left of the others. -/
theorem file_of_data (hd : d.Holds self.gcdaFolder t) (hf : t.listing.depth < fuel) (ho : f.openOut = .none)
    (hr : (self.create (d.sys f) fuel).ending = .returned)
    (hothers : ∀ p ∈ self.otherPaths t f, s.stored (self.batchText p) = []) :
    s.file (self.create (d.sys f) fuel) = s.stored self.headerText ++ t.dataEntries.flatMap fun e =>
      if (f.obstacles self.gcdaFolder).Clear e.folder then s.stored (self.batchText (pathOf self.gcdaFolder e.path))
      else [] := by
  have hbelow : ∀ e ∈ (f.obstacles self.gcdaFolder).visible t, (!e.isDir) = false →
      s.stored (self.batchText (pathOf self.gcdaFolder e.path)) = [] := by
    intro e he hdir
    refine hothers _ (List.mem_append_right _ (List.mem_map_of_mem (List.mem_filter.mpr ⟨he, ?_⟩)))
    simpa using hdir
  have htop : (topPaths self.gcdaFolder).flatMap (fun p => s.stored (self.batchText p)) = [] :=
    List.flatMap_eq_nil_iff.mpr fun p hp => hothers p (List.mem_append_left _ hp)
  have hclear : ∀ e ∈ t.dataEntries, decide ((f.obstacles self.gcdaFolder).Clear e.folder) = false →
      (if (f.obstacles self.gcdaFolder).Clear e.folder then s.stored (self.batchText (pathOf self.gcdaFolder e.path))
        else []) = [] := fun e _ he => if_neg (of_decide_eq_false he)
  rw [Storage.file, create_returned hd hf ho hr, List.flatMap_cons, List.flatMap_map, List.flatMap_append, htop,
    List.nil_append, List.flatMap_map, ← flatMap_filter_of_nil hbelow, Obstacles.visible_data,
    ← flatMap_filter_of_nil hclear]
  refine congrArg _ (List.flatMap_congr fun e he => ?_)
  rw [if_pos (of_decide_eq_true (List.mem_filter.mp he).2)]

/-- A file that is read back with the header and the records of the data files is as long as these, or longer. -/
theorem length_le_of_saved {file : Str} (h : self.Saved t file) : self.headerText.length +
    (t.dataEntries.flatMap fun e => self.batchText (pathOf self.gcdaFolder e.path)).length ≤ file.length := by
  obtain ⟨recs, hread, hall⟩ := h
  obtain ⟨-, hyields⟩ := readBatch_yields hread
  let records := t.dataEntries.map fun e => self.record (pathOf self.gcdaFolder e.path)
  have hrecords : records.Nodup := by
    have hdata : (t.dataEntries.map fun e => pathOf self.gcdaFolder e.path).Nodup :=
      (t.gcdaPaths_nodup self.gcdaFolder).sublist (List.filter_sublist.map _)
    have hmap := hdata.map (record_injective self)
    rwa [List.map_map] at hmap
  have hsubset : records ⊆ recs := by
    intro r hr
    obtain ⟨e, he, rfl⟩ := List.mem_map.mp hr
    exact List.count_pos_iff.mp (by rw [hall e he]; exact Nat.one_pos)
  have hlonger : (records.flatMap record.write).length ≤ (recs.flatMap record.write).length :=
    length_flatMap_le_of_subset hrecords hsubset
  rw [List.flatMap_map] at hlonger
  rw [List.length_append] at hyields
  simp only [headerText_eq, batchText_eq]
  omega

/-- If nothing but the records of data files is behind the header, all of them are there in full: the file would be too
    short for them otherwise. -/
theorem unharmed_of_saved_of_data (hd : d.Holds self.gcdaFolder t) (hf : t.listing.depth < fuel)
    (ho : f.openOut = .none) (hr : (self.create (d.sys f) fuel).ending = .returned)
    (hothers : ∀ p ∈ self.otherPaths t f, s.stored (self.batchText p) = [])
    (hsaved : self.Saved t (s.file (self.create (d.sys f) fuel))) : self.Unharmed t f s := by
  -- The texts that should be in the file, and what is left of each.
  let whole : Option Entry → Str := fun x =>
    x.elim self.headerText fun e => self.batchText (pathOf self.gcdaFolder e.path)
  let left : Option Entry → Str := fun x => x.elim (s.stored self.headerText) fun e =>
    if (f.obstacles self.gcdaFolder).Clear e.folder then s.stored (self.batchText (pathOf self.gcdaFolder e.path))
    else []
  have hprefix : ∀ x, left x <+: whole x := by
    rintro (_ | e)
    · exact s.stored_prefix _
    · simp only [left, whole, Option.elim_some]
      split
      · exact s.stored_prefix _
      · exact List.nil_prefix
  have hlen : ((none :: t.dataEntries.map some).flatMap whole).length ≤
      ((none :: t.dataEntries.map some).flatMap left).length := by
    have hlong := length_le_of_saved hsaved
    rw [file_of_data hd hf ho hr hothers, List.length_append] at hlong
    simpa only [List.flatMap_cons, List.flatMap_map, List.length_append, whole, left, Option.elim_none,
      Option.elim_some] using hlong
  have hkept := eq_of_length_flatMap_le hprefix hlen
  rw [List.forall_mem_cons, List.forall_mem_map] at hkept
  refine ⟨(s.stored_eq_iff _).mp hkept.1, fun e he => ?_, fun p hp => Or.inr (hothers p hp)⟩
  have hentry : left (some e) = self.batchText (pathOf self.gcdaFolder e.path) := hkept.2 e he
  by_cases hc : (f.obstacles self.gcdaFolder).Clear e.folder
  · simp only [left, Option.elim_some, if_pos hc] at hentry
    exact ⟨hc, (s.stored_eq_iff _).mp hentry⟩
  · simp only [left, Option.elim_some, if_neg hc] at hentry
    rw [batchText_eq] at hentry
    exact absurd hentry.symm (record_write_ne_nil _)

end Saved

/-- Whatever fails, a run that returns has saved the header and the records of the data files if it has been guarded;
    and where no text can run into another one, only then. -/
theorem no_silent_loss_iff (self : CoverageBatch) (d : Disk) (t : Tree) (f : Faults) (s : Storage) (fuel : Nat)
    (hd : d.Holds self.gcdaFolder t) (hf : t.listing.depth < fuel) :
    let run := self.create (d.sys f) fuel
    (self.Guarded t f s → run.ending = .returned → self.Saved t (s.file run)) ∧
    (self.Coarse t f s → ((run.ending = .returned → self.Saved t (s.file run)) ↔ self.Guarded t f s)) := by
  intro run
  have henough : self.Guarded t f s → run.ending = .returned → self.Saved t (s.file run) := by
    intro hguarded hr
    have ho := (opens_iff self).mp (opens_of_returned hr)
    rcases hguarded with hopen | hlocked | hunharmed
    · exact absurd ho hopen
    · exact absurd ((create_died hd hf ho).mpr hlocked) (Run.not_died hr)
    · exact saved_of_unharmed hd hf ho hr hunharmed
  refine ⟨henough, fun hcoarse => ⟨fun hsaved => ?_, henough⟩⟩
  by_cases ho : f.openOut = .none
  · cases hend : run.ending with
    | returned =>
      refine Or.inr (Or.inr ?_)
      rcases hcoarse with hdata | ⟨hheader, huncut⟩
      · exact unharmed_of_saved_of_data hd hf ho hend hdata (hsaved hend)
      · exact unharmed_of_saved_of_uncut hd hf ho hend hheader huncut (hsaved hend)
    | died e => exact Or.inr (Or.inl ((create_died hd hf ho).mp ⟨e, hend⟩))
    | unfinished => exact absurd hend (create_finished hd hf ho)
  · exact Or.inl ho

/-- A data file, and a directory with the name of a data file. -/
def twinTree : Tree where
  listing := .dir (.of "gcda:23:gcda") (.dir (.of "Application") (.file (.of "x.gcda") .nil) .nil)
    (.dir (.of "x.gcda") .nil .nil)
  distinct := by decide

/-- Why the condition is not needed in every case: cut off after the folder, the record of the data file is completed by
    that of the directory, and the file reads as if nothing had failed. -/
example :
    let whole := record.write (sampleBatch.record (lit "gcda/Application/gcda:23:gcda/Application/x.gcda"))
    let s : Storage := ⟨fun text => if text = whole then some 25 else none, none⟩
    s.file (sampleBatch.create ((mount sampleBatch.gcdaFolder twinTree).sys .none) 4) =
      header.write sampleBatch.header ++ whole := by decide +kernel

def soundDisk : Storage := ⟨fun _ => none, none⟩

theorem no_silent_loss_sample : sampleBatch.Saved plainTree
    (soundDisk.file (sampleBatch.create ((mount sampleBatch.gcdaFolder plainTree).sys .none) 3)) := by
  have hd := mount_holds sampleBatch.gcdaFolder plainTree
  have hf : plainTree.listing.depth < 3 := by decide
  have hkeeps : ∀ text, soundDisk.Keeps text := fun text => (soundDisk.stored_eq_iff text).mp rfl
  have hunharmed : sampleBatch.Unharmed plainTree .none soundDisk :=
    ⟨hkeeps _, fun _ _ => ⟨Obstacles.clear_of_seeing (fun _ => rfl) _, hkeeps _⟩, fun _ _ => Or.inl rfl⟩
  obtain ⟨henough, -⟩ := no_silent_loss_iff sampleBatch _ plainTree .none soundDisk 3 hd hf
  exact henough (Or.inr (Or.inr hunharmed)) (create_tree_none sampleBatch hd hf).1

/-- A full disk: nothing that is printed is stored. -/
def fullDisk : Storage := ⟨fun _ => some 0, none⟩

/-- On a full disk a run returns, with an empty file. -/
theorem full_disk_unnoticed :
    (sampleBatch.create ((mount sampleBatch.gcdaFolder plainTree).sys .none) 3).ending = .returned ∧
    fullDisk.file (sampleBatch.create ((mount sampleBatch.gcdaFolder plainTree).sys .none) 3) = [] ∧
    ¬ sampleBatch.Saved plainTree
      (fullDisk.file (sampleBatch.create ((mount sampleBatch.gcdaFolder plainTree).sys .none) 3)) := by
  have hd := mount_holds sampleBatch.gcdaFolder plainTree
  have hfile : fullDisk.file (sampleBatch.create ((mount sampleBatch.gcdaFolder plainTree).sys .none) 3) = [] := by
    simp [Storage.file, fullDisk, Storage.stored, Storage.written]
  refine ⟨(create_tree_none sampleBatch hd (by decide)).1, hfile, ?_⟩
  rw [hfile]
  rintro ⟨recs, hread, -⟩
  cases hread

end CoverityTool
