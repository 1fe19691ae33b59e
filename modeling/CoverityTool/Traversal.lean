import CoverityTool.Batch
import CoverityTool.Visit

/-! The records of a run on a tree: each entry whose own name ends in `.gcda` has one, in the order of the
    listings, after a record for the top folder if its own path is taken for a gcda file. -/

namespace CoverityTool
open Perl Runs

/-- The two trees differ at most in the order of their listings. -/
def Tree.Same (t t' : Tree) : Prop := ∀ e, e ∈ t.listing.entries ↔ e ∈ t'.listing.entries

section Runs
variable (self : CoverageBatch) {d : Disk} {f : Faults} {t : Tree} {fuel : Nat}

theorem opens_iff : (d.sys f).Opens self ↔ f.openOut = .none := by
  unfold Sys.Opens Disk.sys
  cases f.openOut <;> simp

theorem printed_map_render (g : Str) (r : Run Str Visit) :
    printed (r.map (self.render g)) = (found r).map fun ns => self.batchText (pathOf g ns) := by
  simp only [printed, found, Run.map_calls, List.filterMap_map, List.map_filterMap]
  refine congrArg (List.filterMap · r.calls) (funext fun v => ?_)
  cases v <;> rfl

theorem opens_map_render (g : Str) (r : Run Str Visit) :
    opens (r.map (self.render g)) = (opened r).map (pathOf g) := by
  simp only [opens, opened, Run.map_calls, List.filterMap_map, List.map_filterMap]
  refine congrArg (List.filterMap · r.calls) (funext fun v => ?_)
  cases v <;> rfl

def topPaths (g : Str) : List Str := if isGcdaFile g then [g] else []

theorem top_eq (g : Str) : (if isGcdaFile g then self.prepareBatch g else .skip) =
    (⟨.returned, (topPaths g).map fun p => .print (self.batchText p)⟩ : Prog) := by
  unfold topPaths
  split <;> rfl

theorem printed_top (g : Str) (r : Prog) :
    printed ((if isGcdaFile g then self.prepareBatch g else .skip).andThen r) =
      (topPaths g).map self.batchText ++ printed r := by
  rw [top_eq, Run.andThen_of_returned rfl, printed, List.filterMap_append, List.filterMap_map]
  congr 1
  exact congrFun (List.filterMap_eq_map (f := self.batchText)) (topPaths g)

theorem opens_top (g : Str) (r : Prog) :
    opens ((if isGcdaFile g then self.prepareBatch g else .skip).andThen r) = opens r := by
  unfold CoverageBatch.prepareBatch
  split
  · rw [Run.andThen_of_returned rfl]
    rfl
  · rfl

theorem traverse_tree {g : Str} (hd : d.Holds g t) (hf : t.listing.depth < fuel) :
    (self.traverseGcda (d.sys f) fuel g).ending = ((f.obstacles g).visitTree t).ending ∧
    printed (self.traverseGcda (d.sys f) fuel g) =
      (topPaths g ++ (found ((f.obstacles g).visitTree t)).map (pathOf g)).map self.batchText ∧
    opens (self.traverseGcda (d.sys f) fuel g) = (opened ((f.obstacles g).visitTree t)).map (pathOf g) := by
  rw [traverseGcda_tree self f hd hf, printed_top, opens_top, opens_map_render, printed_map_render, top_eq,
    Run.andThen_of_returned rfl, List.map_append, List.map_map]
  exact ⟨rfl, rfl, rfl⟩

theorem create_tree (hd : d.Holds self.gcdaFolder t) (hf : t.listing.depth < fuel) (ho : f.openOut = .none) :
    (self.create (d.sys f) fuel).ending = ((f.obstacles self.gcdaFolder).visitTree t).ending ∧
    printed (self.create (d.sys f) fuel) = self.headerText :: (topPaths self.gcdaFolder ++
      (found ((f.obstacles self.gcdaFolder).visitTree t)).map (pathOf self.gcdaFolder)).map self.batchText := by
  have ho' := (opens_iff self (d := d)).mpr ho
  obtain ⟨hend, hprinted, -⟩ := traverse_tree (f := f) self hd hf
  rw [create_ending ho', printed_create ho', hend, hprinted]
  exact ⟨rfl, rfl⟩

/-- Without failures, each entry with the name of a gcda file is handed over. -/
theorem create_tree_none (hd : d.Holds self.gcdaFolder t) (hf : t.listing.depth < fuel) :
    (self.create (d.sys .none) fuel).ending = .returned ∧
    printed (self.create (d.sys .none) fuel) = self.headerText :: (topPaths self.gcdaFolder ++
      t.gcdaEntries.map fun e => pathOf self.gcdaFolder e.path).map self.batchText := by
  obtain ⟨hend, hprinted⟩ := create_tree (f := .none) self hd hf rfl
  obtain ⟨hreturned, hfound, -⟩ := visitTree_none t
  rw [Faults.obstacles_none, hfound, List.map_map] at hprinted
  exact ⟨hend.trans hreturned, hprinted⟩

theorem map_batchText (paths : List Str) :
    paths.map self.batchText = (paths.map self.record).map record.write := by
  rw [List.map_map]
  exact List.map_congr_left fun p _ => batchText_eq self p

/-- In every run, what is printed is the header and then records. -/
theorem printed_create_eq {sys : Sys} (ho : sys.Opens self) (fuel : Nat) : ∃ paths : List Str,
    printed (self.create sys fuel) = header.write self.header :: (paths.map self.record).map record.write := by
  obtain ⟨paths, hpaths⟩ := printed_traverseGcda self sys fuel self.gcdaFolder
  refine ⟨paths, ?_⟩
  rw [printed_create ho, hpaths, headerText_eq, map_batchText]

theorem create_records (hd : d.Holds self.gcdaFolder t) (hf : t.listing.depth < fuel) :
    printed (self.create (d.sys .none) fuel) = header.write self.header :: ((topPaths self.gcdaFolder ++
      t.gcdaEntries.map fun e => pathOf self.gcdaFolder e.path).map self.record).map record.write := by
  obtain ⟨-, hprinted⟩ := create_tree_none self hd hf
  rw [hprinted, headerText_eq, map_batchText]

end Runs

/-! ### Nothing is lost or repeated -/

theorem Tree.gcdaEntries_nodup (t : Tree) : (t.gcdaEntries.map Entry.path).Nodup :=
  (Listing.paths_nodup t.distinct).sublist (List.filter_sublist.map _)

theorem Tree.gcdaPaths_nodup (t : Tree) (g : Str) : (t.gcdaEntries.map fun e => pathOf g e.path).Nodup := by
  have := t.gcdaEntries_nodup.map fun _ _ h => pathOf_injective (g := g) h
  rwa [List.map_map] at this

theorem Tree.dirs_nodup (t : Tree) : t.dirs.Nodup := by
  refine List.nodup_cons.mpr ⟨?_, (Listing.paths_nodup t.distinct).sublist (List.filter_sublist.map _)⟩
  intro h
  obtain ⟨e, -, he⟩ := List.mem_map.mp h
  simp [Entry.path] at he

theorem Tree.Same.gcdaEntries_perm {t t' : Tree} (h : t.Same t') : t.gcdaEntries.Perm t'.gcdaEntries := by
  have hn : ∀ u : Tree, u.gcdaEntries.Nodup := fun u => u.gcdaEntries_nodup.of_map
  refine (List.perm_ext_iff_of_nodup (hn t) (hn t')).mpr fun e => ?_
  simp only [Tree.gcdaEntries, List.mem_filter, h e]

/-- The records for entries below `gcdaFolder` name exactly the entries whose own name ends in `.gcda`, each
    once, and another order of the listings gives the same records in another order. -/
theorem records_complete (self : CoverageBatch) (d : Disk) (t : Tree) (fuel : Nat)
    (hd : d.Holds self.gcdaFolder t) (hf : t.listing.depth < fuel) :
    ∃ below : List Record,
      (self.create (d.sys .none) fuel).ending = .returned ∧
      printed (self.create (d.sys .none) fuel) =
        header.write self.header :: ((topPaths self.gcdaFolder).map self.record ++ below).map record.write ∧
      (below.map Record.gcda).Perm (t.gcdaEntries.map fun e => pathOf self.gcdaFolder e.path) ∧
      (below.map Record.gcda).Nodup ∧
      ∀ (d' : Disk) (t' : Tree) (fuel' : Nat), t.Same t' → d'.Holds self.gcdaFolder t' → t'.listing.depth < fuel' →
        ∃ below' : List Record,
          printed (self.create (d'.sys .none) fuel') =
            header.write self.header :: ((topPaths self.gcdaFolder).map self.record ++ below').map record.write ∧
          below'.Perm below := by
  have hgcda : ∀ ps : List Str, (ps.map self.record).map Record.gcda = ps := fun ps => by
    rw [List.map_map]
    exact List.map_id ps
  obtain ⟨hend, -⟩ := create_tree_none self hd hf
  have hprinted := create_records self hd hf
  rw [List.map_append] at hprinted
  refine ⟨_, hend, hprinted, ?_, ?_, fun d' t' fuel' hs hd' hf' => ?_⟩
  · rw [hgcda]
  · rw [hgcda]
    exact t.gcdaPaths_nodup _
  · have hprinted' := create_records self hd' hf'
    rw [List.map_append] at hprinted'
    exact ⟨_, hprinted', (hs.gcdaEntries_perm.symm.map _).map _⟩

def sampleTree : Tree where
  listing := .dots false (.file (.of "a.gcda") (.dir (.of "d.gcda") (.dots true (.file (.of "b.gcda") .nil)) .nil))
  distinct := by decide

def sampleBatch : CoverageBatch where
  gcdaFolder := lit "gcda/Application"
  gcnoFolder := lit "gcno/Application"
  testname := lit "testSimpleA"
  suitename := lit "suiteSimple1"
  teststart := lit "2014-10-14 14:07:21"
  output := lit "temp.batch"

theorem records_complete_sample : ∃ below : List Record,
    printed (sampleBatch.create ((mount sampleBatch.gcdaFolder sampleTree).sys .none) 3) =
      header.write sampleBatch.header ::
        ((topPaths sampleBatch.gcdaFolder).map sampleBatch.record ++ below).map record.write ∧
    (below.map Record.gcda).Perm [lit "gcda/Application/a.gcda", lit "gcda/Application/d.gcda",
      lit "gcda/Application/d.gcda/b.gcda"] := by
  obtain ⟨below, -, hprinted, hperm, -⟩ :=
    records_complete sampleBatch _ sampleTree 3 (mount_holds sampleBatch.gcdaFolder sampleTree) (by decide)
  exact ⟨below, hprinted, hperm.trans (by decide)⟩

/-! ### What is at the path of a record -/

/-- What is at a path: nothing, a file that is not a directory, or a directory with its tree. -/
inductive Root where
  | missing
  | file
  | dir (t : Tree)

/-- `r` is at the path `g`. The disk answers alike for a missing entry and for a file. -/
def Disk.HoldsRoot (d : Disk) (g : Str) : Root → Prop
  | .missing => d.isDir g = false
  | .file => d.isDir g = false
  | .dir t => d.Holds g t

def Root.depth : Root → Nat
  | .missing => 0
  | .file => 0
  | .dir t => t.listing.depth

def Root.FileAt (g p : Str) : Root → Prop
  | .missing => False
  | .file => p = g
  | .dir t => ∃ e ∈ t.listing.entries, e.isDir = false ∧ p = pathOf g e.path

/-- The path names a coverage data file: an entry at or below `g` that is not a directory and whose last
    component ends in `.gcda`. -/
def Root.Genuine (r : Root) (g p : Str) : Prop := r.FileAt g p ∧ lit ".gcda" <:+ lastComponent p

def Root.belowPaths (g : Str) : Root → List Str
  | .missing => []
  | .file => []
  | .dir t => t.gcdaEntries.map fun e => pathOf g e.path

section Root
variable (self : CoverageBatch) {d : Disk} {f : Faults} {r : Root} {fuel : Nat}

/-- A top folder that is no directory is left after its name has been looked at. -/
theorem printed_create_leaf (h : d.isDir self.gcdaFolder = false) (hf : 0 < fuel) (ho : f.openOut = .none) :
    printed (self.create (d.sys f) fuel) =
      header.write self.header :: ((topPaths self.gcdaFolder).map self.record).map record.write := by
  obtain ⟨fuel, rfl⟩ := Nat.exists_eq_add_of_le' hf
  rw [← headerText_eq, ← map_batchText, printed_create ((opens_iff self).mpr ho), CoverageBatch.traverseGcda,
    printed_top]
  simp [Disk.sys, h, printed]

theorem printed_create_root (hd : d.HoldsRoot self.gcdaFolder r) (hf : r.depth < fuel) :
    printed (self.create (d.sys .none) fuel) = header.write self.header ::
      ((topPaths self.gcdaFolder ++ r.belowPaths self.gcdaFolder).map self.record).map record.write := by
  cases r with
  | missing => rw [Root.belowPaths, List.append_nil, printed_create_leaf self hd hf rfl]
  | file => rw [Root.belowPaths, List.append_nil, printed_create_leaf self hd hf rfl]
  | dir t => exact create_records self hd hf

/-- Whatever fails, no other records are printed. -/
theorem printed_create_part (hd : d.HoldsRoot self.gcdaFolder r) (hf : r.depth < fuel) (ho : f.openOut = .none) :
    ∃ paths : List Str, paths.Sublist (topPaths self.gcdaFolder ++ r.belowPaths self.gcdaFolder) ∧
      printed (self.create (d.sys f) fuel) = header.write self.header :: (paths.map self.record).map record.write := by
  cases r with
  | missing => exact ⟨_, List.sublist_append_left _ _, printed_create_leaf self hd hf ho⟩
  | file => exact ⟨_, List.sublist_append_left _ _, printed_create_leaf self hd hf ho⟩
  | dir t =>
    have hfound := (found_visitTree_begins (f.obstacles self.gcdaFolder) t).sublist.trans
      (((f.obstacles self.gcdaFolder).visible_sublist t).map Entry.path)
    have hpaths := hfound.map (pathOf self.gcdaFolder)
    rw [List.map_map] at hpaths
    refine ⟨_, (List.Sublist.refl (topPaths self.gcdaFolder)).append hpaths, ?_⟩
    rw [(create_tree self hd hf ho).2, headerText_eq, map_batchText]

end Root

section Genuine
variable {g : Str} {t : Tree}

theorem isGcdaFile_eq_false : isGcdaFile g = false ↔ g ≠ lit "gcda" ∧ ¬ lit ".gcda" <:+ g := by
  rw [← Bool.not_eq_true, isGcdaFile_iff, not_or]

theorem mem_topPaths {self : CoverageBatch} {p : Str} :
    p ∈ topPaths self.gcdaFolder ↔ isGcdaFile self.gcdaFolder = true ∧ p = self.gcdaFolder := by
  unfold topPaths
  split <;> simp [*]

theorem Root.genuine_file : Root.file.Genuine g g ↔ lit ".gcda" <:+ g := by
  rw [Root.Genuine, suffix_lastComponent (by decide)]
  exact and_iff_right rfl

theorem Root.not_genuine_top : ¬ (Root.dir t).Genuine g g := by
  rintro ⟨⟨e, -, -, hp⟩, -⟩
  exact pathOf_entry_ne g e hp.symm

theorem Root.genuine_entry {e : Entry} (he : e ∈ t.listing.entries) (hg : e.name.isGcda = true) :
    (Root.dir t).Genuine g (pathOf g e.path) ↔ e.isDir = false := by
  constructor
  · rintro ⟨⟨e', he', hdir, hp⟩, -⟩
    rw [Listing.entry_eq_of_path t.distinct he he' (pathOf_injective hp)]
    exact hdir
  · intro hdir
    refine ⟨⟨e, he, hdir, rfl⟩, (suffix_lastComponent (by decide)).mpr ?_⟩
    exact (suffix_pathOf (by decide)).mpr (decide_eq_true_iff.mp hg)

end Genuine

/-- Every record of a run is genuine exactly when no directory below `gcdaFolder` has a name that ends in
    `.gcda`, `gcdaFolder` is not the bare text `gcda`, and it does not end in `.gcda` unless it is itself a
    file. Whatever fails, a run has no other records, so this is enough then as well. -/
theorem records_genuine_iff (self : CoverageBatch) (d : Disk) (r : Root) (fuel : Nat)
    (hd : d.HoldsRoot self.gcdaFolder r) (hf : r.depth < fuel) :
    ∃ recs : List Record,
      printed (self.create (d.sys .none) fuel) = header.write self.header :: recs.map record.write ∧
      ((∀ x ∈ recs, r.Genuine self.gcdaFolder x.gcda) ↔
        (∀ t, r = .dir t → ∀ e ∈ t.listing.entries, e.isDir = true → ¬ lit ".gcda" <:+ e.name.chars) ∧
          self.gcdaFolder ≠ lit "gcda" ∧ (r ≠ .file → ¬ lit ".gcda" <:+ self.gcdaFolder)) ∧
      ∀ f : Faults, f.openOut = .none → ∃ kept : List Record, kept.Sublist recs ∧
        printed (self.create (d.sys f) fuel) = header.write self.header :: kept.map record.write := by
  refine ⟨_, printed_create_root self hd hf, ?_, fun f ho => ?_⟩
  rotate_left
  · obtain ⟨paths, hpaths, hprinted⟩ := printed_create_part self hd hf ho
    exact ⟨_, hpaths.map self.record, hprinted⟩
  have hsplit : (∀ x ∈ (topPaths self.gcdaFolder ++ r.belowPaths self.gcdaFolder).map self.record,
        r.Genuine self.gcdaFolder x.gcda) ↔
      (isGcdaFile self.gcdaFolder = true → r.Genuine self.gcdaFolder self.gcdaFolder) ∧
        ∀ p ∈ r.belowPaths self.gcdaFolder, r.Genuine self.gcdaFolder p := by
    simp only [List.forall_mem_map, List.mem_append, or_imp, forall_and, mem_topPaths, and_imp, forall_eq_apply_imp_iff,
      CoverageBatch.record]
  rw [hsplit]
  cases r with
  | missing =>
    have hm : ¬ Root.missing.Genuine self.gcdaFolder self.gcdaFolder := fun h => h.1
    simpa [hm, Root.belowPaths] using isGcdaFile_eq_false
  | file =>
    have hbare : self.gcdaFolder = lit "gcda" → ¬ lit ".gcda" <:+ self.gcdaFolder := fun h => by
      rw [h]
      decide
    rw [Root.genuine_file, isGcdaFile_iff]
    simp only [Root.belowPaths, List.not_mem_nil, reduceCtorEq, ne_eq, not_true_eq_false, false_imp_iff,
      implies_true, and_true, true_and, or_imp]
    exact ⟨fun h hb => hbare hb (h.1 hb), fun h => ⟨fun hb => absurd hb h, id⟩⟩
  | dir t =>
    have hbelow : (∀ p ∈ (Root.dir t).belowPaths self.gcdaFolder, (Root.dir t).Genuine self.gcdaFolder p) ↔
        ∀ e ∈ t.listing.entries, e.isDir = true → ¬ lit ".gcda" <:+ e.name.chars := by
      rw [Root.belowPaths, List.forall_mem_map]
      constructor
      · intro h e he hdir hg
        have hg' : e.name.isGcda = true := decide_eq_true_iff.mpr hg
        have := (Root.genuine_entry he hg').mp (h e (List.mem_filter.mpr ⟨he, hg'⟩))
        rw [hdir] at this
        cases this
      · intro h e he
        obtain ⟨he, hg⟩ := List.mem_filter.mp he
        refine (Root.genuine_entry he hg).mpr (Bool.eq_false_iff.mpr fun hdir => h e he hdir ?_)
        exact decide_eq_true_iff.mp hg
    rw [hbelow, and_comm]
    simp [Root.not_genuine_top, isGcdaFile_eq_false]

def plainTree : Tree where
  listing := .file (.of "a.gcda") (.dir (.of "d") (.dots true (.file (.of "b.gcda") .nil)) (.dots false .nil))
  distinct := by decide

theorem records_genuine_sample : ∃ recs : List Record,
    printed (sampleBatch.create ((mount sampleBatch.gcdaFolder plainTree).sys .none) 3) =
      header.write sampleBatch.header :: recs.map record.write ∧
    ∀ x ∈ recs, (Root.dir plainTree).Genuine sampleBatch.gcdaFolder x.gcda := by
  obtain ⟨recs, hprinted, hiff, -⟩ := records_genuine_iff sampleBatch (mount sampleBatch.gcdaFolder plainTree)
    (.dir plainTree) 3 (mount_holds _ _) (by decide)
  refine ⟨recs, hprinted, hiff.mpr ⟨fun t ht => ?_, by decide, fun _ => by decide⟩⟩
  obtain rfl := Root.dir.inj ht
  decide

/-- A directory with the name of a gcda file is reported. -/
theorem directory_reported : ∃ recs : List Record,
    printed (sampleBatch.create ((mount sampleBatch.gcdaFolder sampleTree).sys .none) 3) =
      header.write sampleBatch.header :: recs.map record.write ∧
    sampleBatch.record (lit "gcda/Application/d.gcda") ∈ recs ∧
    ¬ (Root.dir sampleTree).Genuine sampleBatch.gcdaFolder (lit "gcda/Application/d.gcda") := by
  have hd : (mount sampleBatch.gcdaFolder sampleTree).HoldsRoot sampleBatch.gcdaFolder (.dir sampleTree) :=
    mount_holds _ _
  have he : ⟨[], .of "d.gcda", true⟩ ∈ sampleTree.listing.entries := by decide
  refine ⟨_, printed_create_root sampleBatch hd (by decide), ?_, fun hg => ?_⟩
  · exact List.mem_map_of_mem (by decide)
  · have hdir := (Root.genuine_entry (g := sampleBatch.gcdaFolder) he (by decide)).mp hg
    cases hdir

end CoverityTool
