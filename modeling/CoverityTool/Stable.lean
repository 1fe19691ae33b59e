import CoverityTool.Reads

/-! What stays while other things change: a directory tree whose files are not made, moved or removed during a run. -/

namespace CoverityTool
open Perl Runs Dialogues

/-- The tree stays at the path: its directories are there and can be examined, and a directory is not read to its end
    before it has given the names of all its entries in the tree. -/
structure Env.Keeps (env : Env) (g : Str) (t : Tree) : Prop where
  isDir : ∀ {past}, env.Possible past → ∀ ns ∈ t.dirs, env.isDir past (pathOf g ns) = true
  names : ∀ {past}, env.Possible past → ∀ e ∈ t.listing.entries, env.readdir past (pathOf g e.folder) = none →
    .readdir (pathOf g e.folder) (some e.name.chars) ∈ past

theorem keeps_of_reads {env : Env} {g : Str} {t : Tree} {names : Str → List Event → List Str}
    (hdirs : ∀ past, ∀ ns ∈ t.dirs, env.isDir past (pathOf g ns) = true) (hreads : ∀ path, env.Reads path (names path))
    (hnames : ∀ past, ∀ e ∈ t.listing.entries, e.name.chars ∈ names (pathOf g e.folder) past) : env.Keeps g t where
  isDir _ ns hns := hdirs _ ns hns
  names hpast e he hend := (hreads _).complete hpast hend (hnames _ e he)

/-! ### Each entry once -/

/-- The folder of an entry is the tree's own or another of its directories. -/
theorem Tree.folder_mem_dirs {t : Tree} {e : Entry} (he : e ∈ t.listing.entries) : e.folder ∈ t.dirs := by
  have hfolder : ∀ {l : Listing} {e : Entry}, e ∈ l.entries →
      e.folder = [] ∨ ∃ d ∈ l.entries, d.isDir = true ∧ d.path = e.folder := by
    intro l
    induction l with
    | nil => intro e he; cases he
    | dots up rest ih => exact ih
    | file n rest ih =>
      intro e he
      rcases List.mem_cons.mp he with rfl | he
      · exact Or.inl rfl
      · exact (ih he).imp_right fun ⟨d, hd, hdir⟩ => ⟨d, List.mem_cons_of_mem _ hd, hdir⟩
    | dir n sub rest ihs ihr =>
      intro e he
      rcases List.mem_cons.mp he with rfl | he
      · exact Or.inl rfl
      · rcases List.mem_append.mp he with he | he
        · obtain ⟨e', he', rfl⟩ := List.mem_map.mp he
          refine Or.inr ?_
          rcases ihs he' with hnil | ⟨d, hd, hdir, hpath⟩
          · exact ⟨⟨[], n, true⟩, List.mem_cons_self, rfl, by simp [Entry.path, hnil]⟩
          · exact ⟨d.under n, List.mem_cons_of_mem _ (List.mem_append_left _ (List.mem_map_of_mem hd)), hdir,
              congrArg (n :: ·) hpath⟩
        · exact (ihr he).imp_right fun ⟨d, hd, hdir⟩ => ⟨d, List.mem_cons_of_mem _ (List.mem_append_right _ hd), hdir⟩
  rcases hfolder he with hnil | ⟨d, hd, hdir, hpath⟩
  · exact hnil ▸ List.mem_cons_self
  · exact List.mem_cons_of_mem _ (List.mem_map.mpr ⟨d, List.mem_filter.mpr ⟨hd, hdir⟩, hpath⟩)

section Stable
variable {self : CoverageBatch} {env : Env} {g : Str} {t : Tree} {start es : List Event} {e : Entry}

/-- What is asked of a directory that stays is answered with yes. -/
theorem Env.Keeps.isDir_mem (hk : env.Keeps g t) (hpossible : env.Possible (start ++ es)) {ns : List Name}
    (hns : ns ∈ t.dirs) {answer : Bool} (h : .isDir (pathOf g ns) answer ∈ es) : .isDir (pathOf g ns) true ∈ es := by
  obtain ⟨before, -, -, hpast, hanswer⟩ := hpossible.of_mem h
  have htrue : answer = true := Eq.trans hanswer (hk.isDir hpast ns hns)
  exact htrue ▸ h

/-- A directory that is entered gives the names of its entries, and each is asked about. -/
theorem Env.Keeps.asked (hk : env.Keeps g t) (hstart : ∀ path name, .readdir path name ∉ start)
    (hpossible : env.Possible (start ++ es)) (hthorough : Thorough self es) (he : e ∈ t.listing.entries)
    (hfolder : .isDir (pathOf g e.folder) true ∈ es) : ∃ answer, .isDir (pathOf g e.path) answer ∈ es := by
  obtain ⟨before, after, rfl, hpast, hend⟩ := hpossible.of_mem (hthorough.ended (hthorough.opened hfolder))
  have hname : .readdir (pathOf g e.folder) (some e.name.chars) ∈ before :=
    (List.mem_append.mp (hk.names hpast e he hend.symm)).resolve_left (hstart _ _)
  have hdots : ¬(e.name.chars = lit "." ∨ e.name.chars = lit "..") := not_or.mpr ⟨e.name.ne_dot, e.name.ne_dotdot⟩
  rw [Entry.path, pathOf_concat]
  exact hthorough.entered (List.mem_append_left _ hname) hdots

/-- By induction on how deep it is, each directory of the tree is entered. -/
theorem Env.Keeps.entered (hk : env.Keeps g t) (hstart : ∀ path name, .readdir path name ∉ start)
    (hpossible : env.Possible (start ++ es)) (hthorough : Thorough self es)
    (htop : ∃ answer, .isDir g answer ∈ es) (ns : List Name) (hns : ns ∈ t.dirs) :
    .isDir (pathOf g ns) true ∈ es := by
  induction ns using List.reverseRecOn with
  | nil =>
    obtain ⟨answer, htop⟩ := htop
    exact hk.isDir_mem hpossible hns ((pathOf_nil g).symm ▸ htop)
  | append_singleton ms n ih =>
    obtain ⟨e, he, hpath⟩ := List.mem_map.mp (List.mem_cons.mp hns |>.resolve_left (by simp))
    have hentry := (List.mem_filter.mp he).1
    obtain ⟨rfl, -⟩ := List.append_inj' hpath rfl
    obtain ⟨answer, ha⟩ := hk.asked hstart hpossible hthorough hentry (ih (Tree.folder_mem_dirs hentry))
    rw [hpath] at ha
    exact hk.isDir_mem hpossible hns ha

end Stable

/-- Whatever else changes, a run that returns has recorded each gcda entry of a tree that stays, and exactly once. -/
theorem stable_recorded (self : CoverageBatch) (env : Env) (t : Tree) (fuel : Nat) (ho : env.Opens self)
    (hproper : env.Proper) (hkeeps : env.Keeps self.gcdaFolder t)
    (hr : (self.createIn env fuel []).ending = .returned) :
    ∀ e ∈ t.gcdaEntries, (texts (self.createIn env fuel [])).count
      (record.write (self.record (pathOf self.gcdaFolder e.path))) = 1 := by
  obtain ⟨r, tail, hgoes, htail, hend, hcalls, hpossible⟩ := createIn_cases ho fuel
  obtain ⟨hthorough, htop⟩ := hgoes.thorough (hend ▸ hr)
  obtain ⟨hstart, hrest⟩ := allowed_append.mp hpossible
  obtain ⟨hnodup, -⟩ := hgoes.once hproper hstart hrest
  have hnoread : ∀ path name, .readdir path name ∉ self.start := by simp [CoverageBatch.start]
  intro e he
  obtain ⟨hentry, hgcda⟩ := List.mem_filter.mp he
  obtain ⟨answer, ha⟩ := hkeeps.asked hnoread hpossible hthorough hentry
    (hkeeps.entered hnoread hpossible hthorough htop _ (Tree.folder_mem_dirs hentry))
  have hfile : isGcdaFile (pathOf self.gcdaFolder e.path) = true := (isGcdaFile_pathOf _ _ _).trans hgcda
  rw [texts_createIn hgoes htail hcalls, ← batchText_eq]
  refine List.count_eq_one_of_mem (texts_nodup (hnodup.filter _)) (List.mem_cons_of_mem _ ?_)
  exact List.mem_map_of_mem (List.mem_filter.mpr ⟨mem_asked.mpr ⟨answer, ha⟩, hfile⟩)

/-! ### A disk that others write to -/

/-- The disk at each moment, given what has happened: other programs change it between the calls. A directory gives
    the names that it had when it was opened. -/
def Disk.env (disk : List Event → Disk) : Env where
  openOut _ _ := .ok ()
  isDir past path := (disk past).isDir path
  opendir past path := (disk past).isDir path
  readdir past path := ((disk (opening path past)).names path)[(reads path past).length]?

section Disk
variable {disk : List Event → Disk} {g : Str} {t : Tree}

theorem env_reads (path : Str) : (Disk.env disk).Reads path fun past => (disk past).names path := fun _ => rfl

theorem env_proper (hnodup : ∀ path past, ((disk past).names path).Nodup)
    (hslash : ∀ path past, ∀ sub ∈ (disk past).names path, slash ∉ sub) : (Disk.env disk).Proper :=
  proper_of_reads env_reads hnodup hslash

theorem env_keeps (hdirs : ∀ past, ∀ ns ∈ t.dirs, (disk past).isDir (pathOf g ns) = true)
    (hnames : ∀ past, ∀ e ∈ t.listing.entries, e.name.chars ∈ (disk past).names (pathOf g e.folder)) :
    (Disk.env disk).Keeps g t :=
  keeps_of_reads hdirs env_reads hnames

end Disk

/-- The tree of the sample, and beside it a directory `tmp` that comes and goes. -/
def busyDisk (past : List Event) : Disk where
  isDir path := path = lit "gcda/Application" || path = lit "gcda/Application/d" ||
    path = lit "gcda/Application/tmp" && past.length < 8
  names path :=
    if path = lit "gcda/Application" then
      if past.length < 8 then [lit "a.gcda", lit "tmp", lit "d"] else [lit "a.gcda", lit "d"]
    else if path = lit "gcda/Application/d" then [lit "..", lit "b.gcda"]
    else []

theorem stable_recorded_sample : (sampleBatch.createIn (Disk.env busyDisk) 12 []).ending = .returned ∧
    ∀ e ∈ plainTree.gcdaEntries, (texts (sampleBatch.createIn (Disk.env busyDisk) 12 [])).count
      (record.write (sampleBatch.record (pathOf sampleBatch.gcdaFolder e.path))) = 1 := by
  have hr : (sampleBatch.createIn (Disk.env busyDisk) 12 []).ending = .returned := by decide
  have hproper : (Disk.env busyDisk).Proper := by
    refine env_proper (fun path past => ?_) fun path past => ?_
    all_goals
      simp only [busyDisk]
      split
      · split <;> decide
      · split <;> decide
  have hkeeps : (Disk.env busyDisk).Keeps sampleBatch.gcdaFolder plainTree := by
    refine env_keeps (fun past ns hns => ?_) fun past e he => ?_
    · have hdir : ∀ ns ∈ plainTree.dirs, pathOf sampleBatch.gcdaFolder ns = lit "gcda/Application" ∨
        pathOf sampleBatch.gcdaFolder ns = lit "gcda/Application/d" := by decide
      rcases hdir ns hns with hpath | hpath <;> simp [busyDisk, hpath]
    · have hentry : ∀ e ∈ plainTree.listing.entries, pathOf sampleBatch.gcdaFolder e.folder = lit "gcda/Application" ∧
          (e.name.chars = lit "a.gcda" ∨ e.name.chars = lit "d") ∨
          pathOf sampleBatch.gcdaFolder e.folder = lit "gcda/Application/d" ∧ e.name.chars = lit "b.gcda" := by decide
      have hne : lit "gcda/Application/d" ≠ lit "gcda/Application" := by decide
      rcases hentry e he with ⟨hpath, hname | hname⟩ | ⟨hpath, hname⟩
      · simp only [busyDisk, hpath, hname, ↓reduceIte]
        split <;> decide
      · simp only [busyDisk, hpath, hname, ↓reduceIte]
        split <;> decide
      · simp only [busyDisk, hpath, hname, hne, ↓reduceIte]
        decide
  exact ⟨hr, stable_recorded sampleBatch _ plainTree 12 rfl hproper hkeeps hr⟩

end CoverityTool
