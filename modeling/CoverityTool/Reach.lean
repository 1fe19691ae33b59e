import CoverityTool.Failures
import CoverityTool.Walk

/-! What a run comes to in any system. The traversal visits each path that it reaches, as long as it returns; and it
    returns when it reaches only so deep and every directory on its way can be opened. -/

namespace CoverityTool
open Perl Runs

/-- The path that a find is about. -/
def Find.path : Find → Str
  | .handed path => path
  | .opened path => path

/-- What is found has been reached; what is handed over is a gcda path, and what is opened a directory. -/
def Find.Right (sys : Sys) (folder : Str) (find : Find) : Prop :=
  (∃ n, sys.Reaches folder n find.path) ∧ match find with
    | .handed path => isGcdaFile path = true
    | .opened path => sys.isDir path = true

section Reach
variable {sys : Sys} {folder path sub : Str} {subs : List Str} {fuel n : Nat}

/-! ### When a walk returns -/

def Sys.Depth (sys : Sys) (folder : Str) (depth : Nat) : Prop := ∀ n path, sys.Reaches folder n path → n ≤ depth

/-- Every directory that is reached can be opened. -/
def Sys.Open (sys : Sys) (folder : Str) : Prop :=
  ∀ n path, sys.Reaches folder n path → sys.isDir path = true → (sys.opendir path).isSome

theorem walk_of_other (h : sys.isDir folder = false) : (walk sys (fuel + 1) folder).ending = .returned := by
  rw [walk, h]
  split <;> rfl

theorem walk_refused (hdir : sys.isDir folder = true) (hopen : sys.opendir folder = none) :
    (walk sys (fuel + 1) folder).ending = .died (lit "Died") := by
  rw [walk, hdir, hopen]
  split <;> rfl

/-- A folder returns if its entries do. -/
theorem walk_returned_of_subs (hopen : sys.isDir folder = true → (sys.opendir folder).isSome)
    (hsubs : ∀ subs, sys.isDir folder = true → sys.opendir folder = some subs → ∀ sub ∈ subs,
      ¬(sub = lit "." ∨ sub = lit "..") → (walk sys fuel (folder ++ lit "/" ++ sub)).ending = .returned) :
    (walk sys (fuel + 1) folder).ending = .returned := by
  cases hdir : sys.isDir folder with
  | false => exact walk_of_other hdir
  | true =>
    obtain ⟨subs, ho⟩ := Option.isSome_iff_exists.mp (hopen hdir)
    have htop : (if isGcdaFile folder then Run.call (.handed folder) else .skip : Run Str Find).ending = .returned := by
      split <;> rfl
    rw [walk_of_dir hdir ho, Run.andThen_of_returned htop, Run.andThen_of_returned rfl]
    refine Run.each_returned fun sub hsub => ?_
    by_cases hdots : sub = lit "." ∨ sub = lit ".."
    · rw [if_pos hdots]
      rfl
    · rw [if_neg hdots]
      exact hsubs subs hdir ho sub hsub hdots

theorem walk_depth {depth : Nat} (hdepth : sys.Depth folder depth) (hopen : sys.Open folder) :
    (walk sys (depth + 1) folder).ending = .returned := by
  induction depth generalizing folder with
  | zero =>
    refine walk_returned_of_subs (hopen 0 folder .here) fun subs hdir ho sub hsub hdots => ?_
    have hle := hdepth 1 _ (.sub .here hdir ho hsub hdots)
    omega
  | succ depth ih =>
    refine walk_returned_of_subs (hopen 0 folder .here) fun subs hdir ho sub hsub hdots => ih ?_ ?_
    · exact fun n path h => Nat.le_of_succ_le_succ (hdepth _ path (h.under hdir ho hsub hdots))
    · exact fun n path h => hopen _ path (h.under hdir ho hsub hdots)

theorem open_of_returned (hr : (walk sys fuel folder).ending = .returned) : sys.Open folder := by
  intro n path h hdir
  obtain ⟨left, -, hend, -⟩ := walk_reached h hr
  cases left with
  | zero => cases hend
  | succ left =>
    cases ho : sys.opendir path with
    | none =>
      rw [walk_refused hdir ho] at hend
      cases hend
    | some subs => rfl

/-! ### What a walk finds -/

theorem Find.Right.under {find : Find} (h : find.Right sys (folder ++ lit "/" ++ sub)) (hdir : sys.isDir folder = true)
    (hopen : sys.opendir folder = some subs) (hsub : sub ∈ subs) (hdots : ¬(sub = lit "." ∨ sub = lit "..")) :
    find.Right sys folder := by
  obtain ⟨⟨n, hn⟩, hfind⟩ := h
  exact ⟨⟨n + 1, hn.under hdir hopen hsub hdots⟩, hfind⟩

theorem walk_right (fuel : Nat) (folder : Str) : ∀ find ∈ (walk sys fuel folder).calls, find.Right sys folder := by
  induction fuel generalizing folder with
  | zero => simp [walk, Run.unfinished]
  | succ fuel ih =>
    have htop : ∀ find ∈ (if isGcdaFile folder then Run.call (.handed folder) else .skip : Run Str Find).calls,
        find.Right sys folder := by
      intro find hfind
      split at hfind
      · next hgcda =>
        obtain rfl := List.mem_singleton.mp hfind
        exact ⟨⟨0, .here⟩, hgcda⟩
      · cases hfind
    cases hdir : sys.isDir folder with
    | false =>
      rw [walk, hdir]
      exact Run.forall_calls_andThen htop (by simp)
    | true =>
      cases ho : sys.opendir folder with
      | none =>
        rw [walk, hdir, ho]
        exact Run.forall_calls_andThen htop (by simp)
      | some subs =>
        rw [walk_of_dir hdir ho]
        refine Run.forall_calls_andThen htop (Run.forall_calls_andThen ?_ (Run.forall_calls_each fun sub hsub => ?_))
        · intro find hfind
          obtain rfl := List.mem_singleton.mp hfind
          exact ⟨⟨0, .here⟩, hdir⟩
        · split
          · simp
          · next hdots => exact fun find hfind => (ih _ find hfind).under hdir ho hsub hdots

/-- A walk that returns finds what there is to find. -/
theorem walk_finds (hr : (walk sys fuel folder).ending = .returned) (h : sys.Reaches folder n path) :
    (isGcdaFile path = true → .handed path ∈ (walk sys fuel folder).calls) ∧
      (sys.isDir path = true → .opened path ∈ (walk sys fuel folder).calls) := by
  obtain ⟨left, -, hend, hpiece⟩ := walk_reached h hr
  cases left with
  | zero => cases hend
  | succ left =>
    refine ⟨fun hgcda => hpiece.subset ?_, fun hdir => hpiece.subset ?_⟩
    · rw [walk, if_pos hgcda]
      exact Run.mem_calls_andThen.mpr (Or.inl (List.mem_singleton.mpr rfl))
    · obtain ⟨subs, ho⟩ := Option.isSome_iff_exists.mp (open_of_returned hr n path h hdir)
      have htop : (if isGcdaFile path then Run.call (.handed path) else .skip : Run Str Find).ending = .returned := by
        split <;> rfl
      rw [walk_of_dir hdir ho]
      exact Run.mem_calls_andThen.mpr (Or.inr ⟨htop, Run.mem_calls_andThen.mpr (Or.inl (List.mem_singleton.mpr rfl))⟩)

theorem mem_handed_iff {r : Run Str Find} : path ∈ handed r ↔ .handed path ∈ r.calls := by
  constructor
  · intro h
    obtain ⟨find, hfind, hpath⟩ := List.mem_filterMap.mp h
    cases find <;> simp [Find.handed?] at hpath
    exact hpath ▸ hfind
  · exact fun h => List.mem_filterMap.mpr ⟨_, h, rfl⟩

theorem handed_iff (hr : (walk sys fuel folder).ending = .returned) :
    .handed path ∈ (walk sys fuel folder).calls ↔ isGcdaFile path = true ∧ ∃ n, sys.Reaches folder n path := by
  constructor
  · intro h
    obtain ⟨hreach, hgcda⟩ := walk_right fuel folder _ h
    exact ⟨hgcda, hreach⟩
  · rintro ⟨hgcda, n, hreach⟩
    exact (walk_finds hr hreach).1 hgcda

theorem opened_iff (hr : (walk sys fuel folder).ending = .returned) :
    .opened path ∈ (walk sys fuel folder).calls ↔ sys.isDir path = true ∧ ∃ n, sys.Reaches folder n path := by
  constructor
  · intro h
    obtain ⟨hreach, hdir⟩ := walk_right fuel folder _ h
    exact ⟨hdir, hreach⟩
  · rintro ⟨hdir, n, hreach⟩
    exact (walk_finds hr hreach).2 hdir

end Reach

section Create
variable {self : CoverageBatch} {sys : Sys} {fuel : Nat}

theorem create_returned_iff_walk (ho : sys.Opens self) : (self.create sys fuel).ending = .returned ↔
    (walk sys fuel self.gcdaFolder).ending = .returned := by
  rw [create_ending_eq_walk ho]

theorem mem_opens_create (ho : sys.Opens self) {path : Str} :
    path ∈ opens (self.create sys fuel) ↔ .opened path ∈ (walk sys fuel self.gcdaFolder).calls := by
  have hcreate : opens (self.create sys fuel) = opens (self.traverseGcda sys fuel self.gcdaFolder) := opens_createWith ho
  have hopens : path ∈ opens (self.traverseGcda sys fuel self.gcdaFolder) ↔
      .opendir path ∈ (self.traverseGcda sys fuel self.gcdaFolder).calls := by
    constructor
    · intro h
      obtain ⟨c, hc, hpath⟩ := List.mem_filterMap.mp h
      cases c <;> simp [Call.folder?] at hpath
      exact hpath ▸ hc
    · exact fun h => List.mem_filterMap.mpr ⟨_, h, rfl⟩
  have hwalk : .opendir path ∈ (self.traverseGcda sys fuel self.gcdaFolder).calls ↔
      .opened path ∈ (walk sys fuel self.gcdaFolder).calls := by
    rw [traverseGcda_eq_walk, Run.map_calls, List.mem_map]
    constructor
    · rintro ⟨find, hfind, heq⟩
      cases find <;> simp [CoverageBatch.perform] at heq
      exact heq ▸ hfind
    · exact fun h => ⟨_, h, rfl⟩
  rw [hcreate, hopens, hwalk]

theorem mem_printed_create (ho : sys.Opens self) {path : Str} : record.write (self.record path) ∈
    printed (self.create sys fuel) ↔ .handed path ∈ (walk sys fuel self.gcdaFolder).calls := by
  rw [← mem_handed_iff, printed_create ho, printed_eq_handed, ← batchText_eq, List.mem_cons,
    List.mem_map_of_injective (batchText_injective self)]
  refine or_iff_right fun h => ?_
  exact not_begins (batchText_head path) headerText_head (by decide) (by rw [h])

end Create

/-- In every system: enough fuel makes the run return exactly when it reaches only so deep, and every directory that
    it reaches can be opened. -/
theorem create_returns_iff (self : CoverageBatch) (sys : Sys) (ho : sys.Opens self) :
    (∃ fuel, (self.create sys fuel).ending = .returned) ↔
      (∃ depth, ∀ n path, sys.Reaches self.gcdaFolder n path → n ≤ depth) ∧
      ∀ n path, sys.Reaches self.gcdaFolder n path → sys.isDir path = true → (sys.opendir path).isSome := by
  simp only [create_returned_iff_walk ho]
  constructor
  · rintro ⟨fuel, hr⟩
    refine ⟨⟨fuel, fun n path h => ?_⟩, open_of_returned hr⟩
    obtain ⟨left, hfuel, -⟩ := walk_reached h hr
    omega
  · rintro ⟨⟨depth, hdepth⟩, hopen⟩
    exact ⟨depth + 1, walk_depth hdepth hopen⟩

theorem create_returns_sample : ∃ depth, ∀ n path, sampleSys.Reaches sampleBatch.gcdaFolder n path → n ≤ depth :=
  ((create_returns_iff sampleBatch sampleSys rfl).mp ⟨3, by decide⟩).1

/-- In every system: a run that returns has records for the gcda paths that it reaches and for no others, and has
    opened the directories that it reaches and no others. -/
theorem reached_recorded (self : CoverageBatch) (sys : Sys) (fuel : Nat)
    (hr : (self.create sys fuel).ending = .returned) (path : Str) :
    (record.write (self.record path) ∈ printed (self.create sys fuel) ↔
      isGcdaFile path = true ∧ ∃ n, sys.Reaches self.gcdaFolder n path) ∧
    (path ∈ opens (self.create sys fuel) ↔ sys.isDir path = true ∧ ∃ n, sys.Reaches self.gcdaFolder n path) := by
  have ho := opens_of_returned hr
  have hwalk := (create_returned_iff_walk ho).mp hr
  exact ⟨(mem_printed_create ho).trans (handed_iff hwalk), (mem_opens_create ho).trans (opened_iff hwalk)⟩

theorem reached_recorded_sample : (sampleBatch.create sampleSys 3).ending = .returned ∧
    lit "gcda/Application/d" ∈ opens (sampleBatch.create sampleSys 3) := by
  have hr : (sampleBatch.create sampleSys 3).ending = .returned := by decide
  obtain ⟨-, hopened⟩ := reached_recorded sampleBatch sampleSys 3 hr (lit "gcda/Application/d")
  exact ⟨hr, hopened.mpr ⟨by decide, 1, sampleSys_reaches⟩⟩

end CoverityTool
