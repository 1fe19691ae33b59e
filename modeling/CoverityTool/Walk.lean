import CoverityTool.Traversal

/-! The traversal without its texts: which paths are handed to `prepare_batch` and which folders are opened, in a
    system that answers anything. Of the configuration, only the starting folder is asked for, and of the system, only
    what it answers there and below. -/

namespace CoverityTool
open Perl Runs

inductive Find where
  | handed (path : Str)
  | opened (folder : Str)
  deriving DecidableEq, Repr

def walk (sys : Sys) : Nat → Str → Run Str Find
  | 0, _ => .unfinished
  | fuel + 1, folder =>
    (if isGcdaFile folder then Run.call (.handed folder) else .skip : Run Str Find).andThen <|
      if !sys.isDir folder then .skip
      else
        match sys.opendir folder with
        | none => .die (lit "Died")
        | some subs => (Run.call (.opened folder)).andThen <| Run.each (fun sub =>
            if sub = lit "." ∨ sub = lit ".." then .skip else walk sys fuel (folder ++ lit "/" ++ sub)) subs

/-- What the program does about a find. -/
def CoverageBatch.perform (self : CoverageBatch) : Find → Call
  | .handed path => .print (self.batchText path)
  | .opened folder => .opendir folder

def Find.handed? : Find → Option Str
  | .handed path => some path
  | .opened _ => none

def handed (r : Run Str Find) : List Str := r.calls.filterMap Find.handed?

section Walk
variable (self : CoverageBatch) (sys : Sys)

/-- `traverse_gcda` performs the walk. -/
theorem traverseGcda_eq_walk (fuel : Nat) (folder : Str) :
    self.traverseGcda sys fuel folder = (walk sys fuel folder).map self.perform := by
  induction fuel generalizing folder with
  | zero => rfl
  | succ fuel ih =>
    have htop : (if isGcdaFile folder then self.prepareBatch folder else .skip) =
        (if isGcdaFile folder then Run.call (.handed folder) else .skip : Run Str Find).map self.perform := by
      split <;> rfl
    rw [CoverageBatch.traverseGcda, walk, Run.map_andThen, htop]
    cases sys.isDir folder with
    | false => rfl
    | true =>
      simp only [Bool.not_true, Bool.false_eq_true, if_false, readdirLoop]
      cases sys.opendir folder with
      | none => rfl
      | some subs =>
        simp only [Run.map_andThen, Run.map_each, Run.map_call]
        -- Each body of the loop performs the walk below, by the induction on the fuel.
        refine congrArg (fun body => Run.andThen _ (Run.andThen _ (Run.each body subs))) (funext fun sub => ?_)
        split
        · rfl
        · exact ih _

theorem printed_eq_handed (fuel : Nat) (folder : Str) :
    printed (self.traverseGcda sys fuel folder) = (handed (walk sys fuel folder)).map self.batchText := by
  rw [traverseGcda_eq_walk, printed, handed, Run.map_calls, List.filterMap_map, List.map_filterMap]
  refine congrArg (List.filterMap · _) (funext fun find => ?_)
  cases find <;> rfl

variable {self sys}

theorem create_ending_eq_walk (ho : sys.Opens self) (fuel : Nat) :
    (self.create sys fuel).ending = (walk sys fuel self.gcdaFolder).ending := by
  rw [create_ending ho, traverseGcda_eq_walk, Run.map_ending]

theorem printed_handed (ho : sys.Opens self) (fuel : Nat) : printed (self.create sys fuel) =
    header.write self.header :: ((handed (walk sys fuel self.gcdaFolder)).map self.record).map record.write := by
  rw [printed_create ho, printed_eq_handed, headerText_eq, map_batchText]

end Walk

/-! ### What the system decides -/

/-- The path is `path` or lies below it. -/
def Below (path q : Str) : Prop := q = path ∨ path ++ lit "/" <+: q

/-- The two systems answer alike at the folder and below it. -/
def Sys.Alike (folder : Str) (sys sys' : Sys) : Prop :=
  ∀ path, Below folder path → sys.isDir path = sys'.isDir path ∧ sys.opendir path = sys'.opendir path

section Alike
variable {self : CoverageBatch} {sys sys' : Sys} {folder : Str}

theorem Below.of_sub {path sub q : Str} (h : Below (path ++ lit "/" ++ sub) q) : path ++ lit "/" <+: q := by
  rcases h with rfl | h
  · exact List.prefix_append _ _
  · exact ((List.prefix_append _ _).trans (List.prefix_append _ _)).trans h

theorem Sys.Alike.under {sub : Str} (h : Sys.Alike folder sys sys') : Sys.Alike (folder ++ lit "/" ++ sub) sys sys' :=
  fun path hpath => h path (Or.inr hpath.of_sub)

/-- A traversal asks about nothing but its folder and what is below. -/
theorem traverseGcda_congr (h : Sys.Alike folder sys sys') (fuel : Nat) :
    self.traverseGcda sys fuel folder = self.traverseGcda sys' fuel folder := by
  induction fuel generalizing folder with
  | zero => rfl
  | succ fuel ih =>
    obtain ⟨hdir, hopen⟩ := h folder (Or.inl rfl)
    have hbody : (fun sub => self.traverseGcda sys fuel (folder ++ lit "/" ++ sub)) =
        fun sub => self.traverseGcda sys' fuel (folder ++ lit "/" ++ sub) := funext fun sub => ih h.under
    rw [CoverageBatch.traverseGcda, CoverageBatch.traverseGcda, hdir, hbody, readdirLoop, readdirLoop, hopen]

end Alike

/-! ### Folders below -/

/-- The traversal of `folder` comes to the path by that many names, through directories that list them. -/
inductive Sys.Reaches (sys : Sys) (folder : Str) : Nat → Str → Prop where
  | here : Reaches sys folder 0 folder
  | sub {n : Nat} {path : Str} {subs : List Str} {sub : Str} (h : Reaches sys folder n path)
    (hdir : sys.isDir path = true) (hopen : sys.opendir path = some subs) (hsub : sub ∈ subs)
    (hdots : ¬(sub = lit "." ∨ sub = lit "..")) : Reaches sys folder (n + 1) (path ++ lit "/" ++ sub)

section Folders
variable {sys : Sys} {folder path sub : Str} {subs : List Str} {fuel n : Nat}

/-- What is reached from an entry is reached from its directory. -/
theorem Sys.Reaches.under (hdir : sys.isDir folder = true) (hopen : sys.opendir folder = some subs) (hsub : sub ∈ subs)
    (hdots : ¬(sub = lit "." ∨ sub = lit "..")) (h : sys.Reaches (folder ++ lit "/" ++ sub) n path) :
    sys.Reaches folder (n + 1) path := by
  induction h with
  | here => exact .sub .here hdir hopen hsub hdots
  | sub _ hdir' hopen' hsub' hdots' ih => exact .sub ih hdir' hopen' hsub' hdots'

theorem walk_of_dir (hdir : sys.isDir folder = true) (hopen : sys.opendir folder = some subs) :
    walk sys (fuel + 1) folder =
      (if isGcdaFile folder then Run.call (.handed folder) else .skip : Run Str Find).andThen
        ((Run.call (.opened folder)).andThen (Run.each (fun sub =>
          if sub = lit "." ∨ sub = lit ".." then .skip else walk sys fuel (folder ++ lit "/" ++ sub)) subs)) := by
  rw [walk, hdir, hopen]
  rfl

theorem walk_sub (hdir : sys.isDir folder = true) (hopen : sys.opendir folder = some subs) (hsub : sub ∈ subs)
    (hdots : ¬(sub = lit "." ∨ sub = lit "..")) (hr : (walk sys (fuel + 1) folder).ending = .returned) :
    (walk sys fuel (folder ++ lit "/" ++ sub)).ending = .returned ∧
      (walk sys fuel (folder ++ lit "/" ++ sub)).calls <:+: (walk sys (fuel + 1) folder).calls := by
  rw [walk_of_dir hdir hopen] at hr ⊢
  obtain ⟨htop, hrest⟩ := Run.andThen_returned hr
  obtain ⟨hopened, hloop⟩ := Run.andThen_returned hrest
  obtain ⟨hend, hpiece⟩ := Run.each_piece hloop hsub
  rw [if_neg hdots] at hend hpiece
  refine ⟨hend, hpiece.trans (List.IsSuffix.isInfix ?_)⟩
  exact (Run.calls_suffix_andThen hopened).trans (Run.calls_suffix_andThen htop)

/-- A walk that returns has had fuel for the way, and has walked what is at its end in one piece. -/
theorem walk_reached (h : sys.Reaches folder n path) (hr : (walk sys fuel folder).ending = .returned) :
    ∃ left, fuel = left + n ∧ (walk sys left path).ending = .returned ∧
      (walk sys left path).calls <:+: (walk sys fuel folder).calls := by
  induction h with
  | here => exact ⟨fuel, rfl, hr, List.infix_rfl⟩
  | sub _ hdir hopen hsub hdots ih =>
    obtain ⟨left, hfuel, hpath, hpiece⟩ := ih
    cases left with
    | zero => cases hpath
    | succ left =>
      obtain ⟨hend, hsubpiece⟩ := walk_sub hdir hopen hsub hdots hpath
      exact ⟨left, by omega, hend, hsubpiece.trans hpiece⟩

end Folders

/-- The batch of a folder that the traversal comes to is one block of the whole batch. -/
theorem subfolder_block (self : CoverageBatch) (sys : Sys) (ho : sys.Opens self) (fuel : Nat)
    (hr : (self.create sys fuel).ending = .returned) (n : Nat) (path : Str)
    (hp : sys.Reaches self.gcdaFolder n path) :
    ∃ (fuel' : Nat) (before block after : List Record),
      ({ self with gcdaFolder := path }.create sys fuel').ending = .returned ∧
      printed ({ self with gcdaFolder := path }.create sys fuel') =
        header.write self.header :: block.map record.write ∧
      printed (self.create sys fuel) = header.write self.header :: (before ++ block ++ after).map record.write := by
  rw [create_ending_eq_walk ho] at hr
  obtain ⟨fuel', -, hend, before, after, hpiece⟩ := walk_reached hp hr
  have ho' : sys.Opens { self with gcdaFolder := path } := ho
  let recordsOf (finds : List Find) : List Record := (finds.filterMap Find.handed?).map self.record
  refine ⟨fuel', recordsOf before, recordsOf (walk sys fuel' path).calls, recordsOf after, ?_, ?_, ?_⟩
  · rw [create_ending_eq_walk ho', hend]
  · exact printed_handed ho' fuel'
  · have hhanded : handed (walk sys fuel self.gcdaFolder) = before.filterMap Find.handed? ++
        (walk sys fuel' path).calls.filterMap Find.handed? ++ after.filterMap Find.handed? := by
      rw [handed, ← hpiece, List.filterMap_append, List.filterMap_append]
    rw [printed_handed ho, hhanded]
    simp only [recordsOf, List.map_append]

def sampleSys : Sys := (mount sampleBatch.gcdaFolder plainTree).sys .none

def otherBatch : CoverageBatch := { sampleBatch with gcnoFolder := lit "gcno", testname := [], output := lit "b.batch" }

theorem sampleSys_reaches : sampleSys.Reaches sampleBatch.gcdaFolder 1 (lit "gcda/Application/d") := by
  have hopen : sampleSys.opendir sampleBatch.gcdaFolder = some plainTree.listing.names := by decide
  have hsub : lit "d" ∈ plainTree.listing.names := by decide
  have hpath : sampleBatch.gcdaFolder ++ lit "/" ++ lit "d" = lit "gcda/Application/d" := by decide
  rw [← hpath]
  exact .sub .here (by decide) hopen hsub (by decide)

theorem subfolder_block_sample : (sampleBatch.create sampleSys 3).ending = .returned ∧
    ∃ (fuel : Nat) (before block after : List Record),
      printed ({ sampleBatch with gcdaFolder := lit "gcda/Application/d" }.create sampleSys fuel) =
        header.write sampleBatch.header :: block.map record.write ∧
      printed (sampleBatch.create sampleSys 3) =
        header.write sampleBatch.header :: (before ++ block ++ after).map record.write := by
  have hr : (sampleBatch.create sampleSys 3).ending = .returned := by decide
  obtain ⟨fuel, before, block, after, -, hblock, hwhole⟩ := subfolder_block sampleBatch sampleSys rfl 3 hr 1 _ sampleSys_reaches
  exact ⟨hr, fuel, before, block, after, hblock, hwhole⟩

end CoverityTool
