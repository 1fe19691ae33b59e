import CoverityTool.Walk

/-! Notes files that two records share. The gcno path keeps of a gcda path only what comes after its last
    `Application`, with the first `.gcda` exchanged, so different data files can be given one notes file. -/

namespace CoverityTool
open Perl Runs Words

/-- After the last `Application` the paths are equal, or the first `.gcda` of each is a `.gcno` of the other. -/
def SharesNotes (p q : Str) : Prop :=
  let s := getRelativePath p (lit "Application")
  let t := getRelativePath q (lit "Application")
  s = t ∨ Swapped (lit ".gcda") (lit ".gcno") s t ∨ Swapped (lit ".gcda") (lit ".gcno") t s

section Handed
variable {sys : Sys} {fuel : Nat} {folder p q : Str}

theorem isGcdaFile_of_handed (h : p ∈ handed (walk sys fuel folder)) : isGcdaFile p = true := by
  have hcalls : ∀ find ∈ (walk sys fuel folder).calls, ∀ p, find = .handed p → isGcdaFile p = true := by
    clear h
    induction fuel generalizing folder with
    | zero => simp [walk, Run.unfinished]
    | succ fuel ih =>
      rw [walk]
      refine Run.forall_calls_andThen ?_ ?_
      · intro find hfind p hp
        split at hfind
        · obtain rfl := List.mem_singleton.mp hfind
          cases hp
          assumption
        · cases hfind
      · split
        · simp
        · split
          · simp
          · refine Run.forall_calls_andThen (by simp) (Run.forall_calls_each fun sub _ => ?_)
            split
            · simp
            · exact ih
  obtain ⟨find, hfind, hp⟩ := List.mem_filterMap.mp h
  cases find with
  | handed path =>
    cases hp
    exact hcalls _ hfind _ rfl
  | opened folder => cases hp

/-- What is left of the path of a gcda file has a `.gcda` in it exactly when it is long enough for one. -/
theorem extension_infix_relative_iff (h : isGcdaFile p = true) :
    lit ".gcda" <:+: getRelativePath p (lit "Application") ↔
      (lit ".gcda").length ≤ (getRelativePath p (lit "Application")).length := by
  constructor
  · exact fun hi => hi.length_le
  · intro hlen
    rcases isGcdaFile_iff.mp h with rfl | hp
    · exact absurd hlen (by decide)
    · exact (List.suffix_of_suffix_length_le hp getRelativePath_suffix hlen).isInfix

theorem getGcnoPath_eq_getGcnoPath_iff (self : CoverageBatch) (hp : isGcdaFile p = true) (hq : isGcdaFile q = true) :
    self.getGcnoPath p = self.getGcnoPath q ↔ SharesNotes p q := by
  have hunbordered : Unbordered (lit ".gcda") := by decide
  have hne : lit ".gcda" ≠ [] := by decide
  rw [CoverageBatch.getGcnoPath, CoverageBatch.getGcnoPath, List.append_cancel_left_eq, subst, subst]
  constructor
  · intro heq
    have hlen := congrArg List.length heq
    rw [length_replaceFirst (by decide), length_replaceFirst (by decide)] at hlen
    refine (replaceFirst_eq_iff hne hunbordered (by decide) ?_).mp heq
    rw [extension_infix_relative_iff hp, extension_infix_relative_iff hq, hlen]
  · rintro (heq | hswap | hswap)
    · rw [heq]
    · exact replaceFirst_of_swapped hne hunbordered hswap
    · exact (replaceFirst_of_swapped hne hunbordered hswap).symm

end Handed

/-- In every run, whatever the system answers, the records name different notes files exactly when no two of their
    paths are alike after the last `Application` and none arise from each other by exchanging the first `.gcda` with
    a later `.gcno`. -/
theorem notes_distinct_iff (self : CoverageBatch) (sys : Sys) (fuel : Nat) (ho : sys.Opens self) :
    let paths := handed (walk sys fuel self.gcdaFolder)
    printed (self.create sys fuel) = header.write self.header :: (paths.map self.record).map record.write ∧
      (((paths.map self.record).map Record.gcno).Nodup ↔ paths.Pairwise fun p q => ¬ SharesNotes p q) := by
  intro paths
  refine ⟨printed_handed ho fuel, ?_⟩
  rw [List.map_map, List.Nodup, List.pairwise_map]
  refine List.Pairwise.iff_of_mem fun hp hq => not_congr ?_
  exact getGcnoPath_eq_getGcnoPath_iff self (isGcdaFile_of_handed hp) (isGcdaFile_of_handed hq)

def swappedTree : Tree where
  listing := .file (.of "a.gcda.gcno.gcda") (.file (.of "a.gcno.gcda.gcda") .nil)
  distinct := by decide

/-- Two files of one folder are given the notes file `a.gcno.gcno.gcda`. -/
theorem notes_distinct_sample :
    let sys := (mount sampleBatch.gcdaFolder swappedTree).sys .none
    printed (sampleBatch.create sys 3) = header.write sampleBatch.header ::
      ([lit "gcda/Application/a.gcda.gcno.gcda", lit "gcda/Application/a.gcno.gcda.gcda"].map
        sampleBatch.record).map record.write ∧
    ¬ (((handed (walk sys 3 sampleBatch.gcdaFolder)).map sampleBatch.record).map Record.gcno).Nodup := by
  intro sys
  have hpaths : handed (walk sys 3 sampleBatch.gcdaFolder) =
      [lit "gcda/Application/a.gcda.gcno.gcda", lit "gcda/Application/a.gcno.gcda.gcda"] := by decide
  obtain ⟨hprinted, hiff⟩ := notes_distinct_iff sampleBatch sys 3 rfl
  rw [hpaths] at hprinted hiff
  refine ⟨hprinted, ?_⟩
  rw [hpaths, hiff, List.pairwise_pair, not_not]
  exact Or.inr (Or.inl ⟨lit "/a", [], lit ".gcda", by decide, by decide, by decide⟩)

end CoverityTool
