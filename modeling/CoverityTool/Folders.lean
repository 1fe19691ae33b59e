import CoverityTool.Lib.Paths
import CoverityTool.Reach

/-! The compilation directory of a record. It is the directory in which the gcno file is looked up, whatever the names
    on the way lead to. -/

namespace CoverityTool
open Perl Runs Paths Words

abbrev dot : Nat := '.'.toNat

section Directory
variable {ν : Type} {places : Places Nat ν} {p s : Str}

theorem leads_slashes (hs : s ≠ []) (hall : ∀ c ∈ s, c = slash) : leads places slash dot s = some places.root := by
  induction s using List.reverseRecOn with
  | nil => exact absurd rfl hs
  | append_singleton s c ih =>
    obtain rfl := hall c (by simp)
    by_cases hnil : s = []
    · rw [hnil]
      exact leads_sep
    · rw [leads_concat hnil, ih hnil fun d hd => hall d (List.mem_append_left _ hd)]

theorem leads_stripTrailingSep (hs : s ≠ []) :
    leads places slash dot (stripTrailingSep s) = leads places slash dot s := by
  rw [stripTrailingSep]
  split
  · next hnil =>
    -- Nothing but separators: the first one stays.
    have hall : ∀ c ∈ s, c = slash := fun c hc => by simpa using List.rdropWhile_eq_nil_iff.mp hnil c hc
    have hsub : ∀ c ∈ s.take 1, c = slash := fun c hc => hall c ((List.take_prefix 1 s).subset hc)
    have hne : s.take 1 ≠ [] := by simpa using hs
    rw [leads_slashes hne hsub, leads_slashes hs hall]
  · next hne => exact leads_rdropWhile hne

/-- A path leads to what its last component leads to from its directory. -/
theorem leads_dirname (h : lastComponent p ≠ []) : leads places slash dot p =
    (leads places slash dot (dirname p)).bind fun v => look places dot v (lastComponent p) := by
  rcases split_at_last_slash p with hp | ⟨a, b, rfl, hb⟩
  · have hfile := fileparse_of_no_slash hp
    rw [lastComponent, hfile] at h ⊢
    have hdir : dirname p = lit "." := by
      simp only [dirname, hfile, if_neg h]
      decide
    have hdot : lit "." = [dot] := by decide
    have hcurrent : leads places slash dot [dot] = some places.current := by
      rw [leads_of_not_mem (by decide), look_dot]
    rw [hdir, hdot, hcurrent, leads_of_not_mem hp, Option.bind_some]
  · have hfile := fileparse_append_slash (a := a) hb
    rw [lastComponent, hfile] at h ⊢
    have hdir : dirname (a ++ slash :: b) = stripTrailingSep (a ++ [slash]) := by
      simp only [dirname, hfile, if_neg h]
    rw [hdir, leads_stripTrailingSep (by simp), leads_append hb]

end Directory

/-! ### Runs -/

section Runs
variable {self : CoverageBatch} {p : Str} {c : Nat}

theorem lastComponent_ne_nil (h : p.getLast? = some c) (hc : c ≠ slash) : lastComponent p ≠ [] := by
  intro hnil
  rcases split_at_last_slash p with hp | ⟨a, b, rfl, hb⟩
  · rw [lastComponent, fileparse_of_no_slash hp] at hnil
    obtain rfl : p = [] := hnil
    cases h
  · rw [lastComponent, fileparse_append_slash hb] at hnil
    obtain rfl : b = [] := hnil
    rw [List.getLast?_concat] at h
    exact hc (Option.some.inj h).symm

theorem gcda_getLast (h : isGcdaFile p = true) : p.getLast? = some 'a'.toNat := by
  rcases isGcdaFile_iff.mp h with rfl | ⟨s, rfl⟩
  · decide
  · rw [List.getLast?_append_of_ne_nil _ (by decide)]
    decide

/-- The relative path of a gcda path is empty only when the path is too short to have a folder name in it. -/
theorem short_of_relative_nil (h : isGcdaFile p = true) (hnil : getRelativePath p (lit "Application") = []) :
    p.length ≤ 10 := by
  by_cases hi : lit "Application" <:+: p
  · obtain ⟨a, b, rfl, hb⟩ := exists_last (by decide) hi
    rw [getRelativePath_found (by decide) hb] at hnil
    have hlast := gcda_getLast h
    rw [hnil, List.append_nil, List.getLast?_append_of_ne_nil _ (by decide)] at hlast
    exact absurd hlast (by decide)
  · rw [getRelativePath_absent (by decide) hi, List.drop_eq_nil_iff] at hnil
    exact hnil

theorem gcno_lastComponent (h : isGcdaFile p = true) :
    lastComponent (self.getGcnoPath p) ≠ [] ∨ self.getGcnoPath p = self.gcnoFolder ∧ p.length ≤ 10 := by
  by_cases hnil : getRelativePath p (lit "Application") = []
  · refine Or.inr ⟨?_, short_of_relative_nil h hnil⟩
    have hsubst : subst (lit ".gcda") (lit ".gcno") [] = [] := by decide
    rw [CoverageBatch.getGcnoPath, hnil, hsubst, List.append_nil]
  · obtain ⟨front, hfront⟩ := getRelativePath_suffix (p := p) (w := lit "Application")
    have hlast := gcda_getLast h
    rw [← hfront, List.getLast?_append_of_ne_nil _ hnil] at hlast
    -- The last character is an `a`, or an `o` if the extension has been exchanged.
    rcases getLast?_replaceFirst (w := lit ".gcda") hnil (by decide : lit ".gcno" ≠ []) with hrel | hrel
    · have hgcno : (self.getGcnoPath p).getLast? = some 'a'.toNat := by
        rw [CoverageBatch.getGcnoPath, subst, List.getLast?_append, hrel, hlast]
        rfl
      exact Or.inl (lastComponent_ne_nil hgcno (by decide))
    · have hgcno : (self.getGcnoPath p).getLast? = some 'o'.toNat := by
        rw [CoverageBatch.getGcnoPath, subst, List.getLast?_append, hrel]
        rfl
      exact Or.inl (lastComponent_ne_nil hgcno (by decide))

end Runs

/-- In every run: the gcno file of a record is looked up in its compilation directory, whatever links there are; unless
    the gcda path is too short to have a relative path, and the gcno path is the gcno folder. -/
theorem compilation_leads {ν : Type} (self : CoverageBatch) (sys : Sys) (ho : sys.Opens self) (fuel : Nat) :
    ∃ recs : List Record, printed (self.create sys fuel) = header.write self.header :: recs.map record.write ∧
      ∀ r ∈ recs, (∀ places : Places Nat ν, leads places slash dot r.gcno =
          (leads places slash dot r.compilationDirectory).bind fun v => look places dot v (lastComponent r.gcno)) ∨
        r.gcno = self.gcnoFolder ∧ r.gcda.length ≤ 10 := by
  refine ⟨(handed (walk sys fuel self.gcdaFolder)).map self.record, printed_handed ho fuel, ?_⟩
  rw [List.forall_mem_map]
  intro p hp
  obtain ⟨-, hgcda⟩ := walk_right fuel _ _ (mem_handed_iff.mp hp)
  exact (gcno_lastComponent hgcda).imp_left fun hne places => leads_dirname hne

theorem compilation_leads_sample : ∃ recs : List Record,
    printed (sampleBatch.create sampleSys 3) = header.write sampleBatch.header :: recs.map record.write ∧
    ∀ r ∈ recs, (∀ places : Places Nat Nat, leads places slash dot r.gcno =
        (leads places slash dot r.compilationDirectory).bind fun v => look places dot v (lastComponent r.gcno)) ∨
      r.gcno = sampleBatch.gcnoFolder ∧ r.gcda.length ≤ 10 :=
  compilation_leads sampleBatch sampleSys rfl 3

end CoverityTool
