import CoverityTool.CoverageBatch

/-! What the program computes from a path: whether it is taken for a gcda file, and the gcno path.

`is_gcda_file` looks for the last dot of the whole path and `get_relative_path` for its last
`Application`. Neither text overlaps itself or contains a separator, so both searches come down to
occurrences in the parts of the path. -/

namespace CoverityTool
open Perl Words

variable {a b g p r w : Str}

/-! ### The relative path -/

theorem substr_of_nonneg {k : Nat} : substr p (k : Int) = p.drop k := by simp [substr]

theorem getRelativePath_found (hw : w ≠ []) (h : ¬ w <:+: (w ++ b).tail) :
    getRelativePath (a ++ w ++ b) w = b := by
  have hk : (a.length : Int) + w.length = ((a ++ w).length : Nat) := by simp
  simp only [getRelativePath, rindex, lastIndex?_append hw h]
  rw [hk, substr_of_nonneg, List.drop_left]

/-- Where the folder name is not found, -1 goes into the index of the first character to keep. -/
theorem getRelativePath_absent (hw : w ≠ []) (h : ¬ w <:+: p) : getRelativePath p w = p.drop (w.length - 1) := by
  have hk : (-1 : Int) + w.length = ((w.length - 1 : Nat) : Int) := by
    have := List.length_pos_iff.mpr hw
    omega
  simp only [getRelativePath, rindex, lastIndex?_eq_none.mpr h]
  rw [hk, substr_of_nonneg]

theorem getRelativePath_suffix : getRelativePath p w <:+ p := by
  simp only [getRelativePath, substr]
  split <;> exact List.drop_suffix _ _

/-- The relative path is the end of the path after `g` in two cases: the last `w` ends `g`, or there is no
    `w` at all and `g` happens to have the length that a missing `w` skips. -/
theorem getRelativePath_eq_iff (hw : w ≠ []) (hu : Unbordered w) (hb : b ≠ []) :
    getRelativePath (g ++ b) w = b ↔
      w <:+ g ∧ ¬ w <:+: b ∨ ¬ w <:+: g ++ b ∧ g.length = w.length - 1 := by
  have hlen := List.length_pos_iff.mpr hb
  constructor
  · intro h
    by_cases hi : w <:+: g ++ b
    · obtain ⟨x, y, hxy, hy⟩ := exists_last hw hi
      rw [hxy, getRelativePath_found hw hy] at h
      subst h
      obtain rfl := List.append_cancel_right hxy
      exact Or.inl ⟨List.suffix_append x w, fun hn => hy (by
        cases w with
        | nil => exact absurd rfl hw
        | cons c t => exact hn.trans (List.suffix_append t y).isInfix)⟩
    · rw [getRelativePath_absent hw hi] at h
      have hl := congrArg List.length h
      rw [List.length_drop, List.length_append] at hl
      exact Or.inr ⟨hi, by omega⟩
  · rintro (⟨⟨x, rfl⟩, hn⟩ | ⟨hn, hl⟩)
    · exact getRelativePath_found hw fun h => hn (hu.infix_tail h)
    · rw [getRelativePath_absent hw hn, ← hl, List.drop_left]

/-! ### The extension -/

theorem lit_dot : lit "." = ['.'.toNat] := by decide

theorem lit_gcda : lit ".gcda" = '.'.toNat :: lit "gcda" := by decide

theorem length_lit_gcno : (lit ".gcno").length = (lit ".gcda").length := by decide

/-- The substitution exchanges the extension exactly when no other `.gcda` comes before it. -/
theorem subst_extension_iff {s : Str} :
    subst (lit ".gcda") (lit ".gcno") (s ++ lit ".gcda") = s ++ lit ".gcno" ↔ ¬ lit ".gcda" <:+: s := by
  constructor
  · -- The first occurrence in `s` is replaced, and the last letter stays.
    intro h hi
    obtain ⟨a, b, rfl, hf⟩ := exists_first (by decide) hi
    rw [subst, List.append_assoc, replaceFirst_append (by decide) hf] at h
    have hlast := congrArg List.getLast? h
    rw [← List.append_assoc] at hlast
    simp only [List.getLast?_append] at hlast
    revert hlast
    simp [lit]
  · intro h
    have hd : ¬ lit ".gcda" <:+: (s ++ lit ".gcda").dropLast := fun hd =>
      h ((by decide : Unbordered (lit ".gcda")).infix_dropLast hd)
    have := replaceFirst_append (v := lit ".gcno") (b := []) (by decide) hd
    rwa [List.append_nil, List.append_nil] at this

/-- A path is taken for a gcda file when it ends in `.gcda`, and when it is the bare text `gcda`. -/
theorem isGcdaFile_iff : isGcdaFile p = true ↔ p = lit "gcda" ∨ lit ".gcda" <:+ p := by
  have hdot : lit "." ≠ [] := by decide
  have key : isGcdaFile p = true ↔ getRelativePath p (lit ".") = lit "gcda" := by
    simp only [isGcdaFile, getRelativePath, decide_eq_true_eq]
    rfl
  rw [key]
  by_cases hi : lit "." <:+: p
  · obtain ⟨x, y, rfl, hy⟩ := exists_last hdot hi
    rw [getRelativePath_found hdot hy]
    have hy' : '.'.toNat ∉ y := fun h => hy ((List.singleton_infix_iff _ _).mpr h)
    constructor
    · rintro rfl
      exact Or.inr ⟨x, by rw [List.append_assoc, lit_gcda, lit_dot, List.singleton_append]⟩
    · rintro (h | ⟨u, hu⟩)
      · exact absurd (hi.subset List.mem_cons_self) (by rw [h]; decide)
      · have hu' : u ++ '.'.toNat :: lit "gcda" = x ++ '.'.toNat :: y := by
          rw [List.append_assoc] at hu
          exact hu
        exact (eq_of_append_cons (by decide) hy' hu').2.symm
  · rw [getRelativePath_absent hdot hi]
    have hd : ('.'.toNat) ∉ p := fun h => hi ((List.singleton_infix_iff _ _).mpr h)
    constructor
    · exact fun h => Or.inl h
    · rintro (h | h)
      · exact h
      · exact absurd (h.subset List.mem_cons_self) hd

/-! ### The gcno path -/

theorem not_infix_separator_append {w : Str} (hw : w ≠ []) (hs : slash ∉ w) (hr : ¬ w <:+: r) :
    ¬ w <:+: lit "/" ++ r := fun h => by
  rcases infix_append_cons (a := []) hs h with h | h
  · exact hw (List.infix_nil.mp h)
  · exact hr h

theorem length_lit_application : (lit "Application").length - 1 = 10 := by decide

theorem application_infix_iff :
    lit "Application" <:+: lit "/" ++ r ++ lit ".gcda" ↔ lit "Application" <:+: r := by
  constructor
  · intro h
    have hdot : '.'.toNat ∉ lit "Application" := by decide
    rw [lit_gcda] at h
    rcases infix_append_cons hdot h with h | h
    · by_contra hr
      exact not_infix_separator_append (by decide) (by decide) hr h
    · exact absurd h.length_le (by decide)
  · rintro ⟨a, b, rfl⟩
    exact ⟨lit "/" ++ a, b ++ lit ".gcda", by simp⟩

theorem extension_infix_iff : lit ".gcda" <:+: lit "/" ++ r ↔ lit ".gcda" <:+: r := by
  constructor
  · intro h
    by_contra hr
    exact not_infix_separator_append (by decide) (by decide) hr h
  · exact fun h => h.trans (List.suffix_append _ r).isInfix

theorem getGcnoPath_eq_iff_parts (self : CoverageBatch) :
    self.getGcnoPath (g ++ (lit "/" ++ r ++ lit ".gcda")) = self.gcnoFolder ++ (lit "/" ++ r ++ lit ".gcno") ↔
      getRelativePath (g ++ (lit "/" ++ r ++ lit ".gcda")) (lit "Application") = lit "/" ++ r ++ lit ".gcda" ∧
        ¬ lit ".gcda" <:+: r := by
  rw [CoverageBatch.getGcnoPath, List.append_cancel_left_eq, ← extension_infix_iff, ← subst_extension_iff]
  constructor
  · intro h
    suffices hp : getRelativePath (g ++ (lit "/" ++ r ++ lit ".gcda")) (lit "Application") =
        lit "/" ++ r ++ lit ".gcda" by
      rw [hp] at h
      exact ⟨hp, h⟩
    -- The relative path is an end of the whole path, and the substitution keeps its length.
    have hl := congrArg List.length h
    rw [subst, length_replaceFirst (by decide)] at hl
    have hlen : (lit "/" ++ r ++ lit ".gcno").length = (lit "/" ++ r ++ lit ".gcda").length := by
      simp only [List.length_append, length_lit_gcno]
    have hs := List.suffix_of_suffix_length_le getRelativePath_suffix (List.suffix_append g _) (hl.trans hlen).le
    exact hs.eq_of_length (hl.trans hlen)
  · rintro ⟨hp, h⟩
    rw [hp, h]

/-- For every root, the gcda path of `r` is mapped to the gcno path of `r` exactly when `.gcda` is not in
    `r`, and either the last `Application` ends the root or there is none and the root has 10 characters. -/
theorem getGcnoPath_eq_iff (self : CoverageBatch) (g r : Str) :
    self.getGcnoPath (g ++ lit "/" ++ r ++ lit ".gcda") = self.gcnoFolder ++ lit "/" ++ r ++ lit ".gcno" ↔
      ¬ lit ".gcda" <:+: r ∧
        (lit "Application" <:+ g ∧ ¬ lit "Application" <:+: r ∨
          ¬ lit "Application" <:+: g ++ lit "/" ++ r ++ lit ".gcda" ∧ g.length = 10) := by
  simp only [List.append_assoc g, List.append_assoc self.gcnoFolder]
  rw [getGcnoPath_eq_iff_parts, getRelativePath_eq_iff (by decide) (by decide) (by simp [lit]),
    application_infix_iff, and_comm, length_lit_application]

end CoverityTool
