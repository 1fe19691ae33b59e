import Mathlib.Data.List.Forall2
import CoverityTool.Traversal

/-! Records under a root that ends in `Application`. Their gcno paths do not depend on the root, and they are
    those of the notes files as long as neither `Application` nor `.gcda` is found below it. -/

namespace CoverityTool
open Perl Words Runs

/-! ### Location -/

section Location
variable {a b s w : Str}

/-- After a root that ends in the folder name, the relative path depends on the rest of the path only. -/
theorem getRelativePath_root (hw : w ≠ []) (hu : Unbordered w) :
    getRelativePath (a ++ w ++ s) w = getRelativePath (b ++ w ++ s) w := by
  by_cases hi : w <:+: s
  · obtain ⟨x, y, rfl, hy⟩ := exists_last hw hi
    have hfound : ∀ c : Str, getRelativePath (c ++ w ++ (x ++ w ++ y)) w = y := by
      intro c
      have hc : c ++ w ++ (x ++ w ++ y) = (c ++ w ++ x) ++ w ++ y := by simp
      rw [hc, getRelativePath_found hw hy]
    rw [hfound, hfound]
  · have hs : ¬ w <:+: (w ++ s).tail := fun h => hi (hu.infix_tail h)
    rw [getRelativePath_found hw hs, getRelativePath_found hw hs]

theorem getGcnoPath_root {self₁ self₂ : CoverageBatch} {g₁ g₂ : Str} (hgcno : self₁.gcnoFolder = self₂.gcnoFolder)
    (h₁ : lit "Application" <:+ g₁) (h₂ : lit "Application" <:+ g₂) (s : Str) :
    self₁.getGcnoPath (g₁ ++ s) = self₂.getGcnoPath (g₂ ++ s) := by
  obtain ⟨a, rfl⟩ := h₁
  obtain ⟨b, rfl⟩ := h₂
  simp only [CoverageBatch.getGcnoPath]
  rw [getRelativePath_root (by decide) (by decide), hgcno]

theorem topPaths_of_application {self : CoverageBatch} (h : lit "Application" <:+ self.gcdaFolder) :
    topPaths self.gcdaFolder = [] := by
  have hg : isGcdaFile self.gcdaFolder = false := by
    refine isGcdaFile_eq_false.mpr ⟨?_, ?_⟩
    · intro hg
      rw [hg] at h
      exact absurd h (by decide)
    · intro hg
      exact absurd (List.suffix_of_suffix_length_le hg h (by decide)) (by decide)
  rw [topPaths, hg]
  rfl

theorem create_records_of_application {self : CoverageBatch} {d : Disk} {t : Tree} {fuel : Nat}
    (h : lit "Application" <:+ self.gcdaFolder) (hd : d.Holds self.gcdaFolder t) (hf : t.listing.depth < fuel) :
    printed (self.create (d.sys .none) fuel) = header.write self.header ::
      ((t.gcdaEntries.map fun e => pathOf self.gcdaFolder e.path).map self.record).map record.write := by
  rw [create_records self hd hf, topPaths_of_application h, List.nil_append]

end Location

/-- The records of `r₁` and `r₂` belong to one entry, seen from the roots `g₁` and `g₂`. -/
def Relocated (g₁ g₂ : Str) (r₁ r₂ : Record) : Prop :=
  r₁.gcno = r₂.gcno ∧ r₁.compilationDirectory = r₂.compilationDirectory ∧ ∃ s, r₁.gcda = g₁ ++ s ∧ r₂.gcda = g₂ ++ s

/-- The same tree at two roots that end in `Application` gives records that differ in the root of the gcda
    path only. -/
theorem records_relocated (self₁ self₂ : CoverageBatch) (d₁ d₂ : Disk) (t : Tree) (fuel₁ fuel₂ : Nat)
    (hheader : self₁.header = self₂.header) (hgcno : self₁.gcnoFolder = self₂.gcnoFolder)
    (h₁ : lit "Application" <:+ self₁.gcdaFolder) (h₂ : lit "Application" <:+ self₂.gcdaFolder)
    (hd₁ : d₁.Holds self₁.gcdaFolder t) (hd₂ : d₂.Holds self₂.gcdaFolder t)
    (hf₁ : t.listing.depth < fuel₁) (hf₂ : t.listing.depth < fuel₂) :
    ∃ recs₁ recs₂ : List Record,
      printed (self₁.create (d₁.sys .none) fuel₁) = header.write self₁.header :: recs₁.map record.write ∧
      printed (self₂.create (d₂.sys .none) fuel₂) = header.write self₁.header :: recs₂.map record.write ∧
      List.Forall₂ (Relocated self₁.gcdaFolder self₂.gcdaFolder) recs₁ recs₂ := by
  have hp₁ := create_records_of_application h₁ hd₁ hf₁
  have hp₂ := create_records_of_application h₂ hd₂ hf₂
  rw [← hheader] at hp₂
  refine ⟨_, _, hp₁, hp₂, ?_⟩
  rw [List.map_map, List.map_map, List.forall₂_map_left_iff, List.forall₂_map_right_iff, List.forall₂_same]
  intro e _
  have hpath : self₁.getGcnoPath (pathOf self₁.gcdaFolder e.path) =
      self₂.getGcnoPath (pathOf self₂.gcdaFolder e.path) := getGcnoPath_root hgcno h₁ h₂ _
  exact ⟨hpath, congrArg dirname hpath, _, rfl, rfl⟩

def movedBatch : CoverageBatch := { sampleBatch with gcdaFolder := lit "x.gcda/Application/y.Application" }

theorem records_relocated_sample : ∃ recs₁ recs₂ : List Record,
    printed (sampleBatch.create ((mount sampleBatch.gcdaFolder sampleTree).sys .none) 3) =
      header.write sampleBatch.header :: recs₁.map record.write ∧
    List.Forall₂ (Relocated sampleBatch.gcdaFolder movedBatch.gcdaFolder) recs₁ recs₂ := by
  have hheader : sampleBatch.header = movedBatch.header := by decide
  have hdepth : sampleTree.listing.depth < 3 := by decide
  obtain ⟨recs₁, recs₂, hp₁, -, hrecs⟩ := records_relocated sampleBatch movedBatch _ _ sampleTree 3 3 hheader
    (by decide) (by decide) (by decide) (mount_holds sampleBatch.gcdaFolder sampleTree)
    (mount_holds movedBatch.gcdaFolder sampleTree) hdepth hdepth
  exact ⟨recs₁, recs₂, hp₁, hrecs⟩

/-! ### Notes files -/

def dirPart (r : Str) : Str := (r.rdropWhile (· ≠ slash)).dropLast

def notesFolder (n r : Str) : Str := if slash ∈ r then n ++ lit "/" ++ dirPart r else n

/-- The record names the notes file of `r`, and the folder that holds it. -/
def CoverageBatch.Paired (self : CoverageBatch) (r : Str) (x : Record) : Prop :=
  x.gcno = self.gcnoFolder ++ lit "/" ++ r ++ lit ".gcno" ∧
    x.compilationDirectory = notesFolder self.gcnoFolder r

theorem dirPart_append_slash {a b : Str} (hb : slash ∉ b) : dirPart (a ++ slash :: b) = a := by
  rw [dirPart, rdropWhile_append_slash hb, List.dropLast_concat]

theorem pathOf_getLast? (g : Str) {ns : List Name} (h : ns ≠ []) : (pathOf g ns).getLast? ≠ some slash := by
  obtain ⟨ms, m, rfl⟩ := (List.eq_nil_or_concat' ns).resolve_left h
  rw [pathOf_concat, List.getLast?_append_of_ne_nil _ m.ne_nil]
  exact fun hl => m.no_slash (List.mem_of_getLast? hl)

section Notes
variable {self : CoverageBatch} {g n r : Str}

theorem folder_of_pathOf {a b : Str} {e : Entry} (hb : slash ∉ b)
    (h : pathOf g e.path = g ++ slash :: (a ++ slash :: b)) : (slash :: a).getLast? ≠ some slash := by
  have hsplit : pathOf g e.folder ++ slash :: e.name.chars = (g ++ slash :: a) ++ slash :: b := by
    rw [← pathOf_concat_cons, List.append_assoc]
    exact h
  obtain ⟨hfolder, -⟩ := eq_of_append_cons e.name.no_slash hb hsplit
  have hne : e.folder ≠ [] := by
    intro hnil
    rw [hnil, pathOf_nil] at hfolder
    simp at hfolder
  have hlast := pathOf_getLast? g hne
  rwa [hfolder, List.getLast?_append_of_ne_nil _ (by simp)] at hlast

theorem dirname_notes {e : Entry} (hn : n ≠ []) (hs : n.getLast? ≠ some slash)
    (h : pathOf g e.path = g ++ (lit "/" ++ r ++ lit ".gcda")) :
    dirname (n ++ (lit "/" ++ r ++ lit ".gcno")) = notesFolder n r := by
  have hgcno : slash ∉ lit ".gcno" := by decide
  have hgcda : slash ∉ lit ".gcda" := by decide
  rw [lit_slash] at h ⊢
  rcases split_at_last_slash r with hr | ⟨a, b, rfl, hb⟩
  · have hb : slash ∉ r ++ lit ".gcno" := by simp [hr, hgcno]
    rw [notesFolder, if_neg hr]
    exact dirname_append_slash hb (by simp [lit]) hn hs
  · -- `a` is the path of the folder of `r`, so no separator ends it.
    have hlast : (slash :: a).getLast? ≠ some slash := by
      refine folder_of_pathOf (b := b ++ lit ".gcda") (e := e) (g := g) (by simp [hb, hgcda]) ?_
      simpa using h
    have hfolder : n ++ slash :: a ≠ [] := by simp
    have hb' : slash ∉ b ++ lit ".gcno" := by simp [hb, hgcno]
    have hd := dirname_append_slash (a := n ++ slash :: a) hb' (by simp [lit]) hfolder
      (by rwa [List.getLast?_append_of_ne_nil _ (by simp)])
    rw [notesFolder, if_pos (by simp), dirPart_append_slash hb, lit_slash]
    simpa using hd

theorem suffix_of_lastComponent {w : Str} (h : lastComponent g = w) : w <:+ g := by
  rcases split_at_last_slash g with hg | ⟨a, b, rfl, hb⟩
  · rw [lastComponent, fileparse_of_no_slash hg] at h
    exact h ▸ List.suffix_rfl
  · rw [lastComponent, fileparse_append_slash hb] at h
    exact ⟨a ++ [slash], by rw [← h]; simp⟩

theorem paired_iff {e : Entry} (hg : lit "Application" <:+ g) (hn : self.gcnoFolder ≠ [])
    (hs : self.gcnoFolder.getLast? ≠ some slash) (h : pathOf g e.path = g ++ (lit "/" ++ r ++ lit ".gcda")) :
    self.Paired r (self.record (pathOf g e.path)) ↔ ¬ lit "Application" <:+: r ∧ ¬ lit ".gcda" <:+: r := by
  have hroot : lit "Application" <:+: g ++ (lit "/" ++ r ++ lit ".gcda") :=
    hg.isInfix.trans (List.prefix_append _ _).isInfix
  -- The root ends in `Application`, so the last one in the path is that of the root or is in `r`.
  have hrelative : getRelativePath (g ++ (lit "/" ++ r ++ lit ".gcda")) (lit "Application") =
      lit "/" ++ r ++ lit ".gcda" ↔ ¬ lit "Application" <:+: r := by
    rw [getRelativePath_eq_iff (by decide) (by decide) (by simp [lit]), application_infix_iff]
    simp only [hg, hroot, true_and, not_true_eq_false, false_and, or_false]
  have hgcno : self.getGcnoPath (pathOf g e.path) = self.gcnoFolder ++ (lit "/" ++ r ++ lit ".gcno") ↔
      ¬ lit "Application" <:+: r ∧ ¬ lit ".gcda" <:+: r := by
    rw [h, getGcnoPath_eq_iff_parts, hrelative]
  rw [← hgcno, CoverageBatch.Paired, CoverageBatch.record, List.append_assoc, List.append_assoc,
    ← List.append_assoc (lit "/")]
  refine and_iff_left_of_imp fun hpath => ?_
  exact (congrArg dirname hpath).trans (dirname_notes hn hs h)

end Notes

/-- Under a root whose last component is `Application`, the record of a file `r.gcda` names its notes file and
    the folder of that exactly when neither `Application` nor `.gcda` occurs in `r`. -/
theorem records_paired_iff (self : CoverageBatch) (d : Disk) (t : Tree) (fuel : Nat)
    (hg : lastComponent self.gcdaFolder = lit "Application") (hn : self.gcnoFolder ≠ [])
    (hs : self.gcnoFolder.getLast? ≠ some slash) (hd : d.Holds self.gcdaFolder t) (hf : t.listing.depth < fuel) :
    ∃ recs : List Record,
      printed (self.create (d.sys .none) fuel) = header.write self.header :: recs.map record.write ∧
      ∀ e ∈ t.listing.entries, e.isDir = false →
        ∀ r, pathOf self.gcdaFolder e.path = self.gcdaFolder ++ lit "/" ++ r ++ lit ".gcda" →
          (∃ x ∈ recs, x.gcda = pathOf self.gcdaFolder e.path) ∧
          ∀ x ∈ recs, x.gcda = pathOf self.gcdaFolder e.path →
            (self.Paired r x ↔ ¬ lit "Application" <:+: r ∧ ¬ lit ".gcda" <:+: r) := by
  have hroot : lit "Application" <:+ self.gcdaFolder := suffix_of_lastComponent hg
  refine ⟨_, create_records_of_application hroot hd hf, ?_⟩
  intro e he _ r hr
  have hgcda : e.name.isGcda = true := by
    have hend : lit ".gcda" <:+ pathOf self.gcdaFolder (e.folder ++ [e.name]) := ⟨_, hr.symm⟩
    exact decide_eq_true_iff.mpr ((suffix_pathOf (by decide)).mp hend)
  refine ⟨⟨self.record (pathOf self.gcdaFolder e.path), ?_, rfl⟩, ?_⟩
  · exact List.mem_map_of_mem (List.mem_map_of_mem (List.mem_filter.mpr ⟨he, hgcda⟩))
  · intro x hx hxe
    obtain ⟨p, -, rfl⟩ := List.mem_map.mp hx
    obtain rfl : p = pathOf self.gcdaFolder e.path := hxe
    refine paired_iff hroot hn hs ?_
    rw [hr]
    simp only [List.append_assoc]

theorem records_paired_sample : ∃ recs : List Record,
    printed (sampleBatch.create ((mount sampleBatch.gcdaFolder plainTree).sys .none) 3) =
      header.write sampleBatch.header :: recs.map record.write ∧
    ∃ x ∈ recs, x.gcda = lit "gcda/Application/d/b.gcda" ∧ sampleBatch.Paired (lit "d/b") x := by
  obtain ⟨recs, hprinted, hrecs⟩ := records_paired_iff sampleBatch _ plainTree 3 (by decide) (by decide) (by decide)
    (mount_holds sampleBatch.gcdaFolder plainTree) (by decide)
  obtain ⟨⟨x, hx, hxe⟩, hpaired⟩ := hrecs ⟨[.of "d"], .of "b.gcda", false⟩ (by decide) rfl (lit "d/b") (by decide)
  have hpath : x.gcda = lit "gcda/Application/d/b.gcda" := hxe.trans (by decide)
  exact ⟨recs, hprinted, x, hx, hpath, (hpaired x hx hxe).mpr ⟨by decide, by decide⟩⟩

/-- A tree with one file, whose name has the extension twice. -/
def twiceTree : Tree where
  listing := .file (.of "a.gcda.gcda") .nil
  distinct := by decide

/-- The first `.gcda` of the name is replaced, and not its extension. -/
theorem extension_kept :
    printed (sampleBatch.create ((mount sampleBatch.gcdaFolder twiceTree).sys .none) 2) =
      [header.write sampleBatch.header, record.write ⟨lit "gcda/Application/a.gcda.gcda",
        lit "gcno/Application/a.gcno.gcda", lit "gcno/Application"⟩] ∧
    ¬ sampleBatch.Paired (lit "a.gcda") ⟨lit "gcda/Application/a.gcda.gcda",
        lit "gcno/Application/a.gcno.gcda", lit "gcno/Application"⟩ := by
  constructor
  · have hd := mount_holds sampleBatch.gcdaFolder twiceTree
    have hprinted := create_records_of_application (by decide) hd (by decide : twiceTree.listing.depth < 2)
    have hrecords : (twiceTree.gcdaEntries.map fun e => pathOf sampleBatch.gcdaFolder e.path).map
        sampleBatch.record = [⟨lit "gcda/Application/a.gcda.gcda", lit "gcno/Application/a.gcno.gcda",
          lit "gcno/Application"⟩] := by decide
    rw [hprinted, hrecords]
    rfl
  · intro h
    exact absurd h.1 (by decide)

end CoverityTool
