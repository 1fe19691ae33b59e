import CoverityTool.Lib.Lines
import CoverityTool.Reading
import CoverityTool.Walk

/-! The check of the test: it goes through the batch file and an answer line by line, as long as both have lines, and
    compares four octets of each. -/

namespace CoverityTool
open Perl Formats Runs Stores Lines

def newline : Nat := '\n'.toNat

/-- The loop over both files; `sameFile` at its end. -/
def sameFile (fh1 fh2 : List Nat) : Bool :=
  if fh1 = [] ∨ fh2 = [] then true
  else
    let line1 := readline newline fh1
    let line2 := readline newline fh2
    if line1.1.take 4 ≠ line2.1.take 4 then false else sameFile line1.2 line2.2
termination_by fh1.length
decreasing_by
  rename_i h _
  exact readline_shorter (not_or.mp h).1

/-- The check looks no further than the shorter of the files: their lines have to begin alike. -/
theorem sameFile_iff (fh1 fh2 : List Nat) :
    sameFile fh1 fh2 = true ↔ Alike (heads newline 4 fh1) (heads newline 4 fh2) := by
  induction fh1, fh2 using sameFile.induct with
  | case1 fh1 fh2 h =>
    rw [sameFile, if_pos h]
    rcases h with rfl | rfl <;> simp [heads, Alike]
  | case2 fh1 fh2 h line1 line2 hne =>
    obtain ⟨h1, h2⟩ := not_or.mp h
    rw [sameFile, if_neg h, heads, heads, lines_readline h1, lines_readline h2]
    simp only [line1, line2] at hne
    simp [hne, Alike, List.cons_prefix_cons, Ne.symm hne]
  | case3 fh1 fh2 h line1 line2 heq ih =>
    obtain ⟨h1, h2⟩ := not_or.mp h
    rw [sameFile, if_neg h, heads, heads, lines_readline h1, lines_readline h2]
    simp only [line1, line2, not_not] at heq ih
    simp [heq, ih, Alike, heads, List.cons_prefix_cons]

/-! ### Octets of texts -/

section Octets
variable {text v rest : Str} {key : String}

theorem octets_of_plain (h : ∀ c ∈ v, c < 0x80) : octets text v = v := by
  unfold octets
  split
  · rfl
  · exact Utf8.encodeAll_of_lt h

theorem newline_not_mem_octets (h : newline ∉ v) : newline ∉ octets text v := by
  unfold octets
  split
  · exact h
  · exact fun hmem => h (Utf8.mem_of_mem_encodeAll hmem (by decide))

theorem digit_plain {n c : Nat} (h : c ∈ decimal n) : c < 0x80 ∧ c ≠ newline := by
  have hdigit := isDigit_decimal n c h
  simp only [isDigit, Bool.and_eq_true, decide_eq_true_eq, Char.reduceToNat] at hdigit
  unfold newline
  simp only [Char.reduceToNat]
  omega

/-- A field is one line, which begins as its key does. -/
theorem heads_field (hkey : 4 ≤ (lit key).length) (hplain : ∀ c ∈ lit key, c < 0x80 ∧ c ≠ newline) (hv : newline ∉ v) :
    heads newline 4 (octets text ((field key).write v) ++ rest) = (lit key).take 4 :: heads newline 4 rest := by
  have hcolon : ∀ c ∈ lit ":", c < 0x80 ∧ c ≠ newline := by decide
  have hend : octets text (lit "\n") = [newline] := octets_of_plain (by decide)
  have hline : newline ∉ lit key ++ (decimal v.length ++ (lit ":" ++ octets text v)) := by
    simp only [List.mem_append, not_or]
    exact ⟨fun h => (hplain _ h).2 rfl, fun h => (digit_plain h).2 rfl, fun h => (hcolon _ h).2 rfl,
      newline_not_mem_octets hv⟩
  have hsplit : octets text ((field key).write v) ++ rest =
      lit key ++ (decimal v.length ++ (lit ":" ++ octets text v)) ++ newline :: rest := by
    simp only [field_write, octets_append, octets_of_plain fun c hc => (hplain c hc).1,
      octets_of_plain fun c (hc : c ∈ decimal v.length) => (digit_plain hc).1,
      octets_of_plain fun c hc => (hcolon c hc).1, hend, List.append_assoc, List.singleton_append]
  rw [hsplit, heads_append hline, List.append_assoc, List.take_append_of_le_length hkey]

end Octets

/-! ### Batches -/

def headerHeads : List Str := [lit "suit", lit "test", lit "test", lit "verb"]

def recordHeads : List Str := [lit "gcda", lit "gcno", lit "comp", lit "run\n"]

/-- The octets of the file with these texts. -/
def fileOf (texts : List Str) : List Nat := texts.flatMap fun text => octets text text

def Header.Lined (h : Header) : Prop := newline ∉ h.letters

def Record.Lined (r : Record) : Prop := newline ∉ r.letters

section Batches
variable {text rest : Str} {h : Header} {r : Record} {recs : List Record}

theorem heads_last {word : Str} (hplain : ∀ c ∈ word, c < 0x80 ∧ c ≠ newline) :
    heads newline 4 (octets text (word ++ [newline]) ++ rest) = (word ++ [newline]).take 4 :: heads newline 4 rest := by
  have hend : octets text [newline] = [newline] := octets_of_plain (by decide)
  rw [octets_append, octets_of_plain fun c hc => (hplain c hc).1, hend, List.append_assoc, List.singleton_append,
    heads_append fun hmem => (hplain _ hmem).2 rfl]

theorem heads_header (hl : h.Lined) : heads newline 4 (octets text (header.write h) ++ rest) =
    headerHeads ++ heads newline 4 rest := by
  simp only [Header.Lined, Header.letters, List.mem_append, not_or] at hl
  have hverbose : lit "verbose\n" = lit "verbose" ++ [newline] := by decide
  simp only [header, Format.rename, Format.before, Format.pair, octets_append, List.append_assoc]
  rw [heads_field (by decide) (by decide) hl.1, heads_field (by decide) (by decide) hl.2.1,
    heads_field (by decide) (by decide) hl.2.2, hverbose, heads_last (by decide)]
  rfl

theorem heads_record (hl : r.Lined) : heads newline 4 (octets text (record.write r) ++ rest) =
    recordHeads ++ heads newline 4 rest := by
  simp only [Record.Lined, Record.letters, List.mem_append, not_or] at hl
  have hrun : lit "run\n" = lit "run" ++ [newline] := by decide
  simp only [record, Format.rename, Format.before, Format.pair, octets_append, List.append_assoc]
  rw [heads_field (by decide) (by decide) hl.1, heads_field (by decide) (by decide) hl.2.1,
    heads_field (by decide) (by decide) hl.2.2, hrun, heads_last (by decide)]
  rfl

theorem heads_batch (hh : h.Lined) (hrecs : ∀ r ∈ recs, r.Lined) :
    heads newline 4 (fileOf (header.write h :: recs.map record.write)) =
      headerHeads ++ (List.replicate recs.length recordHeads).flatten := by
  rw [fileOf, List.flatMap_cons, heads_header hh]
  refine congrArg _ ?_
  induction recs with
  | nil => rfl
  | cons r recs ih =>
    rw [List.forall_mem_cons] at hrecs
    rw [List.map_cons, List.flatMap_cons, heads_record hrecs.1, ih hrecs.2]
    rfl

theorem length_of_mem_heads {n : Nat} :
    ∀ head ∈ headerHeads ++ (List.replicate n recordHeads).flatten, head.length = 4 := by
  intro head hmem
  have hheader : ∀ head ∈ headerHeads, head.length = 4 := by decide
  have hrecord : ∀ head ∈ recordHeads, head.length = 4 := by decide
  rcases List.mem_append.mp hmem with hmem | hmem
  · exact hheader head hmem
  · obtain ⟨keys, hkeys, hmem⟩ := List.mem_flatten.mp hmem
    exact hrecord head (List.eq_of_mem_replicate hkeys ▸ hmem)

theorem heads_prefix_of_le {n m : Nat} (hle : n ≤ m) :
    (List.replicate n recordHeads).flatten <+: (List.replicate m recordHeads).flatten := by
  obtain ⟨k, rfl⟩ := Nat.exists_eq_add_of_le hle
  rw [List.replicate_add, List.flatten_append]
  exact List.prefix_append _ _

end Batches

/-! ### Runs -/

/-- No value of the configuration that gets into the file has a newline in it. -/
def CoverageBatch.Lined (self : CoverageBatch) : Prop := self.header.Lined ∧ newline ∉ self.gcnoFolder

section Runs
variable {self : CoverageBatch} {sys : Sys} {fuel : Nat}

theorem record_lined {p : Str} (hl : self.Lined) (hp : newline ∉ p) : (self.record p).Lined := by
  have hkey : newline ∉ lit ".gcno" := by decide
  have hdot : newline ∉ lit "./" := by decide
  have hgcno : newline ∉ self.getGcnoPath p := by
    rw [CoverageBatch.getGcnoPath, List.mem_append, not_or]
    refine ⟨hl.2, fun h => ?_⟩
    rcases Words.mem_replaceFirst h with h | h
    · exact hkey h
    · exact hp (getRelativePath_suffix.subset h)
  simp only [Record.Lined, Record.letters, CoverageBatch.record, List.mem_append, not_or]
  exact ⟨hp, hgcno, fun h => (mem_dirname h).elim hgcno hdot⟩

theorem heads_create (ho : sys.Opens self) (hl : self.Lined)
    (hpaths : ∀ p ∈ handed (walk sys fuel self.gcdaFolder), newline ∉ p) :
    heads newline 4 (fileOf (printed (self.create sys fuel))) =
      headerHeads ++ (List.replicate (handed (walk sys fuel self.gcdaFolder)).length recordHeads).flatten := by
  rw [printed_handed ho, heads_batch hl.1, List.length_map]
  rw [List.forall_mem_map]
  exact fun p hp => record_lined hl (hpaths p hp)

end Runs

/-- The check takes the file of any run for the file of any other, whatever their names, folders and records are, and
    also what is left of it when it is cut off, except in the first octets of a line that the answer has too. -/
theorem check_passes_iff (self other : CoverageBatch) (sys sys' : Sys) (fuel fuel' : Nat) (ho : sys.Opens self)
    (ho' : sys'.Opens other) (hl : self.Lined) (hl' : other.Lined)
    (hpaths : ∀ p ∈ handed (walk sys fuel self.gcdaFolder), newline ∉ p)
    (hpaths' : ∀ p ∈ handed (walk sys' fuel' other.gcdaFolder), newline ∉ p) :
    let file := fileOf (printed (self.create sys fuel))
    let answer := fileOf (printed (other.create sys' fuel'))
    sameFile answer file = true ∧ ∀ left, left <+: file → (sameFile answer left = true ↔
      (∀ last ∈ (lines newline left).getLast?, 4 ≤ last.length) ∨
        (lines newline answer).length < (lines newline left).length) := by
  intro file answer
  have hfile := heads_create ho hl hpaths
  have hanswer := heads_create ho' hl' hpaths'
  have halike : Alike (heads newline 4 answer) (heads newline 4 file) := by
    rw [hfile, hanswer]
    exact (Nat.le_total _ _).imp (fun hle => (List.prefix_append_right_inj _).mpr (heads_prefix_of_le hle))
      fun hle => (List.prefix_append_right_inj _).mpr (heads_prefix_of_le hle)
  have hlong : ∀ line ∈ lines newline file, 4 ≤ line.length := by
    intro line hline
    have hmem : line.take 4 ∈ heads newline 4 file := List.mem_map_of_mem hline
    rw [hfile] at hmem
    have hlen := length_of_mem_heads _ hmem
    rw [List.length_take] at hlen
    omega
  refine ⟨(sameFile_iff _ _).mpr halike, fun left hleft => ?_⟩
  rw [sameFile_iff, alike_cut hleft halike hlong]

theorem check_passes_sample : sameFile (fileOf (printed (otherBatch.create sampleSys 1)))
    (fileOf (printed (sampleBatch.create sampleSys 3))) = true := by
  have hpaths : ∀ p ∈ handed (walk sampleSys 3 sampleBatch.gcdaFolder), newline ∉ p := by decide
  have hpaths' : ∀ p ∈ handed (walk sampleSys 1 otherBatch.gcdaFolder), newline ∉ p := by decide
  have hl : sampleBatch.Lined := ⟨by unfold Header.Lined; decide, by decide⟩
  have hl' : otherBatch.Lined := ⟨by unfold Header.Lined; decide, by decide⟩
  exact (check_passes_iff sampleBatch otherBatch sampleSys sampleSys 3 1 rfl rfl hl hl' hpaths hpaths').1

end CoverityTool
