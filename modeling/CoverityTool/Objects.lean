import Mathlib.Logic.Function.Basic
import CoverityTool.Walk

/-! Objects. `new` blesses the hash that it is given, so any field can be missing. An undefined value is the empty
    text in a string or as a path, but its `length` is undefined as well, and then no number is printed. -/

namespace CoverityTool
open Perl Runs Formats

inductive Field where
  | gcdaFolder
  | gcnoFolder
  | testname
  | suitename
  | teststart
  | output
  deriving DecidableEq, Repr

/-- The hash of an object; none for an undefined value. -/
abbrev Hash := Field → Option Str

/-- An undefined value in a string. -/
def text (value : Option Str) : Str := value.getD []

/-- `length`, in a string. -/
def lengthText (value : Option Str) : Str := text (value.map fun s => decimal s.length)

namespace Hash

/-- A getter and setter, given the arguments after the object: what it returns, and the hash it leaves. -/
def accessor (field : Field) (self : Hash) (args : List (Option Str)) : Option Str × Hash :=
  let self := match args with
    | [] => self
    | value :: _ => Function.update self field value
  (self field, self)

def gcdaFolder : Hash → List (Option Str) → Option Str × Hash := accessor .gcdaFolder
def gcnoFolder : Hash → List (Option Str) → Option Str × Hash := accessor .gcnoFolder
def testname : Hash → List (Option Str) → Option Str × Hash := accessor .testname
def suitename : Hash → List (Option Str) → Option Str × Hash := accessor .suitename
def teststart : Hash → List (Option Str) → Option Str × Hash := accessor .teststart
def output : Hash → List (Option Str) → Option Str × Hash := accessor .output

/-- The fields as the program uses them outside `length`. -/
def batch (self : Hash) : CoverageBatch where
  gcdaFolder := text (self.gcdaFolder []).1
  gcnoFolder := text (self.gcnoFolder []).1
  testname := text (self.testname []).1
  suitename := text (self.suitename []).1
  teststart := text (self.teststart []).1
  output := text (self.output []).1

def headerText (self : Hash) : Str :=
  let suitnameLength := lengthText (self.suitename []).1
  let testnameLength := lengthText (self.testname []).1
  let teststartLength := lengthText (self.teststart []).1
  lit "suitename:" ++ suitnameLength ++ lit ":" ++ self.batch.suitename ++ lit "\n" ++
  lit "testname:" ++ testnameLength ++ lit ":" ++ self.batch.testname ++ lit "\n" ++
  lit "teststart:" ++ teststartLength ++ lit ":" ++ self.batch.teststart ++ lit "\n" ++
  lit "verbose\n"

/-- main, create a batch file for a test -/
def create (self : Hash) (sys : Sys) (fuel : Nat) : Prog :=
  createWith sys self.batch.output self.headerText (self.batch.traverseGcda sys fuel self.batch.gcdaFolder)

end Hash

section Header
variable {self : Hash}

/-- The header can be read: the lengths of its values are printed. -/
def Hash.Named (self : Hash) : Prop :=
  (self .suitename).isSome = true ∧ (self .testname).isSome = true ∧ (self .teststart).isSome = true

instance : Decidable self.Named :=
  inferInstanceAs (Decidable ((self .suitename).isSome = true ∧ (self .testname).isSome = true ∧
    (self .teststart).isSome = true))

theorem lengthText_of_isSome {value : Option Str} (h : value.isSome = true) :
    lengthText value = decimal (text value).length := by
  obtain ⟨s, rfl⟩ := Option.isSome_iff_exists.mp h
  rfl

theorem headerText_of_named (h : self.Named) : self.headerText = self.batch.headerText := by
  obtain ⟨h₁, h₂, h₃⟩ := h
  have hsuite : lengthText (self.suitename []).1 = decimal self.batch.suitename.length := lengthText_of_isSome h₁
  have htest : lengthText (self.testname []).1 = decimal self.batch.testname.length := lengthText_of_isSome h₂
  have hstart : lengthText (self.teststart []).1 = decimal self.batch.teststart.length := lengthText_of_isSome h₃
  simp only [Hash.headerText, CoverageBatch.headerText, hsuite, htest, hstart]

/-- A line without a length is no field. -/
theorem field_read_of_no_length (key : String) (s : Str) : (field key).read (lit key ++ (lit ":" ++ s)) = none := by
  have hcolon : isDigit 58 = false := by decide
  have hlit : lit ":" = [':'.toNat] := by decide
  have hnumber : number.read (lit ":" ++ s) = none := by
    rw [hlit, List.singleton_append]
    simp [number, Format.numeral, hcolon]
  simp [field, Format.after, Format.before, Format.block, hnumber]

theorem headerText_unreadable (h : ¬self.Named) (rest : Str) : header.read (self.headerText ++ rest) = none := by
  have hline : ∀ (key : String) (v : Option Str) (s : Str), v.isSome = true →
      lit key ++ lengthText v ++ lit ":" ++ text v ++ lit "\n" ++ s = (field key).write (text v) ++ s := by
    intro key v s hv
    rw [field_write, lengthText_of_isSome hv]
    simp only [List.append_assoc]
  have hnone : ∀ (key : String) (v : Option Str) (s : Str), v.isSome = false →
      (field key).read (lit key ++ lengthText v ++ lit ":" ++ text v ++ lit "\n" ++ s) = none := by
    intro key v s hv
    obtain rfl := Option.isNone_iff_eq_none.mp (Option.isSome_eq_false_iff.mp hv)
    simpa [lengthText, text] using field_read_of_no_length key (lit "\n" ++ s)
  have hsplit : self.headerText ++ rest =
      lit "suitename:" ++ lengthText (self .suitename) ++ lit ":" ++ text (self .suitename) ++ lit "\n" ++
      (lit "testname:" ++ lengthText (self .testname) ++ lit ":" ++ text (self .testname) ++ lit "\n" ++
      (lit "teststart:" ++ lengthText (self .teststart) ++ lit ":" ++ text (self .teststart) ++ lit "\n" ++
        (lit "verbose\n" ++ rest))) := by
    simp only [Hash.headerText, Hash.batch, List.append_assoc]
    rfl
  have hfields : ((field "suitename:").pair ((field "testname:").pair (field "teststart:"))).read
      (self.headerText ++ rest) = none := by
    rw [hsplit]
    -- The first name without a value is where the reader stops.
    cases hsuite : (self .suitename).isSome with
    | false => exact Format.pair_read_of_none (hnone _ _ _ hsuite)
    | true =>
      rw [hline _ _ _ hsuite]
      refine Format.pair_read_write_of_none ?_
      cases htest : (self .testname).isSome with
      | false => exact Format.pair_read_of_none (hnone _ _ _ htest)
      | true =>
        rw [hline _ _ _ htest]
        refine Format.pair_read_write_of_none (hnone _ _ _ ?_)
        exact Bool.eq_false_iff.mpr fun hstart => h ⟨hsuite, htest, hstart⟩
  simp [header, Format.rename, Format.before, hfields]

end Header

section Create
variable {self : Hash} {sys : Sys} {fuel : Nat}

/-- The run of an object with undefined names differs from one with empty names in the header alone. -/
theorem printed_hash_create (ho : sys.Opens self.batch) : printed (self.create sys fuel) =
    self.headerText :: printed (self.batch.traverseGcda sys fuel self.batch.gcdaFolder) := printed_createWith ho

theorem hash_create_of_named (h : self.Named) : self.create sys fuel = self.batch.create sys fuel := by
  rw [Hash.create, headerText_of_named h]
  rfl

end Create

/-- Whatever fields are undefined and whatever the system answers, what an object writes can be read back exactly
    when its three names are defined; its records are those of the fields with empty texts in any case. -/
theorem readable_iff_named (self : Hash) (sys : Sys) (fuel : Nat) (ho : sys.Opens self.batch) :
    ∃ paths : List Str,
      printed (self.batch.create sys fuel) = self.batch.headerText :: paths.map self.batch.batchText ∧
      printed (self.create sys fuel) = self.headerText :: paths.map self.batch.batchText ∧
      (self.Named → self.create sys fuel = self.batch.create sys fuel) ∧
      readBatch (stream (self.create sys fuel)) =
        if self.Named then some (self.batch.header, paths.map self.batch.record) else none := by
  obtain ⟨paths, hpaths⟩ := printed_traverseGcda self.batch sys fuel self.batch.gcdaFolder
  have hprinted : printed (self.create sys fuel) = self.headerText :: paths.map self.batch.batchText := by
    rw [printed_hash_create ho, hpaths]
  have hstream : stream (self.create sys fuel) = self.headerText ++ paths.flatMap self.batch.batchText := by
    rw [stream, hprinted, List.flatten_cons, List.flatMap_def]
  refine ⟨paths, ?_, hprinted, hash_create_of_named, ?_⟩
  · rw [printed_create ho, hpaths]
  · rw [hstream]
    by_cases h : self.Named
    · rw [if_pos h, headerText_of_named h, readBatch_texts]
    · rw [if_neg h, readBatch, headerText_unreadable h, Option.bind_none]

/-- A hash in which every field is defined. -/
def CoverageBatch.hash (self : CoverageBatch) : Hash
  | .gcdaFolder => some self.gcdaFolder
  | .gcnoFolder => some self.gcnoFolder
  | .testname => some self.testname
  | .suitename => some self.suitename
  | .teststart => some self.teststart
  | .output => some self.output

@[simp] theorem CoverageBatch.hash_batch (self : CoverageBatch) : self.hash.batch = self := rfl

def namelessHash : Hash := (sampleBatch.hash.testname [none]).2

theorem nameless_unreadable : readBatch (stream (namelessHash.create sampleSys 3)) = none ∧
    readBatch (stream (sampleBatch.hash.create sampleSys 3)) ≠ none := by
  obtain ⟨_, -, -, -, hnameless⟩ := readable_iff_named namelessHash sampleSys 3 rfl
  obtain ⟨_, -, -, -, hnamed⟩ := readable_iff_named sampleBatch.hash sampleSys 3 rfl
  rw [if_neg (by decide)] at hnameless
  rw [if_pos (by decide)] at hnamed
  exact ⟨hnameless, by rw [hnamed]; simp⟩

end CoverityTool
