import Mathlib.Algebra.Group.Nat.Defs
import CoverityTool.Lib.Formats
import CoverityTool.CoverageBatch

/-! The batch format: a header and records, read as one stream of characters. A field is a key, a colon, the
    length of the value in decimal, a colon, the value, and a newline. -/

namespace CoverityTool
open Perl Formats Runs

/-! ### Fields -/

def isDigit (c : Nat) : Bool := '0'.toNat ≤ c && c ≤ '9'.toNat

def digitsValue (ds : Str) : Nat := ds.foldl (fun n c => 10 * n + (c - '0'.toNat)) 0

theorem digitsValue_decimal (n : Nat) : digitsValue (decimal n) = n := by
  rw [digitsValue, decimal, List.foldl_map]
  exact Nat.ofDigitChars_ten_toDigits

theorem isDigit_decimal (n : Nat) : ∀ c ∈ decimal n, isDigit c = true := fun c hc => by
  obtain ⟨d, hd, rfl⟩ := List.mem_map.mp hc
  have h := Nat.isDigit_of_mem_toDigits (by decide) (by decide) hd
  simp only [Char.isDigit, Bool.and_eq_true, decide_eq_true_eq] at h
  simp only [isDigit, Bool.and_eq_true, decide_eq_true_eq]
  exact h

theorem decimal_ne_nil (n : Nat) : decimal n ≠ [] := by simp [decimal, Nat.toDigits_ne_nil]

def number : Format Nat Nat :=
  .numeral decimal digitsValue isDigit ':'.toNat digitsValue_decimal isDigit_decimal decimal_ne_nil (by decide)

/-- A line with a length and a value, after its key and a colon. -/
def field (key : String) : Format Nat Str := ((Format.block number).before (lit "\n")).after (lit key)

/-! ### Header and records -/

structure Header where
  suitename : Str
  testname : Str
  teststart : Str
  deriving DecidableEq, Repr

structure Record where
  gcda : Str
  gcno : Str
  compilationDirectory : Str
  deriving DecidableEq, Repr

def header : Format Nat Header :=
  (((field "suitename:").pair ((field "testname:").pair (field "teststart:"))).before (lit "verbose\n")).rename
    (fun v => ⟨v.1, v.2.1, v.2.2⟩) (fun h => (h.suitename, h.testname, h.teststart)) fun _ => rfl

def record : Format Nat Record :=
  (((field "gcda:").pair ((field "gcno:").pair (field "compilation-directory:"))).before (lit "run\n")).rename
    (fun v => ⟨v.1, v.2.1, v.2.2⟩) (fun r => (r.gcda, r.gcno, r.compilationDirectory)) fun _ => rfl

def readBatch (s : Str) : Option (Header × List Record) :=
  (header.read s).bind fun r => (record.readAll r.2).map fun rs => (r.1, rs)

theorem record_write_ne_nil (r : Record) : record.write r ≠ [] := by
  have hrun : lit "run\n" ≠ [] := by decide
  exact List.append_ne_nil_of_right_ne_nil _ hrun

theorem readBatch_write (h : Header) (rs : List Record) :
    readBatch (header.write h ++ rs.flatMap record.write) = some (h, rs) := by
  rw [readBatch, header.read_write, Option.bind_some, record.readAll_write record_write_ne_nil, Option.map_some]

/-! ### What a reader takes from a text -/

def Header.letters (h : Header) : Str := h.suitename ++ (h.testname ++ h.teststart)

def Record.letters (r : Record) : Str := r.gcda ++ (r.gcno ++ r.compilationDirectory)

theorem digitsValue_lt {ds : Str} (h : ∀ c ∈ ds, isDigit c = true) : digitsValue ds < 10 ^ ds.length := by
  induction ds using List.reverseRecOn with
  | nil => decide
  | append_singleton ds c ih =>
    have hds := ih fun d hd => h d (List.mem_append_left _ hd)
    have hc := h c (by simp)
    simp only [isDigit, Bool.and_eq_true, decide_eq_true_eq, Char.reduceToNat] at hc
    have hvalue : digitsValue (ds ++ [c]) = 10 * digitsValue ds + (c - 48) := by simp [digitsValue]
    rw [hvalue, List.length_append, List.length_singleton, Nat.pow_succ]
    omega

theorem number_yields : number.Yields fun _ => [] := by
  refine Format.yields_numeral fun ds hne hds => ?_
  rw [decimal, List.length_map, Nat.length_toDigits_le_iff (by decide) (List.length_pos_iff.mpr hne)]
  exact digitsValue_lt hds

theorem field_yields (key : String) : (field key).Yields id := (number_yields.block.before _).after _

theorem header_yields : header.Yields Header.letters :=
  (((field_yields _).pair ((field_yields _).pair (field_yields _))).before _).rename (fun _ => rfl) fun _ => rfl

theorem record_yields : record.Yields Record.letters :=
  (((field_yields _).pair ((field_yields _).pair (field_yields _))).before _).rename (fun _ => rfl) fun _ => rfl

/-- What is read from a text are letters of it, and its own text is no longer. -/
theorem readBatch_yields {s : Str} {h : Header} {rs : List Record} (hr : readBatch s = some (h, rs)) :
    (h.letters ⊆ s ∧ ∀ r ∈ rs, r.letters ⊆ s) ∧
      (header.write h ++ rs.flatMap record.write).length ≤ s.length := by
  obtain ⟨⟨h', rest⟩, hread, hrs⟩ := Option.bind_eq_some_iff.mp hr
  obtain ⟨rs', hrecs, heq⟩ := Option.map_eq_some_iff.mp hrs
  obtain ⟨rfl, rfl⟩ := Prod.mk.injEq _ _ _ _ ▸ heq
  obtain ⟨hletters, hrest, hlen⟩ := header_yields hread
  obtain ⟨hmem, hlen'⟩ := record_yields.readMany hrecs
  refine ⟨⟨hletters, fun r hr => List.Subset.trans (hmem r hr) hrest⟩, ?_⟩
  rw [List.length_append]
  exact (Nat.add_le_add_left hlen' _).trans hlen

/-! ### What the program writes -/

namespace CoverageBatch
variable (self : CoverageBatch)

def header : Header := ⟨self.suitename, self.testname, self.teststart⟩

def record (gcdaFile : Str) : Record :=
  ⟨gcdaFile, self.getGcnoPath gcdaFile, dirname (self.getGcnoPath gcdaFile)⟩

end CoverageBatch

theorem field_write (key : String) (v : Str) :
    (field key).write v = lit key ++ (decimal v.length ++ lit ":" ++ v ++ lit "\n") := rfl

theorem headerText_eq (self : CoverageBatch) : self.headerText = header.write self.header := by
  simp only [CoverageBatch.headerText, header, CoverageBatch.header, Format.rename, Format.before, Format.pair,
    field_write, List.append_assoc]

theorem batchText_eq (self : CoverageBatch) (p : Str) : self.batchText p = record.write (self.record p) := by
  simp only [CoverageBatch.batchText, record, CoverageBatch.record, Format.rename, Format.before, Format.pair,
    field_write, List.append_assoc]

theorem batchText_injective (self : CoverageBatch) : Function.Injective self.batchText := fun p q h => by
  rw [batchText_eq, batchText_eq] at h
  exact congrArg Record.gcda (record.write_injective h)

theorem readBatch_texts (self : CoverageBatch) (paths : List Str) :
    readBatch (self.headerText ++ paths.flatMap self.batchText) = some (self.header, paths.map self.record) := by
  have hflat : paths.flatMap self.batchText = (paths.map self.record).flatMap record.write := by
    rw [List.flatMap_map]
    exact congrArg (List.flatMap · paths) (funext (batchText_eq self))
  rw [headerText_eq, hflat, readBatch_write]

def Call.text? : Call → Option Str
  | .print text => some text
  | _ => none

def printed (r : Prog) : List Str := r.calls.filterMap Call.text?

def Call.folder? : Call → Option Str
  | .opendir folder => some folder
  | _ => none

def opens (r : Prog) : List Str := r.calls.filterMap Call.folder?

/-- A traversal prints records and opens directories, whatever the system answers. -/
theorem traverseGcda_calls (self : CoverageBatch) (sys : Sys) (fuel : Nat) (folder : Str) :
    ∀ c ∈ (self.traverseGcda sys fuel folder).calls,
      (∃ p, c = .print (self.batchText p)) ∨ ∃ subfolder, c = .opendir subfolder := by
  induction fuel generalizing folder with
  | zero => simp [CoverageBatch.traverseGcda, Run.unfinished]
  | succ fuel ih =>
    rw [CoverageBatch.traverseGcda]
    refine Run.forall_calls_andThen ?_ ?_
    · intro c hc
      split at hc
      · exact Or.inl ⟨folder, List.mem_singleton.mp hc⟩
      · cases hc
    · split
      · simp
      · rw [readdirLoop]
        split
        · simp
        · refine Run.forall_calls_andThen ?_ (Run.forall_calls_each fun sub _ => ?_)
          · intro c hc
            exact Or.inr ⟨folder, List.mem_singleton.mp hc⟩
          · split
            · simp
            · exact ih _

theorem filterMap_text_eq_map {f : Str → Str} {cs : List Call}
    (h : ∀ c ∈ cs, (∃ p, c = .print (f p)) ∨ ∃ folder, c = .opendir folder) :
    ∃ paths : List Str, cs.filterMap Call.text? = paths.map f := by
  induction cs with
  | nil => exact ⟨[], rfl⟩
  | cons c cs ih =>
    obtain ⟨paths, hp⟩ := ih fun d hd => h d (List.mem_cons_of_mem c hd)
    rcases h c List.mem_cons_self with ⟨p, rfl⟩ | ⟨folder, rfl⟩
    · have hc : (Call.print (f p)).text? = some (f p) := rfl
      exact ⟨p :: paths, by rw [List.filterMap_cons_some hc, hp, List.map_cons]⟩
    · have hc : (Call.opendir folder).text? = none := rfl
      exact ⟨paths, by rw [List.filterMap_cons_none hc, hp]⟩

theorem printed_traverseGcda (self : CoverageBatch) (sys : Sys) (fuel : Nat) (folder : Str) :
    ∃ paths : List Str, printed (self.traverseGcda sys fuel folder) = paths.map self.batchText :=
  filterMap_text_eq_map (traverseGcda_calls self sys fuel folder)

/-! ### Whole runs -/

def Sys.Opens (sys : Sys) (self : CoverageBatch) : Prop := sys.openOut (lit ">" ++ self.output) = .ok ()

section CreateWith
variable {sys : Sys} {out text : Str} {r r' : Prog}

theorem createWith_of_opens (h : sys.openOut (lit ">" ++ out) = .ok ()) : createWith sys out text r =
    ((Run.call (.openOut (lit ">" ++ out))).andThen (.call (.print text))).andThen (r.andThen (.call .close)) := by
  simp only [createWith, h, Run.andThen_assoc]

theorem createWith_of_error {errno : Str} (h : sys.openOut (lit ">" ++ out) = .error errno) :
    createWith sys out text r = .die (lit "Could not open file '" ++ out ++ lit "' " ++ errno) := by
  simp only [createWith, h]

/-- The calls are the `open`, the print of the header, those of the traversal, and at the end the `close` if the run
    comes to it. -/
theorem createWith_calls (text : Str) (r : Prog) (h : sys.openOut (lit ">" ++ out) = .ok ()) :
    (createWith sys out text r).ending = r.ending ∧ ∃ tail : List Call, (∀ c ∈ tail, c = .close) ∧
      (createWith sys out text r).calls = .openOut (lit ">" ++ out) :: (.print text :: r.calls ++ tail) := by
  rw [createWith_of_opens h, Run.andThen_of_returned rfl]
  by_cases he : r.ending = .returned
  · rw [Run.andThen_of_returned he]
    exact ⟨he.symm, [.close], by simp, rfl⟩
  · rw [Run.andThen_of_ne he]
    exact ⟨rfl, [], by simp, by simp [Run.call, Run.andThen]⟩

theorem printed_createWith (h : sys.openOut (lit ">" ++ out) = .ok ()) :
    printed (createWith sys out text r) = text :: printed r := by
  obtain ⟨-, tail, htail, hcalls⟩ := createWith_calls text r h
  have hclose : tail.filterMap Call.text? = [] := by
    rw [List.filterMap_eq_nil_iff]
    intro c hc
    rw [htail c hc]
    rfl
  have htext : (Call.print text).text? = some text := rfl
  rw [printed, hcalls, List.filterMap_cons_none rfl, List.cons_append, List.filterMap_cons_some htext,
    List.filterMap_append, hclose, List.append_nil]
  rfl

theorem opens_createWith (h : sys.openOut (lit ">" ++ out) = .ok ()) : opens (createWith sys out text r) = opens r := by
  obtain ⟨-, tail, htail, hcalls⟩ := createWith_calls text r h
  have hclose : tail.filterMap Call.folder? = [] := by
    rw [List.filterMap_eq_nil_iff]
    intro c hc
    rw [htail c hc]
    rfl
  rw [opens, hcalls, List.filterMap_cons_none rfl, List.cons_append, List.filterMap_cons_none rfl,
    List.filterMap_append, hclose, List.append_nil]
  rfl

theorem createWith_cut (h : Run.Cut r r') : Run.Cut (createWith sys out text r) (createWith sys out text r') := by
  unfold createWith
  split
  · exact .refl _
  · exact (Run.Cut.refl _).andThen ((Run.Cut.refl _).andThen (h.andThen (.refl _)))

end CreateWith

section Create
variable {self : CoverageBatch} {sys : Sys}

theorem create_of_error {errno : Str} (h : sys.openOut (lit ">" ++ self.output) = .error errno) (fuel : Nat) :
    self.create sys fuel = .die (lit "Could not open file '" ++ self.output ++ lit "' " ++ errno) :=
  createWith_of_error h

theorem opens_of_returned {fuel : Nat} (h : (self.create sys fuel).ending = .returned) : sys.Opens self := by
  cases ho : sys.openOut (lit ">" ++ self.output) with
  | ok _ => exact ho
  | error errno =>
    rw [create_of_error ho] at h
    cases h

theorem create_ending (h : sys.Opens self) (fuel : Nat) :
    (self.create sys fuel).ending = (self.traverseGcda sys fuel self.gcdaFolder).ending :=
  (createWith_calls _ _ h).1

theorem printed_create (h : sys.Opens self) (fuel : Nat) :
    printed (self.create sys fuel) = self.headerText :: printed (self.traverseGcda sys fuel self.gcdaFolder) :=
  printed_createWith h

theorem printed_create_of_error {errno : Str} (h : sys.openOut (lit ">" ++ self.output) = .error errno) (fuel : Nat) :
    printed (self.create sys fuel) = [] := by
  rw [create_of_error h]
  rfl

end Create

/-- The stream of characters that a run writes, when every `print` writes its text. -/
def stream (r : Prog) : Str := (printed r).flatten

/-- The header and the records of a run are read back from its stream, whatever paths are handed to
    `prepare_batch` and whatever the system answers. Two streams are equal only with equal headers and
    records. -/
theorem stream_readable :
    (∀ (self : CoverageBatch) (paths : List Str),
      readBatch (self.headerText ++ paths.flatMap self.batchText) = some (self.header, paths.map self.record)) ∧
    (∀ (self : CoverageBatch) (sys : Sys) (fuel : Nat), sys.Opens self →
      ∃ paths : List Str, stream (self.create sys fuel) = self.headerText ++ paths.flatMap self.batchText ∧
        readBatch (stream (self.create sys fuel)) = some (self.header, paths.map self.record)) ∧
    (∀ (self other : CoverageBatch) (paths paths' : List Str),
      self.headerText ++ paths.flatMap self.batchText = other.headerText ++ paths'.flatMap other.batchText →
        self.header = other.header ∧ paths.map self.record = paths'.map other.record) := by
  refine ⟨readBatch_texts, fun self sys fuel h => ?_, fun self other paths paths' h => ?_⟩
  · obtain ⟨paths, hp⟩ := printed_traverseGcda self sys fuel self.gcdaFolder
    have hstream : stream (self.create sys fuel) = self.headerText ++ paths.flatMap self.batchText := by
      rw [stream, printed_create h, hp, List.flatten_cons, List.flatMap_def]
    exact ⟨paths, hstream, by rw [hstream, readBatch_texts]⟩
  · have hr := readBatch_texts self paths
    rw [h, readBatch_texts other paths'] at hr
    obtain ⟨hh, hrs⟩ := Prod.mk.injEq _ _ _ _ ▸ Option.some.inj hr
    exact ⟨hh.symm, hrs.symm⟩

end CoverityTool
