import CoverityTool.Lib.Utf8
import CoverityTool.Traversal

/-! The octets that a `print` stores. The handle has no encoding layer, so the text of one `print` is stored
    one octet a character, or in UTF-8 if it has a character above 0xFF. The lengths in it count characters. -/

namespace CoverityTool
open Perl Formats Runs

/-- What is stored of a part of the printed text `text`. -/
def octets (text part : Str) : List Nat := if ∀ c ∈ text, c ≤ 0xFF then part else Utf8.encodeAll part

section Octets
variable {text v a b : Str}

@[simp] theorem octets_append : octets text (a ++ b) = octets text a ++ octets text b := by
  unfold octets
  split
  · rfl
  · exact Utf8.encodeAll_append a b

theorem length_le_octets (text v : Str) : v.length ≤ (octets text v).length := by
  unfold octets
  split
  · exact Nat.le_refl _
  · exact Utf8.length_le_encodeAll v

/-- A value has as many octets as characters when the whole text has no character above 0xFF, or the value
    none above 0x7F. -/
theorem length_octets_eq_iff :
    (octets text v).length = v.length ↔ (∀ c ∈ text, c ≤ 0xFF) ∨ ∀ c ∈ v, c < 0x80 := by
  unfold octets
  by_cases hnarrow : ∀ c ∈ text, c ≤ 0xFF
  · rw [if_pos hnarrow]
    exact ⟨fun _ => Or.inl hnarrow, fun _ => rfl⟩
  · rw [if_neg hnarrow, Utf8.length_encodeAll_eq_iff, or_iff_right hnarrow]

end Octets

/-! ### Fields in their texts -/

def Header.fields (h : Header) : List (String × Str) :=
  [("suitename:", h.suitename), ("testname:", h.testname), ("teststart:", h.teststart)]

def Record.fields (r : Record) : List (String × Str) :=
  [("gcda:", r.gcda), ("gcno:", r.gcno), ("compilation-directory:", r.compilationDirectory)]

theorem header_write_eq (h : Header) :
    header.write h = h.fields.flatMap (fun f => (field f.1).write f.2) ++ lit "verbose\n" := by
  simp [header, Header.fields, Format.rename, Format.before, Format.pair]

theorem record_write_eq (r : Record) :
    record.write r = r.fields.flatMap (fun f => (field f.1).write f.2) ++ lit "run\n" := by
  simp [record, Record.fields, Format.rename, Format.before, Format.pair]

/-- The field `f` stands in the text, and its length counts the octets of its value exactly when the text is
    narrow or the value is plain. -/
def CountsField (text : Str) (f : String × Str) : Prop :=
  (∃ a b, text = a ++ lit f.1 ++ decimal f.2.length ++ lit ":" ++ f.2 ++ lit "\n" ++ b ∧
    octets text text = octets text (a ++ lit f.1 ++ decimal f.2.length ++ lit ":") ++ octets text f.2 ++
      octets text (lit "\n" ++ b)) ∧
  ((octets text f.2).length = f.2.length ↔ (∀ c ∈ text, c ≤ 0xFF) ∨ ∀ c ∈ f.2, c < 0x80)

theorem countsField_of_mem {text rest : Str} {fields : List (String × Str)} {f : String × Str}
    (h : text = fields.flatMap (fun f => (field f.1).write f.2) ++ rest) (hf : f ∈ fields) : CountsField text f := by
  refine ⟨?_, length_octets_eq_iff⟩
  obtain ⟨before, after, rfl⟩ := List.append_of_mem hf
  have hsplit : text = before.flatMap (fun f => (field f.1).write f.2) ++ lit f.1 ++ decimal f.2.length ++ lit ":" ++
      f.2 ++ lit "\n" ++ (after.flatMap (fun f => (field f.1).write f.2) ++ rest) := by
    rw [h]
    simp only [List.flatMap_append, List.flatMap_cons, field_write, List.append_assoc]
  refine ⟨_, _, hsplit, (congrArg (octets text) hsplit).trans ?_⟩
  simp only [octets_append, List.append_assoc]

/-- In every run, the length of each field that is printed counts the octets stored of its value exactly when
    the text of the `print` has no character above 0xFF, or the value none above 0x7F. -/
theorem lengths_count_iff (self : CoverageBatch) (sys : Sys) (fuel : Nat) (ho : sys.Opens self) :
    ∃ recs : List Record,
      printed (self.create sys fuel) = header.write self.header :: recs.map record.write ∧
      (∀ f ∈ self.header.fields, CountsField (header.write self.header) f) ∧
      ∀ r ∈ recs, ∀ f ∈ r.fields, CountsField (record.write r) f := by
  obtain ⟨paths, hprinted⟩ := printed_create_eq self ho fuel
  refine ⟨_, hprinted, ?_, ?_⟩
  · intro f hf
    exact countsField_of_mem (header_write_eq _) hf
  · intro r _ f hf
    exact countsField_of_mem (record_write_eq r) hf

theorem lengths_count_sample : ∃ recs : List Record,
    printed (sampleBatch.create ((mount sampleBatch.gcdaFolder sampleTree).sys .none) 3) =
      header.write sampleBatch.header :: recs.map record.write ∧
    ∀ f ∈ sampleBatch.header.fields, CountsField (header.write sampleBatch.header) f := by
  obtain ⟨recs, hprinted, hheader, -⟩ :=
    lengths_count_iff sampleBatch ((mount sampleBatch.gcdaFolder sampleTree).sys .none) 3 rfl
  exact ⟨recs, hprinted, hheader⟩

def wideBatch : CoverageBatch := { sampleBatch with suitename := [0xE9], testname := [0x20AC] }

/-- The lengths in its header are 1, and the values after them have two and three octets. -/
theorem wide_header_miscounted :
    header.write wideBatch.header ∈ printed (wideBatch.create ((mount wideBatch.gcdaFolder sampleTree).sys .none) 3) ∧
    ("suitename:", [0xE9]) ∈ wideBatch.header.fields ∧ ("testname:", [0x20AC]) ∈ wideBatch.header.fields ∧
    octets (header.write wideBatch.header) [0xE9] = [0xC3, 0xA9] ∧
    octets (header.write wideBatch.header) [0x20AC] = [0xE2, 0x82, 0xAC] := by
  have ho : ((mount wideBatch.gcdaFolder sampleTree).sys .none).Opens wideBatch := rfl
  refine ⟨?_, List.mem_cons_self, List.mem_cons_of_mem _ List.mem_cons_self, by decide, by decide⟩
  rw [printed_create ho, headerText_eq]
  exact List.mem_cons_self

end CoverityTool
