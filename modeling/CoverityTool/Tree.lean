import Mathlib.Data.List.Nodup
import CoverityTool.Lib.Segments
import CoverityTool.Mapping

/-! Directory trees. The contents of a directory are a `Listing`: its entries in the order in which
    `readdir` gives them, with `.` and `..` among them anywhere. -/

namespace CoverityTool
open Perl

@[ext] structure Name where
  chars : Str
  ne_nil : chars ≠ []
  no_slash : slash ∉ chars
  ne_dot : chars ≠ lit "."
  ne_dotdot : chars ≠ lit ".."
  deriving DecidableEq

def Name.of (s : String) (h : lit s ≠ [] ∧ slash ∉ lit s ∧ lit s ≠ lit "." ∧ lit s ≠ lit ".." := by decide) : Name :=
  ⟨lit s, h.1, h.2.1, h.2.2.1, h.2.2.2⟩

def Name.isGcda (n : Name) : Bool := lit ".gcda" <:+ n.chars

/-! ### Paths -/

/-- The path of the entry reached from `g` by the names `ns`. -/
def pathOf (g : Str) (ns : List Name) : Str := g ++ Segments.join slash (ns.map Name.chars)

@[simp] theorem pathOf_nil (g : Str) : pathOf g [] = g := by simp [pathOf]

theorem pathOf_concat (g : Str) (ns : List Name) (n : Name) :
    pathOf g (ns ++ [n]) = pathOf g ns ++ lit "/" ++ n.chars := by
  simp [pathOf, lit_slash]

theorem pathOf_injective {g : Str} {ns ms : List Name} (h : pathOf g ns = pathOf g ms) : ns = ms := by
  have hno : ∀ ks : List Name, ∀ k ∈ ks.map Name.chars, slash ∉ k := fun ks k hk => by
    obtain ⟨n, -, rfl⟩ := List.mem_map.mp hk
    exact n.no_slash
  have hj := Segments.join_injective (hno ns) (hno ms) (List.append_cancel_left h)
  exact List.map_injective_iff.mpr (fun _ _ => Name.ext) hj

theorem pathOf_concat_cons (g : Str) (ns : List Name) (n : Name) :
    pathOf g (ns ++ [n]) = pathOf g ns ++ slash :: n.chars := by
  rw [pathOf_concat, List.append_assoc, lit_slash, List.singleton_append]

theorem suffix_pathOf {w : Str} (hw : slash ∉ w) {g : Str} {ns : List Name} {n : Name} :
    w <:+ pathOf g (ns ++ [n]) ↔ w <:+ n.chars := by
  rw [pathOf_concat_cons, Words.suffix_append_cons hw]

/-- Below the starting folder, a path is taken for a gcda file exactly when the entry's own name ends in
    `.gcda`: no dot of a parent directory is the last one before the text `gcda`. -/
theorem isGcdaFile_pathOf (g : Str) (ns : List Name) (n : Name) :
    isGcdaFile (pathOf g (ns ++ [n])) = n.isGcda := by
  rw [Bool.eq_iff_iff, isGcdaFile_iff, Name.isGcda, decide_eq_true_iff, suffix_pathOf (by decide)]
  refine or_iff_right fun h => ?_
  have hs : slash ∈ lit "gcda" := by
    rw [← h, pathOf_concat_cons]
    simp
  exact absurd hs (by decide)

/-! ### Listings -/

/-- The contents of a directory, in the order of `readdir`. -/
inductive Listing where
  | nil
  | dots (up : Bool) (rest : Listing)
  | file (name : Name) (rest : Listing)
  | dir (name : Name) (sub rest : Listing)

/-- An entry below a directory: the names of the folders on the way, and its own name. -/
@[ext] structure Entry where
  folder : List Name
  name : Name
  isDir : Bool
  deriving DecidableEq

def Entry.path (e : Entry) : List Name := e.folder ++ [e.name]

/-- The same entry, seen from the folder above. -/
def Entry.under (n : Name) (e : Entry) : Entry := { e with folder := n :: e.folder }

@[simp] theorem Entry.under_path (n : Name) (e : Entry) : (e.under n).path = n :: e.path := rfl
@[simp] theorem Entry.under_folder (n : Name) (e : Entry) : (e.under n).folder = n :: e.folder := rfl
@[simp] theorem Entry.under_name (n : Name) (e : Entry) : (e.under n).name = e.name := rfl
@[simp] theorem Entry.under_isDir (n : Name) (e : Entry) : (e.under n).isDir = e.isDir := rfl

theorem Entry.path_eq_cons {e : Entry} {n : Name} {ns : List Name} :
    e.path = n :: ns ↔ (ns = [] ∧ e = ⟨[], n, e.isDir⟩) ∨ ∃ e' : Entry, e = e'.under n ∧ e'.path = ns := by
  obtain ⟨folder, name, isDir⟩ := e
  cases folder with
  | nil =>
    constructor
    · intro h
      obtain ⟨rfl, rfl⟩ := List.cons_eq_cons.mp h
      exact Or.inl ⟨rfl, rfl⟩
    · rintro (⟨rfl, h⟩ | ⟨e', h, -⟩)
      · rw [h]
        rfl
      · simp [Entry.under] at h
  | cons m folder =>
    constructor
    · intro h
      obtain ⟨rfl, rfl⟩ := List.cons_eq_cons.mp h
      exact Or.inr ⟨⟨folder, name, isDir⟩, rfl, rfl⟩
    · rintro (⟨-, h⟩ | ⟨e', h, rfl⟩)
      · simp at h
      · rw [h]
        rfl

theorem pathOf_entry_ne (g : Str) (e : Entry) : pathOf g e.path ≠ g := by
  intro h
  have := pathOf_injective (h.trans (pathOf_nil g).symm)
  simp [Entry.path] at this

namespace Listing

/-- What `readdir` gives. -/
def names : Listing → List Str
  | nil => []
  | dots up rest => (if up then lit ".." else lit ".") :: rest.names
  | file n rest => n.chars :: rest.names
  | dir n _ rest => n.chars :: rest.names

def subs : Listing → List Name
  | nil => []
  | dots _ rest => rest.subs
  | file n rest => n :: rest.subs
  | dir n _ rest => n :: rest.subs

/-- How deep the entries reach: the recursion depth of a traversal. -/
def depth : Listing → Nat
  | nil => 0
  | dots _ rest => rest.depth
  | file _ rest => max 1 rest.depth
  | dir _ sub rest => max (sub.depth + 1) rest.depth

def entries : Listing → List Entry
  | nil => []
  | dots _ rest => rest.entries
  | file n rest => ⟨[], n, false⟩ :: rest.entries
  | dir n sub rest => ⟨[], n, true⟩ :: (sub.entries.map (Entry.under n) ++ rest.entries)

/-- No directory has two entries of one name. -/
def Distinct : Listing → Prop
  | nil => True
  | dots _ rest => rest.Distinct
  | file n rest => n ∉ rest.subs ∧ rest.Distinct
  | dir n sub rest => n ∉ rest.subs ∧ sub.Distinct ∧ rest.Distinct

instance decidableDistinct : (l : Listing) → Decidable l.Distinct
  | nil => .isTrue trivial
  | dots _ rest => decidableDistinct rest
  | file n rest =>
    have := decidableDistinct rest
    inferInstanceAs (Decidable (n ∉ rest.subs ∧ rest.Distinct))
  | dir n sub rest =>
    have := decidableDistinct sub
    have := decidableDistinct rest
    inferInstanceAs (Decidable (n ∉ rest.subs ∧ sub.Distinct ∧ rest.Distinct))

theorem path_head {l : Listing} {e : Entry} (he : e ∈ l.entries) : ∃ n ∈ l.subs, ∃ ns, e.path = n :: ns := by
  induction l with
  | nil => cases he
  | dots up rest ih => exact ih he
  | file m rest ih =>
    rcases List.mem_cons.mp he with rfl | he
    · exact ⟨m, List.mem_cons_self, [], rfl⟩
    · obtain ⟨n, hn, h⟩ := ih he
      exact ⟨n, List.mem_cons_of_mem m hn, h⟩
  | dir m sub rest _ ih =>
    rcases List.mem_cons.mp he with rfl | he
    · exact ⟨m, List.mem_cons_self, [], rfl⟩
    · rcases List.mem_append.mp he with he | he
      · obtain ⟨e', -, rfl⟩ := List.mem_map.mp he
        exact ⟨m, List.mem_cons_self, e'.path, rfl⟩
      · obtain ⟨n, hn, h⟩ := ih he
        exact ⟨n, List.mem_cons_of_mem m hn, h⟩

theorem paths_nodup {l : Listing} (h : l.Distinct) : (l.entries.map Entry.path).Nodup := by
  -- An entry of `rest` does not begin with the name of the entry before it.
  have fresh : ∀ {n : Name} {rest : Listing} {p : List Name}, n ∉ rest.subs →
      p ∈ rest.entries.map Entry.path → ∀ ns, p ≠ n :: ns := fun hn hp ns heq => by
    obtain ⟨e, he, rfl⟩ := List.mem_map.mp hp
    obtain ⟨m, hm, ms, hms⟩ := path_head he
    rw [hms] at heq
    obtain ⟨rfl, -⟩ := List.cons_eq_cons.mp heq
    exact hn hm
  induction l with
  | nil => exact List.nodup_nil
  | dots up rest ih => exact ih h
  | file n rest ih =>
    obtain ⟨hn, hr⟩ := h
    exact List.nodup_cons.mpr ⟨fun hm => fresh hn hm [] rfl, ih hr⟩
  | dir n sub rest ihs ihr =>
    obtain ⟨hn, hs, hr⟩ := h
    have hmap : (sub.entries.map (Entry.under n)).map Entry.path = (sub.entries.map Entry.path).map (n :: ·) := by
      simp [Function.comp_def]
    rw [entries, List.map_cons, List.map_append, hmap, List.nodup_cons, List.nodup_append]
    refine ⟨fun hm => ?_, List.Nodup.map List.cons_injective (ihs hs), ihr hr, fun p hp q hq heq => ?_⟩
    · rcases List.mem_append.mp hm with hm | hm
      · obtain ⟨p, hp, heq⟩ := List.mem_map.mp hm
        obtain ⟨e, -, rfl⟩ := List.mem_map.mp hp
        simp [Entry.path] at heq
      · exact fresh hn hm [] rfl
    · obtain ⟨r, -, rfl⟩ := List.mem_map.mp hp
      exact fresh hn hq r heq.symm

theorem entry_eq_of_path {l : Listing} (h : l.Distinct) {e e' : Entry} (he : e ∈ l.entries) (he' : e' ∈ l.entries)
    (hp : e.path = e'.path) : e = e' :=
  List.inj_on_of_nodup_map (paths_nodup h) he he' hp

end Listing

structure Tree where
  listing : Listing
  distinct : listing.Distinct

end CoverityTool
