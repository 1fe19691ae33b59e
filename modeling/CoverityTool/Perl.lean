import Mathlib.Data.List.DropRight
import Mathlib.Data.List.Infix
import CoverityTool.Lib.Words

/-! What the program uses of Perl: strings, `rindex`, `substr`, the substitution of a fixed text, numbers
    in strings, `dirname` of File::Basename under Unix, and `open` with two arguments. -/

namespace CoverityTool

/-- A Perl string: the code points of its characters. -/
abbrev Str := List Nat

def lit (s : String) : Str := s.toList.map Char.toNat

namespace Perl

/-- `rindex STR, SUBSTR`: where the last occurrence begins, or -1. -/
def rindex (str sub : Str) : Int :=
  match Words.lastIndex? sub str with
  | some k => k
  | none => -1

/-- `substr EXPR, OFFSET`. A start past the end contributes the empty string, and a negative start counts
    from the end. -/
def substr (s : Str) (offset : Int) : Str :=
  if 0 ≤ offset then s.drop offset.toNat else s.drop (s.length - offset.natAbs)

/-- `s/pattern/replacement/` for a pattern that matches one fixed text. -/
def subst (pattern replacement s : Str) : Str := Words.replaceFirst pattern replacement s

def decimal (n : Nat) : Str := (Nat.toDigits 10 n).map Char.toNat

/-! ### File::Basename -/

abbrev slash : Nat := '/'.toNat

theorem lit_slash : lit "/" = [slash] := by decide

/-- `fileparse` without suffixes, `m{^(.*/)?(.*)}s`: the base name, and the directory part with its
    separator. -/
def fileparse (fullname : Str) : Str × Str :=
  let dirpath := fullname.rdropWhile (· ≠ slash)
  let basename := fullname.rtakeWhile (· ≠ slash)
  (basename, if dirpath = [] then lit "./" else dirpath)

/-- `s{(.)/*\z}{$1}s`: the separators at the end go, but the first character stays. -/
def stripTrailingSep (s : Str) : Str :=
  match s.rdropWhile (· = slash) with
  | [] => s.take 1
  | t => t

def dirname (path : Str) : Str :=
  let (basename, dirname) := fileparse path
  let dirname := stripTrailingSep dirname
  if basename = [] then stripTrailingSep (fileparse dirname).2 else dirname

example : dirname (lit "/a/b/c.gcno") = lit "/a/b" := by decide
example : dirname (lit "c.gcno") = lit "." := by decide

section Paths
variable {a b p w : Str}

theorem rdropWhile_append_slash (hb : slash ∉ b) : (a ++ slash :: b).rdropWhile (· ≠ slash) = a ++ [slash] := by
  have hpos : ∀ c ∈ b.reverse, (decide (c ≠ slash)) = true := fun c hc => by
    simp only [decide_eq_true_eq]
    rintro rfl
    exact hb (List.mem_reverse.mp hc)
  rw [List.rdropWhile, List.reverse_append, List.reverse_cons, List.append_assoc, List.dropWhile_append_of_pos hpos]
  simp

theorem fileparse_append_slash (hb : slash ∉ b) : fileparse (a ++ slash :: b) = (b, a ++ [slash]) := by
  have hd := rdropWhile_append_slash (a := a) hb
  have ht : (a ++ slash :: b).rtakeWhile (· ≠ slash) = b := by
    have h := List.rdropWhile_append_rtakeWhile (p := fun c => decide (c ≠ slash)) (l := a ++ slash :: b)
    rw [hd, List.append_assoc, List.singleton_append] at h
    exact (List.cons_eq_cons.mp (List.append_cancel_left h)).2
  simp only [fileparse, hd, ht]
  simp

theorem fileparse_of_no_slash (hp : slash ∉ p) : fileparse p = (p, lit "./") := by
  have hpos : ∀ c ∈ p, (decide (c ≠ slash)) = true := fun c hc => by
    simp only [decide_eq_true_eq]
    rintro rfl
    exact hp hc
  simp only [fileparse, List.rdropWhile_eq_nil_iff.mpr hpos, List.rtakeWhile_eq_self_iff.mpr hpos, if_true]

theorem split_at_last_slash (p : Str) : slash ∉ p ∨ ∃ a b, p = a ++ slash :: b ∧ slash ∉ b := by
  by_cases h : [slash] <:+: p
  · obtain ⟨a, b, rfl, hb⟩ := Words.exists_last (by simp) h
    refine Or.inr ⟨a, b, by simp, fun hm => hb ?_⟩
    exact (List.singleton_infix_iff _ _).mpr hm
  · exact Or.inl fun hm => h ((List.singleton_infix_iff _ _).mpr hm)

/-- `dirname` is the part before the last separator, where that part names a directory plainly. -/
theorem dirname_append_slash (hb : slash ∉ b) (hne : b ≠ []) (ha : a ≠ []) (hl : a.getLast? ≠ some slash) :
    dirname (a ++ slash :: b) = a := by
  have hlast : ∀ h : a ≠ [], ¬ decide (a.getLast h = slash) = true := fun h he => by
    rw [decide_eq_true_eq] at he
    exact hl (by rw [List.getLast?_eq_some_getLast h, he])
  have hstrip : stripTrailingSep (a ++ [slash]) = a := by
    rw [stripTrailingSep, List.rdropWhile_concat_pos _ _ _ (by simp), List.rdropWhile_eq_self_iff.mpr hlast]
    cases a with
    | nil => exact absurd rfl ha
    | cons c a => rfl
  simp only [dirname, fileparse_append_slash hb, hne, if_false, hstrip]

theorem stripTrailingSep_subset (s : Str) : stripTrailingSep s ⊆ s := by
  unfold stripTrailingSep
  split
  · exact (List.take_prefix 1 s).subset
  · exact (List.rdropWhile_prefix _ _).subset

theorem mem_fileparse {c : Nat} (h : c ∈ (fileparse p).2) : c ∈ p ∨ c ∈ lit "./" := by
  simp only [fileparse] at h
  split at h
  · exact Or.inr h
  · exact Or.inl ((List.rdropWhile_prefix _ _).subset h)

/-- The letters of a directory name are those of the path, or of `./`. -/
theorem mem_dirname {c : Nat} (h : c ∈ dirname p) : c ∈ p ∨ c ∈ lit "./" := by
  simp only [dirname] at h
  split at h
  · rcases mem_fileparse (stripTrailingSep_subset _ h) with h | h
    · exact mem_fileparse (stripTrailingSep_subset _ h)
    · exact Or.inr h
  · exact mem_fileparse (stripTrailingSep_subset _ h)

def lastComponent (p : Str) : Str := (fileparse p).1

theorem suffix_lastComponent (hw : slash ∉ w) : w <:+ lastComponent p ↔ w <:+ p := by
  rcases split_at_last_slash p with hp | ⟨a, b, rfl, hb⟩
  · rw [lastComponent, fileparse_of_no_slash hp]
  · rw [lastComponent, fileparse_append_slash hb, Words.suffix_append_cons hw]

end Paths

/-! ### `open` with two arguments -/

def isSpace (c : Nat) : Bool := c = ' '.toNat || ('\t'.toNat ≤ c && c ≤ '\r'.toNat)

/-- The blanks at both ends dropped. -/
def trim (s : Str) : Str := (s.rdropWhile isSpace).dropWhile isSpace

inductive Opening where
  | truncate (name : Str)
  | append (name : Str)
  | dup (handle : Str)
  | stdout
  deriving DecidableEq, Repr

/-- A file name that stands for the standard output: `-`, up to a blank or a colon. -/
def isStd : Str → Bool
  | [] => false
  | c :: s => c = '-'.toNat && match s with
    | [] => true
    | d :: _ => isSpace d || d = ':'.toNat

/-- What comes after `>` or `>>`: a handle after `&` or `&=`, and otherwise a file name. -/
def openingOf (file : Str → Opening) (s : Str) : Opening :=
  if lit "&" <+: s then
    let handle := s.drop 1
    .dup ((if lit "=" <+: handle then handle.drop 1 else handle).dropWhile isSpace)
  else
    let name := s.dropWhile isSpace
    if isStd name then .stdout else file name

/-- `open FILEHANDLE, EXPR` for writing: the mode is read from the front of `EXPR`. None for a mode other than
    `>` and `>>`. -/
def twoArgOpen (expr : Str) : Option Opening :=
  let expr := (expr.dropWhile isSpace).rdropWhile isSpace
  if lit ">>" <+: expr then some (openingOf .append (expr.drop 2))
  else if lit ">" <+: expr then some (openingOf .truncate (expr.drop 1))
  else none

example : twoArgOpen (lit "> a.batch\n") = some (.truncate (lit "a.batch")) := by decide
example : twoArgOpen (lit ">>&= STDOUT") = some (.dup (lit "STDOUT")) := by decide
example : twoArgOpen (lit ">- ") = some .stdout := by decide

section Open
variable {s : Str} {c : Nat}

theorem rdropWhile_cons (hc : isSpace c = false) : (c :: s).rdropWhile isSpace = c :: s.rdropWhile isSpace := by
  induction s using List.reverseRecOn with
  | nil => simp [List.rdropWhile_singleton, hc]
  | append_singleton s d ih =>
    by_cases hd : isSpace d = true
    · rw [← List.cons_append, List.rdropWhile_concat_pos _ _ _ hd, List.rdropWhile_concat_pos _ _ _ hd, ih]
    · rw [← List.cons_append, List.rdropWhile_concat_neg _ _ _ hd, List.rdropWhile_concat_neg _ _ _ hd]
      rfl

theorem singleton_prefix_rdropWhile (hc : isSpace c = false) : [c] <+: s.rdropWhile isSpace ↔ [c] <+: s := by
  constructor
  · exact fun h => h.trans (List.rdropWhile_prefix isSpace s)
  · rintro ⟨t, rfl⟩
    rw [List.singleton_append, rdropWhile_cons hc]
    exact ⟨_, rfl⟩

theorem openingOf_append_ne (name : Str) : openingOf .append s ≠ .truncate name := by
  unfold openingOf
  split
  · simp
  · dsimp only
    split <;> simp

/-- After `>`, a file is truncated exactly when the rest asks for no other mode and does not stand for the
    standard output; its name is the rest without the blanks at its ends. -/
theorem twoArgOpen_eq_truncate_iff {name : Str} :
    twoArgOpen (lit ">" ++ s) = some (.truncate name) ↔
      ¬ lit ">" <+: s ∧ ¬ lit "&" <+: s ∧ isStd (trim s) = false ∧ name = trim s := by
  have hgt : lit ">" = ['>'.toNat] := by decide
  have hamp : lit "&" = ['&'.toNat] := by decide
  have happend : lit ">>" = '>'.toNat :: lit ">" := by decide
  -- The mode keeps the blanks in front of the rest, and those at its end are dropped with it.
  have hexpr : ((lit ">" ++ s).dropWhile isSpace).rdropWhile isSpace = '>'.toNat :: s.rdropWhile isSpace := by
    rw [hgt, List.singleton_append, List.dropWhile_cons_of_neg (by decide), rdropWhile_cons (by decide)]
  have hmode : lit ">>" <+: '>'.toNat :: s.rdropWhile isSpace ↔ lit ">" <+: s := by
    rw [happend, List.prefix_cons_inj, hgt, singleton_prefix_rdropWhile (by decide)]
  have hdup : lit "&" <+: s.rdropWhile isSpace ↔ lit "&" <+: s := by
    rw [hamp, singleton_prefix_rdropWhile (by decide)]
  have hwrite : lit ">" <+: '>'.toNat :: s.rdropWhile isSpace := ⟨_, rfl⟩
  rw [twoArgOpen, hexpr]
  simp only [hmode, hwrite, if_true, List.drop_succ_cons, List.drop_zero]
  by_cases ha : lit ">" <+: s
  · simp [ha, openingOf_append_ne]
  · rw [if_neg ha, openingOf]
    by_cases hd : lit "&" <+: s
    · simp [hdup, hd]
    · simp only [hdup, hd, if_false]
      rw [← trim]
      cases hstd : isStd (trim s) <;> simp [ha, eq_comm]

end Open

end Perl

end CoverityTool
