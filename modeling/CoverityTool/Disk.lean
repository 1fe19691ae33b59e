import CoverityTool.Tree

/-! The file system under the traversal: what a disk answers, how a tree stands on it, and which of its
    answers fail. -/

namespace CoverityTool
open Perl

/-- A file system as the traversal asks it, with links followed: which paths are directories, and what a
    directory lists. -/
structure Disk where
  isDir : Str → Bool
  names : Str → List Str

/-- The operations that fail in a run. A traversal examines and opens a path at most once, so a failure
    of an operation is a failure at a path. -/
structure Faults where
  /-- The text of `$!`, if the output cannot be opened. -/
  openOut : Option Str
  /-- `-d` cannot examine the entry. -/
  unexamined : Str → Bool
  /-- `opendir` cannot open the directory. -/
  unopened : Str → Bool

def Faults.none : Faults := ⟨.none, fun _ => false, fun _ => false⟩

def Disk.sys (d : Disk) (f : Faults) : Sys where
  openOut _ := match f.openOut with
    | .none => .ok ()
    | some errno => .error errno
  isDir p := d.isDir p && !f.unexamined p
  opendir p := if d.isDir p && !f.unopened p then some (d.names p) else .none

/-- The entries of `l` are those below the path `p`. -/
def Disk.Lists (d : Disk) (p : Str) : Listing → Prop
  | .nil => True
  | .dots _ rest => d.Lists p rest
  | .file n rest => d.isDir (p ++ lit "/" ++ n.chars) = false ∧ d.Lists p rest
  | .dir n sub rest =>
    (d.isDir (p ++ lit "/" ++ n.chars) = true ∧ d.names (p ++ lit "/" ++ n.chars) = sub.names ∧
      d.Lists (p ++ lit "/" ++ n.chars) sub) ∧ d.Lists p rest

/-- The tree `t` stands at the path `g`. -/
structure Disk.Holds (d : Disk) (g : Str) (t : Tree) : Prop where
  isDir : d.isDir g = true
  names : d.names g = t.listing.names
  lists : d.Lists g t.listing

/-! ### Every tree stands on some disk -/

/-- What the names lead to: a directory, with its contents, or another file. -/
def Listing.find : Listing → List Str → Option (Option Listing)
  | l, [] => some (some l)
  | .nil, _ :: _ => none
  | .dots _ rest, n :: ns => rest.find (n :: ns)
  | .file m rest, n :: ns => if m.chars = n then (if ns = [] then some none else none) else rest.find (n :: ns)
  | .dir m sub rest, n :: ns => if m.chars = n then sub.find ns else rest.find (n :: ns)

/-- What is found at the path `p` when `t` stands at `g` and nothing else does. -/
def Tree.resolve (t : Tree) (g p : Str) : Option (Option Listing) :=
  if p = g then some (some t.listing)
  else if g ++ [slash] <+: p then t.listing.find ((p.drop (g.length + 1)).splitOn slash)
  else none

def mount (g : Str) (t : Tree) : Disk where
  isDir p := (t.resolve g p).any Option.isSome
  names p := match t.resolve g p with
    | some (some l) => l.names
    | _ => []

theorem Tree.resolve_pathOf (t : Tree) (g : Str) (ns : List Name) :
    t.resolve g (pathOf g ns) = t.listing.find (ns.map Name.chars) := by
  cases ns with
  | nil => cases h : t.listing <;> simp [Tree.resolve, Listing.find, h]
  | cons n ns =>
    have hno : ∀ m ∈ n.chars :: ns.map Name.chars, slash ∉ m := fun m hm => by
      rw [← List.map_cons] at hm
      obtain ⟨k, -, rfl⟩ := List.mem_map.mp hm
      exact k.no_slash
    obtain ⟨s, hs, hsplit⟩ := Segments.splitOn_join hno
    have hpath : pathOf g (n :: ns) = g ++ [slash] ++ s := by
      rw [pathOf, List.map_cons, hs, List.append_assoc, List.singleton_append]
    have hne : g ++ [slash] ++ s ≠ g := by simp
    have hdrop : (g ++ [slash] ++ s).drop (g.length + 1) = s := List.drop_left' (by simp)
    rw [Tree.resolve, hpath, if_neg hne, if_pos (List.prefix_append _ _), hdrop, hsplit, List.map_cons]

theorem mount_lists {t : Tree} {g : Str} {l : Listing} (pre : List Name) (hl : l.Distinct)
    (h : ∀ n ∈ l.subs, ∀ ns : List Name, t.listing.find ((pre ++ n :: ns).map Name.chars) =
      l.find (n.chars :: ns.map Name.chars)) : (mount g t).Lists (pathOf g pre) l := by
  -- Entries after the first one have other names.
  have skip : ∀ {m n : Name} {rest : Listing}, m ∉ rest.subs → n ∈ rest.subs → m.chars ≠ n.chars :=
    fun hm hn heq => hm (by rwa [Name.ext heq])
  induction l generalizing pre with
  | nil => trivial
  | dots up rest ih => exact ih pre hl fun n hn ns => by rw [h n hn, Listing.find]
  | file m rest ih =>
    refine ⟨?_, ih pre hl.2 fun n hn ns => ?_⟩
    · have hm : t.resolve g (pathOf g (pre ++ [m])) = some none := by
        rw [Tree.resolve_pathOf, h m List.mem_cons_self, Listing.find, if_pos rfl]
        rfl
      rw [← pathOf_concat]
      simp [mount, hm]
    · rw [h n (List.mem_cons_of_mem m hn), Listing.find, if_neg (skip hl.1 hn)]
  | dir m sub rest ihs ihr =>
    have hm : ∀ ns : List Name, t.listing.find ((pre ++ [m] ++ ns).map Name.chars) =
        sub.find (ns.map Name.chars) := fun ns => by
      rw [List.append_assoc, List.singleton_append, h m List.mem_cons_self, Listing.find, if_pos rfl]
    have hsub : t.resolve g (pathOf g (pre ++ [m])) = some (some sub) := by
      have hfind := hm []
      rw [List.append_nil] at hfind
      rw [Tree.resolve_pathOf, hfind]
      cases sub <;> rfl
    refine ⟨?_, ihr pre hl.2.2 fun n hn ns => ?_⟩
    · rw [← pathOf_concat]
      refine ⟨by simp [mount, hsub], by simp [mount, hsub], ihs _ hl.2.1 fun n _ ns => ?_⟩
      rw [hm, List.map_cons]
    · rw [h n (List.mem_cons_of_mem m hn), Listing.find, if_neg (skip hl.1 hn)]

theorem mount_holds (g : Str) (t : Tree) : (mount g t).Holds g t where
  isDir := by simp [mount, Tree.resolve]
  names := by simp [mount, Tree.resolve]
  lists := by
    have h := mount_lists (t := t) (g := g) [] t.distinct fun n _ ns => rfl
    rwa [pathOf_nil] at h

end CoverityTool
