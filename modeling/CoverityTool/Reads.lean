import CoverityTool.Changes

/-! Directories that are read as lists: from its `opendir` on, a directory gives the names of one list, one after
    another. -/

namespace CoverityTool
open Perl Runs Dialogues

/-- The name that the event reads from the directory at the path. -/
def Event.read? (path : Str) : Event → Option Str
  | .readdir p name => if p = path then name else none
  | _ => none

/-- The names that the directory has given since it was opened, the latest first. -/
def reads (path : Str) (past : List Event) : List Str := (since path past).filterMap (Event.read? path)

/-- What had happened when the directory was last opened, the `opendir` with it. -/
def opening (path : Str) (past : List Event) : List Event := (past.reverse.dropWhile (· ≠ .opendir path true)).reverse

/-- From each `opendir` on, the directory at the path is read as a list of names. -/
def Env.Reads (env : Env) (path : Str) (names : List Event → List Str) : Prop :=
  ∀ past, env.readdir past path = (names (opening path past))[(reads path past).length]?

/-! ### What has been read -/

section Reads
variable {self : CoverageBatch} {env : Env} {path sub : Str} {names : List Event → List Str} {past : List Event}
variable {r : Run Str Event}

@[simp] theorem reads_opendir : reads path (past ++ [.opendir path true]) = [] := by simp [reads, since]

theorem reads_concat {e : Event} (h : e ≠ .opendir path true) :
    reads path (past ++ [e]) = (e.read? path).toList ++ reads path past := by
  rw [reads, since_append (by simpa using h.symm), List.reverse_singleton, List.singleton_append, List.filterMap_cons]
  cases e.read? path <;> rfl

@[simp] theorem reads_readdir : reads path (past ++ [.readdir path (some sub)]) = sub :: reads path past := by
  rw [reads_concat (by simp), Event.read?, if_pos rfl]
  rfl

/-- What an entry's traversal reads, it does not read from the directory of the entry. -/
theorem reads_entry (h : Goes self (.folder (path ++ lit "/" ++ sub)) r) :
    reads path (past ++ [.readdir path (some sub)] ++ r.calls) = sub :: reads path past := by
  have hnone : r.calls.reverse.filterMap (Event.read? path) = [] := by
    refine List.filterMap_eq_nil_iff.mpr fun e he => ?_
    cases e with
    | readdir q name =>
      have hne : q ≠ path := by
        rintro rfl
        exact h.leaves.2 _ (List.mem_reverse.mp he)
      exact if_neg hne
    | _ => rfl
  rw [reads, since_entry h, List.filterMap_append, hnone, List.nil_append, reads]
  simp [Event.read?]

theorem opening_concat {e : Event} (h : e ≠ .opendir path true) : opening path (past ++ [e]) = opening path past := by
  rw [opening, List.reverse_append, List.reverse_singleton, List.singleton_append, List.dropWhile_cons_of_pos (by simpa),
    opening]

theorem eq_of_read {e : Event} (h : e.read? path = some sub) : e = .readdir path (some sub) := by
  cases e with
  | readdir q name =>
    by_cases hq : q = path
    · rw [Event.read?, if_pos hq] at h
      rw [hq, h]
    · rw [Event.read?, if_neg hq] at h
      cases h
  | _ => cases h

theorem mem_reads : sub ∈ reads path past ↔ .readdir path (some sub) ∈ since path past := by
  constructor
  · intro h
    obtain ⟨e, he, hsub⟩ := List.mem_filterMap.mp h
    rwa [eq_of_read hsub] at he
  · intro h
    exact List.mem_filterMap.mpr ⟨_, h, if_pos rfl⟩

/-! ### What is left to read -/

/-- What has been read is how the list begins. -/
theorem Env.Reads.prefix_names (hreads : env.Reads path names) (h : env.Possible past) :
    (reads path past).reverse <+: names (opening path past) := by
  induction past using List.reverseRecOn with
  | nil => exact List.nil_prefix
  | append_singleton past e ih =>
    obtain ⟨hpast, he, -⟩ := allowed_append.mp h
    by_cases hopen : e = .opendir path true
    · rw [hopen, reads_opendir]
      exact List.nil_prefix
    · rw [reads_concat hopen, opening_concat hopen]
      cases hread : e.read? path with
      | none => exact ih hpast
      | some sub =>
        rw [eq_of_read hread] at he
        have hnext := (hreads past).symm.trans he.symm
        obtain ⟨rest, hrest⟩ := ih hpast
        rw [← hrest, List.getElem?_append_right (by simp), List.length_reverse, Nat.sub_self] at hnext
        obtain ⟨rest', rfl⟩ := List.head?_eq_some_iff.mp (List.head?_eq_getElem?.trans hnext)
        exact ⟨rest', by simp [← hrest]⟩

/-- The next answer is the first name that is left. -/
theorem Env.Reads.next (hreads : env.Reads path names) (h : env.Possible past) : ∃ rest,
    names (opening path past) = (reads path past).reverse ++ rest ∧ env.readdir past path = rest.head? := by
  obtain ⟨rest, hrest⟩ := hreads.prefix_names h
  refine ⟨rest, hrest.symm, ?_⟩
  rw [hreads past, ← hrest, List.getElem?_append_right (by simp), List.length_reverse, Nat.sub_self,
    List.head?_eq_getElem?]

/-- No name of a list without repetition is read twice. -/
theorem Env.Reads.fresh (hreads : env.Reads path names) (hnodup : (names (opening path past)).Nodup)
    (h : env.Possible past) (hsub : env.readdir past path = some sub) : .readdir path (some sub) ∉ since path past := by
  intro hmem
  obtain ⟨rest, hrest, hnext⟩ := hreads.next h
  rw [hrest] at hnodup
  have hhead : sub ∈ rest := List.mem_of_head? (hnext.symm.trans hsub)
  exact List.disjoint_of_nodup_append hnodup (List.mem_reverse.mpr (mem_reads.mpr hmem)) hhead

/-- At the end of the directory, all its names have been read. -/
theorem Env.Reads.complete (hreads : env.Reads path names) (h : env.Possible past)
    (hend : env.readdir past path = none) (hsub : sub ∈ names (opening path past)) :
    .readdir path (some sub) ∈ past := by
  obtain ⟨rest, hrest, hnext⟩ := hreads.next h
  have hnil : rest = [] := List.head?_eq_none_iff.mp (hnext.symm.trans hend)
  rw [hrest, hnil, List.append_nil, List.mem_reverse, mem_reads] at hsub
  exact List.mem_reverse.mp ((List.takeWhile_sublist _).subset hsub)

end Reads

/-- Directories are read as lists without repetition. -/
theorem proper_of_reads {env : Env} {names : Str → List Event → List Str} (hreads : ∀ path, env.Reads path (names path))
    (hnodup : ∀ path past, (names path past).Nodup)
    (hslash : ∀ path past, ∀ sub ∈ names path past, slash ∉ sub) : env.Proper where
  fresh hpast hsub := (hreads _).fresh (hnodup _ _) hpast hsub
  no_slash hpast hsub := by
    rw [hreads] at hsub
    exact hslash _ _ _ (List.mem_of_getElem? hsub)

end CoverityTool
