import CoverityTool.Failures

/-! What a run comes to see of a tree. A directory that is not entered looks like an empty one, and after one that
    cannot be opened nothing more is seen. The run writes what it would write of this smaller tree if nothing failed, so
    from the file alone the one cannot be told from the other. -/

namespace CoverityTool
open Perl Runs

namespace Listing

/-- The paths of the entries whose own name ends in `.gcda`. -/
def gcda (l : Listing) : List (List Name) := (l.entries.filter (·.name.isGcda)).map Entry.path

theorem gcda_file (n : Name) (rest : Listing) :
    (file n rest).gcda = (if n.isGcda then [[n]] else []) ++ rest.gcda := by
  simp only [gcda, entries, List.filter_cons]
  split <;> rfl

theorem gcda_dir (n : Name) (sub rest : Listing) :
    (dir n sub rest).gcda = (if n.isGcda then [[n]] else []) ++ (sub.gcda.map (n :: ·) ++ rest.gcda) := by
  have hsub : ((sub.entries.map (Entry.under n)).filter (·.name.isGcda)).map Entry.path = sub.gcda.map (n :: ·) := by
    rw [List.filter_map, List.map_map, gcda, List.map_map]
    rfl
  simp only [gcda, entries, List.filter_cons, List.filter_append] at hsub ⊢
  rw [← hsub]
  split <;> simp [Entry.path]

/-- Every entry is an entry of the other, too, and of the same kind. -/
def PartOf (l' l : Listing) : Prop := ∀ e' ∈ l'.entries, ∃ e ∈ l.entries, e.path = e'.path ∧ e'.isDir = e.isDir

end Listing

namespace Obstacles
variable (o : Obstacles)

/-- What is seen of a folder, and whether the visit ends before it is through. -/
def view (pre : List Name) : Listing → Listing × Bool
  | .nil => (.nil, false)
  | .dots up rest => (.dots up (view pre rest).1, (view pre rest).2)
  | .file n rest => (.file n (view pre rest).1, (view pre rest).2)
  | .dir n sub rest =>
    if o.blind (pre ++ [n]) then (.dir n .nil (view pre rest).1, (view pre rest).2)
    else if o.locked (pre ++ [n]) then (.dir n .nil .nil, true)
    else if (view (pre ++ [n]) sub).2 then (.dir n (view (pre ++ [n]) sub).1 .nil, true)
    else (.dir n (view (pre ++ [n]) sub).1 (view pre rest).1, (view pre rest).2)

variable {o} {pre : List Name} {n : Name} {l : Listing}

/-! ### The view as a listing -/

theorem view_subs : (o.view pre l).1.subs.Sublist l.subs := by
  induction l with
  | nil => exact List.Sublist.refl _
  | dots up rest ih => exact ih
  | file n rest ih => exact ih.cons_cons n
  | dir n sub rest _ ih =>
    rw [view]
    split
    · exact ih.cons_cons n
    · split
      · exact (List.nil_sublist _).cons_cons n
      · split
        · exact (List.nil_sublist _).cons_cons n
        · exact ih.cons_cons n

theorem view_distinct (h : l.Distinct) : (o.view pre l).1.Distinct := by
  induction l generalizing pre with
  | nil => trivial
  | dots up rest ih => exact ih h
  | file n rest ih => exact ⟨fun hn => h.1 (view_subs.subset hn), ih h.2⟩
  | dir n sub rest ihs ihr =>
    have hrest : n ∉ (o.view pre rest).1.subs := fun hn => h.1 (view_subs.subset hn)
    rw [view]
    split
    · exact ⟨hrest, trivial, ihr h.2.2⟩
    · split
      · exact ⟨List.not_mem_nil, trivial, trivial⟩
      · split
        · exact ⟨List.not_mem_nil, ihs h.2.1, trivial⟩
        · exact ⟨hrest, ihs h.2.1, ihr h.2.2⟩

theorem view_partOf : (o.view pre l).1.PartOf l := by
  induction l generalizing pre with
  | nil => exact fun e he => absurd he List.not_mem_nil
  | dots up rest ih => exact ih
  | file n rest ih =>
    intro e' he'
    rcases List.mem_cons.mp he' with rfl | he'
    · exact ⟨_, List.mem_cons_self, rfl, rfl⟩
    · obtain ⟨e, he, h⟩ := ih e' he'
      exact ⟨e, List.mem_cons_of_mem _ he, h⟩
  | dir n sub rest ihs ihr =>
    -- The directory itself, what is seen below it, and what is seen after it.
    have hself : ∃ e ∈ (Listing.dir n sub rest).entries, e.path = Entry.path ⟨[], n, true⟩ ∧ true = e.isDir :=
      ⟨⟨[], n, true⟩, List.mem_cons_self, rfl, rfl⟩
    have hsub : ∀ e' ∈ (o.view (pre ++ [n]) sub).1.entries.map (Entry.under n),
        ∃ e ∈ (Listing.dir n sub rest).entries, e.path = e'.path ∧ e'.isDir = e.isDir := by
      rw [List.forall_mem_map]
      intro e' he'
      obtain ⟨e, he, hpath, hdir⟩ := ihs e' he'
      refine ⟨e.under n, List.mem_cons_of_mem _ (List.mem_append_left _ (List.mem_map_of_mem he)), ?_, hdir⟩
      rw [Entry.under_path, Entry.under_path, hpath]
    have hrest : ∀ e' ∈ (o.view pre rest).1.entries,
        ∃ e ∈ (Listing.dir n sub rest).entries, e.path = e'.path ∧ e'.isDir = e.isDir := by
      intro e' he'
      obtain ⟨e, he, h⟩ := ihr e' he'
      exact ⟨e, List.mem_cons_of_mem _ (List.mem_append_right _ he), h⟩
    unfold Listing.PartOf
    rw [view]
    split
    · exact List.forall_mem_cons.mpr ⟨hself, hrest⟩
    · split
      · exact List.forall_mem_cons.mpr ⟨hself, by simp [Listing.entries]⟩
      · split
        · refine List.forall_mem_cons.mpr ⟨hself, List.forall_mem_append.mpr ⟨hsub, by simp [Listing.entries]⟩⟩
        · exact List.forall_mem_cons.mpr ⟨hself, List.forall_mem_append.mpr ⟨hsub, hrest⟩⟩

/-! ### The view as a visit -/

theorem found_find : found (find pre n) = if n.isGcda then [pre ++ [n]] else [] := by
  unfold find found
  split <;> rfl

theorem found_andThen {a b : Run Str Visit} (ha : a.ending = .returned) :
    found (a.andThen b) = found a ++ found b := by
  rw [Run.andThen_of_returned ha, found, found, found, List.filterMap_append]

/-- The run ends as the view says, and has found the gcda entries of the view. -/
def Sees (r : Run Str Visit) (pre : List Name) (v : Listing × Bool) : Prop :=
  r.ending = (if v.2 then .died (lit "Died") else .returned) ∧ found r = v.1.gcda.map (pre ++ ·)

theorem Sees.call_opened {r : Run Str Visit} {v : Listing × Bool} {ns : List Name} (h : Sees r pre v) :
    Sees ((Run.call (.opened ns)).andThen r) pre v := by
  refine ⟨h.1, ?_⟩
  rw [found_andThen rfl, h.2]
  rfl

theorem Sees.find {r : Run Str Visit} {l : Listing} {b : Bool} (h : Sees r pre (l, b)) :
    Sees ((find pre n).andThen r) pre (.file n l, b) := by
  refine ⟨?_, ?_⟩
  · rw [Run.andThen_of_returned find_ending]
    exact h.1
  · rw [found_andThen find_ending, found_find, h.2, Listing.gcda_file, List.map_append]
    split <;> rfl

/-- The contents of a directory that is entered, and then what comes after it. -/
theorem Sees.dir {r r' : Run Str Visit} {sub rest : Listing} {b b' : Bool} (h : Sees r (pre ++ [n]) (sub, b))
    (h' : Sees r' pre (rest, b')) : Sees ((Obstacles.find pre n).andThen (r.andThen r')) pre
      (if b then (.dir n sub .nil, true) else (.dir n sub rest, b')) := by
  obtain ⟨hend, hfound⟩ := h
  have hsub : sub.gcda.map (pre ++ [n] ++ ·) = (sub.gcda.map (n :: ·)).map (pre ++ ·) := by
    simp [Function.comp_def]
  cases b with
  | true =>
    have hdied : r.ending ≠ .returned := by simp [hend]
    rw [Run.andThen_of_ne hdied]
    refine ⟨by rw [Run.andThen_of_returned find_ending, hend]; rfl, ?_⟩
    rw [found_andThen find_ending, found_find, hfound, hsub, if_pos rfl, Listing.gcda_dir, List.map_append]
    split <;> simp [Listing.gcda, Listing.entries]
  | false =>
    have hreturned : r.ending = .returned := hend
    refine ⟨by rw [Run.andThen_of_returned find_ending, Run.andThen_of_returned hreturned]; exact h'.1, ?_⟩
    rw [found_andThen find_ending, found_andThen hreturned, found_find, hfound, hsub, h'.2, if_neg Bool.false_ne_true,
      Listing.gcda_dir, List.map_append, List.map_append]
    split <;> rfl

theorem visit_sees : Sees (o.visit pre l) pre (o.view pre l) := by
  induction l generalizing pre with
  | nil => exact ⟨rfl, rfl⟩
  | dots up rest ih => exact ih
  | file n rest ih => exact ih.find
  | dir n sub rest ihs ihr =>
    have hblind : Sees .skip (pre ++ [n]) (.nil, false) := ⟨rfl, rfl⟩
    have hlocked : Sees (.die (lit "Died")) (pre ++ [n]) (.nil, true) := ⟨rfl, rfl⟩
    rw [visit, Run.andThen_assoc, enter, view]
    split
    · exact hblind.dir ihr
    · split
      · exact hlocked.dir ihr
      · exact ihs.call_opened.dir ihr

/-- What is seen of a tree, if its top directory is entered at all. -/
def viewTree (o : Obstacles) (t : Tree) : Tree :=
  if o.blind [] ∨ o.locked [] then ⟨.nil, trivial⟩ else ⟨(o.view [] t.listing).1, view_distinct t.distinct⟩

theorem viewTree_partOf (t : Tree) : (o.viewTree t).listing.PartOf t.listing := by
  unfold viewTree
  split
  · exact fun e he => absurd he List.not_mem_nil
  · exact view_partOf

theorem found_visitTree (t : Tree) : found (o.visitTree t) = (o.viewTree t).listing.gcda := by
  rw [visitTree, enter, viewTree]
  by_cases hb : o.blind [] = true
  · rw [if_pos hb, if_pos (Or.inl hb)]
    rfl
  · rw [if_neg hb]
    by_cases hl : o.locked [] = true
    · rw [if_pos hl, if_pos (Or.inr hl)]
      rfl
    · rw [if_neg hl, if_neg (not_or.mpr ⟨hb, hl⟩)]
      obtain ⟨-, hfound⟩ : Sees ((Run.call (.opened [])).andThen (o.visit [] t.listing)) [] _ := visit_sees.call_opened
      rw [hfound]
      exact List.map_id' _

end Obstacles

/-- Whatever cannot be examined or opened, what a run writes is also written, without any failure, of some part of
    the tree. -/
theorem failures_invisible (self : CoverageBatch) (d : Disk) (t : Tree) (f : Faults) (fuel : Nat)
    (hd : d.Holds self.gcdaFolder t) (hf : t.listing.depth < fuel) (ho : f.openOut = .none) :
    ∃ t' : Tree, t'.listing.PartOf t.listing ∧
      ∀ (d' : Disk) (fuel' : Nat), d'.Holds self.gcdaFolder t' → t'.listing.depth < fuel' →
        (self.create (d'.sys .none) fuel').ending = .returned ∧
        printed (self.create (d'.sys .none) fuel') = printed (self.create (d.sys f) fuel) := by
  refine ⟨(f.obstacles self.gcdaFolder).viewTree t, Obstacles.viewTree_partOf t, fun d' fuel' hd' hf' => ?_⟩
  obtain ⟨hend, hprinted⟩ := create_tree_none self hd' hf'
  refine ⟨hend, ?_⟩
  rw [hprinted, (create_tree self hd hf ho).2, Obstacles.found_visitTree, Listing.gcda, List.map_map]
  rfl

theorem failures_invisible_sample : ∃ t' : Tree, t'.listing.PartOf plainTree.listing ∧
    ∀ (d' : Disk) (fuel' : Nat), d'.Holds sampleBatch.gcdaFolder t' → t'.listing.depth < fuel' →
      printed (sampleBatch.create (d'.sys .none) fuel') = printed (sampleBatch.create
        ((mount sampleBatch.gcdaFolder plainTree).sys (.locking fun p => p = lit "gcda/Application/d")) 3) := by
  obtain ⟨t', hpart, hsame⟩ := failures_invisible sampleBatch _ plainTree
    (.locking fun p => p = lit "gcda/Application/d") 3 (mount_holds sampleBatch.gcdaFolder plainTree) (by decide) rfl
  exact ⟨t', hpart, fun d' fuel' hd' hf' => (hsame d' fuel' hd' hf').2⟩

end CoverityTool
