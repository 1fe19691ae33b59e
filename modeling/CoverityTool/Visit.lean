import CoverityTool.Disk

/-! What a traversal is for: it visits the entries of a tree in order. It finds those whose own name ends in
    `.gcda`, and opens the directories; it passes over a directory that `-d` cannot examine and stops at
    one that cannot be opened. Visits name entries by the names that lead to them, so they do not depend
    on where the tree stands. `traverse_gcda` refines them. -/

namespace CoverityTool
open Perl Runs

inductive Visit where
  | found (ns : List Name)
  | opened (ns : List Name)
  deriving DecidableEq

structure Obstacles where
  blind : List Name → Bool
  locked : List Name → Bool

def Obstacles.none : Obstacles := ⟨fun _ => false, fun _ => false⟩

def Faults.obstacles (f : Faults) (g : Str) : Obstacles :=
  ⟨fun ns => f.unexamined (pathOf g ns), fun ns => f.unopened (pathOf g ns)⟩

@[simp] theorem Faults.obstacles_none (g : Str) : Faults.none.obstacles g = Obstacles.none := rfl

namespace Obstacles
variable (o : Obstacles)

def find (pre : List Name) (n : Name) : Run Str Visit :=
  if n.isGcda then .call (.found (pre ++ [n])) else .skip

/-- The directory `ns` is opened, and then its contents visited, unless it is an obstacle. -/
def enter (ns : List Name) (contents : Run Str Visit) : Run Str Visit :=
  if o.blind ns then .skip
  else if o.locked ns then .die (lit "Died")
  else (Run.call (.opened ns)).andThen contents

def visit (pre : List Name) : Listing → Run Str Visit
  | .nil => .skip
  | .dots _ rest => visit pre rest
  | .file n rest => (find pre n).andThen (visit pre rest)
  | .dir n sub rest =>
    ((find pre n).andThen (o.enter (pre ++ [n]) (visit (pre ++ [n]) sub))).andThen (visit pre rest)

def visitTree (t : Tree) : Run Str Visit := o.enter [] (o.visit [] t.listing)

end Obstacles

/-! ### Refinement -/

def CoverageBatch.render (self : CoverageBatch) (g : Str) : Visit → Call
  | .found ns => .print (self.batchText (pathOf g ns))
  | .opened ns => .opendir (pathOf g ns)

section Refinement
variable (self : CoverageBatch) {d : Disk} (f : Faults) {g : Str}

theorem found_eq_find (pre : List Name) (n : Name) :
    (if isGcdaFile (pathOf g (pre ++ [n])) then self.prepareBatch (pathOf g (pre ++ [n])) else .skip) =
      (Obstacles.find pre n).map (self.render g) := by
  rw [isGcdaFile_pathOf, Obstacles.find]
  split <;> rfl

theorem open_eq_enter (ns : List Name) {names : List Str} {body : Str → Prog} {contents : Run Str Visit}
    (hdir : d.isDir (pathOf g ns) = true) (hnames : d.names (pathOf g ns) = names)
    (hbody : Run.each (fun sub => if sub = lit "." ∨ sub = lit ".." then .skip else body sub) names =
      contents.map (self.render g)) :
    (if !(d.sys f).isDir (pathOf g ns) then .skip else readdirLoop (d.sys f) (pathOf g ns) body) =
      ((f.obstacles g).enter ns contents).map (self.render g) := by
  subst hnames
  cases hb : f.unexamined (pathOf g ns) with
  | true => simp [Disk.sys, Obstacles.enter, Faults.obstacles, hb]
  | false =>
    cases hl : f.unopened (pathOf g ns) with
    | true => simp [Disk.sys, readdirLoop, Obstacles.enter, Faults.obstacles, hdir, hb, hl]
    | false =>
      simp [Disk.sys, readdirLoop, Obstacles.enter, Faults.obstacles, hdir, hb, hl, hbody, Run.map_andThen,
        CoverageBatch.render]

/-- The loop of `traverse_gcda` over the names of a directory visits its contents. -/
theorem each_names (fuel : Nat) {l : Listing} {pre : List Name} (hl : d.Lists (pathOf g pre) l)
    (hf : l.depth ≤ fuel) :
    Run.each (fun sub => if sub = lit "." ∨ sub = lit ".." then .skip
        else self.traverseGcda (d.sys f) fuel (pathOf g pre ++ lit "/" ++ sub)) l.names =
      ((f.obstacles g).visit pre l).map (self.render g) := by
  induction l generalizing pre fuel with
  | nil => rfl
  | dots up rest ih =>
    have hdots : (if up then lit ".." else lit ".") = lit "." ∨ (if up then lit ".." else lit ".") = lit ".." := by
      cases up <;> simp
    rw [Listing.names, Run.each_cons, ih fuel hl hf, if_pos hdots, Run.skip_andThen, Obstacles.visit]
  | file n rest ih =>
    obtain ⟨hdir, hrest⟩ := hl
    have hf1 : 1 ≤ fuel := (le_max_left _ _).trans hf
    obtain ⟨fuel, rfl⟩ := Nat.exists_eq_add_of_le' hf1
    have hbody : self.traverseGcda (d.sys f) (fuel + 1) (pathOf g (pre ++ [n])) =
        (Obstacles.find pre n).map (self.render g) := by
      rw [← pathOf_concat] at hdir
      rw [CoverageBatch.traverseGcda, found_eq_find]
      simp [Disk.sys, hdir]
    rw [Listing.names, Run.each_cons, ih (fuel + 1) hrest ((le_max_right _ _).trans hf), ← pathOf_concat,
      hbody, if_neg (not_or.mpr ⟨n.ne_dot, n.ne_dotdot⟩), Obstacles.visit, Run.map_andThen]
  | dir n sub rest ihs ihr =>
    obtain ⟨⟨hdir, hnames, hsub⟩, hrest⟩ := hl
    have hf1 : sub.depth + 1 ≤ fuel := (le_max_left _ _).trans hf
    obtain ⟨fuel, rfl⟩ := Nat.exists_eq_add_of_le' ((Nat.le_add_left 1 _).trans hf1)
    have hbody : self.traverseGcda (d.sys f) (fuel + 1) (pathOf g (pre ++ [n])) =
        ((Obstacles.find pre n).andThen ((f.obstacles g).enter (pre ++ [n])
          ((f.obstacles g).visit (pre ++ [n]) sub))).map (self.render g) := by
      rw [← pathOf_concat] at hdir hnames hsub
      rw [CoverageBatch.traverseGcda, found_eq_find, Run.map_andThen,
        open_eq_enter self f _ hdir hnames (ihs fuel hsub (Nat.le_of_succ_le_succ hf1))]
    rw [Listing.names, Run.each_cons, ihr (fuel + 1) hrest ((le_max_right _ _).trans hf), ← pathOf_concat,
      hbody, if_neg (not_or.mpr ⟨n.ne_dot, n.ne_dotdot⟩), Obstacles.visit]
    simp only [Run.map_andThen]

/-- `traverse_gcda` on a tree with fuel for its depth: it looks at the name of the top directory, and then
    visits the tree. -/
theorem traverseGcda_tree {t : Tree} (hd : d.Holds g t) {fuel : Nat} (hf : t.listing.depth < fuel) :
    self.traverseGcda (d.sys f) fuel g =
      (if isGcdaFile g then self.prepareBatch g else .skip).andThen
        (((f.obstacles g).visitTree t).map (self.render g)) := by
  obtain ⟨fuel, rfl⟩ := Nat.exists_eq_add_of_le' ((Nat.le_add_left 1 _).trans hf)
  have hlists : d.Lists (pathOf g []) t.listing := by
    rw [pathOf_nil]
    exact hd.lists
  have hloop := each_names self f fuel hlists (Nat.le_of_lt_succ hf)
  rw [pathOf_nil] at hloop
  have h := open_eq_enter self f [] (by rw [pathOf_nil]; exact hd.isDir)
    (by rw [pathOf_nil]; exact hd.names) hloop
  rw [pathOf_nil] at h
  rw [CoverageBatch.traverseGcda, h, Obstacles.visitTree]

end Refinement

/-! ### What is visited -/

def Visit.found? : Visit → Option (List Name)
  | .found ns => some ns
  | .opened _ => none

def Visit.opened? : Visit → Option (List Name)
  | .found _ => none
  | .opened ns => some ns

def found (r : Run Str Visit) : List (List Name) := r.calls.filterMap Visit.found?

def opened (r : Run Str Visit) : List (List Name) := r.calls.filterMap Visit.opened?

namespace Obstacles
variable {o : Obstacles} {pre : List Name} {n : Name} {l : Listing}

@[simp] theorem find_ending : (find pre n).ending = .returned := by
  unfold find
  split <;> rfl

@[simp] theorem find_not_died : ¬ (find pre n).Died := Run.not_died find_ending

/-- All directories on the way to `ns`, from the top directory to `ns` itself, can be examined. -/
def Clear (o : Obstacles) (ns : List Name) : Prop := ∀ ms ∈ ns.inits, o.blind ms = false

instance (o : Obstacles) (ns : List Name) : Decidable (o.Clear ns) :=
  inferInstanceAs (Decidable (∀ ms ∈ ns.inits, o.blind ms = false))

theorem clear_iff {ns : List Name} : o.Clear ns ↔ ∀ ms, ms <+: ns → o.blind ms = false := by
  simp only [Clear, List.mem_inits]

theorem clear_nil : o.Clear [] ↔ o.blind [] = false := by simp [Clear]

theorem clear_concat : o.Clear (pre ++ [n]) ↔ o.Clear pre ∧ o.blind (pre ++ [n]) = false := by
  simp only [clear_iff, List.prefix_concat_iff, or_imp, forall_and, forall_eq]
  exact and_comm

theorem Clear.of_append {ns ms : List Name} (h : o.Clear (ns ++ ms)) : o.Clear ns :=
  clear_iff.mpr fun ks hk => clear_iff.mp h ks (hk.trans (List.prefix_append ns ms))

theorem clear_of_seeing (hb : ∀ ns, o.blind ns = false) (ns : List Name) : o.Clear ns := fun ms _ => hb ms

/-- What is done at an entry below the folder `pre`, as long as no directory on the way is locked. -/
def seen (o : Obstacles) (pre : List Name) (e : Entry) : List Visit :=
  (if e.name.isGcda ∧ o.Clear (pre ++ e.folder) then [.found (pre ++ e.path)] else []) ++
    if e.isDir ∧ o.Clear (pre ++ e.path) then [.opened (pre ++ e.path)] else []

def seenIn (o : Obstacles) (ns : List Name) (es : List Entry) : List Visit :=
  (if o.Clear ns then [.opened ns] else []) ++ es.flatMap (o.seen ns)

theorem seen_under (n : Name) (e : Entry) : o.seen pre (e.under n) = o.seen (pre ++ [n]) e := by
  have hpath : pre ++ (e.under n).path = pre ++ [n] ++ e.path := by simp
  have hfolder : pre ++ (e.under n).folder = pre ++ [n] ++ e.folder := by simp [Entry.under]
  rw [seen, seen, hpath, hfolder]
  rfl

theorem flatMap_seen_of_not_clear (h : ¬ o.Clear pre) (es : List Entry) : es.flatMap (o.seen pre) = [] := by
  refine List.flatMap_eq_nil_iff.mpr fun e _ => ?_
  rw [seen, if_neg fun he => h he.2.of_append, if_neg fun he => h he.2.of_append, List.append_nil]

theorem find_eq (hpre : o.Clear pre) (n : Name) : find pre n = ⟨.returned, o.seen pre ⟨[], n, false⟩⟩ := by
  unfold find seen
  cases hn : n.isGcda <;> simp [Entry.path, Run.call, Run.skip, hpre]

theorem seen_dir (es : List Entry) :
    o.seen pre ⟨[], n, true⟩ ++ es.flatMap (o.seen (pre ++ [n])) =
      o.seen pre ⟨[], n, false⟩ ++ o.seenIn (pre ++ [n]) es := by
  simp [seen, seenIn, Entry.path]

theorem enter_cut {ns : List Name} (hns : o.Clear ns ↔ o.blind ns = false)
    (h : o.Clear ns → Run.Cut (o.visit ns l) ⟨.returned, l.entries.flatMap (o.seen ns)⟩) :
    Run.Cut (o.enter ns (o.visit ns l)) ⟨.returned, o.seenIn ns l.entries⟩ := by
  unfold enter
  by_cases hb : o.blind ns = true
  · have hn : ¬ o.Clear ns := fun hc => by simp [hns.mp hc] at hb
    rw [if_pos hb, seenIn, if_neg hn, flatMap_seen_of_not_clear hn]
    exact .refl _
  · have hc : o.Clear ns := hns.mpr (Bool.not_eq_true _ ▸ hb)
    rw [if_neg hb]
    split
    · exact .of_die _
    · rw [seenIn, if_pos hc]
      exact (Run.Cut.refl (.call (.opened ns))).andThen (h hc)

/-- The contents of a folder are visited entry by entry, at every depth, until a locked directory ends the
    visit. -/
theorem visit_cut {pre : List Name} (hpre : o.Clear pre) :
    Run.Cut (o.visit pre l) ⟨.returned, l.entries.flatMap (o.seen pre)⟩ := by
  induction l generalizing pre with
  | nil => exact .refl _
  | dots _ rest ih => exact ih hpre
  | file n rest ih =>
    rw [visit, find_eq hpre, Listing.entries, List.flatMap_cons]
    exact (Run.Cut.refl _).andThen (ih hpre)
  | dir n sub rest ihs ihr =>
    have hsub : (sub.entries.map (Entry.under n)).flatMap (o.seen pre) = sub.entries.flatMap (o.seen (pre ++ [n])) := by
      rw [List.flatMap_map]
      exact congrArg (List.flatMap · _) (funext (seen_under n))
    have henter : Run.Cut (o.enter (pre ++ [n]) (o.visit (pre ++ [n]) sub)) _ :=
      enter_cut (by simp [clear_concat, hpre]) ihs
    -- A cut of the directory is a cut of the whole, and what comes after it is cut off as well.
    have hdir := ((Run.Cut.refl (find pre n)).andThen henter).andThen (ihr hpre)
    rw [find_eq hpre, Run.andThen_of_returned (a := ⟨_, _⟩) rfl, Run.andThen_of_returned (a := ⟨_, _⟩) rfl] at hdir
    rw [visit, find_eq hpre, Listing.entries, List.flatMap_cons, List.flatMap_append, hsub, ← List.append_assoc,
      seen_dir]
    exact hdir

theorem visitTree_cut (o : Obstacles) (t : Tree) :
    Run.Cut (o.visitTree t) ⟨.returned, o.seenIn [] t.listing.entries⟩ := enter_cut clear_nil visit_cut

/-! ### When a visit dies -/

/-- A directory of `l`, seen from the folder `pre`, that can be examined but not opened. -/
def Stuck (o : Obstacles) (pre : List Name) (l : Listing) : Prop :=
  ∃ e ∈ l.entries, e.isDir ∧ o.Clear (pre ++ e.path) ∧ o.locked (pre ++ e.path)

theorem enter_died {ns : List Name} (hns : o.Clear ns ↔ o.blind ns = false)
    (h : o.Clear ns → ((o.visit ns l).Died ↔ o.Stuck ns l)) :
    (o.enter ns (o.visit ns l)).Died ↔ o.Clear ns ∧ o.locked ns ∨ o.Stuck ns l := by
  unfold enter
  by_cases hb : o.blind ns = true
  · have hn : ¬ o.Clear ns := fun hc => by simp [hns.mp hc] at hb
    have hs : ¬ o.Stuck ns l := fun ⟨_, _, _, hc, _⟩ => hn hc.of_append
    simp [hb, hn, hs]
  · have hc : o.Clear ns := hns.mpr (Bool.not_eq_true _ ▸ hb)
    cases o.locked ns <;> simp [hb, hc, Run.andThen_died, h hc]

theorem stuck_dir {sub rest : Listing} : o.Stuck pre (.dir n sub rest) ↔
    (o.Clear (pre ++ [n]) ∧ o.locked (pre ++ [n]) ∨ o.Stuck (pre ++ [n]) sub) ∨ o.Stuck pre rest := by
  simp [Stuck, Listing.entries, Entry.path, or_and_right, exists_or, or_assoc]

theorem visit_died {pre : List Name} (hpre : o.Clear pre) : (o.visit pre l).Died ↔ o.Stuck pre l := by
  induction l generalizing pre with
  | nil => simp [visit, Stuck, Listing.entries]
  | dots _ rest ih => exact ih hpre
  | file n rest ih => simp [visit, Run.andThen_died, ih hpre, Stuck, Listing.entries]
  | dir n sub rest ihs ihr =>
    have hn : o.Clear (pre ++ [n]) ↔ o.blind (pre ++ [n]) = false := by simp [clear_concat, hpre]
    have hfin : ((find pre n).andThen (o.enter (pre ++ [n]) (o.visit (pre ++ [n]) sub))).ending ≠ .unfinished :=
      ((Run.Cut.refl _).andThen (enter_cut hn visit_cut)).finished (by simp [Run.andThen_of_returned])
    rw [visit, Run.andThen_died_of_finished hfin, ihr hpre, Run.andThen_died, enter_died hn ihs, stuck_dir]
    simp

end Obstacles

/-! ### Whole trees -/

def Tree.dirs (t : Tree) : List (List Name) := [] :: (t.listing.entries.filter (·.isDir)).map Entry.path

/-- The entries whose own name ends in `.gcda`, directories included. -/
def Tree.gcdaEntries (t : Tree) : List Entry := t.listing.entries.filter (·.name.isGcda)

/-- The data files: the gcda entries that are no directories. -/
def Tree.dataEntries (t : Tree) : List Entry := t.gcdaEntries.filter fun e => !e.isDir

/-- The gcda entries whose folders can all be examined. -/
def Obstacles.visible (o : Obstacles) (t : Tree) : List Entry :=
  t.listing.entries.filter fun e => e.name.isGcda ∧ o.Clear e.folder

theorem Obstacles.visible_of_seeing {o : Obstacles} (hb : ∀ ns, o.blind ns = false) (t : Tree) :
    o.visible t = t.gcdaEntries := by
  simp [Obstacles.visible, Tree.gcdaEntries, Obstacles.clear_of_seeing hb]

theorem Obstacles.visible_sublist (o : Obstacles) (t : Tree) : (o.visible t).Sublist t.gcdaEntries :=
  List.monotone_filter_right _ fun _ he => (decide_eq_true_iff.mp he).1

theorem Tree.mem_dataEntries {t : Tree} {e : Entry} :
    e ∈ t.dataEntries ↔ e ∈ t.listing.entries ∧ e.name.isGcda = true ∧ e.isDir = false := by
  rw [Tree.dataEntries, List.mem_filter, Tree.gcdaEntries, List.mem_filter, and_assoc, Bool.not_eq_true']

theorem Obstacles.visible_data (o : Obstacles) (t : Tree) :
    (o.visible t).filter (fun e => !e.isDir) = t.dataEntries.filter fun e => o.Clear e.folder := by
  simp only [Obstacles.visible, Tree.dataEntries, Tree.gcdaEntries, List.filter_filter]
  refine List.filter_congr fun e _ => ?_
  cases e.isDir <;> cases e.name.isGcda <;> simp

section Trees
variable (o : Obstacles) (t : Tree)

theorem flatMap_ite_singleton {α β : Type} {P : α → Prop} [DecidablePred P] {f : α → β} (xs : List α) :
    xs.flatMap (fun x => if P x then [f x] else []) = (xs.filter fun x => P x).map f := by
  induction xs with
  | nil => rfl
  | cons x xs ih =>
    rw [List.flatMap_cons, ih, List.filter_cons]
    by_cases h : P x <;> simp [h]

theorem found_seenIn (ns : List Name) (es : List Entry) :
    (o.seenIn ns es).filterMap Visit.found? =
      (es.filter fun e => e.name.isGcda ∧ o.Clear (ns ++ e.folder)).map fun e => ns ++ e.path := by
  have htop : (if o.Clear ns then [Visit.opened ns] else []).filterMap Visit.found? = [] := by
    split <;> simp [Visit.found?]
  have heach : ∀ e, (o.seen ns e).filterMap Visit.found? =
      if e.name.isGcda ∧ o.Clear (ns ++ e.folder) then [ns ++ e.path] else [] := fun e => by
    unfold Obstacles.seen
    split <;> split <;> simp [Visit.found?]
  rw [Obstacles.seenIn, List.filterMap_append, htop, List.nil_append, List.filterMap_flatMap, ← flatMap_ite_singleton]
  exact congrArg (List.flatMap · es) (funext heach)

theorem opened_seenIn (ns : List Name) (es : List Entry) :
    (o.seenIn ns es).filterMap Visit.opened? = (if o.Clear ns then [ns] else []) ++
      (es.filter fun e => e.isDir ∧ o.Clear (ns ++ e.path)).map fun e => ns ++ e.path := by
  have htop : (if o.Clear ns then [Visit.opened ns] else []).filterMap Visit.opened? =
      if o.Clear ns then [ns] else [] := by
    split <;> simp [Visit.opened?]
  have heach : ∀ e, (o.seen ns e).filterMap Visit.opened? =
      if e.isDir ∧ o.Clear (ns ++ e.path) then [ns ++ e.path] else [] := fun e => by
    unfold Obstacles.seen
    split <;> split <;> simp [Visit.opened?, List.filterMap_cons]
  rw [Obstacles.seenIn, List.filterMap_append, htop, List.filterMap_flatMap, ← flatMap_ite_singleton]
  exact congrArg (_ ++ List.flatMap · es) (funext heach)

theorem visitTree_died : (o.visitTree t).Died ↔ ∃ ns ∈ t.dirs, o.Clear ns ∧ o.locked ns := by
  rw [Obstacles.visitTree, Obstacles.enter_died Obstacles.clear_nil Obstacles.visit_died]
  simp [Obstacles.Stuck, Tree.dirs, and_assoc]

theorem found_visitTree_begins : found (o.visitTree t) <+: (o.visible t).map Entry.path := by
  have h := (o.visitTree_cut t).calls.filterMap Visit.found?
  rwa [found_seenIn] at h

variable {o t} in
theorem visitTree_of_not_died (h : ¬ (o.visitTree t).Died) :
    (o.visitTree t).ending = .returned ∧ found (o.visitTree t) = (o.visible t).map Entry.path := by
  have hcut := (o.visitTree_cut t).eq_of_not_died h
  rw [hcut, found, found_seenIn]
  exact ⟨rfl, rfl⟩

/-- Without obstacles, each gcda entry is found and each directory opened, at every depth. -/
theorem visitTree_none :
    (Obstacles.none.visitTree t).ending = .returned ∧
      found (Obstacles.none.visitTree t) = t.gcdaEntries.map Entry.path ∧
      opened (Obstacles.none.visitTree t) = t.dirs := by
  have hclear : ∀ ns, Obstacles.none.Clear ns := Obstacles.clear_of_seeing fun _ => rfl
  have hdied : ¬ (Obstacles.none.visitTree t).Died := fun h => by
    obtain ⟨ns, -, -, hl⟩ := (visitTree_died _ t).mp h
    cases hl
  obtain ⟨hend, hfound⟩ := visitTree_of_not_died hdied
  rw [Obstacles.visible_of_seeing fun _ => rfl] at hfound
  refine ⟨hend, hfound, ?_⟩
  rw [(Obstacles.none.visitTree_cut t).eq_of_not_died hdied, opened, opened_seenIn]
  simp [hclear, Tree.dirs]

end Trees

end CoverityTool
