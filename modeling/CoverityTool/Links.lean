import CoverityTool.Lib.Graphs
import CoverityTool.Traversal

/-! Traversal of a file system with links. A directory can be reached by several paths, and from itself. The
    traversal keeps no record of where it has been: it visits the tree that the file system unfolds to, so
    it opens a directory once for each path, and it does not end when a cycle is reached. -/

namespace CoverityTool
open Perl Runs Graphs

/-! ### Traversals that end -/

section Fuel
variable {self : CoverageBatch} {sys : Sys} {folder : Str}

/-- With more fuel a traversal goes on where it was left. -/
theorem traverseGcda_begins {fuel : Nat} :
    (self.traverseGcda sys fuel folder).Begins (self.traverseGcda sys (fuel + 1) folder) := by
  induction fuel generalizing folder with
  | zero => exact Run.unfinished_begins
  | succ fuel ih =>
    rw [CoverageBatch.traverseGcda, CoverageBatch.traverseGcda]
    refine (Run.Begins.refl _).andThen fun _ => ?_
    cases sys.isDir folder with
    | false => exact .refl _
    | true =>
      simp only [Bool.not_true, Bool.false_eq_true, if_false, readdirLoop]
      cases sys.opendir folder with
      | none => exact .refl _
      | some subs =>
        refine (Run.Begins.refl _).andThen fun _ => Run.Begins.each fun sub _ => ?_
        split
        · exact .refl _
        · exact ih

theorem traverseGcda_of_le {fuel fuel' : Nat} (h : (self.traverseGcda sys fuel folder).ending ≠ .unfinished)
    (hle : fuel ≤ fuel') : self.traverseGcda sys fuel' folder = self.traverseGcda sys fuel folder := by
  have hbegins : (self.traverseGcda sys fuel folder).Begins (self.traverseGcda sys fuel' folder) :=
    Run.begins_of_le (r := fun fuel => self.traverseGcda sys fuel folder) (fun _ => traverseGcda_begins) hle
  exact (hbegins.eq_of_finished h).symm

def CoverageBatch.Traverses (self : CoverageBatch) (sys : Sys) (folder : Str) (r : Prog) : Prop :=
  ∃ fuel, self.traverseGcda sys fuel folder = r ∧ r.ending ≠ .unfinished

theorem traverses_unique {r r' : Prog} (h : self.Traverses sys folder r) (h' : self.Traverses sys folder r') :
    r = r' := by
  obtain ⟨fuel, rfl, hr⟩ := h
  obtain ⟨fuel', rfl, hr'⟩ := h'
  rcases Nat.le_total fuel fuel' with hle | hle
  · exact (traverseGcda_of_le hr hle).symm
  · exact traverseGcda_of_le hr' hle

end Fuel

/-! ### File systems with links -/

inductive Item (ι : Type) where
  | dots (up : Bool)
  | entry (name : Name) (node : ι)

namespace Item
variable {ι : Type}

def text : Item ι → Str
  | dots up => if up then lit ".." else lit "."
  | entry n _ => n.chars

def edge? : Item ι → Option (Name × ι)
  | dots _ => none
  | entry n v => some (n, v)

theorem edge?_eq_some {i : Item ι} {n : Name} {v : ι} : i.edge? = some (n, v) ↔ i = .entry n v := by
  cases i with
  | dots up => simp [edge?]
  | entry m u => simp [edge?]

end Item

/-- A file system, with links followed: what a directory lists, and nothing for another file. Entries of
    several directories can lead to one node. -/
structure FileSystem (ι : Type) where
  node : ι → Option (List (Item ι))
  distinct : ∀ v items, node v = some items → ((items.filterMap Item.edge?).map Prod.fst).Nodup

namespace FileSystem
variable {ι : Type} (F : FileSystem ι)

def IsDir (v : ι) : Prop := (F.node v).isSome = true

def graph : NamedGraph Name ι where
  out v := ((F.node v).getD []).filterMap Item.edge?
  distinct v := by
    cases h : F.node v with
    | none => exact List.nodup_nil
    | some items => exact F.distinct v items h

variable {F}

theorem out_eq {v : ι} {items : List (Item ι)} (h : F.node v = some items) :
    F.graph.out v = items.filterMap Item.edge? := by simp [graph, h]

theorem mem_out {v u : ι} {n : Name} :
    (n, u) ∈ F.graph.out v ↔ ∃ items, F.node v = some items ∧ .entry n u ∈ items := by
  constructor
  · intro h
    cases hv : F.node v with
    | none => simp [graph, hv] at h
    | some items =>
      rw [out_eq hv] at h
      obtain ⟨i, hi, he⟩ := List.mem_filterMap.mp h
      exact ⟨items, rfl, Item.edge?_eq_some.mp he ▸ hi⟩
  · rintro ⟨items, hv, hi⟩
    rw [out_eq hv]
    exact List.mem_filterMap.mpr ⟨_, hi, rfl⟩

end FileSystem

/-- The paths below `g` lead to the nodes of the file system, as the names in them do from `root`. -/
def Disk.Shows {ι : Type} (d : Disk) (F : FileSystem ι) (g : Str) (root : ι) : Prop :=
  ∀ ns v, F.graph.follow root ns = some v → d.isDir (pathOf g ns) = (F.node v).isSome ∧
    ∀ items, F.node v = some items → d.names (pathOf g ns) = items.map Item.text

/-! ### Visits -/

namespace FileSystem
variable {ι : Type} (F : FileSystem ι) (o : Obstacles)

/-- The directory `v` at the path of the names `ns`, with what is done about each of its entries; nothing for another
    file. -/
def within (v : ι) (ns : List Name) (below : Name → ι → Run Str Visit) : Run Str Visit :=
  match F.node v with
  | none => .skip
  | some items => o.enter ns <| Run.each (fun
      | .dots _ => .skip
      | .entry n u => below n u) items

/-- The visit of what is at the path of the names `ns`, with fuel for what is below. -/
def visit : Nat → ι → List Name → Run Str Visit
  | 0, v, ns => F.within o v ns fun _ _ => .unfinished
  | fuel + 1, v, ns => F.within o v ns fun n u => (Obstacles.find ns n).andThen (visit fuel u (ns ++ [n]))

end FileSystem

def Visit.path : Visit → List Name
  | .found ns => ns
  | .opened ns => ns

section Visits
variable {ι : Type} {F : FileSystem ι} {o : Obstacles} {v : ι} {ns : List Name} {below : Name → ι → Run Str Visit}

theorem forall_calls_within {P : Visit → Prop} (hopened : F.IsDir v → P (.opened ns))
    (hbelow : ∀ n u, (n, u) ∈ F.graph.out v → ∀ c ∈ (below n u).calls, P c) :
    ∀ c ∈ (F.within o v ns below).calls, P c := by
  cases hv : F.node v with
  | none => simp [FileSystem.within, hv]
  | some items =>
    simp only [FileSystem.within, hv, Obstacles.enter]
    split
    · simp
    · split
      · simp
      · refine Run.forall_calls_andThen ?_ (Run.forall_calls_each fun i hi => ?_)
        · intro c hc
          obtain rfl := List.mem_singleton.mp hc
          exact hopened (by rw [FileSystem.IsDir, hv, Option.isSome_some])
        · cases i with
          | dots up => simp
          | entry n u => exact hbelow n u (FileSystem.mem_out.mpr ⟨items, hv, hi⟩)

theorem not_append_prefix {n : Name} : ¬ ns ++ [n] <+: ns := by
  intro h
  have hlen := h.length_le
  rw [List.length_append, List.length_singleton] at hlen
  omega

/-- What lies below different names is different. -/
theorem nodup_within (hnodup : ∀ n u, (n, u) ∈ F.graph.out v → (below n u).calls.Nodup)
    (hbelow : ∀ n u, (n, u) ∈ F.graph.out v → ∀ c ∈ (below n u).calls, ns ++ [n] <+: c.path) :
    (F.within o v ns below).calls.Nodup := by
  cases hv : F.node v with
  | none => simp [FileSystem.within, hv]
  | some items =>
    have hout : ∀ {n u}, .entry n u ∈ items → (n, u) ∈ F.graph.out v := fun hi =>
      FileSystem.mem_out.mpr ⟨items, hv, hi⟩
    simp only [FileSystem.within, hv, Obstacles.enter]
    split
    · simp
    · split
      · simp
      · refine Run.nodup_calls_andThen (by simp) (Run.nodup_calls_each ?_ ?_) ?_
        · intro i hi
          cases i with
          | dots up => simp
          | entry n u => exact hnodup n u (hout hi)
        · have hdistinct := F.distinct v items hv
          rw [List.Nodup, List.pairwise_map, List.pairwise_filterMap] at hdistinct
          refine hdistinct.imp_of_mem fun {i j} hi hj hij => ?_
          cases i with
          | dots up => simp
          | entry n u =>
            cases j with
            | dots up => simp
            | entry m w =>
              intro c hc hc'
              have hn := List.prefix_of_prefix_length_le (hbelow n u (hout hi) c hc) (hbelow m w (hout hj) c hc')
                (by simp)
              exact hij _ rfl _ rfl (by simpa using hn.eq_of_length (by simp))
        · intro c hc hc'
          obtain rfl := List.mem_singleton.mp hc
          refine Run.forall_calls_each (P := fun c => c ≠ .opened ns) ?_ _ hc' rfl
          rintro (up | ⟨n, u⟩) hi c hc rfl
          · simp at hc
          · exact not_append_prefix (hbelow n u (hout hi) _ hc)

theorem find_below {n : Name} : ∀ c ∈ (Obstacles.find ns n).calls, c = .found (ns ++ [n]) ∧ n.isGcda = true := by
  unfold Obstacles.find
  split
  · next hg => simp [hg]
  · simp

/-- A visit goes to what lies below, and opens the directory itself. -/
theorem visit_below {fuel : Nat} : ∀ c ∈ (F.visit o fuel v ns).calls, c = .opened ns ∨ ∃ n, ns ++ [n] <+: c.path := by
  induction fuel generalizing v ns with
  | zero => exact forall_calls_within (fun _ => Or.inl rfl) (by simp [Run.unfinished])
  | succ fuel ih =>
    refine forall_calls_within (fun _ => Or.inl rfl) fun n u _ => Run.forall_calls_andThen ?_ ?_
    · intro c hc
      obtain ⟨rfl, -⟩ := find_below c hc
      exact Or.inr ⟨n, List.prefix_rfl⟩
    · intro c hc
      rcases ih c hc with rfl | ⟨m, hm⟩
      · exact Or.inr ⟨n, List.prefix_rfl⟩
      · exact Or.inr ⟨n, (List.prefix_append _ _).trans hm⟩

/-- Whatever stands in its way and whether or not links lead back, a visit does nothing twice. -/
theorem visit_nodup {fuel : Nat} : (F.visit o fuel v ns).calls.Nodup := by
  induction fuel generalizing v ns with
  | zero => exact nodup_within (by simp [Run.unfinished]) (by simp [Run.unfinished])
  | succ fuel ih =>
    refine nodup_within (fun n u _ => ?_) fun n u _ => Run.forall_calls_andThen ?_ ?_
    · refine Run.nodup_calls_andThen ?_ ih fun c hc hc' => ?_
      · unfold Obstacles.find
        split <;> simp
      · -- The directory itself has not been found below it.
        obtain ⟨rfl, -⟩ := find_below c hc
        rcases visit_below _ hc' with hopened | ⟨m, hm⟩
        · cases hopened
        · exact not_append_prefix hm
    · intro c hc
      obtain ⟨rfl, -⟩ := find_below c hc
      exact List.prefix_rfl
    · intro c hc
      rcases visit_below c hc with rfl | ⟨m, hm⟩
      · exact List.prefix_rfl
      · exact (List.prefix_append _ _).trans hm

/-- What is visited is there: a directory where one is opened, and an entry with the name of a gcda file where one is
    found. -/
def Visit.Leads (F : FileSystem ι) (root : ι) : Visit → Prop
  | .opened ns => ∃ v, F.graph.follow root ns = some v ∧ F.IsDir v
  | .found ns => (∃ v, F.graph.follow root ns = some v) ∧ ∃ ms n, ns = ms ++ [n] ∧ n.isGcda = true

theorem visit_leads {root : ι} (hns : F.graph.follow root ns = some v) (fuel : Nat) :
    ∀ c ∈ (F.visit o fuel v ns).calls, c.Leads F root := by
  induction fuel generalizing v ns with
  | zero => exact forall_calls_within (fun hv => ⟨v, hns, hv⟩) (by simp [Run.unfinished])
  | succ fuel ih =>
    refine forall_calls_within (fun hv => ⟨v, hns, hv⟩) fun n u hu => Run.forall_calls_andThen ?_ ?_
    · intro c hc
      obtain ⟨rfl, hg⟩ := find_below c hc
      exact ⟨⟨u, NamedGraph.follow_concat hns hu⟩, ns, n, rfl, hg⟩
    · exact ih (NamedGraph.follow_concat hns hu)

/-- Obstacles that do not stand on any way do not matter. -/
theorem visit_of_accessible {root : ι} (hns : F.graph.follow root ns = some v)
    (h : ∀ ms u, F.graph.follow root ms = some u → F.IsDir u → o.blind ms = false ∧ o.locked ms = false) (fuel : Nat) :
    F.visit o fuel v ns = F.visit .none fuel v ns := by
  have within : ∀ {v ns} {below below' : Name → ι → Run Str Visit}, F.graph.follow root ns = some v →
      (∀ n u, (n, u) ∈ F.graph.out v → below n u = below' n u) →
      F.within o v ns below = F.within .none v ns below' := by
    intro v ns below below' hns hbelow
    cases hv : F.node v with
    | none => simp only [FileSystem.within, hv]
    | some items =>
      obtain ⟨hblind, hlocked⟩ := h ns v hns (by rw [FileSystem.IsDir, hv, Option.isSome_some])
      simp only [FileSystem.within, hv, Obstacles.enter, hblind, hlocked, Obstacles.none, Bool.false_eq_true, if_false]
      refine congrArg (Run.andThen _) (Run.each_congr fun i hi => ?_)
      cases i with
      | dots up => rfl
      | entry n u => exact hbelow n u (FileSystem.mem_out.mpr ⟨items, hv, hi⟩)
  induction fuel generalizing v ns with
  | zero => exact within hns fun _ _ _ => rfl
  | succ fuel ih => exact within hns fun n u hu => by rw [ih (NamedGraph.follow_concat hns hu)]

end Visits

section Refinement
variable {ι : Type} {F : FileSystem ι} {self : CoverageBatch} {d : Disk} {g : Str} {root v : ι} {ns : List Name}

theorem within_refined (f : Faults) (hd : d.Shows F g root) (hns : F.graph.follow root ns = some v) {body : Str → Prog}
    {below : Name → ι → Run Str Visit}
    (hbody : ∀ n u, (n, u) ∈ F.graph.out v → body n.chars = (below n u).map (self.render g)) :
    (if !(d.sys f).isDir (pathOf g ns) then .skip else readdirLoop (d.sys f) (pathOf g ns) body) =
      (F.within (f.obstacles g) v ns below).map (self.render g) := by
  obtain ⟨hdir, hnames⟩ := hd ns v hns
  cases hv : F.node v with
  | none =>
    have hother : d.isDir (pathOf g ns) = false := by rw [hdir, hv, Option.isSome_none]
    simp [FileSystem.within, hv, Disk.sys, hother]
  | some items =>
    rw [hv, Option.isSome_some] at hdir
    simp only [FileSystem.within, hv]
    refine open_eq_enter self f ns hdir (hnames items hv) ?_
    rw [Run.each_map, Run.map_each]
    refine Run.each_congr fun i hi => ?_
    cases i with
    | dots up => cases up <;> rfl
    | entry n u =>
      have hname : ¬(n.chars = lit "." ∨ n.chars = lit "..") := not_or.mpr ⟨n.ne_dot, n.ne_dotdot⟩
      exact (if_neg hname).trans (hbody n u (FileSystem.mem_out.mpr ⟨items, hv, hi⟩))

/-- `traverse_gcda` on a file system with links looks at the name of its folder, and then visits what is there. -/
theorem traverseGcda_visit (f : Faults) (hd : d.Shows F g root) (hns : F.graph.follow root ns = some v) (fuel : Nat) :
    self.traverseGcda (d.sys f) (fuel + 1) (pathOf g ns) =
      (if isGcdaFile (pathOf g ns) then self.prepareBatch (pathOf g ns) else .skip).andThen
        ((F.visit (f.obstacles g) fuel v ns).map (self.render g)) := by
  rw [CoverageBatch.traverseGcda]
  refine congrArg (Run.andThen _) ?_
  induction fuel generalizing v ns with
  | zero => exact within_refined f hd hns fun _ _ _ => rfl
  | succ fuel ih =>
    refine within_refined f hd hns fun n u hu => ?_
    rw [← pathOf_concat, CoverageBatch.traverseGcda, ih (NamedGraph.follow_concat hns hu), found_eq_find,
      Run.map_andThen]

end Refinement

/-! ### Cycles -/

section Cycles
variable {ι : Type} {F : FileSystem ι} {self : CoverageBatch} {d : Disk} {g : Str} {root v : ι} {ns : List Name}

theorem within_none {items : List (Item ι)} (hv : F.node v = some items) (below : Name → ι → Run Str Visit) :
    F.within .none v ns below = (Run.call (.opened ns)).andThen (Run.each (fun
      | .dots _ => .skip
      | .entry n u => below n u) items) := by
  simp [FileSystem.within, hv, Obstacles.enter, Obstacles.none]

/-- Where nothing stands in its way, a visit does not die, and where a cycle is reached no fuel is enough for it. -/
theorem visit_endless (hv : F.graph.Endless v) (fuel : Nat) : (F.visit .none fuel v ns).ending = .unfinished := by
  have not_died : ∀ fuel v ns, ¬ (F.visit .none fuel v ns).Died := by
    have within : ∀ {v ns} {below : Name → ι → Run Str Visit}, (∀ n u, ¬ (below n u).Died) →
        ¬ (F.within .none v ns below).Died := by
      intro v ns below hbelow
      cases hv : F.node v with
      | none => simp [FileSystem.within, hv]
      | some items =>
        rw [within_none hv, Run.andThen_died]
        rintro (hopened | ⟨-, hloop⟩)
        · exact Run.call_not_died _ hopened
        · refine Run.each_not_died (fun i _ => ?_) hloop
          cases i with
          | dots up => exact Run.skip_not_died
          | entry n u => exact hbelow n u
    intro fuel
    induction fuel with
    | zero => exact fun v ns => within fun _ _ => by simp [Run.Died, Run.unfinished]
    | succ fuel ih => exact fun v ns => within fun n u => by simp [Run.andThen_died, ih]
  have within : ∀ {v ns n u} {below : Name → ι → Run Str Visit}, (n, u) ∈ F.graph.out v → (∀ n u, ¬ (below n u).Died) →
      (below n u).ending = .unfinished → (F.within .none v ns below).ending = .unfinished := by
    intro v ns n u below hu hbelow hend
    obtain ⟨items, hitems, hi⟩ := FileSystem.mem_out.mp hu
    rw [within_none hitems, Run.andThen_of_returned rfl]
    refine Run.each_unfinished (fun j _ => ?_) hi hend
    cases j with
    | dots up => exact Run.skip_not_died
    | entry m w => exact hbelow m w
  -- The entry that leads on is never done with, and no entry before it ends the loop.
  obtain ⟨n, u, hu, hendless⟩ := hv.next
  induction fuel generalizing v ns n u with
  | zero => exact within hu (fun _ _ => by simp [Run.Died, Run.unfinished]) rfl
  | succ fuel ih =>
    refine within hu (fun m w => by simp [Run.andThen_died, not_died]) ?_
    obtain ⟨m, w, hw, hendless'⟩ := hendless.next
    rw [Run.andThen_of_returned Obstacles.find_ending]
    exact ih hendless m w hw hendless'

end Cycles

/-! ### Unfolding -/

/-- The listing shows the items, and below each directory what its node lists. -/
inductive FileSystem.Unfolds {ι : Type} (F : FileSystem ι) : List (Item ι) → Listing → Prop where
  | nil : Unfolds F [] .nil
  | dots (up : Bool) {items l} (rest : Unfolds F items l) : Unfolds F (.dots up :: items) (.dots up l)
  | file (n : Name) {v items l} (hv : F.node v = none) (rest : Unfolds F items l) :
    Unfolds F (.entry n v :: items) (.file n l)
  | dir (n : Name) {v contents sub items l} (hv : F.node v = some contents) (below : Unfolds F contents sub)
    (rest : Unfolds F items l) : Unfolds F (.entry n v :: items) (.dir n sub l)

section Unfold
variable {ι : Type} {F : FileSystem ι} {items : List (Item ι)} {l : Listing} {d : Disk} {g : Str} {root : ι}

theorem exists_unfolds [Finite ι] {v : ι} (h : ¬ F.graph.Endless v) :
    ∀ items, F.node v = some items → ∃ l, F.Unfolds items l := by
  refine NamedGraph.induction_of_not_endless
    (P := fun v => ∀ items, F.node v = some items → ∃ l, F.Unfolds items l) ?_ h
  intro v _ ih items hv
  have hnext : ∀ i ∈ items, ∀ n u, i = .entry n u →
      ∀ contents, F.node u = some contents → ∃ l, F.Unfolds contents l := by
    rintro i hi n u rfl
    exact ih n u (FileSystem.mem_out.mpr ⟨items, hv, hi⟩)
  -- The items are unfolded one by one, now that those of the next directories are.
  clear hv ih
  induction items with
  | nil => exact ⟨_, .nil⟩
  | cons i items ih =>
    obtain ⟨l, hl⟩ := ih fun j hj => hnext j (List.mem_cons_of_mem i hj)
    cases i with
    | dots up => exact ⟨_, .dots up hl⟩
    | entry n u =>
      cases hu : F.node u with
      | none => exact ⟨_, .file n hu hl⟩
      | some contents =>
        obtain ⟨sub, hsub⟩ := hnext _ List.mem_cons_self n u rfl contents hu
        exact ⟨_, .dir n hu hsub hl⟩

theorem unfolds_names (h : F.Unfolds items l) : l.names = items.map Item.text := by
  induction h with
  | nil => rfl
  | dots up _ ih => rw [Listing.names, ih, List.map_cons, Item.text]
  | file n _ _ ih => rw [Listing.names, ih, List.map_cons, Item.text]
  | dir n _ _ _ _ ih => rw [Listing.names, ih, List.map_cons, Item.text]

theorem unfolds_subs (h : F.Unfolds items l) : l.subs = (items.filterMap Item.edge?).map Prod.fst := by
  induction h with
  | nil => rfl
  | dots up _ ih => simp [Listing.subs, ih, Item.edge?, List.filterMap_cons]
  | file n _ _ ih => simp [Listing.subs, ih, Item.edge?]
  | dir n _ _ _ _ ih => simp [Listing.subs, ih, Item.edge?]

theorem unfolds_distinct (h : F.Unfolds items l) (hn : ((items.filterMap Item.edge?).map Prod.fst).Nodup) :
    l.Distinct := by
  induction h with
  | nil => trivial
  | dots up _ ih => exact ih hn
  | file n _ hrest ih =>
    obtain ⟨hfresh, hn⟩ := List.nodup_cons.mp hn
    exact ⟨by rwa [unfolds_subs hrest], ih hn⟩
  | @dir n v contents _ _ _ hv _ hrest ihb ihr =>
    obtain ⟨hfresh, hn⟩ := List.nodup_cons.mp hn
    exact ⟨by rwa [unfolds_subs hrest], ihb (F.distinct v contents hv), ihr hn⟩

theorem unfolds_lists (hd : d.Shows F g root) (h : F.Unfolds items l) {ns : List Name}
    (hns : ∀ n u, .entry n u ∈ items → F.graph.follow root (ns ++ [n]) = some u) : d.Lists (pathOf g ns) l := by
  induction h generalizing ns with
  | nil => trivial
  | dots up _ ih => exact ih fun n u hi => hns n u (List.mem_cons_of_mem _ hi)
  | @file n v items l hv _ ih =>
    obtain ⟨hdir, -⟩ := hd _ v (hns n v List.mem_cons_self)
    rw [pathOf_concat, hv] at hdir
    exact ⟨hdir, ih fun m u hi => hns m u (List.mem_cons_of_mem _ hi)⟩
  | @dir n v contents sub items l hv hbelow _ ihb ihr =>
    have hleads := hns n v List.mem_cons_self
    obtain ⟨hdir, hnames⟩ := hd _ v hleads
    have hlists : d.Lists (pathOf g (ns ++ [n])) sub := by
      refine ihb fun m u hi => ?_
      exact NamedGraph.follow_concat hleads (FileSystem.mem_out.mpr ⟨contents, hv, hi⟩)
    rw [hv] at hdir
    rw [pathOf_concat] at hdir hlists hnames
    refine ⟨⟨hdir, ?_, hlists⟩, ihr fun m u hi => hns m u (List.mem_cons_of_mem _ hi)⟩
    rw [hnames contents hv, unfolds_names hbelow]

def FileSystem.Leads (F : FileSystem ι) (items : List (Item ι)) (e : Entry) : Prop :=
  ∃ n u ms v, .entry n u ∈ items ∧ F.graph.follow u ms = some v ∧ e.path = n :: ms ∧ e.isDir = (F.node v).isSome

theorem leads_cons {n : Name} {u : ι} {e : Entry} : F.Leads (.entry n u :: items) e ↔
    (∃ ms v, F.graph.follow u ms = some v ∧ e.path = n :: ms ∧ e.isDir = (F.node v).isSome) ∨ F.Leads items e := by
  constructor
  · rintro ⟨m, w, ms, v, hi, h⟩
    rcases List.mem_cons.mp hi with hi | hi
    · obtain ⟨rfl, rfl⟩ := Item.entry.inj hi
      exact Or.inl ⟨ms, v, h⟩
    · exact Or.inr ⟨m, w, ms, v, hi, h⟩
  · rintro (⟨ms, v, h⟩ | ⟨m, w, ms, v, hi, h⟩)
    · exact ⟨n, u, ms, v, List.mem_cons_self, h⟩
    · exact ⟨m, w, ms, v, List.mem_cons_of_mem _ hi, h⟩

theorem leads_entry {n : Name} {u : ι} {e : Entry} :
    (∃ ms v, F.graph.follow u ms = some v ∧ e.path = n :: ms ∧ e.isDir = (F.node v).isSome) ↔
      e = ⟨[], n, (F.node u).isSome⟩ ∨
        ∃ contents e', F.node u = some contents ∧ F.Leads contents e' ∧ e = e'.under n := by
  constructor
  · rintro ⟨ms, v, hv, hpath, hdir⟩
    rcases Entry.path_eq_cons.mp hpath with ⟨rfl, he⟩ | ⟨e', rfl, rfl⟩
    · obtain rfl := Option.some.inj hv
      exact Or.inl (by rw [he, hdir])
    · obtain ⟨m, ks, hks⟩ := List.exists_cons_of_ne_nil (show e'.path ≠ [] by simp [Entry.path])
      rw [hks, NamedGraph.follow_cons_eq_some] at hv
      obtain ⟨w, hw, hv⟩ := hv
      obtain ⟨contents, hu, hi⟩ := FileSystem.mem_out.mp hw
      exact Or.inr ⟨contents, e', hu, ⟨m, w, ks, v, hi, hv, hks, hdir⟩, rfl⟩
  · rintro (rfl | ⟨contents, e', hu, ⟨m, w, ks, v, hi, hv, hks, hdir⟩, rfl⟩)
    · exact ⟨[], u, rfl, rfl, rfl⟩
    · refine ⟨m :: ks, v, ?_, by rw [Entry.under_path, hks], hdir⟩
      exact NamedGraph.follow_cons_eq_some.mpr ⟨w, FileSystem.mem_out.mpr ⟨contents, hu, hi⟩, hv⟩

theorem unfolds_entries (h : F.Unfolds items l) (e : Entry) : e ∈ l.entries ↔ F.Leads items e := by
  induction h generalizing e with
  | nil => simp [Listing.entries, FileSystem.Leads]
  | dots up _ ih => simp [Listing.entries, FileSystem.Leads, ih]
  | file n hv _ ih =>
    rw [Listing.entries, List.mem_cons, ih, leads_cons, leads_entry, hv]
    simp
  | dir n hv _ _ ihb ihr =>
    rw [Listing.entries, List.mem_cons, List.mem_append, List.mem_map, ihr, leads_cons, leads_entry, hv, or_assoc]
    simp [ihb, eq_comm]

theorem leads_iff (hroot : F.node root = some items) {e : Entry} :
    F.Leads items e ↔ ∃ v, F.graph.follow root e.path = some v ∧ e.isDir = (F.node v).isSome := by
  constructor
  · rintro ⟨n, u, ms, v, hi, hv, hpath, hdir⟩
    refine ⟨v, ?_, hdir⟩
    rw [hpath, NamedGraph.follow_cons_eq_some]
    exact ⟨u, FileSystem.mem_out.mpr ⟨items, hroot, hi⟩, hv⟩
  · rintro ⟨v, hv, hdir⟩
    obtain ⟨n, ms, hpath⟩ := List.exists_cons_of_ne_nil (show e.path ≠ [] by simp [Entry.path])
    rw [hpath, NamedGraph.follow_cons_eq_some] at hv
    obtain ⟨u, hu, hv⟩ := hv
    obtain ⟨items', hroot', hi⟩ := FileSystem.mem_out.mp hu
    obtain rfl := Option.some.inj (hroot.symm.trans hroot')
    exact ⟨n, u, ms, v, hi, hv, hpath, hdir⟩

/-- Where no cycle is reached, what the disk shows is a tree. -/
theorem exists_tree [Finite ι] (hd : d.Shows F g root) (hroot : F.IsDir root) (h : ¬ F.graph.Endless root) :
    ∃ t : Tree, d.Holds g t ∧
      (∀ ns, ns ∈ t.dirs ↔ ∃ v, F.graph.follow root ns = some v ∧ F.IsDir v) ∧
      (∀ ns, ns ∈ t.gcdaEntries.map Entry.path ↔
        (∃ v, F.graph.follow root ns = some v) ∧ ∃ ms n, ns = ms ++ [n] ∧ n.isGcda = true) := by
  obtain ⟨items, hitems⟩ := Option.isSome_iff_exists.mp hroot
  obtain ⟨l, hl⟩ := exists_unfolds h items hitems
  obtain ⟨hdir, hnames⟩ := hd [] root rfl
  have hlists : d.Lists (pathOf g []) l := by
    refine unfolds_lists hd hl fun n u hi => ?_
    exact NamedGraph.follow_concat NamedGraph.follow_nil (FileSystem.mem_out.mpr ⟨items, hitems, hi⟩)
  rw [pathOf_nil] at hdir hnames hlists
  refine ⟨⟨l, unfolds_distinct hl (F.distinct root items hitems)⟩, ⟨?_, ?_, hlists⟩, fun ns => ?_, fun ns => ?_⟩
  · rw [hdir, hitems, Option.isSome_some]
  · rw [hnames items hitems, unfolds_names hl]
  · simp only [Tree.dirs, List.mem_cons, List.mem_map, List.mem_filter, unfolds_entries hl, leads_iff hitems]
    constructor
    · rintro (rfl | ⟨e, ⟨⟨v, hv, he⟩, hdir⟩, rfl⟩)
      · exact ⟨root, rfl, hroot⟩
      · exact ⟨v, hv, he.symm.trans hdir⟩
    · rintro ⟨v, hv, hdir⟩
      rcases List.eq_nil_or_concat' ns with rfl | ⟨ms, n, rfl⟩
      · exact Or.inl rfl
      · exact Or.inr ⟨⟨ms, n, true⟩, ⟨⟨v, hv, hdir.symm⟩, rfl⟩, rfl⟩
  · simp only [Tree.gcdaEntries, List.mem_map, List.mem_filter, unfolds_entries hl, leads_iff hitems]
    constructor
    · rintro ⟨e, ⟨⟨v, hv, -⟩, hg⟩, rfl⟩
      exact ⟨⟨v, hv⟩, e.folder, e.name, rfl, hg⟩
    · rintro ⟨⟨v, hv⟩, ms, n, rfl, hg⟩
      exact ⟨⟨ms, n, (F.node v).isSome⟩, ⟨⟨v, hv, rfl⟩, hg⟩, rfl⟩

end Unfold

/-! ### What a traversal does -/

/-- Every directory that is reached can be examined and opened. -/
def FileSystem.Accessible {ι : Type} (F : FileSystem ι) (f : Faults) (g : Str) (root : ι) : Prop :=
  ∀ ns v, F.graph.follow root ns = some v → F.IsDir v →
    f.unexamined (pathOf g ns) = false ∧ f.unopened (pathOf g ns) = false

section Traversal
variable {ι : Type} (F : FileSystem ι) (batch : CoverageBatch) (g : Str) (root : ι)

/-- The run has opened the directories at the paths `dirs`, and reported the files at `files`, whose last names end in
    `.gcda`; each path once. -/
structure Visits (r : Prog) (dirs files : List (List Name)) : Prop where
  opens : opens r = dirs.map (pathOf g)
  printed : printed r = (topPaths g ++ files.map (pathOf g)).map batch.batchText
  dirs_nodup : dirs.Nodup
  files_nodup : files.Nodup
  dirs_lead : ∀ ns ∈ dirs, ∃ v, F.graph.follow root ns = some v ∧ F.IsDir v
  files_lead : ∀ ns ∈ files, (∃ v, F.graph.follow root ns = some v) ∧ ∃ ms n, ns = ms ++ [n] ∧ n.isGcda = true

/-- These are all paths that lead to a directory, and all that lead to something and whose last name ends in `.gcda`. -/
structure Follows (r : Prog) (dirs files : List (List Name)) : Prop extends Visits F batch g root r dirs files where
  returned : r.ending = .returned
  all_dirs : ∀ ns v, F.graph.follow root ns = some v → F.IsDir v → ns ∈ dirs
  all_files : ∀ ns n v, F.graph.follow root (ns ++ [n]) = some v → n.isGcda = true → ns ++ [n] ∈ files

variable {F g root} {self : CoverageBatch} {d : Disk} {f : Faults} {r : Prog}
variable {dirs files dirs' files' : List (List Name)}

theorem Visits.unique (h : Visits F self g root r dirs files) (h' : Visits F self g root r dirs' files') :
    dirs = dirs' ∧ files = files' := by
  have hinj : Function.Injective (pathOf g) := fun _ _ => pathOf_injective
  refine ⟨List.map_injective_iff.mpr hinj (h.opens.symm.trans h'.opens), ?_⟩
  have hprinted := List.map_injective_iff.mpr (batchText_injective self) (h.printed.symm.trans h'.printed)
  exact List.map_injective_iff.mpr hinj (List.append_cancel_left hprinted)

/-- Whatever fails, a traversal that ends has visited no path twice. -/
theorem exists_visits (hd : d.Shows F g root) (hr : self.Traverses (d.sys f) g r) :
    ∃ dirs files, Visits F self g root r dirs files := by
  obtain ⟨fuel, rfl, hfinished⟩ := hr
  cases fuel with
  | zero => exact absurd rfl hfinished
  | succ fuel =>
    have hvisit : self.traverseGcda (d.sys f) (fuel + 1) (pathOf g []) = _ :=
      traverseGcda_visit f hd NamedGraph.follow_nil fuel
    have hnodup : (F.visit (f.obstacles g) fuel root []).calls.Nodup := visit_nodup
    have hleads : ∀ c ∈ (F.visit (f.obstacles g) fuel root []).calls, c.Leads F root :=
      visit_leads NamedGraph.follow_nil fuel
    rw [pathOf_nil] at hvisit
    refine ⟨opened (F.visit (f.obstacles g) fuel root []), found (F.visit (f.obstacles g) fuel root []), ?_⟩
    refine ⟨?_, ?_, hnodup.filterMap ?_, hnodup.filterMap ?_, fun ns hns => ?_, fun ns hns => ?_⟩
    · rw [hvisit, opens_top, opens_map_render]
    · rw [hvisit, printed_top, printed_map_render, List.map_append, List.map_map]
      rfl
    · rintro (ns | ns) (ms | ms) ks hns hms <;> simp_all [Visit.opened?]
    · rintro (ns | ns) (ms | ms) ks hns hms <;> simp_all [Visit.found?]
    · obtain ⟨c, hc, hcns⟩ := List.mem_filterMap.mp hns
      cases c <;> simp [Visit.opened?] at hcns
      exact hcns ▸ hleads _ hc
    · obtain ⟨c, hc, hcns⟩ := List.mem_filterMap.mp hns
      cases c <;> simp [Visit.found?] at hcns
      exact hcns ▸ hleads _ hc

theorem traverseGcda_of_accessible (hd : d.Shows F g root) (h : F.Accessible f g root) (fuel : Nat) :
    self.traverseGcda (d.sys f) fuel g = self.traverseGcda (d.sys .none) fuel g := by
  cases fuel with
  | zero => rfl
  | succ fuel =>
    have hvisit : ∀ f : Faults, self.traverseGcda (d.sys f) (fuel + 1) (pathOf g []) = _ := fun f =>
      traverseGcda_visit f hd NamedGraph.follow_nil fuel
    have haccess : ∀ ns v, F.graph.follow root ns = some v → F.IsDir v →
      (f.obstacles g).blind ns = false ∧ (f.obstacles g).locked ns = false := h
    have hsame : F.visit (f.obstacles g) fuel root [] = F.visit .none fuel root [] :=
      visit_of_accessible NamedGraph.follow_nil haccess fuel
    rw [pathOf_nil] at hvisit
    rw [hvisit f, hvisit .none, hsame, Faults.obstacles_none]

theorem traverses_of_accessible (hd : d.Shows F g root) (h : F.Accessible f g root) :
    self.Traverses (d.sys f) g r ↔ self.Traverses (d.sys .none) g r := by
  simp only [CoverageBatch.Traverses, traverseGcda_of_accessible hd h]

theorem not_endless_of_traverses (hd : d.Shows F g root) (hr : self.Traverses (d.sys .none) g r) :
    ¬ F.graph.Endless root := by
  obtain ⟨fuel, rfl, hfinished⟩ := hr
  intro h
  cases fuel with
  | zero => exact hfinished rfl
  | succ fuel =>
    have hvisit : self.traverseGcda (d.sys .none) (fuel + 1) (pathOf g []) = _ :=
      traverseGcda_visit .none hd NamedGraph.follow_nil fuel
    rw [pathOf_nil, top_eq, Run.andThen_of_returned rfl] at hvisit
    rw [hvisit] at hfinished
    exact hfinished (visit_endless h fuel)

theorem exists_traverses [Finite ι] (hd : d.Shows F g root) (hroot : F.IsDir root) (h : ¬ F.graph.Endless root) :
    ∃ r, self.Traverses (d.sys f) g r := by
  obtain ⟨t, ht, -⟩ := exists_tree hd hroot h
  obtain ⟨hend, -⟩ := traverse_tree (f := f) self ht (Nat.lt_succ_self _)
  refine ⟨_, t.listing.depth.succ, rfl, ?_⟩
  rw [hend]
  exact ((f.obstacles g).visitTree_cut t).finished (by simp)

theorem exists_follows [Finite ι] (hd : d.Shows F g root) (hroot : F.IsDir root) (h : ¬ F.graph.Endless root) :
    ∃ r dirs files, self.Traverses (d.sys .none) g r ∧ Follows F self g root r dirs files := by
  obtain ⟨t, ht, hdirs, hfiles⟩ := exists_tree hd hroot h
  obtain ⟨hend, hprinted, hopens⟩ := traverse_tree (f := .none) self ht (Nat.lt_succ_self _)
  obtain ⟨hreturned, hfound, hopened⟩ := visitTree_none t
  rw [Faults.obstacles_none, hreturned] at hend
  rw [Faults.obstacles_none, hfound] at hprinted
  rw [Faults.obstacles_none, hopened] at hopens
  refine ⟨_, t.dirs, t.gcdaEntries.map Entry.path, ⟨_, rfl, by rw [hend]; simp⟩, ?_⟩
  exact {
    opens := hopens
    printed := hprinted
    dirs_nodup := t.dirs_nodup
    files_nodup := t.gcdaEntries_nodup
    dirs_lead := fun ns hns => (hdirs ns).mp hns
    files_lead := fun ns hns => (hfiles ns).mp hns
    returned := hend
    all_dirs := fun ns v hv hdir => (hdirs ns).mpr ⟨v, hv, hdir⟩
    all_files := fun ns n v hv hg => (hfiles _).mpr ⟨⟨v, hv⟩, ns, n, rfl, hg⟩ }

end Traversal

/-- On a finite file system, whatever fails: where no cycle is reached the traversal ends, and one that ends has visited
    no path twice. So it has opened no directory twice exactly when no two of its paths lead to one, and likewise
    it has reported no file twice. If every directory that is reached can be examined and opened, the traversal ends
    only where no cycle is reached, and then it has visited every path. -/
theorem traversal_of_links {ι : Type} [Finite ι] (F : FileSystem ι) (self : CoverageBatch) (d : Disk) (f : Faults)
    (g : Str) (root : ι) (hroot : F.IsDir root) (hd : d.Shows F g root) :
    (¬ F.graph.Endless root → ∃ r, self.Traverses (d.sys f) g r) ∧
    (F.Accessible f g root → (∃ r, self.Traverses (d.sys f) g r) → ¬ F.graph.Endless root) ∧
    ∀ r, self.Traverses (d.sys f) g r → ∃ dirs files : List (List Name),
      Visits F self g root r dirs files ∧ (F.Accessible f g root → Follows F self g root r dirs files) ∧
      ((dirs.map (F.graph.follow root)).Nodup ↔
        ∀ ns ∈ dirs, ∀ ms ∈ dirs, F.graph.follow root ns = F.graph.follow root ms → ns = ms) ∧
      ((files.map (F.graph.follow root)).Nodup ↔
        ∀ ns ∈ files, ∀ ms ∈ files, F.graph.follow root ns = F.graph.follow root ms → ns = ms) := by
  refine ⟨exists_traverses hd hroot, fun haccess ⟨r, hr⟩ => ?_, fun r hr => ?_⟩
  · exact not_endless_of_traverses hd ((traverses_of_accessible hd haccess).mp hr)
  · obtain ⟨dirs, files, hvisits⟩ := exists_visits hd hr
    refine ⟨dirs, files, hvisits, fun haccess => ?_, List.nodup_map_iff_inj_on hvisits.dirs_nodup,
      List.nodup_map_iff_inj_on hvisits.files_nodup⟩
    have hr' := (traverses_of_accessible hd haccess).mp hr
    obtain ⟨r', dirs', files', hr'', hfollows⟩ := exists_follows hd hroot (not_endless_of_traverses hd hr')
    obtain rfl := traverses_unique hr' hr''
    obtain ⟨rfl, rfl⟩ := hvisits.unique hfollows.toVisits
    exact hfollows

/-- A directory with two links to another one, which is empty. -/
def twoLinks : FileSystem Bool where
  node v := some (if v then [.entry (.of "a") false, .dots true, .entry (.of "b") false] else [])
  distinct := by
    rintro (_ | _) items h <;> obtain rfl := Option.some.inj h <;> decide

def twoLinksDisk : Disk where
  isDir _ := true
  names p := if p = lit "gcda" then [lit "a", lit "..", lit "b"] else []

theorem twoLinks_out : ∀ v, ∀ p ∈ twoLinks.graph.out v, v = true ∧ p.2 = false := by decide

theorem twoLinks_shows : twoLinksDisk.Shows twoLinks (lit "gcda") true := by
  intro ns v hv
  refine ⟨rfl, fun items hitems => ?_⟩
  obtain rfl := Option.some.inj hitems
  cases ns with
  | nil =>
    obtain rfl := Option.some.inj hv
    decide
  | cons n ns =>
    obtain ⟨u, hu, hv⟩ := NamedGraph.follow_cons_eq_some.mp hv
    obtain ⟨-, rfl : u = false⟩ := twoLinks_out true _ hu
    cases ns with
    | nil =>
      obtain rfl := Option.some.inj hv
      have hne : pathOf (lit "gcda") [n] ≠ lit "gcda" := pathOf_entry_ne (lit "gcda") ⟨[], n, true⟩
      simp [twoLinksDisk, hne]
    | cons m ns =>
      obtain ⟨w, hw, -⟩ := NamedGraph.follow_cons_eq_some.mp hv
      cases (twoLinks_out false _ hw).1

theorem traversal_of_links_sample : ∃ r, sampleBatch.Traverses (twoLinksDisk.sys .none) (lit "gcda") r := by
  obtain ⟨hends, -⟩ := traversal_of_links twoLinks sampleBatch twoLinksDisk .none (lit "gcda") true rfl twoLinks_shows
  refine hends ?_
  rintro ⟨u, -, hu⟩
  obtain ⟨w, ⟨n, hw⟩, -⟩ := Relation.TransGen.head'_iff.mp hu
  obtain ⟨x, -, m, hx⟩ := Relation.TransGen.tail'_iff.mp hu
  obtain rfl : u = true := (twoLinks_out u _ hw).1
  cases (twoLinks_out x _ hx).2

/-- A directory with a link to itself. -/
def selfLink : FileSystem Unit where
  node _ := some [.entry (.of "a") ()]
  distinct := by
    rintro _ items h
    obtain rfl := Option.some.inj h
    decide

def selfLinkDisk : Disk where
  isDir _ := true
  names _ := [lit "a"]

/-- No traversal of a directory with a link to itself ends. -/
theorem self_link_endless : selfLinkDisk.Shows selfLink (lit "gcda") () ∧
    ∀ r, ¬ sampleBatch.Traverses (selfLinkDisk.sys .none) (lit "gcda") r := by
  have hd : selfLinkDisk.Shows selfLink (lit "gcda") () := by
    intro ns v _
    refine ⟨rfl, fun items hitems => ?_⟩
    obtain rfl := Option.some.inj hitems
    exact (by decide : [lit "a"] = [Item.entry (.of "a") ()].map Item.text)
  refine ⟨hd, fun r hr => not_endless_of_traverses hd hr ?_⟩
  have hedge : selfLink.graph.Edge () () := ⟨.of "a", by decide⟩
  exact ⟨(), .refl, .single hedge⟩

end CoverityTool
