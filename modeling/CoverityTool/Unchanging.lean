import CoverityTool.Links
import CoverityTool.Reads

/-! A system that does not change, asked for one name at a time. The dialogue with it is a run of `create`, for which
    a directory was one list of names. -/

namespace CoverityTool
open Perl Runs Dialogues

def Sys.env (sys : Sys) : Env where
  openOut _ file := sys.openOut file
  isDir _ path := sys.isDir path
  opendir _ path := (sys.opendir path).isSome
  readdir past path := ((sys.opendir path).getD [])[(reads path past).length]?

/-- The call in a run of `create`; it has the questions only as answers, and the names of a directory in its
    `opendir`. -/
def Event.call? : Event → Option Call
  | .openOut file (.ok ()) => some (.openOut file)
  | .print text => some (.print text)
  | .opendir path true => some (.opendir path)
  | .close => some .close
  | _ => none

def observed (r : Run Str Event) : Prog := r.filterMap Event.call?

/-! ### One step -/

/-- What the loop of a run of `create` does about a name. -/
def CoverageBatch.entryRun (self : CoverageBatch) (sys : Sys) (fuel : Nat) (folder sub : Str) : Prog :=
  if sub = lit "." ∨ sub = lit ".." then .skip else self.traverseGcda sys fuel (folder ++ lit "/" ++ sub)

def CoverageBatch.topRun (self : CoverageBatch) (folder : Str) : Prog :=
  if isGcdaFile folder then self.prepareBatch folder else .skip

section Step
variable {self : CoverageBatch} {sys : Sys} {fuel : Nat} {folder sub : Str} {past : List Event} {subs : List Str}

theorem observed_top : observed ⟨.returned, self.top folder⟩ = self.topRun folder := by
  unfold CoverageBatch.top topPaths CoverageBatch.topRun
  split <;> rfl

theorem topRun_returned : (self.topRun folder).ending = .returned := by
  unfold CoverageBatch.topRun
  split <;> rfl

theorem traverseGcda_opened (hdir : sys.isDir folder = true) (ho : sys.opendir folder = some subs) :
    self.traverseGcda sys (fuel + 1) folder = (self.topRun folder).andThen
      ((Run.call (.opendir folder)).andThen (Run.each (self.entryRun sys fuel folder) subs)) := by
  rw [CoverageBatch.traverseGcda, hdir, readdirLoop, ho]
  rfl

/-- A folder that is opened: the dialogue goes on where nothing has been read of it. -/
theorem observed_opened (self : CoverageBatch) (hdir : sys.isDir folder = true)
    (ho : sys.opendir folder = some subs) (past : List Event) :
    ∃ past', reads folder past' = [] ∧ ∀ fuel, observed (self.traverseIn sys.env (fuel + 1) (.folder folder) past) =
      (self.topRun folder).andThen ((Run.call (.opendir folder)).andThen
        (observed (self.traverseIn sys.env fuel (.entries folder) past'))) := by
  refine ⟨past ++ self.top folder ++ [.isDir folder true] ++ [.opendir folder true], reads_opendir, fun fuel => ?_⟩
  have hopened : sys.env.opendir (past ++ self.top folder ++ [.isDir folder true]) folder = true := by
    simp [Sys.env, ho]
  have hcalls : observed ⟨.returned, self.top folder ++ [.isDir folder true, .opendir folder true]⟩ =
      (self.topRun folder).andThen (.call (.opendir folder)) := by
    rw [← observed_top, Run.andThen_of_returned rfl, observed, Run.filterMap, List.filterMap_append]
    rfl
  rw [traverseIn_opened hdir hopened, observed, Run.filterMap_andThen, ← observed, hcalls, Run.andThen_assoc]
  rfl

/-- Any other: the dialogue is over, as the run is. -/
theorem observed_closed (h : sys.isDir folder = false ∨ sys.opendir folder = none) (fuel fuel' : Nat)
    (past : List Event) : observed (self.traverseIn sys.env (fuel + 1) (.folder folder) past) =
      self.traverseGcda sys (fuel' + 1) folder := by
  have hcalls : ∀ ending es, observed ⟨ending, self.top folder ++ es⟩ =
      (self.topRun folder).andThen ⟨ending, es.filterMap Event.call?⟩ := fun ending es => by
    rw [← observed_top, Run.andThen_of_returned rfl, observed, Run.filterMap, List.filterMap_append]
    rfl
  rw [CoverageBatch.traverseGcda]
  cases hdir : sys.isDir folder with
  | false =>
    rw [traverseIn_other hdir, hcalls]
    rfl
  | true =>
    have ho := h.resolve_left (by simp [hdir])
    have hrefused : sys.env.opendir (past ++ self.top folder ++ [.isDir folder true]) folder = false := by
      simp [Sys.env, ho]
    rw [traverseIn_refused hdir hrefused, hcalls, readdirLoop, ho]
    rfl

theorem observed_done (h : sys.env.readdir past folder = none) :
    observed (self.traverseIn sys.env (fuel + 1) (.entries folder) past) = .skip := by
  rw [traverseIn_done h]
  rfl

/-- A name that is read: what is done about it, and then the rest, with one name more read. -/
theorem observed_name (self : CoverageBatch) (h : sys.env.readdir past folder = some sub) (fuel : Nat) :
    ∃ past', reads folder past' = sub :: reads folder past ∧
      observed (self.traverseIn sys.env (fuel + 1) (.entries folder) past) =
        (if sub = lit "." ∨ sub = lit ".." then .skip
          else observed (self.traverseIn sys.env fuel (.folder (folder ++ lit "/" ++ sub))
            (past ++ [.readdir folder (some sub)]))).andThen
        (observed (self.traverseIn sys.env fuel (.entries folder) past')) := by
  by_cases hdots : sub = lit "." ∨ sub = lit ".."
  · refine ⟨_, reads_readdir, ?_⟩
    rw [traverseIn_dots h hdots, if_pos hdots, observed, Run.filterMap_andThen]
    rfl
  · have hgoes : Goes self _ (self.traverseIn sys.env fuel (.folder (folder ++ lit "/" ++ sub))
        (past ++ [.readdir folder (some sub)])) := traverseIn_goes
    refine ⟨_, reads_entry hgoes, ?_⟩
    rw [traverseIn_name h hdots, if_neg hdots, observed, Run.filterMap_andThen, Run.filterMap_andThen]
    rfl

end Step

/-! ### Whole traversals -/

/-- The run of `create` for the stage: for a directory that is open, the loop over the names that are left. -/
def Stage.plain (self : CoverageBatch) (sys : Sys) (fuel : Nat) (past : List Event) : Stage → Prog
  | .folder path => self.traverseGcda sys fuel path
  | .entries path => Run.each (self.entryRun sys fuel path) (((sys.opendir path).getD []).drop (reads path past).length)

section Whole
variable {self : CoverageBatch} {sys : Sys} {fuel : Nat} {folder sub : Str} {past : List Event} {subs rest : List Str}

theorem entryRun_begins : (self.entryRun sys fuel folder sub).Begins (self.entryRun sys (fuel + 1) folder sub) := by
  unfold CoverageBatch.entryRun
  split
  · exact .refl _
  · exact traverseGcda_begins

/-- What is left to read, by the next answer of `readdir`. -/
theorem drop_of_readdir_none (h : sys.env.readdir past folder = none) :
    ((sys.opendir folder).getD []).drop (reads folder past).length = [] :=
  List.drop_eq_nil_of_le (List.getElem?_eq_none_iff.mp h)

theorem drop_of_readdir_some (h : sys.env.readdir past folder = some sub) :
    ((sys.opendir folder).getD []).drop (reads folder past).length =
      sub :: ((sys.opendir folder).getD []).drop ((reads folder past).length + 1) := by
  obtain ⟨hlt, hsub⟩ := List.getElem?_eq_some_iff.mp h
  rw [List.drop_eq_getElem_cons hlt, hsub]

/-- A dialogue that finishes is the run of `create`. -/
theorem plain_eq_of_finished (stage : Stage) (h : (self.traverseIn sys.env fuel stage past).ending ≠ .unfinished) :
    stage.plain self sys fuel past = observed (self.traverseIn sys.env fuel stage past) := by
  induction fuel generalizing stage past with
  | zero => exact absurd rfl h
  | succ fuel ih =>
    have hfinished : (observed (self.traverseIn sys.env (fuel + 1) stage past)).ending ≠ .unfinished := h
    cases stage with
    | folder folder =>
      by_cases hclosed : sys.isDir folder = false ∨ sys.opendir folder = none
      · exact (observed_closed hclosed fuel fuel past).symm
      · obtain ⟨hdir, ho⟩ := not_or.mp hclosed
        obtain ⟨subs, ho⟩ := Option.ne_none_iff_exists'.mp ho
        rw [Bool.not_eq_false] at hdir
        obtain ⟨past', hnone, hopened⟩ := observed_opened self hdir ho past
        rw [hopened] at hfinished
        have hloop := (Run.andThen_finished ((Run.andThen_finished hfinished).2 topRun_returned)).2 rfl
        have hentries := ih (.entries folder) hloop
        rw [Stage.plain, ho, hnone] at hentries
        rw [hopened, ← hentries]
        exact traverseGcda_opened hdir ho
    | entries folder =>
      cases hread : sys.env.readdir past folder with
      | none =>
        rw [observed_done hread, Stage.plain, drop_of_readdir_none hread]
        rfl
      | some sub =>
        obtain ⟨past', hreads, hname⟩ := observed_name self hread fuel
        rw [hname] at hfinished ⊢
        obtain ⟨hentry, hrest⟩ := Run.andThen_finished hfinished
        have hsub : self.entryRun sys fuel folder sub = if sub = lit "." ∨ sub = lit ".." then .skip
            else observed (self.traverseIn sys.env fuel (.folder (folder ++ lit "/" ++ sub))
              (past ++ [.readdir folder (some sub)])) := by
          unfold CoverageBatch.entryRun
          split
          · rfl
          · next hdots =>
            rw [if_neg hdots] at hentry
            exact ih (.folder (folder ++ lit "/" ++ sub)) hentry
        rw [← hsub] at hentry hrest ⊢
        rw [Stage.plain, drop_of_readdir_some hread, Run.each_cons, ← entryRun_begins.eq_of_finished hentry]
        refine Run.andThen_congr_right fun hr => ?_
        have hentries := ih (.entries folder) (hrest hr)
        rw [Stage.plain, hreads, List.length_cons] at hentries
        have hloop := hrest hr
        rw [← hentries] at hloop ⊢
        exact ((Run.Begins.each fun _ _ => entryRun_begins).eq_of_finished hloop).symm

/-- The loop of a run that finishes is a dialogue, if what it does about each name is. -/
theorem loop_of_finished (hbody : ∀ sub, ¬(sub = lit "." ∨ sub = lit "..") →
      (self.traverseGcda sys fuel (folder ++ lit "/" ++ sub)).ending ≠ .unfinished → ∃ n, ∀ m, n ≤ m → ∀ past,
        observed (self.traverseIn sys.env m (.folder (folder ++ lit "/" ++ sub)) past) =
          self.traverseGcda sys fuel (folder ++ lit "/" ++ sub))
    (h : (Run.each (self.entryRun sys fuel folder) rest).ending ≠ .unfinished) : ∃ n, ∀ m, n ≤ m → ∀ past,
      ((sys.opendir folder).getD []).drop (reads folder past).length = rest →
        observed (self.traverseIn sys.env m (.entries folder) past) = Run.each (self.entryRun sys fuel folder) rest := by
  induction rest with
  | nil =>
    refine ⟨1, fun m hm past hrest => ?_⟩
    obtain ⟨m, rfl⟩ := Nat.exists_eq_add_of_le' hm
    cases hread : sys.env.readdir past folder with
    | none => exact observed_done hread
    | some sub =>
      rw [drop_of_readdir_some hread] at hrest
      cases hrest
  | cons sub rest ih =>
    obtain ⟨hsub, hloop⟩ := Run.andThen_finished h
    obtain ⟨n, hn⟩ : ∃ n, ∀ m, n ≤ m → ∀ past, (if sub = lit "." ∨ sub = lit ".." then .skip
        else observed (self.traverseIn sys.env m (.folder (folder ++ lit "/" ++ sub)) past)) =
          self.entryRun sys fuel folder sub := by
      unfold CoverageBatch.entryRun at hsub ⊢
      by_cases hdots : sub = lit "." ∨ sub = lit ".."
      · exact ⟨0, fun m _ past => by simp only [if_pos hdots]⟩
      · simp only [if_neg hdots] at hsub ⊢
        exact hbody sub hdots hsub
    obtain ⟨n', hn'⟩ : ∃ n', ∀ m, n' ≤ m → ∀ past, (self.entryRun sys fuel folder sub).ending = .returned →
        ((sys.opendir folder).getD []).drop (reads folder past).length = rest →
        observed (self.traverseIn sys.env m (.entries folder) past) = Run.each (self.entryRun sys fuel folder) rest := by
      by_cases hr : (self.entryRun sys fuel folder sub).ending = .returned
      · obtain ⟨n', hn'⟩ := ih (hloop hr)
        exact ⟨n', fun m hm past _ => hn' m hm past⟩
      · exact ⟨0, fun m _ past hr' => absurd hr' hr⟩
    -- One name more than the two need.
    refine ⟨max n n' + 1, fun m hm past hrest => ?_⟩
    obtain ⟨m, rfl⟩ := Nat.exists_eq_add_of_le' (Nat.le_of_add_left_le hm)
    cases hread : sys.env.readdir past folder with
    | none =>
      rw [drop_of_readdir_none hread] at hrest
      cases hrest
    | some name =>
      rw [drop_of_readdir_some hread] at hrest
      obtain ⟨rfl, hleft⟩ := List.cons_eq_cons.mp hrest
      obtain ⟨past', hreads, hname⟩ := observed_name self hread m
      rw [hname, hn m (by omega), Run.each_cons]
      refine Run.andThen_congr_right fun hr => hn' m (by omega) past' hr ?_
      rw [hreads]
      exact hleft

/-- A run of `create` that finishes is a dialogue, given enough fuel. -/
theorem observed_of_finished (h : (self.traverseGcda sys fuel folder).ending ≠ .unfinished) :
    ∃ n, ∀ m, n ≤ m → ∀ past,
      observed (self.traverseIn sys.env m (.folder folder) past) = self.traverseGcda sys fuel folder := by
  induction fuel generalizing folder with
  | zero => exact absurd rfl h
  | succ fuel ih =>
    by_cases hclosed : sys.isDir folder = false ∨ sys.opendir folder = none
    · refine ⟨1, fun m hm past => ?_⟩
      obtain ⟨m, rfl⟩ := Nat.exists_eq_add_of_le' hm
      exact observed_closed hclosed m fuel past
    · obtain ⟨hdir, ho⟩ := not_or.mp hclosed
      obtain ⟨subs, ho⟩ := Option.ne_none_iff_exists'.mp ho
      rw [Bool.not_eq_false] at hdir
      rw [traverseGcda_opened hdir ho] at h ⊢
      have hloop := (Run.andThen_finished ((Run.andThen_finished h).2 topRun_returned)).2 rfl
      obtain ⟨n, hn⟩ := loop_of_finished (fun sub _ hsub => ih hsub) hloop
      refine ⟨n + 1, fun m hm past => ?_⟩
      obtain ⟨m, rfl⟩ := Nat.exists_eq_add_of_le' (Nat.le_of_add_left_le hm)
      obtain ⟨past', hnone, hopened⟩ := observed_opened self hdir ho past
      rw [hopened, hn m (by omega) past' (by rw [ho, hnone]; rfl)]

end Whole

/-! ### `create` -/

section Create
variable {self : CoverageBatch} {sys : Sys}

theorem observed_createIn (ho : sys.Opens self) (fuel : Nat) : observed (self.createIn sys.env fuel []) =
    createWith sys self.output self.headerText
      (observed (self.traverseIn sys.env fuel (.folder self.gcdaFolder) self.start)) := by
  have hopens : sys.env.Opens self := ho
  rw [createIn_of_opens hopens, createWith_of_opens ho, observed, Run.filterMap_andThen, Run.filterMap_andThen]
  rfl

theorem observed_createIn_of_error {errno : Str} (h : sys.openOut (lit ">" ++ self.output) = .error errno)
    (fuel : Nat) : observed (self.createIn sys.env fuel []) =
      .die (lit "Could not open file '" ++ self.output ++ lit "' " ++ errno) := by
  have herror : sys.env.openOut [] (lit ">" ++ self.output) = .error errno := h
  rw [createIn_of_error herror]
  rfl

end Create

/-- In a system that does not change, what the dialogue comes to is what the run of `create` comes to. -/
theorem unchanging_create (self : CoverageBatch) (sys : Sys) (r : Prog) (hr : r.ending ≠ .unfinished) :
    (∃ n, ∀ m, n ≤ m → observed (self.createIn sys.env m []) = r) ↔ ∃ fuel, self.create sys fuel = r := by
  cases ho : sys.openOut (lit ">" ++ self.output) with
  | error errno =>
    simp only [observed_createIn_of_error ho, create_of_error ho, exists_const]
    exact ⟨fun ⟨n, hn⟩ => hn n le_rfl, fun h => ⟨0, fun _ _ => h⟩⟩
  | ok _ =>
    have ho' : sys.Opens self := ho
    constructor
    · rintro ⟨n, hn⟩
      have hr' := hn n le_rfl
      rw [observed_createIn ho'] at hr'
      rw [← hr', (createWith_calls _ _ ho').1] at hr
      have hplain := plain_eq_of_finished (.folder self.gcdaFolder) hr
      exact ⟨n, by rw [← hr', ← hplain]; rfl⟩
    · rintro ⟨fuel, rfl⟩
      rw [create_ending ho'] at hr
      obtain ⟨n, hn⟩ := observed_of_finished hr
      exact ⟨n, fun m hm => by rw [observed_createIn ho', hn m hm]; rfl⟩

theorem unchanging_create_sample : ∃ n, ∀ m, n ≤ m →
    observed (sampleBatch.createIn sampleSys.env m []) = sampleBatch.create sampleSys 3 :=
  (unchanging_create sampleBatch sampleSys _ (by decide)).mpr ⟨3, rfl⟩

/-! ### Each record once -/

theorem printed_observed (r : Run Str Event) : printed (observed r) = texts r := by
  rw [printed, observed, Run.filterMap_calls, List.filterMap_filterMap, texts]
  refine congrArg (List.filterMap · r.calls) (funext fun e => ?_)
  cases e with
  | openOut file answer => cases answer <;> rfl
  | opendir path opened => cases opened <;> rfl
  | _ => rfl

/-- Directories list each name once, and names have no separator in them. -/
def Sys.Plain (sys : Sys) : Prop :=
  ∀ path subs, sys.opendir path = some subs → subs.Nodup ∧ ∀ sub ∈ subs, slash ∉ sub

theorem Sys.Plain.proper {sys : Sys} (h : sys.Plain) : sys.env.Proper := by
  have hnames : ∀ path, ((sys.opendir path).getD []).Nodup ∧ ∀ sub ∈ (sys.opendir path).getD [], slash ∉ sub := by
    intro path
    cases ho : sys.opendir path with
    | none => simp
    | some subs => exact h path subs ho
  have hreads : ∀ path, sys.env.Reads path fun _ => (sys.opendir path).getD [] := fun _ _ => rfl
  exact proper_of_reads hreads (fun path _ => (hnames path).1) fun path _ => (hnames path).2

/-- In every system whose directories list each name once, no text is printed twice, however many links lead to the
    same directory. -/
theorem records_once (self : CoverageBatch) (sys : Sys) (h : sys.Plain) (fuel : Nat)
    (hr : (self.create sys fuel).ending ≠ .unfinished) : (printed (self.create sys fuel)).Nodup := by
  cases ho : sys.openOut (lit ">" ++ self.output) with
  | error errno =>
    rw [printed_create_of_error ho]
    exact List.nodup_nil
  | ok _ =>
    obtain ⟨n, hn⟩ := (unchanging_create self sys _ hr).mpr ⟨fuel, rfl⟩
    have hopens : sys.env.Opens self := ho
    obtain ⟨r, tail, hgoes, htail, -, hcalls, hpossible⟩ := createIn_cases hopens n
    obtain ⟨hstart, hrest⟩ := allowed_append.mp hpossible
    obtain ⟨hnodup, -⟩ := hgoes.once h.proper hstart hrest
    rw [← hn n le_rfl, printed_observed, texts_createIn hgoes htail hcalls]
    exact texts_nodup (hnodup.filter _)

/-- The names `d` and `e` lead to one directory. -/
def linkedSys : Sys where
  openOut _ := .ok ()
  isDir path := path = lit "gcda/Application" || path = lit "gcda/Application/d" || path = lit "gcda/Application/e"
  opendir path :=
    if path = lit "gcda/Application" then some [lit "d", lit "e"]
    else if path = lit "gcda/Application/d" ∨ path = lit "gcda/Application/e" then some [lit "..", lit "b.gcda"]
    else none

theorem records_once_sample : (sampleBatch.create linkedSys 3).ending = .returned ∧
    (printed (sampleBatch.create linkedSys 3)).Nodup := by
  have hr : (sampleBatch.create linkedSys 3).ending = .returned := by decide
  have hplain : linkedSys.Plain := by
    intro path subs ho
    simp only [linkedSys] at ho
    split at ho
    · cases ho
      decide
    · split at ho
      · cases ho
        decide
      · cases ho
  exact ⟨hr, records_once sampleBatch linkedSys hplain 3 (by rw [hr]; simp)⟩

end CoverityTool
