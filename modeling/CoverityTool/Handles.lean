import CoverityTool.Walk

/-! Directory handles. `$dh` stays open until `traverse_gcda` returns, so while a folder is traversed the handles
    of all folders above it are open. Where a system gives out no more than so many at once, the depth of the
    tree decides whether a run dies. -/

namespace CoverityTool
open Perl Runs

namespace CoverageBatch

/-- `traverse_gcda` with `held` directory handles open, where `opendir` fails when `limit` of them are. -/
def traverseHolding (self : CoverageBatch) (sys : Sys) (limit : Nat) : Nat → Nat → Str → Prog
  | 0, _, _ => .unfinished
  | fuel + 1, held, folder =>
    (if isGcdaFile folder then self.prepareBatch folder else .skip).andThen <|
      if !sys.isDir folder then .skip
      else if limit ≤ held then .die (lit "Died")
      else readdirLoop sys folder fun sub => traverseHolding self sys limit fuel (held + 1) (folder ++ lit "/" ++ sub)

/-- `create`, in the same way. -/
def createHolding (self : CoverageBatch) (sys : Sys) (limit fuel : Nat) : Prog :=
  createWith sys self.output self.headerText (self.traverseHolding sys limit fuel 0 self.gcdaFolder)

end CoverageBatch

section Reaching
variable {sys : Sys} {folder p : Str} {n : Nat}

theorem Sys.Reaches.cases_head (h : sys.Reaches folder (n + 1) p) : sys.isDir folder = true ∧
    ∃ subs, sys.opendir folder = some subs ∧ ∃ sub ∈ subs, ¬(sub = lit "." ∨ sub = lit "..") ∧
      sys.Reaches (folder ++ lit "/" ++ sub) n p := by
  induction n generalizing p with
  | zero =>
    cases h with
    | sub h hdir hopen hsub hdots =>
      cases h
      exact ⟨hdir, _, hopen, _, hsub, hdots, .here⟩
  | succ n ih =>
    cases h with
    | sub h hdir hopen hsub hdots =>
      obtain ⟨hdir₀, subs₀, hopen₀, sub₀, hsub₀, hdots₀, hr⟩ := ih h
      exact ⟨hdir₀, subs₀, hopen₀, sub₀, hsub₀, hdots₀, .sub hr hdir hopen hsub hdots⟩

end Reaching

section Limit
variable {self : CoverageBatch} {sys : Sys} {limit fuel held : Nat} {folder : Str}

theorem readdirLoop_cut {body body' : Str → Prog} (h : ∀ sub, Run.Cut (body sub) (body' sub)) :
    Run.Cut (readdirLoop sys folder body) (readdirLoop sys folder body') := by
  unfold readdirLoop
  cases sys.opendir folder with
  | none => exact .refl _
  | some subs =>
    refine (Run.Cut.refl _).andThen (Run.Cut.each fun sub _ => ?_)
    split
    · exact .refl _
    · exact h sub

/-- A traversal that runs out of handles is the traversal cut off there. -/
theorem traverseHolding_cut :
    Run.Cut (self.traverseHolding sys limit fuel held folder) (self.traverseGcda sys fuel folder) := by
  induction fuel generalizing held folder with
  | zero => exact .refl _
  | succ fuel ih =>
    rw [CoverageBatch.traverseHolding, CoverageBatch.traverseGcda]
    refine (Run.Cut.refl _).andThen ?_
    split
    · exact .refl _
    · split
      · exact .of_die _
      · exact readdirLoop_cut fun sub => ih

theorem traverseHolding_finished (hr : (self.traverseGcda sys fuel folder).ending = .returned) :
    (self.traverseHolding sys limit fuel held folder).ending ≠ .unfinished :=
  traverseHolding_cut.finished (by rw [hr]; simp)

/-- A folder that is traversed with one more handle is below: what is reached from it is reached from here. -/
theorem reaches_below {subs : List Str} {n : Nat} (hdir : sys.isDir folder = true)
    (hopen : sys.opendir folder = some subs) :
    (∃ p, sys.Reaches folder (n + 1) p ∧ sys.isDir p = true) ↔
      ∃ sub ∈ subs, ¬(sub = lit "." ∨ sub = lit "..") ∧
        ∃ p, sys.Reaches (folder ++ lit "/" ++ sub) n p ∧ sys.isDir p = true := by
  constructor
  · rintro ⟨p, hp, hpdir⟩
    obtain ⟨-, subs', hopen', sub, hsub, hdots, hbelow⟩ := hp.cases_head
    cases hopen.symm.trans hopen'
    exact ⟨sub, hsub, hdots, p, hbelow, hpdir⟩
  · rintro ⟨sub, hsub, hdots, p, hbelow, hpdir⟩
    exact ⟨p, hbelow.under hdir hopen hsub hdots, hpdir⟩

theorem not_reaches {n : Nat} (hdir : sys.isDir folder = false) : ¬∃ p, sys.Reaches folder n p ∧ sys.isDir p = true := by
  rintro ⟨p, hp, hpdir⟩
  cases n with
  | zero =>
    cases hp
    rw [hdir] at hpdir
    cases hpdir
  | succ n =>
    have := hp.cases_head.1
    rw [hdir] at this
    cases this

/-- It dies when a directory lies below as many folders as there are handles left. -/
theorem traverseHolding_died (hr : (self.traverseGcda sys fuel folder).ending = .returned) (hl : held ≤ limit) :
    (self.traverseHolding sys limit fuel held folder).Died ↔
      ∃ p, sys.Reaches folder (limit - held) p ∧ sys.isDir p = true := by
  induction fuel generalizing held folder with
  | zero => cases hr
  | succ fuel ih =>
    rw [CoverageBatch.traverseGcda] at hr
    obtain ⟨htop, hrest⟩ := Run.andThen_returned hr
    rw [CoverageBatch.traverseHolding, Run.andThen_died, or_iff_right (Run.not_died htop), and_iff_right htop]
    cases hdir : sys.isDir folder with
    | false => exact iff_of_false Run.skip_not_died (not_reaches hdir)
    | true =>
      simp only [hdir, Bool.not_true, Bool.false_eq_true, if_false, readdirLoop] at hrest ⊢
      cases hopen : sys.opendir folder with
      | none =>
        rw [hopen] at hrest
        cases hrest
      | some subs =>
        rw [hopen] at hrest
        obtain ⟨-, hloop⟩ := Run.andThen_returned hrest
        by_cases hfull : limit ≤ held
        · rw [if_pos hfull, Nat.sub_eq_zero_of_le hfull]
          exact iff_of_true (Run.die_died _) ⟨folder, .here, hdir⟩
        · -- One handle goes to this folder, and the folders below have one less.
          have hleft : limit - held = limit - (held + 1) + 1 := by omega
          have hbody : ∀ sub ∈ subs, ¬(sub = lit "." ∨ sub = lit "..") →
              (self.traverseGcda sys fuel (folder ++ lit "/" ++ sub)).ending = .returned := by
            intro sub hsub hdots
            have := (Run.each_piece hloop hsub).1
            rwa [if_neg hdots] at this
          rw [if_neg hfull, hleft, reaches_below hdir hopen, Run.andThen_died, or_iff_right (Run.call_not_died _),
            and_iff_right (Run.call_ending _), Run.each_died]
          · refine exists_congr fun sub => and_congr_right fun hsub => ?_
            by_cases hdots : sub = lit "." ∨ sub = lit ".."
            · rw [if_pos hdots]
              exact iff_of_false Run.skip_not_died fun h => h.1 hdots
            · rw [if_neg hdots, and_iff_right hdots]
              exact ih (hbody sub hsub hdots) (by omega)
          · intro sub hsub
            split
            · simp
            · exact traverseHolding_finished (hbody sub hsub ‹_›)

end Limit

section Create
variable {self : CoverageBatch} {sys : Sys} {limit fuel : Nat}

theorem createHolding_cut : Run.Cut (self.createHolding sys limit fuel) (self.create sys fuel) :=
  createWith_cut traverseHolding_cut

theorem createHolding_died (ho : sys.Opens self) :
    (self.createHolding sys limit fuel).Died ↔ (self.traverseHolding sys limit fuel 0 self.gcdaFolder).Died := by
  have hending : (self.createHolding sys limit fuel).ending = _ := (createWith_calls _ _ ho).1
  rw [Run.Died, hending, Run.Died]

/-- A text is printed whole or not at all, so a run that is cut off has written the first of the records. -/
theorem printed_createHolding (ho : sys.Opens self) : ∃ (recs : List Record) (k : Nat),
    printed (self.create sys fuel) = header.write self.header :: recs.map record.write ∧
    printed (self.createHolding sys limit fuel) = header.write self.header :: (recs.take k).map record.write := by
  obtain ⟨paths, hpaths⟩ := printed_traverseGcda self sys fuel self.gcdaFolder
  have hholding : printed (self.createHolding sys limit fuel) = _ := printed_createWith ho
  have hbegins : printed (self.traverseHolding sys limit fuel 0 self.gcdaFolder) <+:
      printed (self.traverseGcda sys fuel self.gcdaFolder) := traverseHolding_cut.calls.filterMap _
  obtain ⟨k, hk⟩ : ∃ k, _ = List.take k _ := ⟨_, List.prefix_iff_eq_take.mp hbegins⟩
  rw [hpaths, ← List.map_take] at hk
  refine ⟨paths.map self.record, k, ?_, ?_⟩
  · rw [printed_create ho, hpaths, headerText_eq, map_batchText]
  · rw [hholding, hk, headerText_eq, map_batchText, List.map_take]

end Create

/-- Given `limit` directory handles at once, a run that otherwise returns dies exactly when the traversal comes to
    a directory below `limit` folders. It has then written the header and the first of its records, and is the
    same run if no such directory is there. -/
theorem handles_limit (self : CoverageBatch) (sys : Sys) (fuel : Nat)
    (hr : (self.create sys fuel).ending = .returned) (limit : Nat) :
    ((self.createHolding sys limit fuel).Died ↔ ∃ p, sys.Reaches self.gcdaFolder limit p ∧ sys.isDir p = true) ∧
    (¬(self.createHolding sys limit fuel).Died → self.createHolding sys limit fuel = self.create sys fuel) ∧
    ∃ (recs : List Record) (k : Nat),
      printed (self.create sys fuel) = header.write self.header :: recs.map record.write ∧
      printed (self.createHolding sys limit fuel) = header.write self.header :: (recs.take k).map record.write := by
  have ho := opens_of_returned hr
  refine ⟨?_, createHolding_cut.eq_of_not_died, printed_createHolding ho⟩
  rw [create_ending ho] at hr
  rw [createHolding_died ho]
  exact traverseHolding_died hr (Nat.zero_le limit)

theorem handles_limit_sample :
    (sampleBatch.create sampleSys 3).ending = .returned ∧ (sampleBatch.createHolding sampleSys 1 3).Died := by
  have hr : (sampleBatch.create sampleSys 3).ending = .returned := by decide
  obtain ⟨hdied, -⟩ := handles_limit sampleBatch sampleSys 3 hr 1
  exact ⟨hr, hdied.mpr ⟨_, sampleSys_reaches, by decide⟩⟩

end CoverityTool
