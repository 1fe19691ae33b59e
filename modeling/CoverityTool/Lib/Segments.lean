import CoverityTool.Lib.Words

/-! Words joined by a separator that none of them contains. -/

namespace Segments
variable {α : Type} {sep : α} {n : List α} {ns ms : List (List α)}

/-- Each word after a separator. -/
def join (sep : α) (ns : List (List α)) : List α := ns.flatMap (sep :: ·)

@[simp] theorem join_nil : join sep [] = [] := rfl
@[simp] theorem join_cons : join sep (n :: ns) = sep :: (n ++ join sep ns) := rfl

@[simp] theorem join_append : join sep (ns ++ ms) = join sep ns ++ join sep ms := List.flatMap_append

theorem join_eq_intercalate : join sep (n :: ns) = sep :: [sep].intercalate (n :: ns) := by
  induction ns generalizing n with
  | nil => simp
  | cons m ns ih => rw [join_cons, ih, List.intercalate_cons_cons, List.append_assoc, List.singleton_append]

theorem splitOn_join [DecidableEq α] (h : ∀ m ∈ n :: ns, sep ∉ m) :
    ∃ t, join sep (n :: ns) = sep :: t ∧ t.splitOn sep = n :: ns :=
  ⟨_, join_eq_intercalate, List.splitOn_intercalate _ h (by simp)⟩

theorem join_injective (hn : ∀ n ∈ ns, sep ∉ n) (hm : ∀ m ∈ ms, sep ∉ m) (h : join sep ns = join sep ms) :
    ns = ms := by
  classical
  cases ns with
  | nil =>
    cases ms with
    | nil => rfl
    | cons m ms => simp at h
  | cons n ns =>
    cases ms with
    | nil => simp at h
    | cons m ms =>
      obtain ⟨t, ht, hts⟩ := splitOn_join hn
      obtain ⟨u, hu, hus⟩ := splitOn_join hm
      rw [ht, hu] at h
      rw [← hts, ← hus, (List.cons_eq_cons.mp h).2]

end Segments
