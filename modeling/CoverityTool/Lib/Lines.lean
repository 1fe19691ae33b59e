import Mathlib.Data.List.Basic

/-! Lines: what is read up to a newline and with it. The last line of a text may have none. -/

namespace Lines
variable {α : Type} [DecidableEq α] (newline : α)

/-- The first line, and what comes after it. -/
def readline : List α → List α × List α
  | [] => ([], [])
  | c :: s => if c = newline then ([c], s) else (c :: (readline s).1, (readline s).2)

def lines : List α → List (List α)
  | [] => []
  | c :: s =>
    if c = newline then [c] :: lines s
    else match lines s with
      | [] => [[c]]
      | line :: rest => (c :: line) :: rest

/-- How the lines begin: `n` characters of each. -/
def heads (n : Nat) (s : List α) : List (List α) := (lines newline s).map (·.take n)

variable {newline} {c : α} {s t v rest : List α} {n : Nat}

@[simp] theorem lines_nil : lines newline ([] : List α) = [] := rfl

@[simp] theorem lines_newline : lines newline (newline :: s) = [newline] :: lines newline s := if_pos rfl

theorem readline_append (newline : α) (s : List α) : (readline newline s).1 ++ (readline newline s).2 = s := by
  induction s with
  | nil => rfl
  | cons c s ih =>
    rw [readline]
    split
    · rfl
    · exact congrArg (c :: ·) ih

theorem readline_shorter (h : s ≠ []) : (readline newline s).2.length < s.length := by
  cases s with
  | nil => exact absurd rfl h
  | cons c s =>
    have hlen := congrArg List.length (readline_append newline s)
    rw [List.length_append] at hlen
    rw [readline]
    split
    · exact Nat.lt_succ_self _
    · have hle : (readline newline s).2.length ≤ s.length := by omega
      exact Nat.lt_succ_of_le hle

@[simp] theorem lines_eq_nil : lines newline s = [] ↔ s = [] := by
  cases s with
  | nil => simp
  | cons c s =>
    rw [lines]
    split
    · simp
    · split <;> simp

/-- Reading line by line gives the lines. -/
theorem lines_readline (h : s ≠ []) :
    lines newline s = (readline newline s).1 :: lines newline (readline newline s).2 := by
  induction s with
  | nil => exact absurd rfl h
  | cons c s ih =>
    by_cases hc : c = newline
    · simp [lines, readline, hc]
    · rw [lines, readline, if_neg hc, if_neg hc]
      cases s with
      | nil => rfl
      | cons d s => rw [ih (List.cons_ne_nil d s)]

/-- A text without a newline and the newline after it are one line. -/
theorem lines_append (h : newline ∉ v) : lines newline (v ++ newline :: s) = (v ++ [newline]) :: lines newline s := by
  induction v with
  | nil => exact lines_newline
  | cons c v ih =>
    rw [List.mem_cons, not_or] at h
    rw [List.cons_append, lines, if_neg (Ne.symm h.1), ih h.2]
    rfl

theorem heads_append (h : newline ∉ v) :
    heads newline n (v ++ newline :: s) = (v ++ [newline]).take n :: heads newline n s := by
  rw [heads, lines_append h, List.map_cons, heads]

/-! ### Texts that are cut off -/

/-- The lines of the beginning of a text are those of the text, up to the last one, of which a part is left. -/
theorem lines_of_prefix (newline : α) (h : s <+: t) (hs : s ≠ []) : ∃ (before : List (List α)) (part line : List α),
    lines newline s = before ++ [part] ∧ before ++ [line] <+: lines newline t ∧ part <+: line := by
  induction s generalizing t with
  | nil => exact absurd rfl hs
  | cons c s ih =>
    obtain ⟨t, rfl⟩ : ∃ t', t = c :: t' := by
      obtain ⟨rest, rfl⟩ := h
      exact ⟨s ++ rest, rfl⟩
    have hst := (List.cons_prefix_cons.mp h).2
    by_cases hc : c = newline
    · rw [hc, lines_newline, lines_newline]
      by_cases hnil : s = []
      · exact ⟨[], [newline], [newline], by rw [hnil]; rfl, by simp, List.prefix_rfl⟩
      · obtain ⟨before, part, line, hlines, hp, hpart⟩ := ih hst hnil
        exact ⟨[newline] :: before, part, line, by rw [hlines]; rfl, List.cons_prefix_cons.mpr ⟨rfl, hp⟩, hpart⟩
    · simp only [lines, if_neg hc]
      by_cases hnil : s = []
      · rw [hnil, lines_nil]
        cases lines newline t with
        | nil => exact ⟨[], [c], [c], rfl, by simp, List.prefix_rfl⟩
        | cons line rest => exact ⟨[], [c], c :: line, rfl, by simp, by simp⟩
      · obtain ⟨before, part, line, hlines, ⟨rest, hrest⟩, hpart⟩ := ih hst hnil
        rw [hlines, ← hrest]
        cases before with
        | nil => exact ⟨[], c :: part, c :: line, rfl, by simp, List.cons_prefix_cons.mpr ⟨rfl, hpart⟩⟩
        | cons first before => exact ⟨(c :: first) :: before, part, line, rfl, by simp, hpart⟩

/-- One of the two begins the other. -/
def Alike {β : Type} (xs ys : List β) : Prop := xs <+: ys ∨ ys <+: xs

theorem Alike.of_prefix {β : Type} {xs ys zs : List β} (h : Alike xs ys) (hzs : zs <+: ys) : Alike xs zs := by
  rcases h with h | h
  · exact List.prefix_or_prefix_of_prefix h hzs
  · exact Or.inr (hzs.trans h)

theorem Alike.symm {β : Type} {xs ys : List β} (h : Alike xs ys) : Alike ys xs := Or.symm h

theorem Alike.prefix_of_le {β : Type} {xs ys : List β} (h : Alike xs ys) (hle : xs.length ≤ ys.length) : xs <+: ys := by
  rcases h with h | h
  · exact h
  · exact (h.eq_of_length_le hle) ▸ List.prefix_rfl

/-- When the lines of two texts begin alike, so they do with one text cut off, exactly if the beginning of its last
    line is left or it has more lines than the other text. -/
theorem alike_cut {u : List α} (hst : s <+: t) (h : Alike (heads newline n u) (heads newline n t))
    (hlong : ∀ line ∈ lines newline t, n ≤ line.length) :
    Alike (heads newline n u) (heads newline n s) ↔
      (∀ last ∈ (lines newline s).getLast?, n ≤ last.length) ∨ (lines newline u).length < (lines newline s).length := by
  by_cases hs : s = []
  · simp [hs, heads, Alike]
  obtain ⟨before, part, line, hlines, hp, hpart⟩ := lines_of_prefix newline hst hs
  have hheads : heads newline n s = before.map (·.take n) ++ [part.take n] := by rw [heads, hlines, List.map_append]; rfl
  have hbegin : before.map (·.take n) ++ [line.take n] <+: heads newline n t := by
    have hmap := hp.map (·.take n)
    rwa [List.map_append] at hmap
  have hline : n ≤ line.length := hlong line (hp.subset (by simp))
  have hlast : (∀ last ∈ (lines newline s).getLast?, n ≤ last.length) ↔ n ≤ part.length := by
    rw [hlines, List.getLast?_concat]
    simp
  rw [hlast]
  have hlen : (heads newline n s).length = (before.map (·.take n) ++ [line.take n]).length := by simp [hheads]
  constructor
  · intro halike
    by_contra hcut
    obtain ⟨hshort, hle⟩ := not_or.mp hcut
    have hle' : (heads newline n s).length ≤ (heads newline n u).length := by
      simpa only [heads, List.length_map] using Nat.le_of_not_lt hle
    have hpart' := halike.symm.prefix_of_le hle'
    have hline' := (h.of_prefix hbegin).symm.prefix_of_le (hlen ▸ hle')
    have heq := (List.prefix_of_prefix_length_le hpart' hline' (Nat.le_of_eq hlen)).eq_of_length hlen
    rw [hheads] at heq
    -- The part would begin with as many characters as the line.
    have htake := congrArg List.length (List.cons.inj (List.append_cancel_left heq)).1
    rw [List.length_take, List.length_take] at htake
    omega
  · rintro (hlong' | hlt)
    · obtain ⟨rest, rfl⟩ := hpart
      rw [List.take_append_of_le_length hlong'] at hbegin
      exact h.of_prefix (hheads ▸ hbegin)
    · have hshort : (heads newline n u).length ≤ (before.map (·.take n)).length := by
        rw [hlines, List.length_append, List.length_singleton] at hlt
        simpa only [heads, List.length_map] using Nat.le_of_lt_succ hlt
      have halike := h.of_prefix ((List.prefix_append _ _).trans hbegin)
      rw [hheads]
      exact Or.inl ((halike.prefix_of_le hshort).trans (List.prefix_append _ _))

end Lines
