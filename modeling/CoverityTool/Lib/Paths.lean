import Mathlib.Data.List.DropRight

/-! Where a path leads: from the root if it begins with a separator, and otherwise from the current place, name by
    name. Empty names and dots stay where they are. -/

namespace Paths
variable {α ν : Type} [DecidableEq α]

/-- Places, and what names lead to from them. -/
structure Places (α ν : Type) where
  root : ν
  current : ν
  step : ν → List α → Option ν

variable (places : Places α ν) (sep dot : α)

def look (v : ν) (name : List α) : Option ν := if name = [] ∨ name = [dot] then some v else places.step v name

def follow (v : ν) (names : List (List α)) : Option ν := names.foldlM (look places dot) v

def start (p : List α) : ν := if p.head? = some sep then places.root else places.current

def leads (p : List α) : Option ν := follow places dot (start places sep p) (p.splitOn sep)

variable {places sep dot} {a b p : List α} {v : ν} {names names' : List (List α)}

@[simp] theorem look_nil : look places dot v [] = some v := by simp [look]

@[simp] theorem look_dot : look places dot v [dot] = some v := by simp [look]

theorem follow_append : follow places dot v (names ++ names') =
    (follow places dot v names).bind fun w => follow places dot w names' := List.foldlM_append

@[simp] theorem follow_singleton {name : List α} : follow places dot v [name] = look places dot v name := by
  simp [follow]

theorem start_append (ha : a ≠ []) : start places sep (a ++ b) = start places sep a := by
  rw [start, start, List.head?_append_of_ne_nil _ ha]

/-- A separator at the end leads no further. -/
theorem leads_concat (ha : a ≠ []) : leads places sep dot (a ++ [sep]) = leads places sep dot a := by
  rw [leads, List.splitOn_append_cons_self, start_append ha, follow_append, leads]
  simp [follow]

theorem leads_sep : leads places sep dot [sep] = some places.root := by
  have hsplit : [sep].splitOn sep = [[], []] := List.splitOn_append_cons_self [] []
  rw [leads, hsplit]
  simp [start, follow]

/-- The last name is looked up where the rest of the path leads. -/
theorem leads_append (hb : sep ∉ b) : leads places sep dot (a ++ sep :: b) =
    (leads places sep dot (a ++ [sep])).bind fun v => look places dot v b := by
  have hstart : start places sep (a ++ sep :: b) = start places sep (a ++ [sep]) := by
    rw [List.append_cons, start_append (by simp)]
  rw [leads, leads, hstart, List.splitOn_append_cons_self, List.splitOn_append_cons_self, follow_append, follow_append,
    List.splitOn_eq_singleton hb]
  simp only [List.splitOn_nil, follow_singleton, look_nil, Option.bind_fun_some]

/-- A single name is looked up where one is. -/
theorem leads_of_not_mem (hp : sep ∉ p) : leads places sep dot p = look places dot places.current p := by
  have hhead : p.head? ≠ some sep := fun h => hp (List.mem_of_head? h)
  rw [leads, start, if_neg hhead, List.splitOn_eq_singleton hp, follow_singleton]

/-- Any number of separators at the end leads no further. -/
theorem leads_rdropWhile (ha : a.rdropWhile (· = sep) ≠ []) :
    leads places sep dot (a.rdropWhile (· = sep)) = leads places sep dot a := by
  induction a using List.reverseRecOn with
  | nil => rfl
  | append_singleton a c ih =>
    by_cases hc : c = sep
    · subst hc
      rw [List.rdropWhile_concat_pos _ _ _ (by simp)] at ha ⊢
      have hne : a ≠ [] := fun h => ha (by rw [h]; rfl)
      rw [leads_concat hne, ih ha]
    · rw [List.rdropWhile_concat_neg _ _ _ (by simpa using hc)]

end Paths
