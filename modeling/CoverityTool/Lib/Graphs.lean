import Mathlib.Data.Fintype.Card
import Mathlib.Data.List.Nodup
import Mathlib.Logic.Relation
import Mathlib.Order.WellFounded

/-! Graphs whose edges have names: following names from a node, and the nodes from which a cycle is reached.
    In a finite graph the other nodes have an induction principle of their own. -/

namespace Graphs
open Relation

/-- A graph: the edges that leave a node, in order, with distinct names. -/
structure NamedGraph (κ ι : Type) where
  out : ι → List (κ × ι)
  distinct : ∀ v, ((out v).map Prod.fst).Nodup

namespace NamedGraph
variable {κ ι : Type} (G : NamedGraph κ ι) {u v : ι} {k : κ} {ks ls : List κ}

def Edge (u v : ι) : Prop := ∃ k, (k, v) ∈ G.out u

def Endless (v : ι) : Prop := ∃ u, ReflTransGen G.Edge v u ∧ TransGen G.Edge u u

/-! ### Following names -/

section Follow
variable [DecidableEq κ]

/-- The node that the names lead to from `v`. -/
def follow (v : ι) : List κ → Option ι
  | [] => some v
  | k :: ks => ((G.out v).lookup k).bind fun u => follow u ks

variable {G}

theorem lookup_eq_some : (G.out v).lookup k = some u ↔ (k, u) ∈ G.out v := by
  have general : ∀ {l : List (κ × ι)}, (l.map Prod.fst).Nodup → (l.lookup k = some u ↔ (k, u) ∈ l) := by
    intro l
    induction l with
    | nil => simp
    | cons p l ih =>
      intro hn
      obtain ⟨j, w⟩ := p
      rw [List.map_cons, List.nodup_cons] at hn
      obtain ⟨hj, hn⟩ := hn
      rw [List.lookup_cons, List.mem_cons]
      by_cases hk : k = j
      · subst hk
        have hm : (k, u) ∉ l := fun hm => hj (List.mem_map.mpr ⟨(k, u), hm, rfl⟩)
        simp [hm, eq_comm]
      · have hne : (k == j) = false := beq_eq_false_iff_ne.mpr hk
        simp [hne, hk, ih hn]
  exact general (G.distinct v)

@[simp] theorem follow_nil : G.follow v [] = some v := rfl

theorem follow_cons : G.follow v (k :: ks) = ((G.out v).lookup k).bind fun u => G.follow u ks := rfl

theorem follow_append : G.follow v (ks ++ ls) = (G.follow v ks).bind fun u => G.follow u ls := by
  induction ks generalizing v with
  | nil => rfl
  | cons k ks ih => simp only [List.cons_append, follow_cons, ih, Option.bind_assoc]

theorem follow_cons_eq_some {w : ι} :
    G.follow v (k :: ks) = some w ↔ ∃ u, (k, u) ∈ G.out v ∧ G.follow u ks = some w := by
  simp only [follow_cons, Option.bind_eq_some_iff, lookup_eq_some]

theorem follow_concat {w : ι} (h : G.follow v ks = some u) (hw : (k, w) ∈ G.out u) :
    G.follow v (ks ++ [k]) = some w := by
  rw [follow_append, h, Option.bind_some, follow_cons_eq_some]
  exact ⟨w, hw, rfl⟩

end Follow

/-! ### Cycles -/

variable {G}

theorem Endless.next (h : G.Endless v) : ∃ k u, (k, u) ∈ G.out v ∧ G.Endless u := by
  obtain ⟨w, hvw, hw⟩ := h
  rcases hvw.cases_head with rfl | ⟨u, ⟨k, hk⟩, huw⟩
  · obtain ⟨u, ⟨k, hk⟩, huv⟩ := TransGen.head'_iff.mp hw
    exact ⟨k, u, hk, _, huv, hw⟩
  · exact ⟨k, u, hk, w, huw, hw⟩

theorem not_endless_of_edge (h : ¬ G.Endless v) (hk : (k, u) ∈ G.out v) : ¬ G.Endless u := by
  rintro ⟨w, huw, hw⟩
  exact h ⟨w, ReflTransGen.head ⟨k, hk⟩ huw, hw⟩

/-- What holds of a node when it holds of the next ones holds of each node from which no cycle is reached. -/
theorem induction_of_not_endless [Finite ι] {P : ι → Prop}
    (step : ∀ v, ¬ G.Endless v → (∀ k u, (k, u) ∈ G.out v → P u) → P v) (h : ¬ G.Endless v) : P v := by
  -- `a` is after `b`: this never comes back to `b` when no cycle is reached from `b`.
  let below (a b : ι) : Prop := TransGen G.Edge b a ∧ ¬ G.Endless b
  have trans : IsTrans ι below := ⟨fun _ _ _ hab hbc => ⟨hbc.1.trans hab.1, hbc.2⟩⟩
  have irrefl : Std.Irrefl below := ⟨fun a ha => ha.2 ⟨a, ReflTransGen.refl, ha.1⟩⟩
  have wf : WellFounded below := Finite.wellFounded_of_trans_of_irrefl below
  induction v using wf.induction with
  | h v ih =>
    refine step v h ?_
    intro k u hk
    exact ih u ⟨TransGen.single ⟨k, hk⟩, h⟩ (not_endless_of_edge h hk)

end NamedGraph

end Graphs
