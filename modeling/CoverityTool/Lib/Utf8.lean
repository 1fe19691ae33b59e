import Mathlib.Data.List.Basic

/-! The octets of characters in UTF-8, with the longer sequences for code points that Unicode does not have. A
    character below 0x80 is one octet, and any other is more than one. -/

namespace Utf8

/-- The last `k` octets of a character: six bits each. -/
def tail (c : Nat) : Nat → List Nat
  | 0 => []
  | k + 1 => (0x80 + (c >>> (6 * k)) % 64) :: tail c k

def encode (c : Nat) : List Nat :=
  if c < 0x80 then [c]
  else if c < 0x800 then (0xC0 + (c >>> 6)) :: tail c 1
  else if c < 0x10000 then (0xE0 + (c >>> 12)) :: tail c 2
  else if c < 0x200000 then (0xF0 + (c >>> 18)) :: tail c 3
  else if c < 0x4000000 then (0xF8 + (c >>> 24)) :: tail c 4
  else if c < 0x80000000 then (0xFC + (c >>> 30)) :: tail c 5
  else if c < 0x1000000000 then 0xFE :: tail c 6
  else 0xFF :: tail c 12

def encodeAll (s : List Nat) : List Nat := s.flatMap encode

example : encodeAll [0x24, 0xE9, 0x20AC] = [0x24, 0xC3, 0xA9, 0xE2, 0x82, 0xAC] := by decide

theorem tail_le (c k : Nat) : ∀ o ∈ tail c k, o ≤ 0xFF := by
  induction k with
  | zero => simp [tail]
  | succ k ih =>
    rw [tail, List.forall_mem_cons]
    exact ⟨by omega, ih⟩

theorem encode_le (c : Nat) : ∀ o ∈ encode c, o ≤ 0xFF := by
  unfold encode
  repeat' split
  all_goals
    simp only [List.forall_mem_cons, List.not_mem_nil, false_imp_iff, implies_true, and_true, Nat.shiftRight_eq_div_pow]
  · omega
  all_goals exact ⟨by omega, tail_le c _⟩

theorem encodeAll_le (s : List Nat) : ∀ o ∈ encodeAll s, o ≤ 0xFF := by
  rw [encodeAll, List.forall_mem_flatMap]
  exact fun c _ => encode_le c

theorem tail_ge (c k : Nat) : ∀ o ∈ tail c k, 0x80 ≤ o := by
  induction k with
  | zero => simp [tail]
  | succ k ih =>
    rw [tail, List.forall_mem_cons]
    exact ⟨by omega, ih⟩

theorem encode_of_lt {c : Nat} (h : c < 0x80) : encode c = [c] := if_pos h

/-- The octets of the other characters are none of these. -/
theorem encode_ge {c : Nat} (h : 0x80 ≤ c) : ∀ o ∈ encode c, 0x80 ≤ o := by
  rw [encode, if_neg (Nat.not_lt.mpr h)]
  repeat' split
  all_goals
    rw [List.forall_mem_cons]
    exact ⟨by omega, tail_ge c _⟩

theorem encodeAll_of_lt {s : List Nat} (h : ∀ c ∈ s, c < 0x80) : encodeAll s = s := by
  induction s with
  | nil => rfl
  | cons c s ih =>
    rw [List.forall_mem_cons] at h
    rw [encodeAll, List.flatMap_cons, encode_of_lt h.1, ← encodeAll, ih h.2]
    rfl

theorem mem_of_mem_encodeAll {s : List Nat} {o : Nat} (h : o ∈ encodeAll s) (ho : o < 0x80) : o ∈ s := by
  obtain ⟨c, hc, hmem⟩ := List.mem_flatMap.mp h
  by_cases hlt : c < 0x80
  · rw [encode_of_lt hlt, List.mem_singleton] at hmem
    exact hmem ▸ hc
  · exact absurd ho (Nat.not_lt.mpr (encode_ge (Nat.not_lt.mp hlt) o hmem))

theorem length_tail (c k : Nat) : (tail c k).length = k := by
  induction k with
  | zero => rfl
  | succ k ih => rw [tail, List.length_cons, ih]

theorem length_encode_pos (c : Nat) : 0 < (encode c).length := by
  unfold encode
  repeat' split
  all_goals simp

theorem length_encode_eq_one {c : Nat} : (encode c).length = 1 ↔ c < 0x80 := by
  unfold encode
  constructor
  · intro h
    by_contra hc
    rw [if_neg hc] at h
    repeat' split at h
    all_goals simp [length_tail] at h
  · intro h
    rw [if_pos h, List.length_singleton]

@[simp] theorem encodeAll_append (s t : List Nat) : encodeAll (s ++ t) = encodeAll s ++ encodeAll t :=
  List.flatMap_append

theorem length_le_encodeAll (s : List Nat) : s.length ≤ (encodeAll s).length := by
  induction s with
  | nil => exact Nat.le_refl 0
  | cons c s ih =>
    have hc := length_encode_pos c
    rw [encodeAll, List.flatMap_cons, List.length_append, List.length_cons]
    exact Nat.add_comm s.length 1 ▸ Nat.add_le_add hc ih

/-- A text has as many octets as characters when all of them are below 0x80. -/
theorem length_encodeAll_eq_iff {s : List Nat} : (encodeAll s).length = s.length ↔ ∀ c ∈ s, c < 0x80 := by
  induction s with
  | nil => simp [encodeAll]
  | cons c s ih =>
    have hc := length_encode_pos c
    have hs := length_le_encodeAll s
    have hlen : (encodeAll (c :: s)).length = (encode c).length + (encodeAll s).length := by
      rw [encodeAll, List.flatMap_cons, List.length_append]
      rfl
    rw [List.forall_mem_cons, ← ih, ← length_encode_eq_one, hlen, List.length_cons]
    constructor
    · intro h
      constructor <;> omega
    · rintro ⟨h1, h2⟩
      omega

end Utf8
