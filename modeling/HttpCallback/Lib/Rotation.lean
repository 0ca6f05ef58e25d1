import Mathlib.Data.List.Count
import Mathlib.Data.List.Perm.Basic
import Mathlib.Data.Nat.ModEq

/-!
# Turns taken backwards

With `n` places, turn `j` goes to place `n - 1 - j % n`: to the last place first, then to the one in
front of it, and behind the first place to the last again. Any number of turns is shared out evenly,
and every round of `n` turns visits each place once.
-/

namespace Rotation

variable {n k i : Nat}

/-- The place whose turn it is. -/
def turn (n j : Nat) : Nat := n - 1 - j % n

/-- The places of the first `k` turns. -/
def turns (n k : Nat) : List Nat := (List.range k).map (turn n)

theorem turn_lt (hn : 0 < n) (j : Nat) : turn n j < n := by
  unfold turn
  omega

@[simp] theorem length_turns (n k : Nat) : (turns n k).length = k := by
  rw [turns, List.length_map, List.length_range]

theorem turns_succ (n k : Nat) : turns n (k + 1) = turns n k ++ [turn n k] := by
  rw [turns, List.range_succ, List.map_append]
  rfl

theorem turn_eq_iff (hi : i < n) (k : Nat) : turn n k = i ↔ n ∣ k + i + 1 := by
  have hlt : k % n < n := Nat.mod_lt k (by omega)
  have hsplit : k + i + 1 = n * (k / n) + (k % n + i + 1) := by
    have := Nat.div_add_mod k n
    omega
  rw [hsplit, Nat.dvd_add_right (Nat.dvd_mul_right n _)]
  unfold turn
  constructor
  · intro h
    exact ⟨1, by omega⟩
  · rintro ⟨c, hc⟩
    -- below two rounds there is only one multiple above 0
    have hone : c = 1 := by
      rcases Nat.lt_or_ge c 2 with hc2 | hc2
      · rcases Nat.eq_zero_or_pos c with rfl | hpos
        · omega
        · omega
      · have := Nat.mul_le_mul_left n hc2
        omega
    subst hone
    omega

/-- The turns of a place: it has one more when the quotient goes up. -/
theorem quot_succ (hi : i < n) (k : Nat) :
    (k + 1 + i) / n = (k + i) / n + if turn n k = i then 1 else 0 := by
  rw [show k + 1 + i = k + i + 1 by omega, Nat.succ_div]
  simp only [turn_eq_iff hi]

theorem count_turns (hi : i < n) (k : Nat) : (turns n k).count i = (k + i) / n := by
  induction k with
  | zero =>
    rw [Nat.zero_add, Nat.div_eq_of_lt hi]
    rfl
  | succ k ih =>
    rw [turns_succ, List.count_append, ih, quot_succ hi, List.count_singleton]
    simp only [beq_iff_eq]

/-- While the round has not come to the place it has as many turns as there are rounds, and then
one more. -/
theorem quot_eq (hi : i < n) (k : Nat) :
    (k + i) / n = k / n + if turn n k < i then 1 else 0 := by
  have hlt : k % n < n := Nat.mod_lt k (by omega)
  have hsplit : k + i = k % n + i + n * (k / n) := by
    have := Nat.div_add_mod k n
    omega
  rw [hsplit, Nat.add_mul_div_left _ _ (by omega)]
  unfold turn
  split
  · rename_i h
    rw [Nat.div_eq_of_lt_le (k := 1) (by omega) (by omega), Nat.add_comm]
  · rename_i h
    rw [Nat.div_eq_of_lt (by omega), Nat.add_comm]

/-- **The turns are shared out evenly.** -/
theorem count_turns_floor_or_ceil (hi : i < n) (k : Nat) :
    (turns n k).count i = k / n ∨ (turns n k).count i = (k + n - 1) / n := by
  rw [count_turns hi, show k + n - 1 = k + (n - 1) by omega, quot_eq hi,
    quot_eq (show n - 1 < n by omega)]
  by_cases h : turn n k < i
  · exact Or.inr (by rw [if_pos h, if_pos (by omega)])
  · exact Or.inl (by rw [if_neg h, Nat.add_zero])

/-- The `q`-th round. -/
theorem take_drop_turns {q : Nat} (h : (q + 1) * n ≤ k) :
    ((turns n k).drop (q * n)).take n = (List.range' 0 n).reverse := by
  rw [Nat.succ_mul] at h
  obtain ⟨d, rfl⟩ := Nat.exists_eq_add_of_le h
  have hround : (List.range n).map (turn n ∘ (q * n + ·)) = (List.range' 0 n).reverse := by
    rw [List.reverse_range', Nat.zero_add]
    refine List.map_congr_left fun j hj => ?_
    have hj' := List.mem_range.1 hj
    rw [Function.comp_apply, turn, Nat.add_comm (q * n), Nat.add_mul_mod_self_right,
      Nat.mod_eq_of_lt hj']
  rw [turns, List.range_add, List.range_add, List.append_assoc, List.map_append,
    List.drop_left' (by rw [List.length_map, List.length_range]), List.map_append,
    List.take_left' (by rw [List.length_map, List.length_map, List.length_range]), List.map_map,
    hround]

/-- **A round visits every place once.** -/
theorem round_perm {q : Nat} (h : (q + 1) * n ≤ k) :
    (((turns n k).drop (q * n)).take n).Perm (List.range n) := by
  rw [take_drop_turns h, List.range_eq_range']
  exact List.reverse_perm _

end Rotation
