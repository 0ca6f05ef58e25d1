import Mathlib.Algebra.BigOperators.Group.Finset.Basic
import Mathlib.Algebra.Order.BigOperators.Group.Finset

/-!
# Least-loaded dispatching

A dispatcher hands each job to a worker that has been given the fewest, and may at any moment
replace a worker by a new one, which starts without jobs. Replacements take jobs out of the count
and never put one in, so with `n` workers none is ever ahead of its share: of `N` jobs handed out so
far, to whichever workers, each worker alive has been given at most `N / n`, rounded up (`Fair`).
-/

namespace LeastLoaded

/-- The workers alive, and the jobs that each has been given. -/
structure State (ι : Type*) where
  live : Finset ι
  load : ι → Nat

/-- What holds of `n` workers when `jobs` have been handed out. -/
structure Fair {ι : Type*} (n jobs : Nat) (s : State ι) : Prop where
  card : s.live.card = n
  total : ∑ p ∈ s.live, s.load p ≤ jobs
  share : ∀ p ∈ s.live, s.load p ≤ (jobs + n - 1) / n

theorem fair_init {ι : Type*} {s : State ι} (h : ∀ p ∈ s.live, s.load p = 0) :
    Fair s.live.card 0 s :=
  ⟨rfl, Nat.le_of_eq (Finset.sum_eq_zero h), fun p hp => by rw [h p hp]; exact Nat.zero_le _⟩

/-- The least load is at most the average. -/
theorem Fair.least_le {ι : Type*} {s : State ι} {n jobs : Nat} {p : ι} (h : Fair n jobs s)
    (hmin : ∀ q ∈ s.live, s.load p ≤ s.load q) :
    n * s.load p ≤ jobs := by
  have hsum : ∑ q ∈ s.live, s.load p ≤ ∑ q ∈ s.live, s.load q := Finset.sum_le_sum hmin
  rw [Finset.sum_const_nat fun _ _ => rfl, h.card] at hsum
  exact hsum.trans h.total

variable {ι : Type*} [DecidableEq ι]

def State.assign (s : State ι) (p : ι) : State ι :=
  { s with load := Function.update s.load p (s.load p + 1) }

def State.replace (s : State ι) (p q : ι) : State ι where
  live := insert q (s.live.erase p)
  load := Function.update s.load q 0

/-- A step, with the number of jobs it hands out. -/
inductive Step : State ι → Nat → State ι → Prop
  | assign (s : State ι) (p : ι) (hp : p ∈ s.live) (hmin : ∀ q ∈ s.live, s.load p ≤ s.load q) :
    Step s 1 (s.assign p)
  | replace (s : State ι) (p q : ι) (hp : p ∈ s.live) (hq : q ∉ s.live.erase p) :
    Step s 0 (s.replace p q)

variable {s s' : State ι} {n jobs k : Nat} {p q : ι}

theorem Fair.assign (h : Fair n jobs s) (hp : p ∈ s.live)
    (hmin : ∀ q ∈ s.live, s.load p ≤ s.load q) : Fair n (jobs + 1) (s.assign p) := by
  have hpos : 0 < n := by
    rw [← h.card]
    exact Finset.card_pos.2 ⟨p, hp⟩
  refine ⟨h.card, ?_, fun q hq => ?_⟩
  · have hrest : ∑ q ∈ s.live.erase p, (s.assign p).load q = ∑ q ∈ s.live.erase p, s.load q :=
      Finset.sum_congr rfl fun q hq => Function.update_of_ne (Finset.ne_of_mem_erase hq) _ _
    have hself : (s.assign p).load p = s.load p + 1 := Function.update_self ..
    have htotal := h.total
    rw [← Finset.add_sum_erase _ _ hp] at htotal
    change ∑ q ∈ s.live, (s.assign p).load q ≤ jobs + 1
    rw [← Finset.add_sum_erase _ _ hp, hrest, hself]
    omega
  · by_cases hqp : q = p
    · subst hqp
      have hleast := h.least_le hmin
      have hself : (s.assign q).load q = s.load q + 1 := Function.update_self ..
      rw [hself, Nat.le_div_iff_mul_le hpos, Nat.mul_comm, Nat.mul_add_one]
      omega
    · have hold : (s.assign p).load q = s.load q := Function.update_of_ne hqp _ _
      rw [hold]
      exact (h.share q hq).trans (Nat.div_le_div_right (by omega))

theorem Fair.replace (h : Fair n jobs s) (hp : p ∈ s.live) (hq : q ∉ s.live.erase p) :
    Fair n jobs (s.replace p q) := by
  have hold : ∀ x ∈ s.live.erase p, (s.replace p q).load x = s.load x := by
    intro x hx
    have hne : x ≠ q := fun heq => hq (heq ▸ hx)
    exact Function.update_of_ne hne _ _
  have hnew : (s.replace p q).load q = 0 := Function.update_self ..
  refine ⟨?_, ?_, fun x hx => ?_⟩
  · change (insert q (s.live.erase p)).card = n
    rw [Finset.card_insert_of_notMem hq, Finset.card_erase_add_one hp, h.card]
  · change ∑ x ∈ insert q (s.live.erase p), (s.replace p q).load x ≤ jobs
    rw [Finset.sum_insert hq, hnew, Nat.zero_add, Finset.sum_congr rfl hold]
    exact (Finset.sum_le_sum_of_subset (Finset.erase_subset p s.live)).trans h.total
  · rcases Finset.mem_insert.1 hx with rfl | hx
    · rw [hnew]
      exact Nat.zero_le _
    · rw [hold x hx]
      exact h.share x (Finset.mem_of_mem_erase hx)

/-- **No worker is ahead of its share, whoever is replaced when.** -/
theorem Fair.step (h : Fair n jobs s) (hstep : Step s k s') : Fair n (jobs + k) s' := by
  cases hstep with
  | assign p hp hmin => exact h.assign hp hmin
  | replace p q hp hq => exact h.replace hp hq

end LeastLoaded
