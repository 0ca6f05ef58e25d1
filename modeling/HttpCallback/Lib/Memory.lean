import HttpCallback.Lib.CString

/-!
# Flat memory

A stretch of memory as a function of the offset from some base: what `memset`, a block write and a
string scan do to it. Bytes nobody wrote keep whatever value they had.
-/

/-- The bytes at the offsets from a base address. -/
abbrev Mem := Nat → UInt8

namespace Mem

open CString

/-- `memset(m + p, b, n)`. -/
def fill (m : Mem) (p : Nat) (b : UInt8) (n : Nat) : Mem :=
  fun i => if p ≤ i ∧ i < p + n then b else m i

/-- The bytes `s` stored from offset `p` on. -/
def write (m : Mem) (p : Nat) (s : Bytes) : Mem :=
  fun i => if p ≤ i then (s[i - p]?).getD (m i) else m i

/-- The string at offset `p`, as far as `fuel` bytes. -/
def strAt (m : Mem) (p : Nat) : Nat → Bytes
  | 0 => []
  | fuel + 1 => if m p = 0 then [] else m p :: strAt m (p + 1) fuel

/-- The `n` bytes from offset `p` on. -/
def block (m : Mem) (p n : Nat) : Bytes := (List.range n).map fun i => m (p + i)

variable {m : Mem} {p : Nat}

@[simp] theorem length_block (m : Mem) (p n : Nat) : (m.block p n).length = n := by
  simp [block]

theorem block_add (m : Mem) (p n k : Nat) :
    m.block p (n + k) = m.block p n ++ m.block (p + n) k := by
  unfold block
  rw [List.range_add, List.map_append, List.map_map]
  simp only [Function.comp_def, Nat.add_assoc]

theorem block_succ (m : Mem) (p n : Nat) : m.block p (n + 1) = m p :: m.block (p + 1) n := by
  rw [Nat.add_comm n 1, block_add]
  rfl

theorem take_block (m : Mem) (p : Nat) {n k : Nat} (h : k ≤ n) :
    (m.block p n).take k = m.block p k := by
  obtain ⟨l, rfl⟩ := Nat.exists_eq_add_of_le h
  rw [block_add]
  exact List.take_left' (m.length_block p k)

theorem drop_block (m : Mem) (p : Nat) {n k : Nat} (h : k ≤ n) :
    (m.block p n).drop k = m.block (p + k) (n - k) := by
  obtain ⟨l, rfl⟩ := Nat.exists_eq_add_of_le h
  rw [block_add, Nat.add_sub_cancel_left]
  exact List.drop_left' (m.length_block p k)

theorem fill_in {b : UInt8} {n i : Nat} (h₁ : p ≤ i) (h₂ : i < p + n) : m.fill p b n i = b :=
  if_pos ⟨h₁, h₂⟩

theorem write_in {s : Bytes} {k : Nat} (h : k < s.length) : m.write p s (p + k) = s[k] := by
  simp [write, h]

theorem write_behind {s : Bytes} {k : Nat} (h : s.length ≤ k) :
    m.write p s (p + k) = m (p + k) := by
  simp [write, h]

theorem write_nil (m : Mem) (p : Nat) : m.write p [] = m := by
  funext i
  simp [write]

theorem write_append (m : Mem) (p : Nat) (s t : Bytes) :
    (m.write p s).write (p + s.length) t = m.write p (s ++ t) := by
  funext i
  unfold write
  rcases Nat.lt_or_ge i (p + s.length) with hlt | hge
  · rcases Nat.lt_or_ge i p with hlow | hlow
    · rw [if_neg (by omega), if_neg (by omega), if_neg (by omega)]
    · rw [if_neg (by omega), if_pos hlow, if_pos hlow, List.getElem?_append_left (by omega)]
  · have hnone : s[i - p]? = none := List.getElem?_eq_none (by omega)
    rw [if_pos hge, if_pos (by omega), if_pos (by omega), List.getElem?_append_right (by omega),
      hnone, Nat.sub_sub]
    rfl

/-- The bytes `s` stand at offset `p`. -/
def Holds (m : Mem) (p : Nat) (s : Bytes) : Prop := ∀ k (h : k < s.length), m (p + k) = s[k]

theorem holds_write (m : Mem) (p : Nat) (s : Bytes) : (m.write p s).Holds p s :=
  fun _ h => write_in h

theorem Holds.block_eq {s : Bytes} (h : m.Holds p s) : m.block p s.length = s := by
  refine List.ext_getElem (length_block m p s.length) fun k hk hk' => ?_
  simp only [block, List.getElem_map, List.getElem_range]
  exact h k hk'

theorem Holds.head {b : UInt8} {s : Bytes} (h : m.Holds p (b :: s)) : m p = b :=
  h 0 (Nat.zero_lt_succ _)

theorem Holds.tail {b : UInt8} {s : Bytes} (h : m.Holds p (b :: s)) : m.Holds (p + 1) s := by
  intro k hk
  rw [Nat.add_right_comm, Nat.add_assoc]
  exact h (k + 1) (Nat.succ_lt_succ hk)

theorem Holds.behind {s t : Bytes} (h : m.Holds p (s ++ t)) : m.Holds (p + s.length) t := by
  intro k hk
  have hlt : s.length + k < (s ++ t).length := by
    rw [List.length_append]
    exact Nat.add_lt_add_left hk _
  rw [Nat.add_assoc, h _ hlt, List.getElem_append_right (Nat.le_add_right _ _)]
  simp only [Nat.add_sub_cancel_left]

/-- A scan stops at the terminator. -/
theorem strAt_eq {s : Bytes} (hs : NulFree s) : ∀ {p fuel : Nat},
    m.Holds p s → m (p + s.length) = 0 → s.length < fuel → m.strAt p fuel = s := by
  induction s with
  | nil =>
    intro p fuel _ h0 hf
    obtain ⟨fuel, rfl⟩ := Nat.exists_eq_succ_of_ne_zero (Nat.ne_of_gt hf)
    exact if_pos h0
  | cons b s ih =>
    intro p fuel hk h0 hf
    obtain ⟨fuel, rfl⟩ := Nat.exists_eq_succ_of_ne_zero (Nat.ne_of_gt (Nat.zero_lt_of_lt hf))
    obtain ⟨hb, hs'⟩ := nulFree_cons.1 hs
    have hrest : m.strAt (p + 1) fuel = s := by
      apply ih hs' hk.tail
      · rw [Nat.add_right_comm, Nat.add_assoc]
        exact h0
      · simpa using hf
    rw [strAt, hk.head, if_neg hb, hrest]

/-- A scan goes on where there is no terminator. -/
theorem lt_length_strAt {s : Bytes} (hs : NulFree s) : ∀ {p fuel : Nat},
    m.Holds p s → m (p + s.length) ≠ 0 → s.length < fuel →
    s.length < (m.strAt p fuel).length := by
  induction s with
  | nil =>
    intro p fuel _ h0 hf
    obtain ⟨fuel, rfl⟩ := Nat.exists_eq_succ_of_ne_zero (Nat.ne_of_gt hf)
    have hp : m p ≠ 0 := h0
    rw [strAt, if_neg hp]
    exact Nat.zero_lt_succ _
  | cons b s ih =>
    intro p fuel hk h0 hf
    obtain ⟨fuel, rfl⟩ := Nat.exists_eq_succ_of_ne_zero (Nat.ne_of_gt (Nat.zero_lt_of_lt hf))
    obtain ⟨hb, hs'⟩ := nulFree_cons.1 hs
    rw [strAt, hk.head, if_neg hb]
    refine Nat.succ_lt_succ (ih hs' hk.tail ?_ (Nat.lt_of_succ_lt_succ hf))
    rw [Nat.add_right_comm, Nat.add_assoc]
    exact h0

/-- A block written in front of a NUL is read back as far as its own first NUL. -/
theorem strAt_write {s : Bytes} {fuel : Nat} (h0 : m (p + s.length) = 0) (hf : s.length < fuel) :
    (m.write p s).strAt p fuel = cstr s := by
  have hlen : (cstr s).length ≤ s.length := (List.takeWhile_prefix _).length_le
  apply strAt_eq (nulFree_cstr s)
  · intro k hk
    rw [write_in (Nat.lt_of_lt_of_le hk hlen)]
    exact ((List.takeWhile_prefix _).getElem hk).symm
  · rcases cstr_split s with heq | ⟨t, ht⟩
    · rw [heq, write_behind (Nat.le_refl _)]
      exact h0
    · have hlt : (cstr s).length < s.length := by
        have := congrArg List.length ht
        simp only [List.length_append, List.length_cons] at this
        omega
      have hnul : s[(cstr s).length]? = some 0 := by
        refine (congrArg (·[(cstr s).length]?) ht).trans ?_
        simp
      rw [write_in hlt]
      exact (List.getElem_eq_iff hlt).2 hnul
  · exact Nat.lt_of_le_of_lt hlen hf

end Mem
