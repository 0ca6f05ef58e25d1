import HttpCallback.Rio

/-!
# The count of the buffered reader

`nread` tells how many bytes the buffer holds and that the last `read` failed. An interrupted refill
leaves the loop of `rio_read` with the error value, which then passes for a count, and so does a
size that is negative as an `int`. Every other call keeps to the buffer, from any state a reader can
be in.
-/

namespace HttpCallback

/-- What the buffer holds when the copy is due: what an earlier call left, or what the next read
brings. -/
def Rio.buffered (rp : Rio) : Int :=
  if 0 < rp.nread then rp.nread
  else
    match rp.evs with
    | [] => 0
    | ev :: _ => ev.ret rioBufsize

/-- What a call should come to: `memcpy` gets no negative count, no more is copied than was asked
for and is there, -1 means a failed read other than an interrupted one, and behind a count the
buffer's bytes are inside it. -/
structure Rio.Counts (rp : Rio) (sz : UInt64) : Prop where
  returns : (rioRead rp sz).fin ≠ .wild
  copied : (rioRead rp sz).usrbuf.length ≤ min sz.toNat rp.buffered.toNat
  error : (rioRead rp sz).fin = .ret (-1) →
    rp.nread ≤ 0 ∧ ∃ e evs, rp.evs = .fail e :: evs ∧ e ≠ .eintr
  keeps : ∀ n, 0 ≤ n → (rioRead rp sz).fin = .ret n →
    0 ≤ (rioRead rp sz).rio.nread ∧
      (rioRead rp sz).rio.ptr + (rioRead rp sz).rio.nread ≤ rioBufsize

/-- No refill is interrupted, and the size is not negative when there are bytes to copy. -/
def Rio.Calm (rp : Rio) (sz : UInt64) : Prop :=
  (rp.nread ≤ 0 → ∀ evs, rp.evs ≠ .fail .eintr :: evs) ∧ (0 < rp.buffered → 0 ≤ rioCnt sz)

/-- The states a reader can be in: `nread` may be the error value, and a count stays inside the
buffer. -/
structure Rio.Sound (rp : Rio) : Prop where
  ptr : rp.ptr ≤ rioBufsize
  count : 0 ≤ rp.nread → rp.ptr + rp.nread ≤ rioBufsize

section Call

variable {rp : Rio} {sz : UInt64}

/-- The conversion to `int` does not make the size larger. -/
theorem rioCnt_le (sz : UInt64) : rioCnt sz ≤ sz.toNat := by
  have hcnt : rioCnt sz = sz.toUInt32.toBitVec.toInt := rfl
  have hlow : sz.toUInt32.toBitVec.toNat = sz.toNat % 4294967296 := UInt64.toNat_toUInt32 sz
  rw [hcnt, BitVec.toInt_eq_toNat_cond, hlow]
  split <;> omega

/-- A copy from a buffer that holds bytes. -/
theorem Rio.copy_inside (hpos : 0 < rp.nread) (hsz : 0 ≤ rioCnt sz) :
    ∃ (n : Nat) (rp' : Rio), rp.copy sz = ⟨rp', rp.buffer.block 0 n, .ret n⟩ ∧ n ≤ sz.toNat ∧
      n ≤ rp.nread ∧ 0 ≤ rp'.nread ∧ rp'.ptr + rp'.nread = rp.ptr + rp.nread := by
  have hle := rp.cnt_le sz
  have hcnt : 0 ≤ rp.cnt sz := by
    unfold Rio.cnt
    split <;> omega
  have hask : rp.cnt sz ≤ rioCnt sz := by
    unfold Rio.cnt
    split <;> omega
  have hsize := rioCnt_le sz
  obtain ⟨n, hn⟩ := Int.eq_ofNat_of_zero_le hcnt
  refine ⟨n, { rp with ptr := rp.ptr + n, nread := rp.nread - n }, ?_, by omega, by omega, ?_, ?_⟩
  · unfold Rio.copy
    simp only [hn, Int.toNat_natCast, if_neg (Int.not_lt.2 (Int.natCast_nonneg n))]
  · simp only
    omega
  · simp only
    omega

/-- An interrupted refill comes to a `memcpy` of -1 bytes, or fewer. -/
theorem Rio.copy_interrupted (hneg : rp.nread = -1) : (rp.copy sz).fin = .wild := by
  have hcnt : rp.cnt sz < 0 := by
    have := rp.cnt_le sz
    omega
  unfold Rio.copy
  rw [if_pos hcnt]

/-- A call that copies bytes which the buffer holds: only the size can go wrong. -/
theorem Rio.counts_of_copy {rp' : Rio} (hread : rioRead rp sz = rp'.copy sz) (hpos : 0 < rp'.nread)
    (hsum : rp'.ptr + rp'.nread ≤ rioBufsize) (hbuffered : rp.buffered = rp'.nread) :
    rp.Counts sz ↔ 0 ≤ rioCnt sz := by
  constructor
  · intro hcounts
    by_contra hsz
    apply hcounts.returns
    rw [hread, Rio.copy_wild hpos (Int.not_le.1 hsz)]
  · intro hsz
    obtain ⟨n, rp'', hret, hn, hle, hnonneg, hsum'⟩ := Rio.copy_inside hpos hsz
    refine ⟨?_, ?_, ?_, ?_⟩
    · rw [hread, hret]
      exact RioEnd.noConfusion
    · rw [hread, hret, Mem.length_block, hbuffered]
      omega
    · intro herr
      rw [hread, hret, RioEnd.ret.injEq] at herr
      omega
    · intro k _ _
      rw [hread, hret]
      exact ⟨hnonneg, hsum'.trans_le hsum⟩

/-- A call that copies nothing: it still waits, has met the end of the file or fails. -/
theorem Rio.counts_of_nothing {rp' : Rio} {fin : RioEnd} (hread : rioRead rp sz = ⟨rp', [], fin⟩)
    (hend : fin = .waiting ∨ (fin = .ret 0 ∧ rp'.nread = 0 ∧ rp'.ptr ≤ rioBufsize) ∨
      (fin = .ret (-1) ∧ rp.nread ≤ 0 ∧ ∃ e evs, rp.evs = .fail e :: evs ∧ e ≠ .eintr)) :
    rp.Counts sz := by
  have hcopied : (rioRead rp sz).usrbuf.length ≤ min sz.toNat rp.buffered.toNat := by
    rw [hread]
    exact Nat.zero_le _
  rcases hend with rfl | ⟨rfl, hzero, hptr⟩ | ⟨rfl, hle, herr⟩
  · refine ⟨?_, hcopied, ?_, ?_⟩
    · rw [hread]
      exact RioEnd.noConfusion
    · rw [hread]
      exact RioEnd.noConfusion
    · intro n _ hn
      rw [hread] at hn
      cases hn
  · refine ⟨?_, hcopied, ?_, ?_⟩
    · rw [hread]
      exact RioEnd.noConfusion
    · intro hneg
      rw [hread, RioEnd.ret.injEq] at hneg
      omega
    · intro n _ _
      rw [hread]
      exact ⟨hzero.ge, by simp only; omega⟩
  · refine ⟨?_, hcopied, fun _ => ⟨hle, herr⟩, ?_⟩
    · rw [hread]
      exact RioEnd.noConfusion
    · intro n hn hret
      rw [hread, RioEnd.ret.injEq] at hret
      omega

theorem Rio.buffered_of_refill (hle : rp.nread ≤ 0) {ev : ReadEv} {evs : List ReadEv}
    (hevs : rp.evs = ev :: evs) : rp.buffered = ev.ret rioBufsize := by
  rw [Rio.buffered, if_neg (Int.not_lt.2 hle), hevs]

/-- With nothing to copy the size does not matter. -/
theorem Rio.calm_of_nothing (hbuffered : rp.buffered ≤ 0)
    (h : ∀ evs, rp.evs ≠ .fail .eintr :: evs) : rp.Calm sz :=
  ⟨fun _ => h, fun hpos => absurd hpos (Int.not_lt.2 hbuffered)⟩

/-- With bytes to copy it is all that matters, if the refill was not interrupted. -/
theorem Rio.calm_iff_of_pos (hbuffered : 0 < rp.buffered)
    (h : rp.nread ≤ 0 → ∀ evs, rp.evs ≠ .fail .eintr :: evs) : rp.Calm sz ↔ 0 ≤ rioCnt sz :=
  ⟨fun hcalm => hcalm.2 hbuffered, fun hsz => ⟨h, fun _ => hsz⟩⟩

/-- **One call.** -/
theorem Rio.Sound.counts_iff (h : rp.Sound) (sz : UInt64) : rp.Counts sz ↔ rp.Calm sz := by
  rcases rioRead_ways rp sz with ⟨hpos, hread⟩ | ⟨hle, hevs, hread⟩ |
    ⟨hle, e, evs, buffer, hevs, hread⟩ | ⟨hle, bs, evs, evs', buffer, hevs, hread⟩
  · -- bytes are left from an earlier call
    have hbuffered : rp.buffered = rp.nread := if_pos hpos
    rw [Rio.counts_of_copy hread hpos (h.count hpos.le) hbuffered, Rio.calm_iff_of_pos]
    · exact hbuffered ▸ hpos
    · exact fun hle => absurd hpos (Int.not_lt.2 hle)
  · have hbuffered : rp.buffered = 0 := by
      rw [Rio.buffered, if_neg (Int.not_lt.2 hle), hevs]
    apply iff_of_true (Rio.counts_of_nothing hread (Or.inl rfl))
    apply Rio.calm_of_nothing hbuffered.le
    rw [hevs]
    exact fun evs => (List.cons_ne_nil _ evs).symm
  · by_cases he : e = .eintr
    · rw [if_pos he] at hread
      refine iff_of_false (fun hcounts => hcounts.returns ?_)
        fun hcalm => hcalm.1 hle evs (he ▸ hevs)
      rw [hread, Rio.copy_interrupted rfl]
    · rw [if_neg he] at hread
      apply iff_of_true (Rio.counts_of_nothing hread (Or.inr (Or.inr ⟨rfl, hle, e, evs, hevs, he⟩)))
      apply Rio.calm_of_nothing
      · rw [Rio.buffered_of_refill hle hevs]
        exact Int.neg_nonpos_of_nonneg Int.one_nonneg
      · intro evs₁ heq
        rw [hevs] at heq
        cases heq
        exact he rfl
  · have hbuffered : rp.buffered = (bs.take rioBufsize).length := Rio.buffered_of_refill hle hevs
    have hdata : ∀ evs₁, rp.evs ≠ .fail .eintr :: evs₁ := by
      intro evs₁ heq
      rw [hevs] at heq
      cases heq
    by_cases hzero : (bs.take rioBufsize).length = 0
    · rw [if_pos hzero] at hread
      apply iff_of_true (Rio.counts_of_nothing hread (Or.inr (Or.inl ⟨rfl, rfl, h.ptr⟩)))
      exact Rio.calm_of_nothing (by omega) hdata
    · rw [if_neg hzero] at hread
      have hlen : (bs.take rioBufsize).length ≤ rioBufsize := List.length_take_le _ _
      have hpos : (0 : Int) < (bs.take rioBufsize).length := by omega
      rw [Rio.counts_of_copy hread hpos (by simp only; omega) hbuffered,
        Rio.calm_iff_of_pos (hbuffered ▸ hpos) fun _ => hdata]

/-- A copy does not move the end of the bytes held. -/
theorem Rio.Sound.copy (h : rp.Sound) (sz : UInt64) : (rp.copy sz).rio.Sound := by
  have hle := rp.cnt_le sz
  unfold Rio.copy
  simp only
  split
  · exact h
  · have hcount := h.count (by omega)
    exact ⟨by simp only; omega, fun _ => by simp only; omega⟩

/-- Every call, whatever it comes to, leaves such a state. -/
theorem Rio.Sound.rioRead (h : rp.Sound) (sz : UInt64) : (rioRead rp sz).rio.Sound := by
  rcases rioRead_ways rp sz with ⟨-, hread⟩ | ⟨-, -, hread⟩ | ⟨-, e, evs, buffer, -, hread⟩ |
    ⟨-, bs, evs, evs', buffer, -, hread⟩
  · rw [hread]
    exact h.copy sz
  · rw [hread]
    exact h
  · have herr : (⟨evs, -1, rp.ptr, buffer⟩ : Rio).Sound := ⟨h.ptr, fun hneg => by simp at hneg⟩
    rw [hread]
    split
    · exact herr.copy sz
    · exact herr
  · rw [hread]
    split
    · exact ⟨h.ptr, fun _ => by simpa using h.ptr⟩
    · have hlen : (bs.take rioBufsize).length ≤ rioBufsize := List.length_take_le _ _
      exact Rio.Sound.copy ⟨Nat.zero_le _, fun _ => by simp only; omega⟩ sz

end Call

namespace Reading

theorem step_sound {c c' : Reading} {sz : UInt64} (h : c.rio.Sound) (hstep : c.step sz = some c') :
    c'.rio.Sound := by
  have hread := h.rioRead sz
  unfold step at hstep
  split at hstep
  · cases hstep
  · simp only at hstep
    split at hstep
    · cases hstep
      exact hread
    · cases hstep
      exact hread
    · cases hstep

theorem start_sound (prior : Mem) (evs : List ReadEv) : (start prior evs).rio.Sound :=
  ⟨Nat.zero_le _, fun _ => Int.natCast_nonneg rioBufsize⟩

end Reading

/-- **The count holds up unless a refill is interrupted.** For every prior content of `rio_buffer`,
every sequence of read outcomes and every sequence of sizes: all calls copy between 0 and the
smaller of the size and the bytes buffered, return -1 on a hard error only, and behind a count leave
the bytes held inside the buffer, if and only if none of them reads EINTR and none has bytes to copy
for a size that is negative as an `int`. -/
theorem rioRead_counts_iff (prior : Mem) (evs : List ReadEv) (szs : List UInt64) :
    Run.All Reading.step (fun c sz => c.rio.Counts sz) (Reading.start prior evs) szs ↔
      Run.All Reading.step (fun c sz => c.rio.Calm sz) (Reading.start prior evs) szs :=
  Run.all_congr (fun _ _ _ => Reading.step_sound) (fun _ sz h => h.counts_iff sz) szs
    (Reading.start_sound prior evs)

/-- The first refill is interrupted: `memcpy` is called with -1. -/
theorem rioRead_interrupted : ¬∀ (prior : Mem) (evs : List ReadEv) (szs : List UInt64),
    Run.All Reading.step (fun c sz => c.rio.Counts sz) (Reading.start prior evs) szs := by
  intro h
  exact (h (fun _ => 0) [.fail .eintr] [16]).1.returns rfl

end HttpCallback
