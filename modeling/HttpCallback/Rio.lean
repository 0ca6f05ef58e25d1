import HttpCallback.Lib.Run
import HttpCallback.Recv.Segmentation

/-!
# The buffered reader

`rio_read` refills `rio_buffer` with one `read` when it holds nothing and hands out at most what it
holds. It keeps in `ptr` how far the buffer has been handed out, but copies from the front of the
buffer: a request behind one that left bytes there gets the front again. So the bytes handed out
are a front part of the stream exactly as long as these bytes read alike, and no size turns negative
as an `int`.
-/

namespace HttpCallback

open CString

/-- `RIO_BUFSIZE`. -/
def rioBufsize : Nat := 4096

/-- `rio_t`, with the events of its `fd`; `ptr` is the offset from `rio_buffer`. -/
structure Rio where
  evs : List ReadEv
  nread : Int
  ptr : Nat
  buffer : Mem

/-- `rio_readinit(rp, fd)`; `prior` is what `rio_buffer` held. -/
def rioReadinit (prior : Mem) (evs : List ReadEv) : Rio := ⟨evs, 0, 0, prior⟩

/-- How a call ends: it returns, it still waits in `read`, or it calls `memcpy` with a negative
count. -/
inductive RioEnd
  | ret (n : Int)
  | waiting
  | wild
  deriving Repr, DecidableEq

/-- `usrbuf` lists the bytes that were copied to it. -/
structure RioRead where
  rio : Rio
  usrbuf : Bytes
  fin : RioEnd

/-- `cnt = sz`, with `int cnt`. -/
def rioCnt (sz : UInt64) : Int := sz.toUInt32.toInt32.toInt

/-- `cnt` behind the comparison with `nread`. -/
def Rio.cnt (rp : Rio) (sz : UInt64) : Int := if rp.nread < rioCnt sz then rp.nread else rioCnt sz

/-- What stands behind the loop: `memcpy(usrbuf, rp->rio_buffer, cnt)` and the updates. -/
def Rio.copy (rp : Rio) (sz : UInt64) : RioRead :=
  let cnt := rp.cnt sz
  if cnt < 0 then ⟨rp, [], .wild⟩
  else
    ⟨{ rp with ptr := rp.ptr + cnt.toNat, nread := rp.nread - cnt }, rp.buffer.block 0 cnt.toNat,
      .ret cnt⟩

/-- `rio_read(rp, usrbuf, sz)`. The loop has at most one turn: a read that yields bytes ends it, and
EINTR leaves it with `nread = -1`. -/
def rioRead (rp : Rio) (sz : UInt64) : RioRead :=
  if rp.nread ≤ 0 then
    match rp.evs with
    | [] => ⟨rp, [], .waiting⟩
    | ev :: evs =>
      let rp := { rp with
        evs := ev.left rioBufsize ++ evs
        nread := ev.ret rioBufsize
        buffer := rp.buffer.write 0 (ev.chunk rioBufsize) }
      if rp.nread < 0 then
        if ev.errno = .eintr then rp.copy sz else ⟨rp, [], .ret (-1)⟩
      else if rp.nread = 0 then ⟨rp, [], .ret 0⟩
      else { rp with ptr := 0 }.copy sz
  else rp.copy sz

/-- A reader and the bytes its calls have returned; `wild` once a call did not. -/
structure Reading where
  rio : Rio
  got : Bytes
  wild : Bool

namespace Reading

/-- Behind `rio_readinit`. -/
def start (prior : Mem) (evs : List ReadEv) : Reading := ⟨rioReadinit prior evs, [], false⟩

/-- The next call. There is none behind a call that waits or that has not returned. -/
def step (c : Reading) (sz : UInt64) : Option Reading :=
  if c.wild then none
  else
    let r := rioRead c.rio sz
    match r.fin with
    | .ret _ => some ⟨r.rio, c.got ++ r.usrbuf, false⟩
    | .wild => some ⟨r.rio, c.got, true⟩
    | .waiting => none

end Reading

/-! ## One call -/

/-- The bytes left in the buffer. -/
def Rio.held (rp : Rio) : Bytes := rp.buffer.block rp.ptr rp.nread.toNat

/-- There is something to hand out: the buffer holds bytes, or the next read yields some. -/
def Rio.yields (rp : Rio) : Bool :=
  0 < rp.nread || rp.evs.head?.any fun ev => ev.ret rioBufsize ≠ 0

/-- What hands the bytes out in their order: the size does not turn negative, and those at the front
of the buffer read like those at `ptr`. -/
def Rio.InStep (rp : Rio) (sz : UInt64) : Prop :=
  (rp.yields = true → 0 ≤ rioCnt sz) ∧
    (0 < rp.nread →
      rp.buffer.block 0 (rp.cnt sz).toNat = rp.buffer.block rp.ptr (rp.cnt sz).toNat)

instance (rp : Rio) (sz : UInt64) : Decidable (rp.InStep sz) := inferInstanceAs (Decidable (_ ∧ _))

/-- The bytes still to come are `r`: those left in the buffer and a stream behind them. -/
def Rio.Ahead (rp : Rio) (r : Bytes) : Prop :=
  0 ≤ rp.nread ∧ ∃ segs m rest, rp.evs = stream segs m ∧ Cuts segs rest ∧ r = rp.held ++ rest

section Call

variable {rp : Rio} {r : Bytes}

theorem Rio.cnt_le (rp : Rio) (sz : UInt64) : rp.cnt sz ≤ rp.nread := by
  unfold Rio.cnt
  split <;> omega

/-- A refill that meets data: the end of the file, or bytes to copy from. -/
theorem rioRead_data {bs : Bytes} {evs : List ReadEv} (hle : rp.nread ≤ 0)
    (hevs : rp.evs = .data bs :: evs) (sz : UInt64) :
    rioRead rp sz =
      let evs := (ReadEv.data bs).left rioBufsize ++ evs
      let buffer := rp.buffer.write 0 (bs.take rioBufsize)
      if (bs.take rioBufsize).length = 0 then ⟨⟨evs, 0, rp.ptr, buffer⟩, [], .ret 0⟩
      else (⟨evs, (bs.take rioBufsize).length, 0, buffer⟩ : Rio).copy sz := by
  have hret : ¬((bs.take rioBufsize).length : Int) < 0 := Int.not_lt.2 (Int.natCast_nonneg _)
  unfold rioRead
  rw [if_pos hle, hevs]
  simp only [ReadEv.ret, ReadEv.chunk, if_neg hret, Int.natCast_eq_zero]
  split
  · rename_i hzero
    rw [hzero]
    rfl
  · rfl

/-- The ways through a call. -/
theorem rioRead_ways (rp : Rio) (sz : UInt64) :
    (0 < rp.nread ∧ rioRead rp sz = rp.copy sz) ∨
    (rp.nread ≤ 0 ∧ rp.evs = [] ∧ rioRead rp sz = ⟨rp, [], .waiting⟩) ∨
    (rp.nread ≤ 0 ∧ ∃ e evs buffer, rp.evs = .fail e :: evs ∧
      rioRead rp sz = if e = .eintr then (⟨evs, -1, rp.ptr, buffer⟩ : Rio).copy sz
        else ⟨⟨evs, -1, rp.ptr, buffer⟩, [], .ret (-1)⟩) ∨
    (rp.nread ≤ 0 ∧ ∃ bs evs evs' buffer, rp.evs = .data bs :: evs ∧
      rioRead rp sz =
        if (bs.take rioBufsize).length = 0 then ⟨⟨evs', 0, rp.ptr, buffer⟩, [], .ret 0⟩
        else (⟨evs', (bs.take rioBufsize).length, 0, buffer⟩ : Rio).copy sz) := by
  by_cases hpos : 0 < rp.nread
  · exact Or.inl ⟨hpos, if_neg (Int.not_le.2 hpos)⟩
  have hle := Int.not_lt.1 hpos
  right
  cases hevs : rp.evs with
  | nil =>
    left
    unfold rioRead
    rw [if_pos hle, hevs]
    exact ⟨hle, rfl, rfl⟩
  | cons ev evs =>
    right
    cases ev with
    | fail e =>
      left
      unfold rioRead
      rw [if_pos hle, hevs]
      exact ⟨hle, e, evs, _, rfl, rfl⟩
    | data bs => exact Or.inr ⟨hle, bs, evs, _, _, rfl, rioRead_data hle hevs sz⟩

theorem Rio.copy_wild (hpos : 0 < rp.nread) {sz : UInt64} (h : rioCnt sz < 0) :
    rp.copy sz = ⟨rp, [], .wild⟩ := by
  have hcnt : rp.cnt sz = rioCnt sz := if_neg (by omega)
  unfold Rio.copy
  simp only [hcnt, if_pos h]

/-- A copy hands out `cnt` bytes, and those behind the next `cnt` are still to come. -/
theorem Rio.Ahead.copy (h : rp.Ahead r) (hpos : 0 < rp.nread) {sz : UInt64}
    (hsz : 0 ≤ rioCnt sz) :
    ∃ rp', rp.copy sz = ⟨rp', rp.buffer.block 0 (rp.cnt sz).toNat, .ret (rp.cnt sz)⟩ ∧
      r.take (rp.cnt sz).toNat = rp.buffer.block rp.ptr (rp.cnt sz).toNat ∧
      rp'.Ahead (r.drop (rp.cnt sz).toNat) := by
  obtain ⟨-, segs, m, rest, hevs, hc, rfl⟩ := h
  have hle := rp.cnt_le sz
  have hcnt : 0 ≤ rp.cnt sz := by
    unfold Rio.cnt
    split <;> omega
  have hheld : rp.held = rp.buffer.block rp.ptr (rp.cnt sz).toNat ++
      rp.buffer.block (rp.ptr + (rp.cnt sz).toNat) (rp.nread - rp.cnt sz).toNat := by
    rw [← Mem.block_add, Rio.held]
    congr 1
    omega
  have hlen := Mem.length_block rp.buffer rp.ptr (rp.cnt sz).toNat
  refine ⟨{ rp with ptr := rp.ptr + (rp.cnt sz).toNat, nread := rp.nread - rp.cnt sz }, ?_, ?_, ?_⟩
  · unfold Rio.copy
    simp only [if_neg (Int.not_lt.2 hcnt)]
  · rw [hheld, List.append_assoc, List.take_left' hlen]
  · refine ⟨Int.sub_nonneg.2 hle, segs, m, rest, hevs, hc, ?_⟩
    rw [hheld, List.append_assoc, List.drop_left' hlen]
    rfl

/-- What a call comes to: it waits, it finds the end of the stream, or it copies from a buffer that
holds bytes, its own or those of a read. -/
theorem Rio.Ahead.rioRead_cases (h : rp.Ahead r) (sz : UInt64) :
    (rioRead rp sz).fin = .waiting ∨
    (rp.yields = false ∧ ∃ rp', rioRead rp sz = ⟨rp', [], .ret 0⟩ ∧ rp'.Ahead r) ∨
    (rp.yields = true ∧ ∃ rp', rioRead rp sz = rp'.copy sz ∧ 0 < rp'.nread ∧ rp'.Ahead r ∧
      (0 < rp.nread ∧ rp' = rp ∨ rp.nread = 0 ∧ rp'.ptr = 0)) := by
  have hahead := h
  obtain ⟨hnonneg, segs, m, rest, hevs, hc, hr⟩ := h
  by_cases hpos : 0 < rp.nread
  · refine Or.inr (Or.inr ⟨?_, rp, if_neg (Int.not_le.2 hpos), hpos, hahead, Or.inl ⟨hpos, rfl⟩⟩)
    simp [Rio.yields, hpos]
  have hzero : rp.nread = 0 := Int.le_antisymm (Int.not_lt.1 hpos) hnonneg
  have hheld : rp.held = [] := by
    rw [Rio.held, hzero]
    rfl
  rw [hheld, List.nil_append] at hr
  subst hr
  cases segs with
  | nil =>
    have hr : r = [] := hc.flatten.symm
    cases m with
    | zero =>
      left
      have hnil : rp.evs = [] := hevs
      unfold rioRead
      rw [if_pos (Int.not_lt.1 hpos), hnil]
    | succ m =>
      right; left
      have hcons : rp.evs = .data [] :: stream [] m := hevs
      constructor
      · simp [Rio.yields, hzero, hcons, ReadEv.ret]
      · refine ⟨{ rp with evs := stream [] m, nread := 0, buffer := rp.buffer.write 0 [] }, ?_, ?_⟩
        · rw [rioRead_data hzero.le hcons]
          rfl
        · exact ⟨Int.le_refl 0, [], m, [], rfl, ⟨rfl, List.forall_mem_nil _⟩, hr⟩
  | cons seg segs =>
    have hcons : rp.evs = .data seg :: stream segs m := hevs
    obtain ⟨hsplit, segs', hc', hleft⟩ := hc.read rioBufsize
    have hne : seg ≠ [] := hc.ne_nil seg List.mem_cons_self
    have hnread : (0 : Int) < (seg.take rioBufsize).length := by
      have := List.length_pos_iff.2 hne
      rw [List.length_take, rioBufsize]
      omega
    right; right
    constructor
    · have hret : (ReadEv.data seg).ret rioBufsize ≠ 0 := Int.ne_of_gt hnread
      simp [Rio.yields, hcons, hret]
    · refine ⟨⟨stream segs' m, (seg.take rioBufsize).length, 0,
        rp.buffer.write 0 (seg.take rioBufsize)⟩, ?_, hnread, ?_, Or.inr ⟨hzero, rfl⟩⟩
      · rw [rioRead_data hzero.le hcons]
        simp only [hleft]
        rw [if_neg (by omega)]
      · refine ⟨Int.le_of_lt hnread, segs', m, _, rfl, hc', ?_⟩
        have hblock : (rp.buffer.write 0 (seg.take rioBufsize)).block 0
            (seg.take rioBufsize).length = seg.take rioBufsize :=
          (Mem.holds_write rp.buffer 0 (seg.take rioBufsize)).block_eq
        rw [Rio.held, Int.toNat_natCast, hblock]
        exact hsplit

end Call

/-! ## Sequences of calls -/

namespace Reading

variable {c c' : Reading} {s : Bytes}

/-- All calls have returned, and what they returned is a front part of the stream `s`. -/
def Right (s : Bytes) (c : Reading) : Prop := c.wild = false ∧ c.got <+: s

/-- What has been returned and what is still to come make up the stream `s`. -/
def Whole (s : Bytes) (c : Reading) : Prop :=
  c.wild = false ∧ ∃ r, c.rio.Ahead r ∧ c.got ++ r = s

theorem Whole.right (h : c.Whole s) : c.Right s := by
  obtain ⟨hw, r, -, hr⟩ := h
  exact ⟨hw, r, hr⟩

theorem start_whole (prior : Mem) {segs : List Bytes} (hc : Cuts segs s) (m : Nat) :
    (start prior (stream segs m)).Whole s :=
  ⟨rfl, s, ⟨Int.le_refl 0, segs, m, s, rfl, hc, rfl⟩, rfl⟩

/-- Calls only add to what has been returned, and there is none behind one that has not returned. -/
theorem step_got {sz : UInt64} (h : c.step sz = some c') : c.wild = false ∧ c.got <+: c'.got := by
  unfold step at h
  split at h
  · cases h
  · rename_i hw
    refine ⟨Bool.eq_false_iff.2 hw, ?_⟩
    simp only at h
    split at h
    · cases h
      exact List.prefix_append _ _
    · cases h
      exact List.prefix_rfl
    · cases h

/-- What has gone wrong stays wrong. -/
theorem not_right_step {sz : UInt64} (hn : ¬c.Right s) (h : c.step sz = some c') :
    ¬c'.Right s := by
  obtain ⟨hw, hpre⟩ := step_got h
  exact fun h' => hn ⟨hw, hpre.trans h'.2⟩

/-- A call that is in step keeps the stream whole; any other makes the reading wrong. -/
theorem Whole.step {sz : UInt64} (hg : c.Whole s) (h : c.step sz = some c') :
    (c.rio.InStep sz ∧ c'.Whole s) ∨ (¬c.rio.InStep sz ∧ ¬c'.Right s) := by
  obtain ⟨hw, r, hr, hs⟩ := hg
  have hret : ∀ rp usrbuf n, rioRead c.rio sz = ⟨rp, usrbuf, .ret n⟩ →
      c' = ⟨rp, c.got ++ usrbuf, false⟩ := by
    intro rp usrbuf n heq
    simpa [Reading.step, hw, heq] using h.symm
  rcases hr.rioRead_cases sz with hwait | ⟨hy, rp, heq, hr'⟩ | ⟨hy, rp, heq, hpos, hr', hfront⟩
  · simp [Reading.step, hw, hwait] at h
  · -- the end of the stream
    obtain rfl := hret _ _ _ heq
    have hnot : ¬0 < c.rio.nread := fun hpos => by simp [Rio.yields, hpos] at hy
    refine Or.inl ⟨⟨fun h' => ?_, fun h' => absurd h' hnot⟩, rfl, r, hr', ?_⟩
    · rw [hy] at h'
      cases h'
    · simpa using hs
  by_cases hsz : 0 ≤ rioCnt sz
  · obtain ⟨rp', hcopy, htake, hdrop⟩ := hr'.copy hpos hsz
    obtain rfl := hret _ _ _ (heq.trans hcopy)
    -- behind a refill `ptr` stands at the front, so only bytes of an earlier call can be wrong
    have hstep : c.rio.InStep sz ↔
        rp.buffer.block 0 (rp.cnt sz).toNat = r.take (rp.cnt sz).toNat := by
      rw [htake]
      rcases hfront with ⟨hpos', rfl⟩ | ⟨hzero, hptr⟩
      · exact ⟨fun hin => hin.2 hpos', fun heq' => ⟨fun _ => hsz, fun _ => heq'⟩⟩
      · rw [hptr]
        refine iff_of_true ⟨fun _ => hsz, fun hpos' => ?_⟩ rfl
        exact absurd hpos' (by omega)
    have hlen := Mem.length_block rp.buffer 0 (rp.cnt sz).toNat
    by_cases hin : c.rio.InStep sz
    · refine Or.inl ⟨hin, rfl, _, hdrop, ?_⟩
      rw [hstep.1 hin, List.append_assoc, List.take_append_drop]
      exact hs
    · refine Or.inr ⟨hin, fun hright => hin (hstep.2 ?_)⟩
      have hpre : c.got ++ rp.buffer.block 0 (rp.cnt sz).toNat <+: c.got ++ r := hs ▸ hright.2
      have hblock := List.prefix_iff_eq_take.1 ((List.prefix_append_right_inj _).1 hpre)
      rwa [hlen] at hblock
  · -- a negative count
    have hwild := heq.trans (Rio.copy_wild hpos (Int.not_le.1 hsz))
    have hc' : c' = ⟨rp, c.got, true⟩ := by
      simpa [Reading.step, hw, hwild] using h.symm
    subst hc'
    exact Or.inr ⟨fun hin => hsz (hin.1 hy), fun hright => nomatch hright.1⟩

end Reading

/-- **Buffered reading.** For every stream, however it is cut, and every sequence of sizes: all
calls return and the bytes returned are a front part of the stream exactly when every call is in
step. -/
theorem rioRead_right_iff (prior : Mem) {s : Bytes} {segs : List Bytes} (hc : Cuts segs s) (m : Nat)
    (szs : List UInt64) {c : Reading}
    (h : Run.exec Reading.step (Reading.start prior (stream segs m)) szs = some c) :
    c.Right s ↔
      Run.All Reading.step (fun c sz => c.rio.InStep sz)
        (Reading.start prior (stream segs m)) szs := by
  have hgood : ∀ (c : Reading) sz c', c.Whole s → c.rio.InStep sz → c.step sz = some c' →
      c'.Whole s := by
    intro c sz c' hg hin hstep
    rcases hg.step hstep with ⟨-, hg'⟩ | ⟨hnot, -⟩
    · exact hg'
    · exact absurd hin hnot
  have hcross : ∀ (c : Reading) sz c', c.Whole s → ¬c.rio.InStep sz → c.step sz = some c' →
      ¬c'.Right s := by
    intro c sz c' hg hnot hstep
    rcases hg.step hstep with ⟨hin, -⟩ | ⟨-, hwrong⟩
    · exact absurd hin hnot
    · exact hwrong
  rcases Run.dichotomy hgood hcross (fun _ _ _ => Reading.not_right_step) szs
    (Reading.start_whole prior hc m) h with ⟨hall, hwhole⟩ | ⟨hall, hwrong⟩
  · exact iff_of_true hwhole.right hall
  · exact iff_of_false hwrong hall

/-- Two calls, each of which takes all that a read has brought. -/
theorem rioRead_right_two : ∃ c,
    Run.exec Reading.step (Reading.start (fun _ => 0) (stream [[97, 98], [99]] 1)) [2, 9] = some c ∧
      c.Right [97, 98, 99] := by
  have hc : Cuts [[97, 98], [99]] [97, 98, 99] := ⟨rfl, by decide⟩
  obtain ⟨c, h⟩ : ∃ c, Run.exec Reading.step
      (Reading.start (fun _ => 0) (stream [[97, 98], [99]] 1)) [2, 9] = some c := ⟨_, rfl⟩
  exact ⟨c, h, (rioRead_right_iff (fun _ => 0) hc 1 [2, 9] h).2 (by decide)⟩

/-- Two calls that split what a read has brought: the second gets its front again. -/
theorem rioRead_front_again :
    ¬∀ (prior : Mem) (s : Bytes) (segs : List Bytes) (m : Nat) (szs : List UInt64) (c : Reading),
      Cuts segs s →
      Run.exec Reading.step (Reading.start prior (stream segs m)) szs = some c → c.Right s := by
  intro h
  have hright := h (fun _ => 0) [97, 98] [[97, 98]] 1 [1, 1] _ ⟨rfl, by decide⟩ rfl
  exact absurd hright.2 (by decide)

end HttpCallback
