import HttpCallback.Recv.HttpRcv
import HttpCallback.Recv.Segmentation
import HttpCallback.Response.Send

/-!
# Whole transfers

`rio_write` and `Read_s` go on behind short counts. `rio_write` counts down in an `int` what it was
given in a `size_t`, so of more than `INT_MAX` bytes it takes the count modulo 2^32 for the one that
is meant, and its result says so many as well; with that count it does what `http_send` does, except
that EAGAIN ends it (`rioWrite_counts`). `Read_s` has no way to say that a read has failed: a
failure ends the transfer as the end of the stream does (`readS_reads`). Where both return, the
bytes counted at one end are those stored at the other (`transfer`).
-/

namespace HttpCallback

open CString

/-! ## Writing -/

/-- The result of `rio_write`, `sz - nleft`. -/
def rioRet (sz : Nat) (nleft : Int) : SendEnd := .ret (toInt (toSize (sz - nleft)))

/-- The loop of `rio_write`; `cur` is `ptr - usrbuf`. Behind EINTR `nwrite` is 0, and the loop goes
on with what it had. -/
def rioWriteLoop (buf : Mem) (sz : Nat) : List SendEv → Nat → Int → Sending
  | [], _, nleft => if 0 < nleft then ⟨[], [], .waiting⟩ else ⟨[], [], rioRet sz nleft⟩
  | ev :: evs, cur, nleft =>
    if 0 < nleft then
      let offered := buf.block cur nleft.toNat
      let nwrite := toInt (ev.ret offered)
      if nwrite < 0 then
        if ev.errno = .eintr then (rioWriteLoop buf sz evs cur nleft).after ⟨offered, []⟩
        else ⟨[⟨offered, []⟩], evs, .ret (-1)⟩
      else if nwrite = 0 then ⟨[⟨offered, []⟩], evs, rioRet sz nleft⟩
      else
        (rioWriteLoop buf sz evs (cur + nwrite.toNat) (nleft - nwrite)).after
          ⟨offered, ev.taken offered⟩
    else ⟨[], ev :: evs, rioRet sz nleft⟩

/-- `rio_write(fd, usrbuf, sz)`. -/
def rioWrite (buf : Mem) (sz : Nat) (evs : List SendEv) : Sending :=
  rioWriteLoop buf sz evs 0 (toInt sz)

/-- The outcome, with EAGAIN as an error like any other. -/
def SendEv.strict : SendEv → SendEv
  | .fail .eagain => .fail .other
  | ev => ev

/-- The bytes that `rio_write` takes to be meant. -/
def rioCount (sz : Nat) : Nat := (toInt sz).toNat

theorem rioRet_eq {sz cur n : Nat} (hcur : cur ≤ intMax)
    (hmod : ((sz : Int) - (cur + n)) % 4294967296 = 0) : rioRet sz n = .ret cur := by
  have hret : toInt (toSize ((sz : Int) - n)) = cur := by
    unfold intMax at hcur
    unfold toInt toSize
    rw [Int.bmod_def]
    split <;> omega
  rw [rioRet, hret]

/-- The loop is the one of `http_send` on the bytes, with the outcomes read strictly. -/
theorem rioWriteLoop_eq (buf : Mem) (sz : Nat) (evs : List SendEv) : ∀ cur n : Nat,
    cur + n ≤ intMax → ((sz : Int) - (cur + n)) % 4294967296 = 0 →
    (rioWriteLoop buf sz evs cur n).calls =
        (httpSendLoop (evs.map SendEv.strict) cur (buf.block cur n)).calls ∧
      (rioWriteLoop buf sz evs cur n).fin =
        (httpSendLoop (evs.map SendEv.strict) cur (buf.block cur n)).fin := by
  induction evs with
  | nil =>
    intro cur n hle hmod
    have hret := rioRet_eq (n := n) (by omega) hmod
    cases n with
    | zero => exact ⟨rfl, hret⟩
    | succ n =>
      have hpos : (0 : Int) < (n + 1 : Nat) := Int.natCast_pos.2 (Nat.succ_pos n)
      rw [rioWriteLoop, if_pos hpos, buf.block_succ]
      exact ⟨rfl, rfl⟩
  | cons ev evs ih =>
    intro cur n hle hmod
    have hret := rioRet_eq (n := n) (by omega) hmod
    cases n with
    | zero => exact ⟨rfl, hret⟩
    | succ n =>
      have hpos : (0 : Int) < (n + 1 : Nat) := Int.natCast_pos.2 (Nat.succ_pos n)
      have hlen := buf.length_block cur (n + 1)
      have hne : buf.block cur (n + 1) ≠ [] := List.ne_nil_of_length_eq_add_one hlen
      rw [rioWriteLoop, if_pos hpos]
      simp only [Int.toNat_natCast, ev.toInt_ret (hlen.trans_le (by omega)), hret]
      cases ev with
      | fail e =>
        have hneg : (SendEv.fail e).ret (buf.block cur (n + 1)) < 0 := by simp [SendEv.ret]
        rw [if_pos hneg, List.map_cons]
        cases e with
        | eintr =>
          have hstrict : SendEv.strict (.fail .eintr) = .fail .eintr := rfl
          have herr : (SendEv.fail .eintr).errno = .eintr := rfl
          obtain ⟨hcalls, hfin⟩ := ih cur (n + 1) hle hmod
          have hgoes : Errno.eintr ≠ .other := by simp
          rw [if_pos herr, hstrict, httpSendLoop_fail _ _ hne, if_neg hgoes]
          exact ⟨congrArg (List.cons _) hcalls, hfin⟩
        | eagain =>
          have hstrict : SendEv.strict (.fail .eagain) = .fail .other := rfl
          have herr : (SendEv.fail .eagain).errno ≠ .eintr := by simp [SendEv.errno]
          rw [if_neg herr, hstrict, httpSendLoop_fail _ _ hne, if_pos rfl]
          exact ⟨rfl, rfl⟩
        | other =>
          have hstrict : SendEv.strict (.fail .other) = .fail .other := rfl
          have herr : (SendEv.fail .other).errno ≠ .eintr := by simp [SendEv.errno]
          rw [if_neg herr, hstrict, httpSendLoop_fail _ _ hne, if_pos rfl]
          exact ⟨rfl, rfl⟩
      | sent k =>
        have hstrict : SendEv.strict (.sent k) = .sent k := rfl
        have hcount : ((buf.block cur (n + 1)).take k).length = min k (n + 1) := by
          rw [List.length_take, hlen]
        have hsent : (SendEv.sent k).ret (buf.block cur (n + 1)) = (min k (n + 1) : Nat) := by
          rw [SendEv.ret, hcount]
        rw [hsent, if_neg (Int.not_lt.2 (Int.natCast_nonneg _)), List.map_cons, hstrict,
          httpSendLoop_sent _ _ hne, hcount]
        cases k with
        | zero => exact ⟨rfl, rfl⟩
        | succ k =>
          have hdrop : (buf.block cur (n + 1)).drop (k + 1) =
              buf.block (cur + min (k + 1) (n + 1)) (n + 1 - min (k + 1) (n + 1)) := by
            rw [← buf.drop_block cur (Nat.min_le_right _ _), List.drop_eq_drop_min, hlen]
          have hleft : ((n + 1 : Nat) : Int) - (min (k + 1) (n + 1) : Nat) =
              (n + 1 - min (k + 1) (n + 1) : Nat) := by
            omega
          obtain ⟨hcalls, hfin⟩ := ih (cur + min (k + 1) (n + 1)) (n + 1 - min (k + 1) (n + 1))
            (by omega) (by omega)
          rw [if_neg (by omega), if_neg (Nat.succ_ne_zero k), hdrop, hleft, Int.toNat_natCast]
          exact ⟨congrArg (List.cons _) hcalls, hfin⟩

/-- A call, for every count. -/
theorem rioWrite_eq (buf : Mem) (sz : Nat) (evs : List SendEv) :
    (rioWrite buf sz evs).calls =
        (httpSend (buf.block 0 (rioCount sz)) (evs.map SendEv.strict)).calls ∧
      (rioWrite buf sz evs).fin =
        (httpSend (buf.block 0 (rioCount sz)) (evs.map SendEv.strict)).fin := by
  have hle := toInt_le sz
  have hmod : ((sz : Int) - toInt sz) % 4294967296 = 0 := by
    unfold toInt
    rw [Int.bmod_def]
    split <;> omega
  unfold rioWrite rioCount
  rcases Int.le_total 0 (toInt sz) with hpos | hneg
  · obtain ⟨n, hn⟩ := Int.eq_ofNat_of_zero_le hpos
    rw [hn] at hle hmod ⊢
    exact rioWriteLoop_eq buf sz evs 0 n (by omega) (by simpa using hmod)
  · have hret : rioRet sz (toInt sz) = .ret (0 : Nat) := by
      have hzero : toInt (toSize ((sz : Int) - toInt sz)) = 0 := by
        generalize toInt sz = k at hmod
        unfold toInt toSize
        rw [Int.bmod_def]
        split <;> omega
      rw [rioRet, hzero]
      rfl
    have hnil : buf.block 0 (toInt sz).toNat = [] := by
      rw [Int.toNat_of_nonpos hneg]
      rfl
    rw [hnil, httpSend, httpSendLoop_nil]
    cases evs with
    | nil =>
      rw [rioWriteLoop, if_neg (Int.not_lt.2 hneg), hret]
      exact ⟨rfl, rfl⟩
    | cons ev evs =>
      rw [rioWriteLoop, if_neg (Int.not_lt.2 hneg), hret]
      exact ⟨rfl, rfl⟩

theorem mem_map_strict_fail {evs : List SendEv} (h : .fail .other ∈ evs.map SendEv.strict) :
    ∃ e, e ≠ .eintr ∧ .fail e ∈ evs := by
  obtain ⟨ev, hmem, hev⟩ := List.mem_map.1 h
  cases ev with
  | sent k => cases hev
  | fail e =>
    cases e with
    | eintr => cases hev
    | eagain => exact ⟨.eagain, nofun, hmem⟩
    | other => exact ⟨.other, nofun, hmem⟩

theorem mem_map_strict_zero {evs : List SendEv} (h : .sent 0 ∈ evs.map SendEv.strict) :
    .sent 0 ∈ evs := by
  obtain ⟨ev, hmem, hev⟩ := List.mem_map.1 h
  cases ev with
  | sent k =>
    cases hev
    exact hmem
  | fail e => cases e <;> cases hev

theorem rioCount_eq_iff {sz : Nat} : rioCount sz = sz ↔ sz ≤ intMax := by
  have hle := toInt_le sz
  unfold rioCount
  constructor
  · intro h
    omega
  · intro h
    rw [toInt_of_le (by omega) (Int.ofNat_le.2 h), Int.toNat_natCast]

/-- A call that returns a count. -/
theorem rioWrite_ret {buf : Mem} {sz : Nat} {evs : List SendEv} {n : Nat}
    (hret : (rioWrite buf sz evs).fin = .ret n) :
    n ≤ rioCount sz ∧ (rioWrite buf sz evs).delivered = buf.block 0 n ∧
      (n = rioCount sz ∨ .sent 0 ∈ evs.take (rioWrite buf sz evs).calls.length) := by
  obtain ⟨hcalls, hfin⟩ := rioWrite_eq buf sz evs
  rw [hfin] at hret
  have hfront := httpSendLoop_front (evs.map SendEv.strict) 0 (buf.block 0 (rioCount sz))
  obtain ⟨hn, -, hend⟩ :=
    (httpSendLoop_resumes (evs.map SendEv.strict) 0 (buf.block 0 (rioCount sz))).counted n hret
  rw [Nat.sub_zero] at hn
  rw [Nat.zero_add, buf.length_block, ← List.map_take] at hend
  have hfit := hfront.length_le
  rw [hn, buf.length_block] at hfit
  unfold Sending.delivered
  rw [hcalls]
  refine ⟨hfit, ?_, hend.imp id mem_map_strict_zero⟩
  have htake := List.prefix_iff_eq_take.1 hfront
  rw [hn, buf.take_block 0 hfit] at htake
  exact htake

/-- **What `rio_write` writes.** For every buffer, every count and all outcomes: each write is
offered the unsent rest of the first `rioCount sz` bytes, which are all of them exactly up to
`INT_MAX`; a result `n ≥ 0` means that the first `n` have been taken, and that is all of these
unless a write has returned 0; a negative result is -1, behind an error other than EINTR, which says
nothing of the front part taken until then. -/
theorem rioWrite_counts (buf : Mem) (sz : Nat) (evs : List SendEv) :
    (∀ pre c post, (rioWrite buf sz evs).calls = pre ++ c :: post →
        c.offered = (buf.block 0 (rioCount sz)).drop (pre.flatMap (·.taken)).length) ∧
      (∀ n : Nat, (rioWrite buf sz evs).fin = .ret n →
        n ≤ rioCount sz ∧ (rioWrite buf sz evs).delivered = buf.block 0 n ∧
          (n = rioCount sz ∨ .sent 0 ∈ evs.take (rioWrite buf sz evs).calls.length)) ∧
      (∀ n : Int, n < 0 → (rioWrite buf sz evs).fin = .ret n →
        n = -1 ∧ (∃ e, e ≠ .eintr ∧ .fail e ∈ evs.take (rioWrite buf sz evs).calls.length) ∧
          (rioWrite buf sz evs).delivered <+: buf.block 0 (rioCount sz)) ∧
      (rioCount sz = sz ↔ sz ≤ intMax) := by
  obtain ⟨hcalls, hfin⟩ := rioWrite_eq buf sz evs
  obtain ⟨hoffered, -, hfailed⟩ :=
    httpSendLoop_resumes (evs.map SendEv.strict) 0 (buf.block 0 (rioCount sz))
  refine ⟨?_, fun n => rioWrite_ret, ?_, rioCount_eq_iff⟩
  · rw [hcalls]
    exact hoffered
  · intro n hneg hret
    rw [hfin] at hret
    obtain ⟨hn, hother⟩ := hfailed n hneg hret
    rw [← List.map_take] at hother
    unfold Sending.delivered
    rw [hcalls]
    exact ⟨hn, mem_map_strict_fail hother, httpSendLoop_front _ _ _⟩

/-! ## Reading -/

/-- The loop of `Read_s`; `cur` is how far `buf` has moved. Behind a `read` that fails something is
left, so the `return -1` is never reached and the loop is left as it is at the end of the stream. -/
def readSLoop (sz : Nat) : List ReadEv → Nat → Nat → Mem → Rcv
  | [], _, nleft, buf => if 0 < nleft then ⟨buf, .waiting⟩ else ⟨buf, .ret (sz - nleft : Nat)⟩
  | ev :: evs, cur, nleft, buf =>
    if 0 < nleft then
      let nread := ev.ret nleft
      let buf := buf.write cur (ev.chunk nleft)
      if nread < 0 then if nleft = 0 then ⟨buf, .ret (-1)⟩ else ⟨buf, .ret (sz - nleft : Nat)⟩
      else if nread = 0 then ⟨buf, .ret (sz - nleft : Nat)⟩
      else readSLoop sz evs (cur + nread.toNat) (nleft - nread.toNat) buf
    else ⟨buf, .ret (sz - nleft : Nat)⟩

/-- `Read_s(fd, buf, sz)`, for counts that are not negative. -/
def readS (buf : Mem) (sz : Nat) (evs : List ReadEv) : Rcv := readSLoop sz evs 0 sz buf

/-- The outcome, with a failure as the end of the stream. -/
def ReadEv.mute : ReadEv → ReadEv
  | .data bs => .data bs
  | .fail _ => .data []

/-- What a transfer of `n` bytes comes to when `s` comes in and then `e`. -/
def Rcv.upTo (buf : Mem) (cur done n : Nat) (s : Bytes) (e : StreamEnd) : Rcv :=
  ⟨buf.write cur (s.take n),
    if n ≤ s.length ∨ e ≠ .waiting then .ret (done + min n s.length : Nat) else .waiting⟩

theorem Rcv.upTo_append (buf : Mem) (cur done n : Nat) (t s : Bytes) (e : StreamEnd) :
    Rcv.upTo (buf.write cur (t.take n)) (cur + min n t.length) (done + min n t.length)
        (n - min n t.length) s e = .upTo buf cur done n (t ++ s) e := by
  have hcount : (t.take n).length = min n t.length := List.length_take
  have htaken : t.take n ++ s.take (n - min n t.length) = (t ++ s).take n := by
    rw [List.take_append]
    congr 2
    omega
  have hmin : done + min n t.length + min (n - min n t.length) s.length =
      done + min n (t ++ s).length := by
    rw [List.length_append]
    omega
  have hall : n - min n t.length ≤ s.length ↔ n ≤ (t ++ s).length := by
    rw [List.length_append]
    omega
  unfold Rcv.upTo
  rw [← hcount, Mem.write_append, hcount, htaken, hmin]
  simp only [hall]

theorem readSLoop_eq {sz : Nat} (evs : List ReadEv) : ∀ (cur nleft : Nat) (buf : Mem), nleft ≤ sz →
    readSLoop sz evs cur nleft buf =
      .upTo buf cur (sz - nleft) nleft (incoming (evs.map ReadEv.mute)).1
        (incoming (evs.map ReadEv.mute)).2 := by
  induction evs with
  | nil =>
    intro cur nleft buf _
    rw [Rcv.upTo, List.map_nil, incoming, List.take_nil, Mem.write_nil]
    cases nleft with
    | zero => rfl
    | succ n => simp [readSLoop]
  | cons ev evs ih =>
    intro cur nleft buf hle
    cases nleft with
    | zero => simp [readSLoop, Rcv.upTo, Mem.write_nil]
    | succ n =>
      rw [readSLoop, if_pos (Nat.succ_pos n)]
      cases ev with
      | fail e =>
        have hneg : (ReadEv.fail e).ret (n + 1) < 0 := by simp [ReadEv.ret]
        simp only
        rw [if_pos hneg, if_neg (Nat.succ_ne_zero n)]
        simp [Rcv.upTo, ReadEv.mute, incoming, ReadEv.chunk]
      | data bs =>
        have hret : (ReadEv.data bs).ret (n + 1) = (min (n + 1) bs.length : Nat) := by
          rw [ReadEv.ret, List.length_take]
        simp only [hret]
        rw [if_neg (Int.not_lt.2 (Int.natCast_nonneg _)), List.map_cons, ReadEv.mute,
          Int.toNat_natCast]
        cases bs with
        | nil => simp [Rcv.upTo, incoming, ReadEv.chunk]
        | cons b bs =>
          have hsome : ((min (n + 1) (b :: bs).length : Nat) : Int) ≠ 0 := by
            rw [List.length_cons]
            omega
          have hdone : sz - (n + 1 - min (n + 1) (b :: bs).length) =
              sz - (n + 1) + min (n + 1) (b :: bs).length := by
            omega
          rw [if_neg hsome, ih _ _ _ (by omega), hdone, ReadEv.chunk, Rcv.upTo_append, incoming]

theorem readS_eq (buf : Mem) (sz : Nat) (evs : List ReadEv) :
    readS buf sz evs =
      .upTo buf 0 0 sz (incoming (evs.map ReadEv.mute)).1 (incoming (evs.map ReadEv.mute)).2 := by
  rw [readS, readSLoop_eq evs 0 sz buf (Nat.le_refl sz), Nat.sub_self]

/-- **`Read_s` takes a failure for the end of the stream.** For every buffer, every count from 0 on
and all outcomes: the call stores, of what comes in before the first failure or the end, the first
`sz` bytes and no other byte, and returns how many these are; it waits only while it has fewer and
neither has come. So nothing it does tells a stream that has failed from one that has ended. -/
theorem readS_reads (buf : Mem) (sz : Nat) (evs : List ReadEv) :
    readS buf sz evs =
        .upTo buf 0 0 sz (incoming (evs.map ReadEv.mute)).1 (incoming (evs.map ReadEv.mute)).2 ∧
      readS buf sz (evs.map ReadEv.mute) = readS buf sz evs := by
  have hmute : (evs.map ReadEv.mute).map ReadEv.mute = evs.map ReadEv.mute := by
    rw [List.map_map]
    refine List.map_congr_left fun ev _ => ?_
    cases ev <;> rfl
  refine ⟨readS_eq buf sz evs, ?_⟩
  rw [readS_eq, readS_eq buf sz evs, hmute]

/-! ## From one end to the other -/

theorem mute_stream (segs : List Bytes) (m : Nat) :
    (stream segs m).map ReadEv.mute = stream segs m := by
  simp [stream, ReadEv.mute]

theorem incoming_stream {segs : List Bytes} {s : Bytes} (h : Cuts segs s) (m : Nat) :
    incoming (stream segs (m + 1)) = (s, .eof) := by
  induction segs generalizing s with
  | nil =>
    have hs : s = [] := h.flatten.symm
    rw [hs]
    rfl
  | cons seg segs ih =>
    obtain ⟨b, bs, hseg⟩ := List.exists_cons_of_ne_nil (h.ne_nil seg List.mem_cons_self)
    have hs : b :: bs ++ s.drop seg.length = s := by
      rw [← hseg, ← h.flatten, List.flatten_cons, List.drop_left]
    have hstream : stream (seg :: segs) (m + 1) = .data (b :: bs) :: stream segs (m + 1) := by
      rw [← hseg]
      rfl
    rw [hstream, incoming, ih h.tail]
    simp only [hs]

/-- **What `rio_write` says it has written is what `Read_s` reads**, whatever the outcomes of the
writes and however the bytes arrive, when the stream ends behind them: the front part of the one
buffer, as far as both counts reach, stands at the front of the other, which is otherwise as it
was. -/
theorem transfer (buf buf' : Mem) (sz sz' : Nat) (evs : List SendEv) {n : Nat}
    (hret : (rioWrite buf sz evs).fin = .ret n) {segs : List Bytes}
    (hcuts : Cuts segs (rioWrite buf sz evs).delivered) (m : Nat) :
    readS buf' sz' (stream segs (m + 1)) =
      ⟨buf'.write 0 (buf.block 0 (min sz' n)), .ret (min sz' n : Nat)⟩ := by
  rw [(rioWrite_ret hret).2.1] at hcuts
  have htake : (buf.block 0 n).take sz' = buf.block 0 (min sz' n) := by
    rw [← buf.take_block 0 (Nat.min_le_right sz' n), List.take_eq_take_min, buf.length_block]
  rw [readS_eq, mute_stream, incoming_stream hcuts, Rcv.upTo, htake, buf.length_block]
  simp

/-- Three bytes, written in two pieces and read in three. -/
theorem transfer_abc :
    readS (fun _ => 0) 5 (stream [[97], [98], [99]] 1) =
      ⟨Mem.write (fun _ => 0) 0 (Mem.block (fun i => [97, 98, 99].getD i 0) 0 3),
        .ret (3 : Nat)⟩ := by
  have hret : (rioWrite (fun i => [97, 98, 99].getD i 0) 3
      [.sent 1, .fail .eintr, .sent 2]).fin = .ret (3 : Nat) := by decide +kernel
  have hcuts : Cuts [[97], [98], [99]] (rioWrite (fun i => [97, 98, 99].getD i 0) 3
      [.sent 1, .fail .eintr, .sent 2]).delivered := ⟨by decide +kernel, by simp⟩
  exact transfer _ (fun _ => 0) 3 5 _ hret hcuts 0

end HttpCallback
