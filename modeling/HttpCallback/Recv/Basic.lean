import Mathlib.Algebra.Order.Ring.Nat
import HttpCallback.Lib.Memory
import HttpCallback.Socket
import HttpCallback.Parse.Basic

/-!
# Receiving on a connection

`onRecv` fills a scratch array with up to `len` bytes, in as many reads as it takes, and appends
each chunk to the string in `tcp->buf`; `callback` copies that string to the block of the context
and parses the copy.

`nread` is a `size_t`, so the test `nread < 0` never holds (`nread_not_neg`) and a failed read
counts as one of `2^64 - 1` bytes: `nleft` grows by one, `ptr` moves back by one and the loop goes
on. The model follows the code there until `ptr` stands in front of the scratch array, where
`memset` would overwrite the frame, and stops (`RecvEnd.wild`). Behind its end the array is taken to
be as large as its accesses need; `ranges` records them, and a call that has kept to the array
(`Recv.Inside`) did not need this.
-/

namespace HttpCallback

open CString

/-- `READ_COUNT`. -/
def readCount : UInt64 := 100

/-- `READ_COUNT_BUF`, the size of the scratch array. -/
def readCountBuf : Nat := 1000

/-- The variables of `onRecv`. `ptr` is the offset from `cur_ptr`; `got` lists the chunks the reads
stored, `ranges` the offsets and lengths that `memset` and `read` touched. -/
structure RecvSt where
  nleft : UInt64
  ptr : UInt64
  mem : Mem
  buf : Bytes
  got : List Bytes
  ranges : List (UInt64 × Nat)

/-- How a call ends: it returns, it still waits in `read` for the next event, or `ptr` has left the
scratch array at its start. -/
inductive RecvEnd
  | ret (n : UInt64)
  | waiting
  | wild
  deriving Repr, DecidableEq

structure Recv where
  st : RecvSt
  rest : List ReadEv
  fin : RecvEnd

/-- `ptr` stands in front of `cur_ptr`. -/
def RecvSt.below (st : RecvSt) : Bool := 2 ^ 63 ≤ st.ptr.toNat

/-- `memset(ptr, 0, READ_COUNT_BUF)`. -/
def RecvSt.clear (st : RecvSt) : RecvSt :=
  { st with
    mem := st.mem.fill st.ptr.toNat 0 readCountBuf
    ranges := st.ranges ++ [(st.ptr, readCountBuf)] }

/-- The rest of the loop body: the chunk stored by `read`, `nleft -= nread`,
`strncat(buf, ptr, strlen(ptr))`, `ptr += nread`. -/
def RecvSt.append (st : RecvSt) (chunk : Bytes) (nread : UInt64) : RecvSt :=
  let mem := st.mem.write st.ptr.toNat chunk
  { nleft := st.nleft - nread
    ptr := st.ptr + nread
    mem := mem
    buf := st.buf ++ mem.strAt st.ptr.toNat (chunk.length + readCountBuf)
    got := st.got ++ [chunk]
    ranges := st.ranges ++ [(st.ptr, chunk.length)] }

/-- `nread`, the result of `read` as a `size_t`. -/
def ReadEv.nread (n : UInt64) (ev : ReadEv) : UInt64 := UInt64.ofInt (ev.ret n.toNat)

/-- The `while` loop, entered with `nleft > 0`. -/
def onRecvLoop (len : UInt64) : List ReadEv → RecvSt → Recv
  | [], st => ⟨st, [], .waiting⟩
  | ev :: evs, st =>
    if st.below then ⟨st, ev :: evs, .wild⟩
    else
      let st := st.clear
      let nread := ev.nread st.nleft
      if nread < 0 then
        match ev.errno with
        | .eagain => ⟨st, evs, .ret (len - st.nleft)⟩
        | .eintr => onRecvLoop len evs st
        | .other => ⟨st, evs, .ret (-1)⟩
      else if nread = 0 then ⟨st, evs, .ret (len - st.nleft)⟩
      else
        let left := ev.left st.nleft.toNat
        let st := st.append (ev.chunk st.nleft.toNat) nread
        if st.nleft = 0 then ⟨st, left ++ evs, .ret (len - st.nleft)⟩
        else onRecvLoop len evs st

/-- `onRecv(fd, buf, len)` on the events of `fd`; `stack` is what the scratch array's memory held.
-/
def onRecv (stack : Mem) (buf : Bytes) (len : UInt64) (evs : List ReadEv) : Recv :=
  let st : RecvSt := ⟨len, 0, stack.fill 0 0 readCountBuf, buf, [], []⟩
  if len = 0 then ⟨st, evs, .ret 0⟩ else onRecvLoop len evs st

/-- The ranges a call has touched: a call that waits in `read` has cleared in front of it. -/
def Recv.touched (r : Recv) : List (UInt64 × Nat) :=
  if r.fin = .waiting then r.st.ranges ++ [(r.st.ptr, readCountBuf)] else r.st.ranges

/-- They lie inside the scratch array. -/
def Recv.Inside (r : Recv) : Prop := ∀ x ∈ r.touched, x.1.toNat + x.2 ≤ readCountBuf

instance (r : Recv) : Decidable r.Inside := inferInstanceAs (Decidable (∀ x ∈ r.touched, _))

/-! ## `callback` -/

/-- `http_tcp`, with the string in the block of its context (`http_contxt->buf`) and the one in its
own block (`buf`). -/
structure HttpTcp where
  fd : Int
  ctx : Bytes
  buf : Bytes
  deriving Repr, DecidableEq

/-- How a call of `callback` ends: `onRecv` returns and the parse ends, or `onRecv` does not
return. -/
inductive CallbackEnd
  | parsed (out : Outcome)
  | waiting
  | wild
  deriving Repr, DecidableEq

/-- A call of `callback`: with what `onRecv` has read, the ranges of its scratch array. -/
structure Callback where
  tcp : HttpTcp
  got : List Bytes
  touched : List (UInt64 × Nat)
  rest : List ReadEv
  fin : CallbackEnd

/-- `snprintf(dst, n, "%s", s)`. -/
def snprintf (n : Nat) (s : Bytes) : Bytes := s.take (n - 1)

/-- `callback(tcp->http_contxt, onRecv, tcp->fd, tcp->buf, len)`. -/
def callback (stack : Mem) (tcp : HttpTcp) (len : UInt64) (evs : List ReadEv) : Callback :=
  let r := onRecv stack tcp.buf len evs
  match r.fin with
  | .ret _ =>
    let ctx := snprintf bufsize r.st.buf
    ⟨{ tcp with ctx := ctx, buf := r.st.buf }, r.st.got, r.touched, r.rest,
      .parsed (analasy ctx).out⟩
  | .waiting => ⟨{ tcp with buf := r.st.buf }, r.st.got, r.touched, r.rest, .waiting⟩
  | .wild => ⟨{ tcp with buf := r.st.buf }, r.st.got, r.touched, r.rest, .wild⟩

/-- The scratch array was kept to. -/
def Callback.Inside (c : Callback) : Prop := ∀ x ∈ c.touched, x.1.toNat + x.2 ≤ readCountBuf

instance (c : Callback) : Decidable c.Inside := inferInstanceAs (Decidable (∀ x ∈ c.touched, _))

/-- The result that `callback` hands to the worker. -/
def Callback.returned (c : Callback) : Option (Option HttpRequest) :=
  match c.fin with
  | .parsed (.ret req) => some req
  | _ => none

/-- Up to `n` calls of `callback` on one connection, as the worker makes them: each on what the one
before left, as long as they return. -/
def callbacks (stack : Mem) (len : UInt64) : Nat → HttpTcp → List ReadEv → List Callback
  | 0, _, _ => []
  | n + 1, tcp, evs =>
    let c := callback stack tcp len evs
    match c.returned with
    | some _ => c :: callbacks stack len n c.tcp c.rest
    | none => [c]

/-! ## One call of `onRecv` -/

/-- The error branch is dead: a `size_t` is never negative. -/
theorem nread_not_neg (n : UInt64) (ev : ReadEv) : ¬ev.nread n < 0 := by
  rw [UInt64.lt_iff_toNat_lt]
  exact Nat.not_lt_zero _

theorem nread_fail (n : UInt64) (e : Errno) : (ReadEv.fail e).nread n = -1 := rfl

theorem nread_data (n : UInt64) (bs : Bytes) :
    ((ReadEv.data bs).nread n).toNat = (bs.take n.toNat).length := by
  have hle := List.length_take_le n.toNat bs
  have hlt : n.toNat < 2 ^ 64 := n.toNat_lt
  simp only [ReadEv.nread, ReadEv.ret, UInt64.ofInt]
  rw [UInt64.toNat_ofNat']
  omega

theorem toNat_eq_zero {n : UInt64} : n.toNat = 0 ↔ n = 0 := @UInt64.toNat_inj n 0

theorem nread_le (n : UInt64) (bs : Bytes) : ((ReadEv.data bs).nread n).toNat ≤ n.toNat := by
  rw [nread_data]
  exact List.length_take_le _ _

/-- A read of the end of the stream. -/
theorem nread_nil (n : UInt64) : (ReadEv.data []).nread n = 0 := by
  rw [← toNat_eq_zero, nread_data, List.take_nil, List.length_nil]

theorem nread_ne_zero {n : UInt64} (hn : 0 < n.toNat) {bs : Bytes} (hne : bs ≠ []) :
    (ReadEv.data bs).nread n ≠ 0 := by
  have hbs := List.length_pos_iff.2 hne
  rw [Ne, ← toNat_eq_zero, nread_data, List.length_take]
  omega

/-- Where the loop stands: `ptr` and `nleft` add up to `len`, or a failed read has moved `ptr` in
front of the array. What has been appended is the chunks, each as far as its first NUL. -/
structure RecvSt.Inv (len : UInt64) (base : Bytes) (st : RecvSt) : Prop where
  sum : st.ptr.toNat + st.nleft.toNat = len.toNat ∨ st.below = true
  buf : st.buf = base ++ (st.got.map cstr).flatten

section Invariant

variable {len : UInt64} {base : Bytes} {st : RecvSt}

theorem RecvSt.Inv.clear (h : st.Inv len base) : st.clear.Inv len base := ⟨h.sum, h.buf⟩

theorem RecvSt.clear_mem {k : Nat} (h : k < readCountBuf) :
    st.clear.mem (st.ptr.toNat + k) = 0 :=
  Mem.fill_in (Nat.le_add_right _ _) (Nat.add_lt_add_left h _)

/-- In the cleared array the string at `ptr` is the chunk, as far as its first NUL. -/
theorem RecvSt.append_clear_buf {chunk : Bytes} (nread : UInt64) (h : chunk.length < readCountBuf) :
    (st.clear.append chunk nread).buf = st.buf ++ cstr chunk := by
  have hf : chunk.length < chunk.length + readCountBuf := Nat.lt_add_of_pos_right (by decide)
  exact congrArg (st.buf ++ ·) (Mem.strAt_write (RecvSt.clear_mem h) hf)

theorem RecvSt.append_got (chunk : Bytes) (nread : UInt64) :
    (st.clear.append chunk nread).got = st.got ++ [chunk] := rfl

theorem RecvSt.append_toNat (chunk : Bytes) {nread : UInt64} (h : nread.toNat ≤ st.nleft.toNat)
    (hs : st.ptr.toNat + st.nleft.toNat < 2 ^ 64) :
    (st.clear.append chunk nread).ptr.toNat = st.ptr.toNat + nread.toNat ∧
      (st.clear.append chunk nread).nleft.toNat = st.nleft.toNat - nread.toNat := by
  simp only [RecvSt.append, RecvSt.clear]
  constructor
  · rw [UInt64.toNat_add]
    exact Nat.mod_eq_of_lt (by omega)
  · exact UInt64.toNat_sub_of_le _ _ (UInt64.le_iff_toNat_le.2 h)

theorem RecvSt.Inv.sum_eq (h : st.Inv len base) (hb : st.below = false) :
    st.ptr.toNat + st.nleft.toNat = len.toNat := by
  rcases h.sum with hs | hs
  · exact hs
  · rw [hb] at hs
    cases hs

/-- A successful read keeps the invariant. -/
theorem RecvSt.Inv.data (hlen : len.toNat < readCountBuf) (h : st.Inv len base)
    (hb : st.below = false) (bs : Bytes) :
    (st.clear.append ((ReadEv.data bs).chunk st.nleft.toNat)
      ((ReadEv.data bs).nread st.nleft)).Inv len base := by
  have hsum := h.sum_eq hb
  have hlt : len.toNat < 2 ^ 64 := len.toNat_lt
  have hle := List.length_take_le st.nleft.toNat bs
  have hn := nread_data st.nleft bs
  have hchunk : (bs.take st.nleft.toNat).length < readCountBuf := by omega
  obtain ⟨hp, hl⟩ :=
    RecvSt.append_toNat (bs.take st.nleft.toNat) (nread_le st.nleft bs) (by omega)
  refine ⟨Or.inl ?_, ?_⟩
  · simp only [ReadEv.chunk]
    omega
  · simp only [ReadEv.chunk]
    rw [RecvSt.append_clear_buf _ hchunk, RecvSt.append_got, h.buf]
    simp

/-- A failed read keeps the invariant: it moves `ptr` back by one. -/
theorem RecvSt.Inv.fail (hlen : len.toNat < readCountBuf) (h : st.Inv len base)
    (hb : st.below = false) (e : Errno) :
    (st.clear.append ((ReadEv.fail e).chunk st.nleft.toNat)
      ((ReadEv.fail e).nread st.nleft)).Inv len base := by
  have hsum := h.sum_eq hb
  have hr : readCountBuf = 1000 := rfl
  have hp : (st.ptr + -1).toNat = (st.ptr.toNat + (2 ^ 64 - 1)) % 2 ^ 64 := UInt64.toNat_add _ _
  have hl : (st.nleft - -1).toNat = (2 ^ 64 - (2 ^ 64 - 1) + st.nleft.toNat) % 2 ^ 64 :=
    UInt64.toNat_sub _ _
  rw [nread_fail]
  refine ⟨?_, ?_⟩
  · by_cases h0 : st.ptr.toNat = 0
    · right
      simp only [RecvSt.below, RecvSt.append, RecvSt.clear, decide_eq_true_eq, hp]
      omega
    · left
      simp only [RecvSt.append, RecvSt.clear, hp, hl]
      omega
  · have hchunk : ((ReadEv.fail e).chunk st.nleft.toNat).length < readCountBuf := by
      simp [ReadEv.chunk, hr]
    rw [RecvSt.append_clear_buf _ hchunk, RecvSt.append_got, h.buf]
    simp

theorem onRecvLoop_inv (hlen : len.toNat < readCountBuf) (evs : List ReadEv) :
    ∀ {st : RecvSt}, st.Inv len base → (onRecvLoop len evs st).st.Inv len base := by
  induction evs with
  | nil => intro st h; exact h
  | cons ev evs ih =>
    intro st h
    unfold onRecvLoop
    by_cases hb : st.below = true
    · rw [if_pos hb]
      exact h
    · rw [if_neg hb]
      have hb' : st.below = false := Bool.eq_false_iff.2 hb
      have hstep :
          (st.clear.append (ev.chunk st.nleft.toNat) (ev.nread st.nleft)).Inv len base := by
        cases ev with
        | data bs => exact h.data hlen hb' bs
        | fail e => exact h.fail hlen hb' e
      simp only
      rw [if_neg (nread_not_neg _ ev)]
      split
      · exact h.clear
      · split
        · exact hstep
        · exact ih hstep

end Invariant

/-- What `onRecv` appends: the chunks the reads stored, each as far as its first NUL. -/
theorem onRecv_buf (stack : Mem) (buf : Bytes) {len : UInt64} (hlen : len.toNat < readCountBuf)
    (evs : List ReadEv) :
    (onRecv stack buf len evs).st.buf =
      buf ++ ((onRecv stack buf len evs).st.got.map cstr).flatten := by
  unfold onRecv
  simp only
  split
  · simp
  · refine (onRecvLoop_inv hlen evs ⟨Or.inl ?_, ?_⟩).buf
    · simp
    · simp

end HttpCallback
