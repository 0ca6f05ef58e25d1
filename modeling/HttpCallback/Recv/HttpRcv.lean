import HttpCallback.Ints
import HttpCallback.Lib.Memory
import HttpCallback.Socket

/-!
# The resuming receive

`http_rcv` is written to go on until it has `len` bytes. Its test is `nread = recv(..) < 0`, which
gives `nread` the outcome of the comparison: behind a `recv` that has stored bytes it is 0, so the
loop takes the chunk for the end of the stream and the call returns 0.
-/

namespace HttpCallback

open CString

/-- How `http_rcv` or `readline` ends: it returns, or it still waits for the socket. -/
inductive RcvEnd
  | ret (n : Int)
  | waiting
  deriving Repr, DecidableEq

/-- The memory at `buf` behind a call, and how it ends. -/
structure Rcv where
  buf : Mem
  fin : RcvEnd

/-- The loop of `http_rcv`; `cur` is `cur_ptr - buf`. As `nread` is 0 or 1 it ends at any `recv`
that does not fail, and the last branch is never taken. -/
def httpRcvLoop : List ReadEv → Nat → Int → Mem → Rcv
  | [], cur, nleft, buf => if 0 < nleft then ⟨buf, .waiting⟩ else ⟨buf, .ret cur⟩
  | ev :: evs, cur, nleft, buf =>
    if 0 < nleft then
      let nread : Int := if ev.ret nleft.toNat < 0 then 1 else 0
      let buf := buf.write cur (ev.chunk nleft.toNat)
      if nread ≠ 0 then
        if ev.errno = .eintr then httpRcvLoop evs cur nleft buf else ⟨buf, .ret (-1)⟩
      else if nread = 0 then ⟨buf, .ret cur⟩
      else httpRcvLoop evs (cur + nread.toNat) (nleft - nread) buf
    else ⟨buf, .ret cur⟩

/-- `http_rcv(fd, buf, len)`. -/
def httpRcv (buf : Mem) (len : Nat) (evs : List ReadEv) : Rcv := httpRcvLoop evs 0 (toInt len) buf

/-! ## What it should do -/

/-- What stops the bytes that come in. -/
inductive StreamEnd
  | eof
  | error
  | waiting
  deriving Repr, DecidableEq

/-- The bytes in front of the end of the stream or of the first failure other than EINTR. -/
def incoming : List ReadEv → Bytes × StreamEnd
  | [] => ([], .waiting)
  | .data [] :: _ => ([], .eof)
  | .data (b :: bs) :: evs => (b :: bs ++ (incoming evs).1, (incoming evs).2)
  | .fail .eintr :: evs => incoming evs
  | .fail .eagain :: _ => ([], .error)
  | .fail .other :: _ => ([], .error)

/-- The call returns with the first `n` bytes that come in stored in their order. -/
def Rcv.Delivers (r : Rcv) (s : Bytes) (n : Nat) : Prop :=
  r.fin = .ret n ∧ r.buf.block 0 n = s.take n

/-- All of `len` bytes, or those in front of the end of the stream; an error in front of both is
returned as -1. -/
def ReceivesAll (buf : Mem) (len : Nat) (evs : List ReadEv) : Prop :=
  let r := httpRcv buf len evs
  let s := (incoming evs).1
  if len ≤ s.length then r.Delivers s len
  else
    match (incoming evs).2 with
    | .eof => r.Delivers s s.length
    | .error => r.fin = .ret (-1)
    | .waiting => r.fin = .waiting

section Loop

variable {len : Nat} {buf : Mem} {evs : List ReadEv}

/-- With something to receive the first outcome other than EINTR decides: bytes and the end of the
stream both make the call return 0. -/
theorem httpRcvLoop_zero (hlen : 0 < len) (evs : List ReadEv) (buf : Mem) :
    (httpRcvLoop evs 0 len buf).fin =
      if (incoming evs).1 ≠ [] then .ret 0
      else
        match (incoming evs).2 with
        | .eof => .ret 0
        | .error => .ret (-1)
        | .waiting => .waiting := by
  have hpos : (0 : Int) < len := by omega
  induction evs generalizing buf with
  | nil =>
    rw [httpRcvLoop, if_pos hpos]
    rfl
  | cons ev evs ih =>
    rw [httpRcvLoop, if_pos hpos]
    cases ev with
    | data bs =>
      have hret : ¬(ReadEv.data bs).ret (len : Int).toNat < 0 := Int.not_lt.2 (Int.natCast_nonneg _)
      simp only [if_neg hret]
      cases bs with
      | nil => rfl
      | cons b bs => rfl
    | fail e =>
      cases e with
      | eintr => exact ih _
      | eagain => rfl
      | other => rfl

theorem httpRcvLoop_of_nonpos {nleft : Int} (h : nleft ≤ 0) (cur : Nat) :
    httpRcvLoop evs cur nleft buf = ⟨buf, .ret cur⟩ := by
  cases evs with
  | nil => exact if_neg (Int.not_lt.2 h)
  | cons ev evs => exact if_neg (Int.not_lt.2 h)

/-- **`http_rcv` receives nothing.** For every buffer, every length that an `int` holds and every
sequence of outcomes: the call returns -1 for an error in front of `len` bytes and of the end of the
stream, and otherwise the number of the bytes it has stored, all that were asked for or are there,
if and only if no bytes were asked for or none come in. -/
theorem httpRcv_receives_iff (buf : Mem) (len : Nat) (evs : List ReadEv) (h : len ≤ intMax) :
    ReceivesAll buf len evs ↔ len = 0 ∨ (incoming evs).1 = [] := by
  have hint : toInt len = len := toInt_of_le (by omega) (Int.ofNat_le.2 h)
  unfold ReceivesAll httpRcv
  rw [hint]
  rcases Nat.eq_zero_or_pos len with rfl | hpos
  · refine iff_of_true ?_ (Or.inl rfl)
    have hzero : httpRcvLoop evs 0 ((0 : Nat) : Int) buf = ⟨buf, .ret (0 : Nat)⟩ :=
      httpRcvLoop_of_nonpos (Int.le_refl 0) 0
    rw [hzero]
    exact ⟨rfl, rfl⟩
  have hfin := httpRcvLoop_zero hpos evs buf
  by_cases hnil : (incoming evs).1 = []
  · refine iff_of_true ?_ (Or.inr hnil)
    rw [if_neg (not_not.2 hnil)] at hfin
    simp only [hnil, List.length_nil, if_neg (Nat.not_le.2 hpos)]
    cases hend : (incoming evs).2 with
    | eof =>
      rw [hend] at hfin
      exact ⟨hfin, rfl⟩
    | error =>
      rw [hend] at hfin
      exact hfin
    | waiting =>
      rw [hend] at hfin
      exact hfin
  · refine iff_of_false ?_ (fun hor => hor.elim (by omega) hnil)
    have hs := List.length_pos_iff.2 hnil
    rw [if_pos hnil] at hfin
    intro hall
    simp only at hall
    split at hall
    · have hret := hall.1
      rw [hfin, RcvEnd.ret.injEq] at hret
      omega
    · split at hall
      · have hret := hall.1
        rw [hfin, RcvEnd.ret.injEq] at hret
        omega
      · rw [hfin] at hall
        cases hall
      · rw [hfin] at hall
        cases hall

/-- An interruption and then the end of the stream. -/
theorem httpRcv_receives_eof : ReceivesAll (fun _ => 7) 4 [.fail .eintr, .data []] :=
  (httpRcv_receives_iff (fun _ => 7) 4 [.fail .eintr, .data []] (by decide)).2 (Or.inr rfl)

/-- Two bytes asked for and received, and 0 returned. -/
theorem httpRcv_loses : ¬∀ (buf : Mem) (len : Nat) (evs : List ReadEv), len ≤ intMax →
    ReceivesAll buf len evs := by
  intro h
  have hret := (h (fun _ => 0) 2 [.data [97, 98]] (by decide)).1
  rw [httpRcv, show toInt (2 : Nat) = (2 : Nat) from rfl, httpRcvLoop_zero (by decide)] at hret
  cases hret

end Loop

end HttpCallback
