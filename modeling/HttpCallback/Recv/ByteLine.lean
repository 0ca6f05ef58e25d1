import HttpCallback.Ints
import HttpCallback.Parse.Basic
import HttpCallback.Recv.HttpRcv

/-!
# Reading a line from a socket

`readline` reads byte by byte. The counter of its loop goes up for every outcome, a retry as well as
a byte, but not for the LF or the end of the file that end the line, and the result is the counter
minus 1. So a line is returned with its length only behind two retries, and the end of the file only
behind one; and without a retry `maxlen` bytes are stored in front of the terminator.
-/

namespace HttpCallback

open CString

/-- What a `read` of one byte comes to. -/
inductive ByteEv
  | byte (c : UInt8)
  | eof
  | fail (e : Errno)
  deriving Repr, DecidableEq

/-- `errno` is EINTR, EAGAIN or EWOULDBLOCK. -/
def Errno.again (e : Errno) : Bool := e == .eintr || e == .eagain

/-- What a call of `readline` has written to `buf` from its start on, and how it ends. -/
structure LineRead where
  buf : Bytes
  fin : RcvEnd
  deriving Repr, DecidableEq

/-- Behind the loop: the terminator at `cur_ptr`, and `i - 1`. -/
def lineEnd (i : Nat) (buf : Bytes) : LineRead := ⟨buf ++ [0], .ret (toSsize (i - 1))⟩

/-- The loop of `readline`. -/
def readlineLoop (maxlen : Nat) : List ByteEv → Nat → Bytes → LineRead
  | [], i, buf => if i < maxlen then ⟨buf, .waiting⟩ else lineEnd i buf
  | ev :: evs, i, buf =>
    if i < maxlen then
      match ev with
      | .byte c =>
        if c = lf then lineEnd i (buf ++ [c]) else readlineLoop maxlen evs (i + 1) (buf ++ [c])
      | .eof => lineEnd i buf
      | .fail e => if e.again then readlineLoop maxlen evs (i + 1) buf else ⟨buf, .ret (-1)⟩
    else lineEnd i buf

/-- `readline(fd, buf, maxlen)`. -/
def readline (maxlen : Nat) (evs : List ByteEv) : LineRead := readlineLoop maxlen evs 0 []

/-! ## What it should do -/

inductive LineStop
  | done
  | error
  | waiting
  deriving Repr, DecidableEq

/-- The bytes up to the first LF, the end of the file or the capacity `n`, and what ended them; no
more is read than that. -/
def firstLine : Nat → List ByteEv → Bytes × LineStop
  | 0, _ => ([], .done)
  | _ + 1, [] => ([], .waiting)
  | n + 1, .byte c :: evs =>
    if c = lf then ([c], .done) else (c :: (firstLine n evs).1, (firstLine n evs).2)
  | _ + 1, .eof :: _ => ([], .done)
  | n + 1, .fail e :: evs => if e.again then firstLine (n + 1) evs else ([], .error)

/-- The line is stored with its terminator in `maxlen` bytes, and its length returned; an error that
is no retry is returned as -1. -/
def ReadsLine (maxlen : Nat) (evs : List ByteEv) : Prop :=
  let line := firstLine (maxlen - 1) evs
  (readline maxlen evs).buf.length ≤ maxlen ∧
    match line.2 with
    | .done => readline maxlen evs = ⟨line.1 ++ [0], .ret line.1.length⟩
    | .error => readline maxlen evs = ⟨line.1, .ret (-1)⟩
    | .waiting => readline maxlen evs = ⟨line.1, .waiting⟩

namespace ByteEv

/-- EINTR or EAGAIN. -/
def retry : ByteEv → Bool
  | .fail e => e.again
  | _ => false

/-- The loop goes on behind this outcome. -/
def passes : ByteEv → Bool
  | .byte c => c != lf
  | ev => ev.retry

def bytes : ByteEv → Bytes
  | .byte c => [c]
  | _ => []

end ByteEv

/-- The bytes among the outcomes. -/
def bytesOf (evs : List ByteEv) : Bytes := evs.flatMap ByteEv.bytes

/-- The outcomes without the retries. -/
def settled (evs : List ByteEv) : List ByteEv := evs.filter (! ·.retry)

section Front

variable {maxlen i n : Nat} {front rest : List ByteEv} {buf : Bytes}

/-- Among outcomes behind which the loop goes on, bytes and retries are all. -/
theorem length_bytesOf (h : ∀ ev ∈ front, ev.passes = true) :
    (bytesOf front).length + front.countP ByteEv.retry = front.length := by
  induction front with
  | nil => rfl
  | cons ev front ih =>
    obtain ⟨hev, hfront⟩ := List.forall_mem_cons.1 h
    have hrest := ih hfront
    rw [bytesOf, List.flatMap_cons, ← bytesOf, List.length_append, List.countP_cons,
      List.length_cons]
    cases ev with
    | byte c =>
      simp only [ByteEv.bytes, ByteEv.retry, List.length_singleton]
      simp
      omega
    | eof => cases hev
    | fail e =>
      have hretry : (ByteEv.fail e).retry = true := hev
      rw [if_pos hretry]
      simp only [ByteEv.bytes, List.length_nil]
      omega

/-- The loop over such outcomes. -/
theorem readlineLoop_front (h : ∀ ev ∈ front, ev.passes = true) (hlen : i + front.length ≤ maxlen) :
    readlineLoop maxlen (front ++ rest) i buf =
      readlineLoop maxlen rest (i + front.length) (buf ++ bytesOf front) := by
  induction front generalizing i buf with
  | nil =>
    rw [bytesOf, List.flatMap_nil, List.append_nil]
    rfl
  | cons ev front ih =>
    obtain ⟨hev, hfront⟩ := List.forall_mem_cons.1 h
    rw [List.length_cons] at hlen
    have hnext : i + (front.length + 1) = i + 1 + front.length := by omega
    rw [List.cons_append, List.length_cons, hnext, bytesOf, List.flatMap_cons, ← bytesOf,
      ← List.append_assoc]
    cases ev with
    | byte c =>
      have hc : ¬c = lf := by simpa [ByteEv.passes] using hev
      rw [readlineLoop, if_pos (by omega)]
      simp only [if_neg hc]
      exact ih hfront (by omega)
    | eof => cases hev
    | fail e =>
      have hretry : e.again = true := hev
      rw [readlineLoop, if_pos (by omega)]
      simp only [if_pos hretry, ByteEv.bytes, List.append_nil]
      exact ih hfront (by omega)

theorem firstLine_zero (evs : List ByteEv) : firstLine 0 evs = ([], .done) := by
  cases evs <;> rfl

/-- The line over such outcomes: their bytes, as far as there is room, and the line behind them in
the room that is left. -/
theorem firstLine_append (h : ∀ ev ∈ front, ev.passes = true) (n : Nat) :
    firstLine n (front ++ rest) =
      ((bytesOf front).take n ++ (firstLine (n - (bytesOf front).length) rest).1,
        (firstLine (n - (bytesOf front).length) rest).2) := by
  induction front generalizing n with
  | nil =>
    rw [bytesOf, List.flatMap_nil, List.take_nil]
    rfl
  | cons ev front ih =>
    obtain ⟨hev, hfront⟩ := List.forall_mem_cons.1 h
    rw [bytesOf, List.flatMap_cons, ← bytesOf, List.length_append]
    cases n with
    | zero =>
      rw [Nat.zero_sub, firstLine_zero, firstLine_zero, List.take_zero]
      rfl
    | succ n =>
      cases ev with
      | byte c =>
        have hc : ¬c = lf := by simpa [ByteEv.passes] using hev
        rw [List.cons_append, firstLine, if_neg hc, ih hfront, ByteEv.bytes, List.length_singleton,
          Nat.add_comm 1, Nat.add_sub_add_right]
        rfl
      | eof => cases hev
      | fail e =>
        have hretry : e.again = true := hev
        have hbytes : (ByteEv.fail e).bytes = [] := rfl
        rw [List.cons_append, firstLine, if_pos hretry, ih hfront, hbytes, List.length_nil,
          Nat.zero_add]
        rfl

/-- While there is room. -/
theorem firstLine_front (h : ∀ ev ∈ front, ev.passes = true) (hn : (bytesOf front).length < n) :
    firstLine n (front ++ rest) =
      (bytesOf front ++ (firstLine (n - (bytesOf front).length) rest).1,
        (firstLine (n - (bytesOf front).length) rest).2) := by
  rw [firstLine_append h, List.take_of_length_le hn.le]

/-- What ends the line behind such outcomes, whatever room is left. -/
theorem firstLine_front_stop {tail : Bytes} {stop : LineStop} (h : ∀ ev ∈ front, ev.passes = true)
    (hn : (bytesOf front).length < n) (hrest : ∀ m, firstLine (m + 1) rest = (tail, stop)) :
    firstLine n (front ++ rest) = (bytesOf front ++ tail, stop) := by
  obtain ⟨m, hm⟩ := Nat.exists_eq_succ_of_ne_zero (show n - (bytesOf front).length ≠ 0 by omega)
  rw [firstLine_front h hn, hm, hrest]

/-- When the outcomes fill the room, the rest is not looked at. -/
theorem firstLine_full (h : ∀ ev ∈ front, ev.passes = true) (hn : n ≤ (bytesOf front).length) :
    firstLine n (front ++ rest) = ((bytesOf front).take n, .done) := by
  rw [firstLine_append h, Nat.sub_eq_zero_of_le hn, firstLine_zero, List.append_nil]

/-- Past its capacity the loop does not look at the outcomes. -/
theorem readlineLoop_full (h : maxlen ≤ i) : readlineLoop maxlen rest i buf = lineEnd i buf := by
  cases rest with
  | nil => exact if_neg (Nat.not_lt.2 h)
  | cons ev rest => exact if_neg (Nat.not_lt.2 h)

theorem lineEnd_eq_iff {line : Bytes} (hi : i ≤ sizeMax) :
    lineEnd i buf = ⟨line ++ [0], .ret line.length⟩ ↔
      buf = line ∧ i = line.length + 1 ∧ i ≤ ssizeMax + 1 := by
  rw [lineEnd, LineRead.mk.injEq, RcvEnd.ret.injEq, toSsize_pred_eq_iff hi,
    List.append_left_inj]

end Front

/-! ## How the loop ends -/

section End

variable {maxlen : Nat} {front rest : List ByteEv}

/-- The counter runs out. -/
theorem readsLine_full (hfront : ∀ ev ∈ front, ev.passes = true) (hlen : front.length = maxlen)
    (h : 1 ≤ maxlen) (hmax : maxlen ≤ sizeMax) :
    ReadsLine maxlen (front ++ rest) ↔
      front.countP ByteEv.retry = 1 ∧ front.length ≤ ssizeMax + 1 := by
  have hsum := length_bytesOf hfront
  have hread : readline maxlen (front ++ rest) = lineEnd maxlen (bytesOf front) := by
    rw [readline, readlineLoop_front hfront (by omega), readlineLoop_full (by omega), Nat.zero_add,
      hlen]
    rfl
  have hbuf : (lineEnd maxlen (bytesOf front)).buf.length = (bytesOf front).length + 1 :=
    List.length_append
  unfold ReadsLine
  rw [hread, hbuf]
  simp only
  rcases Nat.lt_or_ge (bytesOf front).length (maxlen - 1) with hlt | hge
  · refine iff_of_false ?_ (by omega)
    rintro ⟨-, hline⟩
    split at hline
    · obtain ⟨hline, hi, -⟩ := (lineEnd_eq_iff hmax).1 hline
      rw [← hline] at hi
      omega
    · exact toSsize_pred_ne h hmax (RcvEnd.ret.inj (LineRead.mk.inj hline).2)
    · cases (LineRead.mk.inj hline).2
  · rw [firstLine_full hfront hge]
    simp only
    rw [lineEnd_eq_iff hmax, List.length_take]
    constructor
    · rintro ⟨hroom, -, -, hi⟩
      omega
    · rintro ⟨hone, hi⟩
      refine ⟨by omega, (List.take_of_length_le (by omega)).symm, by omega, by omega⟩

/-- An LF. -/
theorem readsLine_lf (hfront : ∀ ev ∈ front, ev.passes = true) (hlen : front.length < maxlen)
    (hmax : maxlen ≤ sizeMax) :
    ReadsLine maxlen (front ++ .byte lf :: rest) ↔
      front.countP ByteEv.retry = 2 ∧ front.length ≤ ssizeMax + 1 := by
  have hsum := length_bytesOf hfront
  have hread : readline maxlen (front ++ .byte lf :: rest) =
      lineEnd front.length (bytesOf front ++ [lf]) := by
    rw [readline, readlineLoop_front hfront (by omega), readlineLoop, if_pos (by omega),
      Nat.zero_add]
    rfl
  have hbuf : (lineEnd front.length (bytesOf front ++ [lf])).buf.length =
      (bytesOf front).length + 2 := by
    rw [lineEnd, List.length_append, List.length_append]
    rfl
  unfold ReadsLine
  rw [hread, hbuf]
  simp only
  rcases Nat.lt_or_ge (bytesOf front).length (maxlen - 1) with hlt | hge
  · have hline : ∀ m, firstLine (m + 1) (.byte lf :: rest) = ([lf], .done) := fun m => if_pos rfl
    rw [firstLine_front_stop hfront hlt hline]
    simp only
    rw [lineEnd_eq_iff (by omega), List.length_append, List.length_singleton]
    constructor
    · rintro ⟨-, -, hi, hs⟩
      exact ⟨by omega, hs⟩
    · rintro ⟨htwo, hs⟩
      exact ⟨by omega, rfl, by omega, hs⟩
  · refine iff_of_false ?_ (by omega)
    rw [firstLine_full hfront hge]
    rintro ⟨hroom, -⟩
    omega

/-- The end of the file. -/
theorem readsLine_eof (hfront : ∀ ev ∈ front, ev.passes = true) (hlen : front.length < maxlen)
    (hmax : maxlen ≤ sizeMax) :
    ReadsLine maxlen (front ++ .eof :: rest) ↔
      front.countP ByteEv.retry = 1 ∧ front.length ≤ ssizeMax + 1 := by
  have hsum := length_bytesOf hfront
  have hread : readline maxlen (front ++ .eof :: rest) = lineEnd front.length (bytesOf front) := by
    rw [readline, readlineLoop_front hfront (by omega), readlineLoop, if_pos (by omega),
      Nat.zero_add]
    rfl
  have hbuf : (lineEnd front.length (bytesOf front)).buf.length = (bytesOf front).length + 1 :=
    List.length_append
  have hline : firstLine (maxlen - 1) (front ++ .eof :: rest) = (bytesOf front, .done) := by
    rcases Nat.lt_or_ge (bytesOf front).length (maxlen - 1) with hlt | hge
    · rw [firstLine_front_stop hfront hlt fun m => rfl, List.append_nil]
    · rw [firstLine_full hfront hge, List.take_of_length_le (by omega)]
  unfold ReadsLine
  rw [hread, hbuf, hline]
  simp only [lineEnd_eq_iff (show front.length ≤ sizeMax by omega), true_and]
  constructor
  · rintro ⟨-, hi, hs⟩
    exact ⟨by omega, hs⟩
  · rintro ⟨hone, hs⟩
    exact ⟨by omega, by omega, hs⟩

/-- A failure that is no retry, and a `read` that has not returned. -/
theorem readsLine_stuck {stop : LineStop} {fin : RcvEnd}
    (hfront : ∀ ev ∈ front, ev.passes = true) (hlen : front.length < maxlen)
    (hfin : stop = .error ∧ fin = .ret (-1) ∨ stop = .waiting ∧ fin = .waiting)
    (hread : readlineLoop maxlen rest front.length (bytesOf front) = ⟨bytesOf front, fin⟩)
    (hline : ∀ m, firstLine (m + 1) rest = ([], stop)) :
    ReadsLine maxlen (front ++ rest) ↔
      0 < front.countP ByteEv.retry ∨ front.length + 1 < maxlen := by
  have hsum := length_bytesOf hfront
  have hread' : readline maxlen (front ++ rest) = ⟨bytesOf front, fin⟩ := by
    rw [readline, readlineLoop_front hfront (by omega), Nat.zero_add]
    exact hread
  unfold ReadsLine
  rw [hread']
  simp only
  rcases Nat.lt_or_ge (bytesOf front).length (maxlen - 1) with hlt | hge
  · rw [firstLine_front_stop hfront hlt hline, List.append_nil]
    refine iff_of_true ⟨by omega, ?_⟩ (by omega)
    rcases hfin with ⟨rfl, rfl⟩ | ⟨rfl, rfl⟩
    · rfl
    · rfl
  · refine iff_of_false ?_ (by omega)
    rw [firstLine_full hfront hge]
    rintro ⟨-, hdone⟩
    rcases hfin with ⟨-, rfl⟩ | ⟨-, rfl⟩
    · have := RcvEnd.ret.inj (LineRead.mk.inj hdone).2
      omega
    · cases (LineRead.mk.inj hdone).2

end End

/-! ## Any outcomes -/

/-- The outcomes behind which the loop goes on, as far as it counts. -/
def loopFront (maxlen : Nat) (evs : List ByteEv) : List ByteEv :=
  (evs.takeWhile ByteEv.passes).take maxlen

/-- The number of retries is the one that makes up for the counter. -/
def RetriesFit (maxlen : Nat) (evs : List ByteEv) : Prop :=
  let i := (loopFront maxlen evs).length
  let retries := (loopFront maxlen evs).countP ByteEv.retry
  if i = maxlen then retries = 1 ∧ i ≤ ssizeMax + 1
  else
    match evs.drop i with
    | .byte _ :: _ => retries = 2 ∧ i ≤ ssizeMax + 1
    | .eof :: _ => retries = 1 ∧ i ≤ ssizeMax + 1
    | _ => 0 < retries ∨ i + 1 < maxlen

section Outcomes

variable {maxlen n : Nat} {evs evs' : List ByteEv}

theorem loopFront_passes : ∀ ev ∈ loopFront maxlen evs, ev.passes = true :=
  fun _ hev => List.mem_takeWhile_imp (List.mem_of_mem_take hev)

theorem loopFront_append :
    loopFront maxlen evs ++ evs.drop (loopFront maxlen evs).length = evs :=
  List.prefix_iff_eq_append.1 ((List.take_prefix _ _).trans (List.takeWhile_prefix _))

/-- What stands behind ends the loop. -/
theorem loopFront_drop (h : (loopFront maxlen evs).length < maxlen) {ev : ByteEv}
    {rest : List ByteEv} (hdrop : evs.drop (loopFront maxlen evs).length = ev :: rest) :
    ev.passes = false := by
  have hall : loopFront maxlen evs = evs.takeWhile ByteEv.passes := by
    apply List.take_of_length_le
    rw [loopFront, List.length_take] at h
    omega
  have hbehind : (evs.takeWhile ByteEv.passes ++ evs.dropWhile ByteEv.passes).drop
      (evs.takeWhile ByteEv.passes).length = evs.dropWhile ByteEv.passes := List.drop_left
  have hwhile : evs.dropWhile ByteEv.passes = ev :: rest := by
    rw [← hbehind, List.takeWhile_append_dropWhile, ← hall, hdrop]
  have hhead := List.head?_dropWhile_not ByteEv.passes evs
  rw [hwhile] at hhead
  simpa using hhead

theorem readsLine_iff (h : 1 ≤ maxlen) (hmax : maxlen ≤ sizeMax) (evs : List ByteEv) :
    ReadsLine maxlen evs ↔ RetriesFit maxlen evs := by
  have hfront : ∀ ev ∈ loopFront maxlen evs, ev.passes = true := loopFront_passes
  have happend : loopFront maxlen evs ++ evs.drop (loopFront maxlen evs).length = evs :=
    loopFront_append
  have hle : (loopFront maxlen evs).length ≤ maxlen := List.length_take_le _ _
  unfold RetriesFit
  simp only
  rcases Nat.eq_or_lt_of_le hle with hlen | hlen
  · rw [if_pos hlen]
    conv_lhs => rw [← happend]
    exact readsLine_full hfront hlen h hmax
  rw [if_neg hlen.ne]
  cases hdrop : evs.drop (loopFront maxlen evs).length with
  | nil =>
    rw [hdrop] at happend
    conv_lhs => rw [← happend]
    exact readsLine_stuck hfront hlen (Or.inr ⟨rfl, rfl⟩) (if_pos hlen) fun m => rfl
  | cons ev rest =>
    have hev := loopFront_drop hlen hdrop
    rw [hdrop] at happend
    conv_lhs => rw [← happend]
    cases ev with
    | byte c =>
      have hc : c = lf := by simpa [ByteEv.passes] using hev
      subst hc
      exact readsLine_lf hfront hlen hmax
    | eof => exact readsLine_eof hfront hlen hmax
    | fail e =>
      have hagain : ¬e.again = true := by simpa [ByteEv.passes, ByteEv.retry] using hev
      refine readsLine_stuck hfront hlen (Or.inl ⟨rfl, rfl⟩) ?_ fun m => if_neg hagain
      rw [readlineLoop, if_pos hlen]
      exact if_neg hagain

/-- The line does not depend on the retries. -/
theorem firstLine_settled (n : Nat) (evs : List ByteEv) :
    firstLine n (settled evs) = firstLine n evs := by
  induction evs generalizing n with
  | nil => rfl
  | cons ev evs ih =>
    cases n with
    | zero => rw [firstLine_zero, firstLine_zero]
    | succ n =>
      cases ev with
      | byte c =>
        rw [settled, List.filter_cons_of_pos rfl, ← settled, firstLine, firstLine, ih]
      | eof => rfl
      | fail e =>
        by_cases hagain : e.again = true
        · have hskip : settled (.fail e :: evs) = settled evs :=
            List.filter_cons_of_neg (by simpa [ByteEv.retry] using hagain)
          rw [hskip, ih, firstLine, if_pos hagain]
        · rw [settled, List.filter_cons_of_pos (by simpa [ByteEv.retry] using hagain), firstLine,
            firstLine, if_neg hagain, if_neg hagain]

/-- A line that is read as it should be is read alike behind other retries. -/
theorem ReadsLine.readline_eq (hread : ReadsLine maxlen evs) (hread' : ReadsLine maxlen evs')
    (heq : settled evs = settled evs') : readline maxlen evs = readline maxlen evs' := by
  have hline : firstLine (maxlen - 1) evs = firstLine (maxlen - 1) evs' := by
    rw [← firstLine_settled, heq, firstLine_settled]
  obtain ⟨-, hread⟩ := hread
  obtain ⟨-, hread'⟩ := hread'
  rw [← hline] at hread'
  cases hstop : (firstLine (maxlen - 1) evs).2 with
  | done =>
    rw [hstop] at hread hread'
    exact hread.trans hread'.symm
  | error =>
    rw [hstop] at hread hread'
    exact hread.trans hread'.symm
  | waiting =>
    rw [hstop] at hread hread'
    exact hread.trans hread'.symm

/-- Retries in front of everything use the counter up. -/
theorem retriesFit_replicate (h : RetriesFit maxlen (List.replicate maxlen (.fail .eintr) ++ evs)) :
    maxlen = 1 := by
  have hfront : loopFront maxlen (List.replicate maxlen (.fail .eintr) ++ evs) =
      List.replicate maxlen (.fail .eintr) := by
    rw [loopFront, List.takeWhile_append_of_pos]
    · exact List.take_left' (List.length_replicate)
    · intro ev hev
      rw [List.eq_of_mem_replicate hev]
      rfl
  unfold RetriesFit at h
  simp only [hfront, List.length_replicate, if_pos] at h
  have hcount : (List.replicate maxlen (ByteEv.fail .eintr)).countP ByteEv.retry = maxlen := by
    rw [List.countP_replicate]
    exact if_pos rfl
  rw [hcount] at h
  exact h.1

/-- Without retries one byte of capacity is not enough. -/
theorem not_retriesFit_one (evs : List ByteEv) : ¬RetriesFit 1 (settled evs) := by
  have hnone : (loopFront 1 (settled evs)).countP ByteEv.retry = 0 := by
    refine List.countP_eq_zero.2 fun ev hev => ?_
    have hmem := (List.takeWhile_sublist _).subset (List.mem_of_mem_take hev)
    simpa using (List.mem_filter.1 hmem).2
  intro h
  unfold RetriesFit at h
  simp only [hnone] at h
  split at h
  · omega
  · split at h
    · omega
    · omega
    · omega

/-- **`readline` is right at the right number of retries.** For every `maxlen` from 1 on that a
`size_t` holds and every two sequences of outcomes that are the same but for their retries: both
calls read the line as they should and alike, if and only if in both the retries up to the end of
the loop make up for its counter: two in front of an LF, one in front of the end of the file or
among the first `maxlen` outcomes, and in front of an error at least one or fewer than `maxlen - 1`
bytes. And no sequence is read as it should be whatever retries are put in or taken out. -/
theorem readline_retries_iff (maxlen : Nat) (h : 1 ≤ maxlen) (hmax : maxlen ≤ sizeMax) :
    (∀ evs evs', settled evs = settled evs' →
      ((ReadsLine maxlen evs ∧ ReadsLine maxlen evs' ∧
          readline maxlen evs = readline maxlen evs') ↔
        RetriesFit maxlen evs ∧ RetriesFit maxlen evs')) ∧
    ∀ evs, ¬∀ evs', settled evs = settled evs' →
      ReadsLine maxlen evs ∧ ReadsLine maxlen evs' ∧
        readline maxlen evs = readline maxlen evs' := by
  have hiff := readsLine_iff h hmax
  constructor
  · intro evs evs' heq
    rw [← hiff, ← hiff]
    exact ⟨fun hall => ⟨hall.1, hall.2.1⟩,
      fun hall => ⟨hall.1, hall.2, hall.1.readline_eq hall.2 heq⟩⟩
  · intro evs hall
    have hnone : settled (List.replicate maxlen (.fail .eintr)) = [] := by
      refine List.filter_eq_nil_iff.2 fun ev hev => ?_
      rw [List.eq_of_mem_replicate hev]
      exact Bool.false_ne_true
    have hretries := hall (List.replicate maxlen (.fail .eintr) ++ evs) (by
      rw [settled, settled, List.filter_append, ← settled, ← settled, hnone, List.nil_append])
    have hone := retriesFit_replicate ((hiff _).1 hretries.2.1)
    subst hone
    have hsettled := hall (settled evs) (by rw [settled, settled, List.filter_filter]; simp)
    exact not_retriesFit_one evs ((hiff _).1 hsettled.2.1)

/-- "a" and LF, with the two retries at different places. -/
theorem readline_retries_two :
    readline 8 [.fail .eintr, .byte 97, .fail .eagain, .byte 10] =
      readline 8 [.byte 97, .fail .eintr, .fail .eintr, .byte 10] :=
  (((readline_retries_iff 8 (by decide) (by decide)).1
    [.fail .eintr, .byte 97, .fail .eagain, .byte 10]
    [.byte 97, .fail .eintr, .fail .eintr, .byte 10] rfl).2
      ⟨⟨rfl, by decide⟩, rfl, by decide⟩).2.2

/-- Without a retry "ab" and LF come back as 1. -/
theorem readline_short : ¬∀ (maxlen : Nat) (evs : List ByteEv), 1 ≤ maxlen → maxlen ≤ sizeMax →
    ReadsLine maxlen evs := by
  intro h
  have hread : readline 8 [.byte 97, .byte 98, .byte 10] = ⟨[97, 98, 10, 0], .ret 3⟩ :=
    (h 8 [.byte 97, .byte 98, .byte 10] (by decide) (by decide)).2
  exact absurd hread (by decide)

end Outcomes

end HttpCallback
