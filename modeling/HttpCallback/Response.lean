import HttpCallback.Lib.Delivery
import HttpCallback.Socket
import HttpCallback.Request.Basic

/-!
# Sending a file

`responseOk` sends five header lines, each by one bare `send`, and then the file in blocks, each by
`httpSend`, which goes on behind short counts, EINTR and EAGAIN. No result is looked at: a line that
the socket did not take, or a block that `httpSend` gave up, is left out and the next one is sent.
The client sees a front part of the response as long as nothing is taken behind the first line or
block cut short (`Orderly`), and otherwise only where the bytes that follow happen to read like the
ones left out (`responseOk_in_order`).
-/

namespace HttpCallback

open CString Delivery

/-! ## The two ways to send -/

/-- A `send`: the bytes offered and those taken. -/
structure Send where
  offered : Bytes
  taken : Bytes
  deriving Repr, DecidableEq

/-- How a sending function ends: it returns, or it still waits in a `send`. -/
inductive SendEnd
  | ret (n : Int)
  | waiting
  deriving Repr, DecidableEq

structure Sending where
  calls : List Send
  rest : List SendEv
  fin : SendEnd
  deriving Repr, DecidableEq

def Sending.delivered (s : Sending) : Bytes := s.calls.flatMap (·.taken)

/-- The sends of `s` behind one more. -/
def Sending.after (c : Send) (s : Sending) : Sending := { s with calls := c :: s.calls }

/-- `send(fd, buf, strlen(buf), 0)`. -/
def send (buf : Bytes) : List SendEv → Sending
  | [] => ⟨[], [], .waiting⟩
  | ev :: evs => ⟨[⟨buf, ev.taken buf⟩], evs, .ret (ev.ret buf)⟩

/-- The loop of `http_send`: `sent` is `cur_ptr - buf`, and the `nleft` bytes at `cur_ptr` are
listed. -/
def httpSendLoop : List SendEv → Nat → Bytes → Sending
  | evs, sent, [] => ⟨[], evs, .ret sent⟩
  | [], _, _ :: _ => ⟨[], [], .waiting⟩
  | ev :: evs, sent, b :: left =>
    let nsend := ev.ret (b :: left)
    if nsend < 0 then
      match ev.errno with
      | .eintr => (httpSendLoop evs sent (b :: left)).after ⟨b :: left, []⟩
      | .eagain => (httpSendLoop evs sent (b :: left)).after ⟨b :: left, []⟩
      | .other => ⟨[⟨b :: left, []⟩], evs, .ret (-1)⟩
    else if nsend = 0 then ⟨[⟨b :: left, []⟩], evs, .ret sent⟩
    else
      (httpSendLoop evs (sent + nsend.toNat) ((b :: left).drop nsend.toNat)).after
        ⟨b :: left, ev.taken (b :: left)⟩

/-- `http_send(fd, buf, len)`. -/
def httpSend (buf : Bytes) (evs : List SendEv) : Sending := httpSendLoop evs 0 buf

inductive SendOp
  | send (buf : Bytes)
  | httpSend (buf : Bytes)
  deriving Repr, DecidableEq

def SendOp.buf : SendOp → Bytes
  | .send buf => buf
  | .httpSend buf => buf

def SendOp.run : SendOp → List SendEv → Sending
  | .send buf, evs => HttpCallback.send buf evs
  | .httpSend buf, evs => HttpCallback.httpSend buf evs

/-- Statements that send one after the other and look at no result. -/
def runOps : List SendOp → List SendEv → Sending
  | [], evs => ⟨[], evs, .ret 0⟩
  | op :: ops, evs =>
    let s := op.run evs
    match s.fin with
    | .waiting => s
    | .ret _ =>
      let t := runOps ops s.rest
      ⟨s.calls ++ t.calls, t.rest, t.fin⟩

/-! ## `response_ok` -/

/-- `BUFFER_SIZE`. -/
def bufferSize : Nat := 1024

/-- What an `fread` of `BUFFER_SIZE` bytes comes to: a full block, or a short one with the
end-of-file or the error indicator set. -/
inductive Fread
  | data (bs : Bytes)
  | eof (bs : Bytes)
  | error (bs : Bytes)
  deriving Repr, DecidableEq

/-- The name behind the last slash, `strrchr(pathName, '/') + 1`. -/
def fileName (pathName : Bytes) : Bytes := (pathName.reverse.takeWhile (· != slash)).reverse

def headerLines (pathName : Bytes) (stSize : Int) : List Bytes :=
  [ascii "HTTP/1.0 200 OK \r\n",
    ascii "Content-Length: " ++ ascii (toString stSize) ++ crlf,
    ascii "Content-Type: application/octet-stream\r\n",
    ascii "Content-Disposition: filename=" ++ fileName pathName ++ crlf,
    ascii "Connection: close\r\n\r\n"]

/-- `while (!feof(localFp))`: the sends that the loop makes, and whether it ends. -/
def copyLoop : List Fread → List SendOp × Bool
  | [] => ([], false)
  | .data bs :: fs => (.httpSend bs :: (copyLoop fs).1, (copyLoop fs).2)
  | .error bs :: fs => (.httpSend bs :: (copyLoop fs).1, (copyLoop fs).2)
  | .eof bs :: _ => ([.httpSend bs], true)

/-- How a call of `response_ok` ends: it returns, waits in a `send`, still reads the file, or calls
`feof` on a NULL stream. -/
inductive ResponseEnd
  | ret
  | waiting
  | reading
  | nullStream
  deriving Repr, DecidableEq

structure ResponseOk where
  sending : Sending
  fin : ResponseEnd
  deriving Repr, DecidableEq

/-- The sends of `response_ok`; `localFp` is the result of `fopen`, with the outcomes of the reads.
-/
def responseOps (pathName : Bytes) (stSize : Int) (localFp : Option (List Fread)) : List SendOp :=
  (headerLines pathName stSize).map .send ++
    match localFp with
    | none => []
    | some fs => (copyLoop fs).1

def responseOk (pathName : Bytes) (stSize : Int) (localFp : Option (List Fread))
    (evs : List SendEv) : ResponseOk :=
  let s := runOps (responseOps pathName stSize localFp) evs
  ⟨s, match s.fin, localFp with
    | .waiting, _ => .waiting
    | .ret _, none => .nullStream
    | .ret _, some fs => if (copyLoop fs).2 then .ret else .reading⟩

/-- `n` full blocks and the short one behind them. -/
def blocks : Nat → Bytes → List Fread
  | 0, s => [.eof s]
  | n + 1, s => .data (s.take bufferSize) :: blocks n (s.drop bufferSize)

/-- The reads of a file with content `s`. -/
def freads (s : Bytes) : List Fread := blocks (s.length / bufferSize) s

/-- The response that is meant: the header lines, the blank line, the file. -/
def response (pathName : Bytes) (stSize : Int) (content : Bytes) : Bytes :=
  (headerLines pathName stSize).flatten ++ content

/-! ## Outcomes -/

/-- How many of `n` bytes the outcomes let `http_send` pass on, and the outcomes behind: it goes on
behind short counts, EINTR and EAGAIN. -/
def passBlock : Nat → List SendEv → Nat × List SendEv
  | 0, evs => (0, evs)
  | _ + 1, [] => (0, [])
  | n + 1, .fail e :: evs => if e = .other then (0, evs) else passBlock (n + 1) evs
  | n + 1, .sent k :: evs =>
    if k = 0 then (0, evs)
    else
      let r := passBlock (n + 1 - k) evs
      (min k (n + 1) + r.1, r.2)

/-- The same for a statement; a line has one outcome. -/
def SendOp.pass : SendOp → List SendEv → Nat × List SendEv
  | .send _, [] => (0, [])
  | .send _, .fail _ :: evs => (0, evs)
  | .send buf, .sent k :: evs => (min k buf.length, evs)
  | .httpSend buf, evs => passBlock buf.length evs

/-- The outcomes let nothing pass. -/
def Quiet : List SendOp → List SendEv → Prop
  | [], _ => True
  | op :: ops, evs => (op.pass evs).1 = 0 ∧ Quiet ops (op.pass evs).2

/-- Every line and block passes whole, or nothing passes behind the first one that does not. -/
def Orderly : List SendOp → List SendEv → Prop
  | [], _ => True
  | op :: ops, evs =>
    if (op.pass evs).1 = op.buf.length then Orderly ops (op.pass evs).2
    else Quiet ops (op.pass evs).2

def Quiet.dec : ∀ ops evs, Decidable (Quiet ops evs)
  | [], _ => isTrue trivial
  | op :: ops, evs =>
    have := Quiet.dec ops (op.pass evs).2
    inferInstanceAs (Decidable (_ ∧ _))

instance (ops : List SendOp) (evs : List SendEv) : Decidable (Quiet ops evs) := Quiet.dec ops evs

def Orderly.dec : ∀ ops evs, Decidable (Orderly ops evs)
  | [], _ => isTrue trivial
  | op :: ops, evs =>
    have := Orderly.dec ops (op.pass evs).2
    inferInstanceAs (Decidable (if (op.pass evs).1 = op.buf.length then Orderly ops (op.pass evs).2
      else Quiet ops (op.pass evs).2))

instance (ops : List SendOp) (evs : List SendEv) : Decidable (Orderly ops evs) :=
  Orderly.dec ops evs

/-! ## A round of the loop -/

section Round

variable (evs : List SendEv) (sent : Nat) {left : Bytes}

theorem httpSendLoop_nil : httpSendLoop evs sent [] = ⟨[], evs, .ret sent⟩ := by
  cases evs <;> rfl

theorem httpSendLoop_waits (hne : left ≠ []) : httpSendLoop [] sent left = ⟨[], [], .waiting⟩ := by
  obtain ⟨b, bs, rfl⟩ := List.exists_cons_of_ne_nil hne
  rfl

theorem httpSendLoop_fail (hne : left ≠ []) (e : Errno) :
    httpSendLoop (.fail e :: evs) sent left =
      if e = .other then ⟨[⟨left, []⟩], evs, .ret (-1)⟩
      else (httpSendLoop evs sent left).after ⟨left, []⟩ := by
  obtain ⟨b, bs, rfl⟩ := List.exists_cons_of_ne_nil hne
  have hneg : (SendEv.fail e).ret (b :: bs) < 0 := by simp [SendEv.ret]
  rw [httpSendLoop, if_pos hneg]
  cases e <;> rfl

theorem httpSendLoop_sent (hne : left ≠ []) (n : Nat) :
    httpSendLoop (.sent n :: evs) sent left =
      if n = 0 then ⟨[⟨left, []⟩], evs, .ret sent⟩
      else (httpSendLoop evs (sent + (left.take n).length) (left.drop n)).after
        ⟨left, left.take n⟩ := by
  obtain ⟨b, bs, rfl⟩ := List.exists_cons_of_ne_nil hne
  have hpos : ¬(SendEv.sent n).ret (b :: bs) < 0 := Int.not_lt.2 (Int.natCast_nonneg _)
  rw [httpSendLoop, if_neg hpos]
  cases n with
  | zero => rfl
  | succ n =>
    have hret : (SendEv.sent (n + 1)).ret (b :: bs) ≠ 0 := by simp [SendEv.ret]; omega
    have hlen : ((SendEv.sent (n + 1)).ret (b :: bs)).toNat = ((b :: bs).take (n + 1)).length := rfl
    have hdrop : (b :: bs).drop ((b :: bs).take (n + 1)).length = (b :: bs).drop (n + 1) := by
      rw [List.length_take, ← List.drop_eq_drop_min]
    rw [if_neg hret, if_neg (Nat.succ_ne_zero n), hlen, hdrop]
    rfl

end Round

/-- Induction along the loop: it has nothing left to send, waits, gives up, stops at a count of 0,
tries again, or goes on behind what was taken. -/
theorem httpSendLoop_induct {motive : List SendEv → Nat → Bytes → Sending → Prop}
    (done : ∀ evs sent, motive evs sent [] ⟨[], evs, .ret sent⟩)
    (waits : ∀ sent left, motive [] sent left ⟨[], [], .waiting⟩)
    (fails : ∀ evs sent left, motive (.fail .other :: evs) sent left
      ⟨[⟨left, []⟩], evs, .ret (-1)⟩)
    (stops : ∀ evs sent left, motive (.sent 0 :: evs) sent left ⟨[⟨left, []⟩], evs, .ret sent⟩)
    (retries : ∀ e evs sent left s, e ≠ .other → motive evs sent left s →
      motive (.fail e :: evs) sent left (s.after ⟨left, []⟩))
    (takes : ∀ n evs sent left s, n ≠ 0 →
      motive evs (sent + (left.take n).length) (left.drop n) s →
      motive (.sent n :: evs) sent left (s.after ⟨left, left.take n⟩))
    (evs : List SendEv) : ∀ sent left, motive evs sent left (httpSendLoop evs sent left) := by
  induction evs with
  | nil =>
    intro sent left
    by_cases hne : left = []
    · rw [hne, httpSendLoop_nil]
      exact done [] sent
    · rw [httpSendLoop_waits sent hne]
      exact waits sent left
  | cons ev evs ih =>
    intro sent left
    by_cases hne : left = []
    · rw [hne, httpSendLoop_nil]
      exact done (ev :: evs) sent
    cases ev with
    | fail e =>
      rw [httpSendLoop_fail _ _ hne]
      split
      · rename_i he
        rw [he]
        exact fails evs sent left
      · rename_i he
        exact retries e evs sent left _ he (ih sent left)
    | sent n =>
      rw [httpSendLoop_sent _ _ hne]
      split
      · rename_i hn
        rw [hn]
        exact stops evs sent left
      · rename_i hn
        exact takes n evs sent left _ hn (ih _ _)

/-! ## What is delivered -/

@[simp] theorem Sending.delivered_after (c : Send) (s : Sending) :
    (s.after c).delivered = c.taken ++ s.delivered := rfl

theorem send_front (buf : Bytes) (evs : List SendEv) : (send buf evs).delivered <+: buf := by
  cases evs with
  | nil => exact List.nil_prefix
  | cons ev evs =>
    unfold send Sending.delivered
    simp only [List.flatMap_cons, List.flatMap_nil, List.append_nil]
    exact ev.taken_prefix buf

/-- The loop offers what is left and takes a front part of it. -/
theorem httpSendLoop_front : ∀ (evs : List SendEv) (sent : Nat) (left : Bytes),
    (httpSendLoop evs sent left).delivered <+: left := by
  apply httpSendLoop_induct (motive := fun _ _ left s => s.delivered <+: left)
  · exact fun _ _ => List.nil_prefix
  · exact fun _ _ => List.nil_prefix
  · exact fun _ _ _ => List.nil_prefix
  · exact fun _ _ _ => List.nil_prefix
  · exact fun _ _ _ _ _ _ ih => ih
  · intro n _ _ left s _ ih
    rw [← List.prefix_append_right_inj (left.take n), List.take_append_drop] at ih
    exact ih

theorem SendOp.front (op : SendOp) (evs : List SendEv) : (op.run evs).delivered <+: op.buf := by
  cases op with
  | send buf => exact send_front buf evs
  | httpSend buf => exact httpSendLoop_front evs 0 buf

/-- The line or block of each statement, with the part of it that the outcomes let through. -/
def pieces : List SendOp → List SendEv → List (Piece UInt8)
  | [], _ => []
  | op :: ops, evs =>
    ⟨op.buf, (op.run evs).delivered, op.front evs⟩ :: pieces ops (op.run evs).rest

theorem message_pieces (ops : List SendOp) : ∀ evs : List SendEv,
    message (pieces ops evs) = ops.flatMap (·.buf) := by
  induction ops with
  | nil => intro evs; rfl
  | cons op ops ih =>
    intro evs
    have h := ih (op.run evs).rest
    unfold message at h ⊢
    simp only [pieces, List.flatMap_cons, h]

/-- Without outcomes nothing is delivered. -/
theorem SendOp.run_nil (op : SendOp) : (op.run []).delivered = [] ∧ (op.run []).rest = [] := by
  rcases op with buf | (_ | ⟨b, buf⟩) <;> exact ⟨rfl, rfl⟩

theorem delivered_pieces_nil (ops : List SendOp) : delivered (pieces ops []) = [] := by
  induction ops with
  | nil => rfl
  | cons op ops ih =>
    obtain ⟨hd, hr⟩ := op.run_nil
    unfold delivered at ih ⊢
    simp only [pieces, List.flatMap_cons, hd, hr, ih, List.append_nil]

theorem httpSendLoop_waiting : ∀ (evs : List SendEv) (sent : Nat) (left : Bytes),
    (httpSendLoop evs sent left).fin = .waiting → (httpSendLoop evs sent left).rest = [] := by
  apply httpSendLoop_induct (motive := fun _ _ _ s => s.fin = .waiting → s.rest = [])
  · intro _ _ h
    cases h
  · exact fun _ _ _ => rfl
  · intro _ _ _ h
    cases h
  · intro _ _ _ h
    cases h
  · exact fun _ _ _ _ _ _ ih => ih
  · exact fun _ _ _ _ _ _ ih => ih

/-- A statement that waits has used up the outcomes. -/
theorem SendOp.rest_of_waiting {op : SendOp} {evs : List SendEv} (h : (op.run evs).fin = .waiting) :
    (op.run evs).rest = [] := by
  cases op with
  | send buf =>
    cases evs with
    | nil => rfl
    | cons ev evs => cases h
  | httpSend buf => exact httpSendLoop_waiting evs 0 buf h

/-- A run delivers its pieces. -/
theorem runOps_delivered (ops : List SendOp) : ∀ evs : List SendEv,
    (runOps ops evs).delivered = delivered (pieces ops evs) := by
  induction ops with
  | nil => intro evs; rfl
  | cons op ops ih =>
    intro evs
    unfold runOps
    simp only
    cases hfin : (op.run evs).fin with
    | waiting =>
      have hnil := delivered_pieces_nil ops
      unfold delivered at hnil ⊢
      simp only [pieces, List.flatMap_cons, SendOp.rest_of_waiting hfin, hnil, List.append_nil]
    | ret n =>
      have h := ih (op.run evs).rest
      unfold delivered Sending.delivered at h ⊢
      simp only [pieces, List.flatMap_cons, List.flatMap_append, h]
      rfl

/-! ## What the outcomes let pass -/

theorem passBlock_eq (evs : List SendEv) : ∀ (sent : Nat) (left : Bytes),
    passBlock left.length evs =
      ((httpSendLoop evs sent left).delivered.length, (httpSendLoop evs sent left).rest) := by
  induction evs with
  | nil =>
    intro sent left
    by_cases hne : left = []
    · rw [hne, httpSendLoop_nil]
      rfl
    · obtain ⟨n, hn⟩ : ∃ n, left.length = n + 1 :=
        Nat.exists_eq_succ_of_ne_zero (mt List.length_eq_zero_iff.1 hne)
      rw [httpSendLoop_waits sent hne, hn]
      rfl
  | cons ev evs ih =>
    intro sent left
    by_cases hne : left = []
    · rw [hne, httpSendLoop_nil]
      rfl
    obtain ⟨n, hn⟩ : ∃ n, left.length = n + 1 :=
      Nat.exists_eq_succ_of_ne_zero (mt List.length_eq_zero_iff.1 hne)
    cases ev with
    | fail e =>
      rw [httpSendLoop_fail _ _ hne, hn, passBlock]
      split
      · rfl
      · rw [← hn, ih sent left, Sending.delivered_after]
        rfl
    | sent k =>
      rw [httpSendLoop_sent _ _ hne, hn, passBlock]
      split
      · rfl
      · have hdrop : n + 1 - k = (left.drop k).length := by rw [List.length_drop, hn]
        rw [hdrop, ih (sent + (left.take k).length), Sending.delivered_after, List.length_append,
          List.length_take, hn]
        rfl

/-- A statement delivers as many bytes as pass, and leaves the outcomes behind. -/
theorem SendOp.pass_eq (op : SendOp) (evs : List SendEv) :
    op.pass evs = ((op.run evs).delivered.length, (op.run evs).rest) := by
  cases op with
  | send buf =>
    cases evs with
    | nil => rfl
    | cons ev evs =>
      cases ev with
      | fail e => rfl
      | sent k =>
        simp [SendOp.pass, SendOp.run, HttpCallback.send, Sending.delivered, SendEv.taken]
  | httpSend buf => exact passBlock_eq evs 0 buf

theorem quiet_iff (ops : List SendOp) : ∀ evs : List SendEv,
    Quiet ops evs ↔ delivered (pieces ops evs) = [] := by
  induction ops with
  | nil => exact fun _ => iff_of_true trivial rfl
  | cons op ops ih =>
    intro evs
    have hd : delivered (pieces (op :: ops) evs) =
        (op.run evs).delivered ++ delivered (pieces ops (op.run evs).rest) := rfl
    rw [hd, List.append_eq_nil_iff, ← ih, ← List.length_eq_zero_iff, Quiet, op.pass_eq]

theorem orderly_iff (ops : List SendOp) : ∀ evs : List SendEv,
    Orderly ops evs ↔ Unbroken (pieces ops evs) := by
  induction ops with
  | nil => exact fun _ => Iff.rfl
  | cons op ops ih =>
    intro evs
    have hle := (op.front evs).length_le
    unfold Orderly pieces Unbroken Piece.missing
    rw [op.pass_eq]
    simp only [ne_eq, List.drop_eq_nil_iff]
    split
    · rename_i hwhole
      rw [ih, hwhole]
      simp
    · rename_i hcut
      have hlt : ¬op.buf.length ≤ (op.run evs).delivered.length := fun hge =>
        hcut (hle.antisymm hge)
      rw [quiet_iff]
      simp [hlt]

/-! ## The response -/

theorem copyLoop_blocks (n : Nat) : ∀ s : Bytes,
    (copyLoop (blocks n s)).1.flatMap (·.buf) = s ∧ (copyLoop (blocks n s)).2 = true := by
  induction n with
  | zero => intro s; simp [blocks, copyLoop, SendOp.buf]
  | succ n ih =>
    intro s
    obtain ⟨hbuf, hend⟩ := ih (s.drop bufferSize)
    refine ⟨?_, hend⟩
    simp only [blocks, copyLoop, List.flatMap_cons, hbuf]
    exact List.take_append_drop _ _

/-- The statements of `response_ok` offer the response, the file in its blocks. -/
theorem responseOps_buf (pathName : Bytes) (stSize : Int) (content : Bytes) :
    (responseOps pathName stSize (some (freads content))).flatMap (·.buf) =
      response pathName stSize content := by
  have hlines : ∀ ls : List Bytes, (ls.map SendOp.send).flatMap (·.buf) = ls.flatten := by
    intro ls
    induction ls with
    | nil => rfl
    | cons l ls ih => simp only [List.map_cons, List.flatMap_cons, ih, List.flatten_cons]; rfl
  unfold responseOps response
  rw [List.flatMap_append, hlines]
  exact congrArg _ (copyLoop_blocks _ content).1

/-- What has been delivered at some moment is a front part of what is delivered in the end. -/
theorem Sending.take_prefix (s : Sending) (k : Nat) :
    (s.calls.take k).flatMap (·.taken) <+: s.delivered := by
  refine ⟨(s.calls.drop k).flatMap (·.taken), ?_⟩
  rw [← List.flatMap_append, List.take_append_drop]
  rfl

/-- What is delivered reads like a front part of the response. -/
theorem responseOk_delivered_iff (pathName : Bytes) (stSize : Int) (content : Bytes)
    (evs : List SendEv) :
    (∀ k, ((responseOk pathName stSize (some (freads content)) evs).sending.calls.take k).flatMap
        (·.taken) <+: response pathName stSize content) ↔
      delivered (pieces (responseOps pathName stSize (some (freads content))) evs) <+:
        message (pieces (responseOps pathName stSize (some (freads content))) evs) := by
  rw [message_pieces, responseOps_buf, ← runOps_delivered]
  unfold responseOk
  simp only
  generalize runOps (responseOps pathName stSize (some (freads content))) evs = s
  constructor
  · intro h
    have hall := h s.calls.length
    rw [List.take_length] at hall
    exact hall
  · intro h k
    exact (s.take_prefix k).trans h

/-- **The client sees a front part of the response when nothing is taken behind a gap.** For every
file and all outcomes. When every line and block passes whole, or nothing passes behind the first
one that does not, the bytes delivered are at every moment of a call of `response_ok` a prefix of
the response. That is so exactly when each byte delivered is the one at its own place in the
response, so that none was left out in front of it; the bytes delivered are a prefix exactly when
each merely reads like the one at its own place. -/
theorem responseOk_in_order (pathName : Bytes) (stSize : Int) (content : Bytes)
    (evs : List SendEv) :
    (Orderly (responseOps pathName stSize (some (freads content))) evs →
      ∀ k, ((responseOk pathName stSize (some (freads content)) evs).sending.calls.take k).flatMap
        (·.taken) <+: response pathName stSize content) ∧
    (Orderly (responseOps pathName stSize (some (freads content))) evs ↔
      ∀ i j : Nat, (places (pieces (responseOps pathName stSize (some (freads content))) evs))[i]? =
        some j → j = i) ∧
    ((∀ k, ((responseOk pathName stSize (some (freads content)) evs).sending.calls.take k).flatMap
        (·.taken) <+: response pathName stSize content) ↔
      ∀ i j : Nat, (places (pieces (responseOps pathName stSize (some (freads content))) evs))[i]? =
        some j →
        (response pathName stSize content)[j]? = (response pathName stSize content)[i]?) := by
  have hresponse : message (pieces (responseOps pathName stSize (some (freads content))) evs) =
      response pathName stSize content := by
    rw [message_pieces, responseOps_buf]
  rw [responseOk_delivered_iff, delivered_prefix_iff_places, hresponse, orderly_iff, unbroken_iff]
  exact ⟨fun h i j hj => by rw [h i j hj], Iff.rfl, Iff.rfl⟩

/-- The third line is cut short, and from then on the socket is full. -/
example : Orderly (responseOps (root ++ [47, 120]) 0 (some (freads [])))
    [.sent 99, .sent 99, .sent 4, .fail .eagain, .fail .eagain] := by decide +kernel

/-- The first line is lost to EAGAIN, and the second one is sent. -/
theorem responseOk_gap :
    ¬∀ (pathName : Bytes) (stSize : Int) (content : Bytes) (evs : List SendEv) (k : Nat),
      ((responseOk pathName stSize (some (freads content)) evs).sending.calls.take k).flatMap
        (·.taken) <+: response pathName stSize content := by
  intro h
  have hgap := h (root ++ [47, 120]) 0 [] [.fail .eagain, .sent 1] 2
  have htaken : ((responseOk (root ++ [47, 120]) 0 (some (freads []))
      [.fail .eagain, .sent 1]).sending.calls.take 2).flatMap (·.taken) = [67] := by decide
  have hresp : (response (root ++ [47, 120]) 0 []).head? = some 72 := by decide
  rw [htaken] at hgap
  obtain ⟨t, ht⟩ := hgap
  rw [← ht] at hresp
  cases hresp

end HttpCallback
