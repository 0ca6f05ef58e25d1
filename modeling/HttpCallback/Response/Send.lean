import HttpCallback.Ints
import HttpCallback.Lib.Memory
import HttpCallback.Response

/-!
# The resuming send

`http_send` counts in `int`s: `nleft` holds a `size_t`, `nsend` the result of `send`. For lengths
that an `int` can hold the loop is `httpSend` on the bytes of the buffer (`httpSendInt_eq`). Its
invariant is that what has been taken and what is still to be offered make up the buffer, so that
every send is given exactly the part not yet sent (`httpSendInt_resumes`).
-/

namespace HttpCallback

open CString

/-- The loop of `http_send` over the memory at `buf`; `cur` is `cur_ptr - buf`. -/
def httpSendIntLoop (buf : Mem) : List SendEv → Nat → Int → Sending
  | [], cur, nleft => if 0 < nleft then ⟨[], [], .waiting⟩ else ⟨[], [], .ret cur⟩
  | ev :: evs, cur, nleft =>
    if 0 < nleft then
      let offered := buf.block cur nleft.toNat
      let nsend := toInt (ev.ret offered)
      if nsend < 0 then
        match ev.errno with
        | .eintr => (httpSendIntLoop buf evs cur nleft).after ⟨offered, []⟩
        | .eagain => (httpSendIntLoop buf evs cur nleft).after ⟨offered, []⟩
        | .other => ⟨[⟨offered, []⟩], evs, .ret (-1)⟩
      else if nsend = 0 then ⟨[⟨offered, []⟩], evs, .ret cur⟩
      else
        (httpSendIntLoop buf evs (cur + nsend.toNat) (nleft - nsend)).after
          ⟨offered, ev.taken offered⟩
    else ⟨[], ev :: evs, .ret cur⟩

/-- `http_send(fd, buf, len)`. -/
def httpSendInt (buf : Mem) (len : Nat) (evs : List SendEv) : Sending :=
  httpSendIntLoop buf evs 0 (toInt len)

/-! ## The counts fit -/

theorem SendEv.toInt_ret (ev : SendEv) {offered : Bytes} (h : offered.length ≤ intMax) :
    toInt (ev.ret offered) = ev.ret offered := by
  cases ev with
  | fail e => rfl
  | sent n =>
    have hle := (List.take_prefix n offered).length_le
    have hlow : (-1 : Int) ≤ (offered.take n).length := by omega
    exact toInt_of_le hlow (Int.ofNat_le.2 (hle.trans h))

/-- **The loop over the memory is the loop over the bytes**, as long as the count fits an `int`. -/
theorem httpSendIntLoop_eq (buf : Mem) (evs : List SendEv) : ∀ (cur n : Nat), n ≤ intMax →
    httpSendIntLoop buf evs cur n = httpSendLoop evs cur (buf.block cur n) := by
  induction evs with
  | nil =>
    intro cur n _
    cases n with
    | zero => rfl
    | succ n =>
      have hpos : (0 : Int) < (n + 1 : Nat) := Int.natCast_pos.2 (Nat.succ_pos n)
      rw [buf.block_succ]
      exact if_pos hpos
  | cons ev evs ih =>
    intro cur n hn
    cases n with
    | zero => rfl
    | succ n =>
      have hpos : (0 : Int) < (n + 1 : Nat) := Int.natCast_pos.2 (Nat.succ_pos n)
      have hlen := buf.length_block cur (n + 1)
      have hne : buf.block cur (n + 1) ≠ [] := List.ne_nil_of_length_eq_add_one hlen
      rw [httpSendIntLoop, if_pos hpos]
      simp only [Int.toNat_natCast, ev.toInt_ret (hlen.trans_le hn), ih cur (n + 1) hn]
      cases ev with
      | fail e =>
        rw [httpSendLoop_fail _ _ hne, if_pos (by simp [SendEv.ret])]
        cases e <;> rfl
      | sent k =>
        have hret : (SendEv.sent k).ret (buf.block cur (n + 1)) = (min k (n + 1) : Nat) := by
          rw [SendEv.ret, List.length_take, hlen]
        have hcount : ((buf.block cur (n + 1)).take k).length = min k (n + 1) := by
          rw [List.length_take, hlen]
        rw [httpSendLoop_sent _ _ hne, hret, if_neg (Int.not_lt.2 (Int.natCast_nonneg _)), hcount]
        cases k with
        | zero => rfl
        | succ k =>
          have hdrop : (buf.block cur (n + 1)).drop (k + 1) =
              buf.block (cur + min (k + 1) (n + 1)) (n + 1 - min (k + 1) (n + 1)) := by
            rw [← buf.drop_block cur (Nat.min_le_right _ _), List.drop_eq_drop_min, hlen]
          have hleft : ((n + 1 : Nat) : Int) - (min (k + 1) (n + 1) : Nat) =
              (n + 1 - min (k + 1) (n + 1) : Nat) := by
            omega
          rw [if_neg (by omega), if_neg (Nat.succ_ne_zero k), hdrop, hleft, Int.toNat_natCast,
            ih _ _ ((Nat.sub_le _ _).trans hn)]
          rfl

theorem httpSendInt_eq (buf : Mem) {len : Nat} (h : len ≤ intMax) (evs : List SendEv) :
    httpSendInt buf len evs = httpSend (buf.block 0 len) evs := by
  have hlow : (-1 : Int) ≤ len := by omega
  unfold httpSendInt
  rw [toInt_of_le hlow (Int.ofNat_le.2 h)]
  exact httpSendIntLoop_eq buf evs 0 len h

/-! ## The sends of a call -/

/-- The sends go on where the ones before have stopped, and the result says how far they came. -/
structure Resumes (evs : List SendEv) (sent : Nat) (left : Bytes) (s : Sending) : Prop where
  offered : ∀ pre c post, s.calls = pre ++ c :: post →
    c.offered = left.drop (pre.flatMap (·.taken)).length
  counted : ∀ n : Nat, s.fin = .ret n →
    s.delivered.length = n - sent ∧ sent ≤ n ∧
      (n = sent + left.length ∨ .sent 0 ∈ evs.take s.calls.length)
  failed : ∀ n : Int, n < 0 → s.fin = .ret n → n = -1 ∧ .fail .other ∈ evs.take s.calls.length

/-- One more send that takes a front part of what is left. -/
theorem Resumes.after {evs : List SendEv} {ev : SendEv} {sent : Nat} {left taken : Bytes}
    {s : Sending} (ht : taken <+: left)
    (h : Resumes evs (sent + taken.length) (left.drop taken.length) s) :
    Resumes (ev :: evs) sent left (s.after ⟨left, taken⟩) := by
  have hle := ht.length_le
  refine ⟨?_, ?_, ?_⟩
  · intro pre c post hcalls
    rcases pre with - | ⟨c₀, pre⟩
    · cases hcalls
      rfl
    · obtain ⟨rfl, hrest⟩ := List.cons.inj hcalls
      rw [h.offered pre c post hrest, List.drop_drop, List.flatMap_cons, List.length_append]
  · intro n hret
    obtain ⟨hlen, hsent, hend⟩ := h.counted n hret
    have hdelivered : (s.after ⟨left, taken⟩).delivered.length =
        taken.length + s.delivered.length := by
      rw [Sending.delivered_after, List.length_append]
    refine ⟨by omega, by omega, ?_⟩
    rcases hend with hend | hzero
    · rw [List.length_drop] at hend
      exact Or.inl (by omega)
    · exact Or.inr (List.mem_cons_of_mem _ hzero)
  · intro n hneg hret
    obtain ⟨hn, hother⟩ := h.failed n hneg hret
    exact ⟨hn, List.mem_cons_of_mem _ hother⟩

/-- A last send that takes nothing, and the two ways to return behind it. -/
theorem Resumes.last {evs : List SendEv} {ev : SendEv} {sent : Nat} {left : Bytes} {fin : SendEnd}
    (h : fin = .ret sent ∧ ev = .sent 0 ∨ fin = .ret (-1) ∧ ev = .fail .other) :
    Resumes (ev :: evs) sent left ⟨[⟨left, []⟩], evs, fin⟩ := by
  refine ⟨?_, ?_, ?_⟩
  · intro pre c post hcalls
    rcases pre with - | ⟨c₀, pre⟩
    · cases hcalls
      rfl
    · simp at hcalls
  · rintro n rfl
    rcases h with ⟨hret, rfl⟩ | ⟨hret, -⟩
    · cases hret
      exact ⟨by simp [Sending.delivered], Nat.le_refl _, Or.inr List.mem_cons_self⟩
    · cases hret
  · rintro n hneg rfl
    rcases h with ⟨hret, -⟩ | ⟨hret, rfl⟩
    · cases hret
      omega
    · cases hret
      exact ⟨rfl, List.mem_cons_self⟩

theorem httpSendLoop_resumes : ∀ (evs : List SendEv) (sent : Nat) (left : Bytes),
    Resumes evs sent left (httpSendLoop evs sent left) := by
  apply httpSendLoop_induct
  · intro evs sent
    refine ⟨fun pre c post h => by simp at h, ?_, ?_⟩
    · intro n hret
      cases hret
      exact ⟨by simp [Sending.delivered], Nat.le_refl _, Or.inl rfl⟩
    · intro n hneg hret
      cases hret
      omega
  · intro sent left
    refine ⟨fun pre c post h => by simp at h, ?_, ?_⟩
    · intro n hret
      cases hret
    · intro n _ hret
      cases hret
  · exact fun evs sent left => Resumes.last (Or.inr ⟨rfl, rfl⟩)
  · exact fun evs sent left => Resumes.last (Or.inl ⟨rfl, rfl⟩)
  · exact fun e evs sent left s _ ih => Resumes.after List.nil_prefix ih
  · intro n evs sent left s _ ih
    apply Resumes.after (List.take_prefix n left)
    rw [List.length_take, ← List.drop_eq_drop_min, ← List.length_take]
    exact ih

/-- **Every send is given exactly the unsent rest.** For every buffer, every length that an `int`
can hold and all outcomes: each send is offered the buffer from the first byte not yet taken on; a
result `n ≥ 0` means that the first `n` bytes have been taken, which is all of them unless a send
has returned 0; a negative result is -1, behind an error other than EINTR and EAGAIN, with a front
part of the buffer taken. -/
theorem httpSendInt_resumes (buf : Mem) {len : Nat} (h : len ≤ intMax) (evs : List SendEv) :
    (∀ pre c post, (httpSendInt buf len evs).calls = pre ++ c :: post →
        c.offered = (buf.block 0 len).drop (pre.flatMap (·.taken)).length) ∧
      (∀ n : Nat, (httpSendInt buf len evs).fin = .ret n →
        n ≤ len ∧ (httpSendInt buf len evs).delivered = (buf.block 0 len).take n ∧
          (n = len ∨ .sent 0 ∈ evs.take (httpSendInt buf len evs).calls.length)) ∧
      (∀ n : Int, n < 0 → (httpSendInt buf len evs).fin = .ret n →
        n = -1 ∧ .fail .other ∈ evs.take (httpSendInt buf len evs).calls.length ∧
          (httpSendInt buf len evs).delivered <+: buf.block 0 len) := by
  rw [httpSendInt_eq buf h]
  have hfront := httpSendLoop_front evs 0 (buf.block 0 len)
  obtain ⟨hoffered, hcounted, hfailed⟩ := httpSendLoop_resumes evs 0 (buf.block 0 len)
  have hlen := buf.length_block 0 len
  refine ⟨hoffered, ?_, ?_⟩
  · intro n hret
    obtain ⟨hn, -, hend⟩ := hcounted n hret
    have hle := hfront.length_le
    rw [Nat.zero_add, hlen] at hend
    rw [hlen, hn] at hle
    refine ⟨hle, ?_, hend⟩
    have htake := List.prefix_iff_eq_take.1 hfront
    rw [hn] at htake
    exact htake
  · intro n hneg hret
    obtain ⟨hn, hother⟩ := hfailed n hneg hret
    exact ⟨hn, hother, hfront⟩

/-- Three bytes, in one short send, an interrupted one and a full one. -/
theorem httpSendInt_resumes_abc :
    (httpSendInt (fun i => [97, 98, 99].getD i 0) 3 [.sent 1, .fail .eintr, .sent 5]).delivered =
      [97, 98, 99] := by
  have hret : (httpSendInt (fun i => [97, 98, 99].getD i 0) 3
      [.sent 1, .fail .eintr, .sent 5]).fin = .ret (3 : Nat) := by decide
  exact ((httpSendInt_resumes _ (by decide) _).2.1 3 hret).2.1

end HttpCallback
