import HttpCallback.Ints
import HttpCallback.Socket

/-!
# The resuming write

`Write_s` (there are two copies of it, alike) keeps the result of `write` in a `size_t`. Its test
for a negative result is never true, so a failed write counts as one of 2^64 - 1 bytes: modulo 2^64
the rest grows by one and the pointer goes back by one, and the loop goes on from there.
-/

namespace HttpCallback

open CString

/-- The `n` bytes from `buf + cur` on; the memory is given by the offsets from `buf`. -/
def bytesAt (mem : Int → UInt8) (cur : Int) (n : Nat) : Bytes :=
  (List.range n).map fun i : Nat => mem (cur + i)

/-- A `write`: the range given to it, as an offset from `buf` and a count, and what it came to, none
while it has not returned. -/
structure WriteCall where
  start : Int
  count : Int
  ev : Option SendEv
  deriving Repr, DecidableEq

/-- The bytes accepted. -/
def WriteCall.taken (mem : Int → UInt8) (c : WriteCall) : Bytes :=
  match c.ev with
  | none => []
  | some ev => ev.taken (bytesAt mem c.start c.count.toNat)

/-- The writes issued by a call, and what it returns, none while it waits in the last of them. -/
structure Writing where
  calls : List WriteCall
  ret : Option Nat
  deriving Repr, DecidableEq

def Writing.after (c : WriteCall) (w : Writing) : Writing := { w with calls := c :: w.calls }

/-- The loop of `Write_s`; `cur` is how far `buf` has moved. As `nwrite` is unsigned the branch for
`nwrite < 0` is never taken. -/
def writeSLoop (mem : Int → UInt8) (sz : Int) : List SendEv → Int → Int → Writing
  | [], cur, nleft =>
    if 0 < nleft then ⟨[⟨cur, nleft, none⟩], none⟩ else ⟨[], some (toSize (sz - nleft))⟩
  | ev :: evs, cur, nleft =>
    if 0 < nleft then
      let nwrite := toSize (ev.ret (bytesAt mem cur nleft.toNat))
      if nwrite = 0 then ⟨[⟨cur, nleft, some ev⟩], some (toSize (sz - nleft))⟩
      else
        (writeSLoop mem sz evs (cur + toSsize nwrite) (toSsize (nleft - nwrite))).after
          ⟨cur, nleft, some ev⟩
    else ⟨[], some (toSize (sz - nleft))⟩

/-- `Write_s(fd, buf, sz)`. -/
def writeS (mem : Int → UInt8) (sz : Int) (evs : List SendEv) : Writing :=
  writeSLoop mem sz evs 0 sz

/-! ## What it should do -/

/-- The writes behind the first `k` bytes are as they should be: each is given a range inside the
buffer, one that accepts nothing is the last, and the bytes accepted are the next ones of the
buffer, as many as the call returns. -/
structure Writing.Orderly (mem : Int → UInt8) (sz k : Nat) (w : Writing) : Prop where
  inside : ∀ c ∈ w.calls, 0 ≤ c.start ∧ c.start + c.count ≤ sz
  stops : ∀ front c back ev, w.calls = front ++ c :: back → c.ev = some ev → c.taken mem = [] →
    back = [] ∧ w.ret ≠ none
  counted : ∀ n, w.ret = some n → n = k + (w.calls.flatMap (·.taken mem)).length
  accepted : w.calls.flatMap (·.taken mem) =
    bytesAt mem k (w.calls.flatMap (·.taken mem)).length

/-- A write fails before the `n` bytes left are accepted and before one of the writes accepts
nothing. -/
def FailsBefore : Nat → List SendEv → Prop
  | 0, _ => False
  | _ + 1, [] => False
  | _ + 1, .fail _ :: _ => True
  | n + 1, .sent m :: evs => 0 < m ∧ FailsBefore (n + 1 - min m (n + 1)) evs

section Loop

variable {mem : Int → UInt8} {sz k n : Nat}

@[simp] theorem length_bytesAt (cur : Int) (n : Nat) : (bytesAt mem cur n).length = n := by
  rw [bytesAt, List.length_map, List.length_range]

theorem bytesAt_add (cur : Int) (n m : Nat) :
    bytesAt mem cur (n + m) = bytesAt mem cur n ++ bytesAt mem (cur + n) m := by
  unfold bytesAt
  rw [List.range_add, List.map_append, List.map_map]
  simp only [Function.comp_def, Int.natCast_add, Int.add_assoc]

theorem take_bytesAt (cur : Int) (n m : Nat) :
    (bytesAt mem cur n).take m = bytesAt mem cur (min m n) := by
  rw [bytesAt, ← List.map_take, List.take_range]
  rfl

/-- A write that accepts some bytes is as it should be, if the ones behind it are. -/
theorem orderly_after {w : Writing} {m : Nat} (hm : 0 < m) (hn : k + n = sz) (hpos : 0 < n) :
    (w.after ⟨k, n, some (.sent m)⟩).Orderly mem sz k ↔ w.Orderly mem sz (k + min m n) := by
  have htaken : WriteCall.taken mem ⟨k, n, some (.sent m)⟩ = bytesAt mem k (min m n) :=
    take_bytesAt k n m
  have hsome : 0 < min m n := by omega
  have hall : (w.after ⟨k, n, some (.sent m)⟩).calls.flatMap (·.taken mem) =
      bytesAt mem k (min m n) ++ w.calls.flatMap (·.taken mem) := by
    rw [← htaken]
    rfl
  constructor
  · rintro ⟨hinside, hstops, hcounted, haccepted⟩
    rw [hall, List.length_append, length_bytesAt] at hcounted haccepted
    refine ⟨fun c hc => hinside c (List.mem_cons_of_mem _ hc), ?_, ?_, ?_⟩
    · intro front c back ev hcalls
      exact hstops (⟨k, n, some (.sent m)⟩ :: front) c back ev (by rw [Writing.after, hcalls]; rfl)
    · intro r hr
      have := hcounted r hr
      omega
    · rw [bytesAt_add] at haccepted
      exact_mod_cast List.append_cancel_left haccepted
  · rintro ⟨hinside, hstops, hcounted, haccepted⟩
    refine ⟨?_, ?_, ?_, ?_⟩
    · refine List.forall_mem_cons.2 ⟨?_, hinside⟩
      simp only
      omega
    · intro front c back ev hcalls hev hnone
      cases front with
      | nil =>
        obtain ⟨rfl, -⟩ := List.cons.inj hcalls
        have hlen := congrArg List.length hnone
        rw [htaken, length_bytesAt, List.length_nil] at hlen
        omega
      | cons c' front => exact hstops front c back ev (List.cons.inj hcalls).2 hev hnone
    · intro r hr
      have := hcounted r hr
      rw [hall, List.length_append, length_bytesAt]
      omega
    · rw [hall, List.length_append, length_bytesAt, bytesAt_add]
      exact congrArg (bytesAt mem k (min m n) ++ ·) (by exact_mod_cast haccepted)

/-- A last write, which accepts nothing or has not returned. -/
theorem orderly_last {ev : Option SendEv} {ret : Option Nat} (hn : k + n = sz)
    (htaken : WriteCall.taken mem ⟨k, n, ev⟩ = [])
    (hret : ev = none ∧ ret = none ∨ ret = some k) :
    Writing.Orderly mem sz k ⟨[⟨k, n, ev⟩], ret⟩ := by
  have hall : List.flatMap (·.taken mem) [(⟨k, n, ev⟩ : WriteCall)] = [] := by
    rw [List.flatMap_cons, htaken]
    rfl
  refine ⟨?_, ?_, ?_, ?_⟩
  · intro c hc
    rw [List.mem_singleton.1 hc]
    simp only
    omega
  · intro front c back ev' hcalls hev _
    cases front with
    | nil =>
      obtain ⟨rfl, hback⟩ := List.cons.inj hcalls
      refine ⟨hback.symm, ?_⟩
      rcases hret with ⟨hnone, -⟩ | hsome
      · rw [hnone] at hev
        cases hev
      · rw [hsome]
        exact Option.some_ne_none k
    | cons c' front => simp at hcalls
  · intro r hr
    rcases hret with ⟨-, hnone⟩ | hsome
    · rw [hnone] at hr
      cases hr
    · rw [hsome] at hr
      cases hr
      rw [hall]
      rfl
  · rw [hall]
    rfl

/-- The loop when nothing is left. -/
theorem writeSLoop_done {evs : List SendEv} {nleft : Int} (h : nleft ≤ 0) (cur : Int) :
    writeSLoop mem sz evs cur nleft = ⟨[], some (toSize (sz - nleft))⟩ := by
  cases evs with
  | nil => exact if_neg (Int.not_lt.2 h)
  | cons ev evs => exact if_neg (Int.not_lt.2 h)

/-- With something left the loop issues a write. -/
theorem writeSLoop_calls {evs : List SendEv} {nleft : Int} (h : 0 < nleft) (cur : Int) :
    (writeSLoop mem sz evs cur nleft).calls ≠ [] := by
  cases evs with
  | nil =>
    rw [writeSLoop, if_pos h]
    exact List.cons_ne_nil _ _
  | cons ev evs =>
    rw [writeSLoop, if_pos h]
    simp only
    split
    · exact List.cons_ne_nil _ _
    · exact List.cons_ne_nil _ _

/-- The bytes in front of the ones left are the result of a call that stops here. -/
theorem toSize_rest (hn : k + n = sz) (hsz : sz ≤ ssizeMax) : toSize ((sz : Int) - n) = k := by
  rw [show (sz : Int) - n = k by omega]
  exact toSize_of_le_ssizeMax (by omega)

/-- A turn of the loop with an accepted count. -/
theorem writeSLoop_sent {evs : List SendEv} {m : Nat} (hn : k + n = sz) (hsz : sz ≤ ssizeMax)
    (hpos : 0 < n) :
    writeSLoop mem sz (.sent m :: evs) k n =
      if m = 0 then ⟨[⟨k, n, some (.sent m)⟩], some k⟩
      else (writeSLoop mem sz evs ((k + min m n : Nat) : Int) ((n - min m n : Nat) : Int)).after
        ⟨k, n, some (.sent m)⟩ := by
  have hret : (SendEv.sent m).ret (bytesAt mem k (n : Int).toNat) = (min m n : Nat) := by
    rw [SendEv.ret, List.length_take, length_bytesAt, Int.toNat_natCast]
  have hmin : min m n ≤ n := Nat.min_le_right m n
  have hsize : toSize ((min m n : Nat) : Int) = min m n := toSize_of_le_ssizeMax (by omega)
  have hzero : min m n = 0 ↔ m = 0 := by omega
  rw [writeSLoop, if_pos (by omega)]
  simp only [hret, hsize, hzero, toSize_rest hn hsz]
  rw [toSsize_of_le (by omega) (by omega), toSsize_of_le (by omega) (by omega)]
  congr 3
  omega

/-- A turn with a failure: the rest grows by one, but for `SSIZE_MAX`, where it turns negative. -/
theorem writeSLoop_fail (mem : Int → UInt8) (sz : Nat) (evs : List SendEv) (e : Errno)
    (hsz : n ≤ ssizeMax) (hpos : 0 < n) (cur : Int) :
    ∃ cur', writeSLoop mem sz (.fail e :: evs) cur n =
      (writeSLoop mem sz evs cur' (if (n : Int) < ssizeMax then n + 1 else -(ssizeMax + 1))).after
        ⟨cur, n, some (.fail e)⟩ := by
  have hnext := toSsize_sub_neg_one (n := n) (by omega) (by omega)
  have hne : ¬toSize ((SendEv.fail e).ret (bytesAt mem cur (n : Int).toNat)) = 0 := by
    have : toSize (-1) ≠ 0 := by decide
    exact this
  refine ⟨cur + toSsize (toSize (-1)), ?_⟩
  rw [writeSLoop, if_pos (by omega), ← hnext]
  exact if_neg hne

/-- Without a failure. -/
theorem writeSLoop_orderly (hsz : sz ≤ ssizeMax) (evs : List SendEv) :
    ∀ k n, k + n = sz → ¬FailsBefore n evs → (writeSLoop mem sz evs k n).Orderly mem sz k := by
  have hdone : ∀ evs k, k = sz → (writeSLoop mem sz evs k (0 : Nat)).Orderly mem sz k := by
    intro evs k hk
    have hret : toSize ((sz : Int) - ((0 : Nat) : Int)) = k := toSize_rest (by omega) hsz
    rw [writeSLoop_done (Int.le_refl ((0 : Nat) : Int)), hret]
    refine ⟨List.forall_mem_nil _, fun front c back ev h => by simp at h, ?_, rfl⟩
    intro r hr
    cases hr
    rfl
  induction evs with
  | nil =>
    intro k n hn _
    rcases Nat.eq_zero_or_pos n with rfl | hpos
    · exact hdone [] k hn
    · rw [writeSLoop, if_pos (by omega)]
      exact orderly_last hn rfl (Or.inl ⟨rfl, rfl⟩)
  | cons ev evs ih =>
    intro k n hn hfree
    rcases n with - | n
    · exact hdone (ev :: evs) k hn
    cases ev with
    | fail e => exact absurd trivial hfree
    | sent m =>
      rw [writeSLoop_sent hn hsz n.succ_pos]
      split
      · rename_i hzero
        subst hzero
        exact orderly_last hn rfl (Or.inr rfl)
      · rename_i hzero
        have hm : 0 < m := Nat.pos_of_ne_zero hzero
        refine (orderly_after hm hn n.succ_pos).2 (ih _ _ (by omega) ?_)
        exact fun hfails => hfree ⟨hm, hfails⟩

/-- With one: a write behind it, or for `SSIZE_MAX` bytes a wrong result. -/
theorem writeSLoop_not_orderly (hsz : sz ≤ ssizeMax) (evs : List SendEv) :
    ∀ k n, k + n = sz → FailsBefore n evs → ¬(writeSLoop mem sz evs k n).Orderly mem sz k := by
  induction evs with
  | nil =>
    intro k n _ hfails
    cases n with
    | zero => exact hfails.elim
    | succ n => exact hfails.elim
  | cons ev evs ih =>
    intro k n hn hfails horderly
    rcases n with - | n
    · exact hfails
    cases ev with
    | fail e =>
      obtain ⟨cur, heq⟩ := writeSLoop_fail mem sz evs e (n := n + 1) (by omega) n.succ_pos k
      rw [heq] at horderly
      split at horderly
      · exact writeSLoop_calls (by omega) _ (horderly.stops [] _ _ (.fail e) rfl rfl rfl).1
      · rw [writeSLoop_done (by omega)] at horderly
        have hcount := horderly.counted _ rfl
        have hnone : WriteCall.taken mem ⟨k, (n + 1 : Nat), some (.fail e)⟩ = [] := rfl
        simp only [Writing.after, List.flatMap_cons, hnone, List.flatMap_nil, List.append_nil,
          List.length_nil] at hcount
        unfold toSize at hcount
        unfold ssizeMax at *
        omega
    | sent m =>
      obtain ⟨hm, hrest⟩ := hfails
      rw [writeSLoop_sent hn hsz n.succ_pos, if_neg (by omega)] at horderly
      exact ih _ _ (by omega) hrest ((orderly_after hm hn n.succ_pos).1 horderly)

/-- **`Write_s` is right unless a write fails.** For every memory, every `sz` that a `ssize_t` holds
and every sequence of outcomes: each write is given a range inside the buffer, the loop stops at the
first that accepts nothing, and the bytes accepted are the first ones of the buffer, as many as are
returned, if and only if no write fails before all bytes are accepted or one of the writes accepts
none. -/
theorem writeS_orderly_iff (mem : Int → UInt8) (sz : Nat) (evs : List SendEv) (h : sz ≤ ssizeMax) :
    (writeS mem sz evs).Orderly mem sz 0 ↔ ¬FailsBefore sz evs := by
  constructor
  · exact fun horderly hfails =>
      writeSLoop_not_orderly h evs 0 sz (Nat.zero_add sz) hfails horderly
  · exact writeSLoop_orderly h evs 0 sz (Nat.zero_add sz)

/-- A short write and a full one. -/
theorem writeS_orderly_two :
    (writeS (fun _ => 7) 3 [.sent 1, .sent 5]).Orderly (fun _ => 7) 3 0 :=
  (writeS_orderly_iff (fun _ => 7) 3 [.sent 1, .sent 5] (by decide)).2 fun hfails => hfails.2.2

/-- The first write fails: the second is given a range that starts in front of the buffer. -/
theorem writeS_underrun : ¬∀ (mem : Int → UInt8) (sz : Nat) (evs : List SendEv), sz ≤ ssizeMax →
    (writeS mem sz evs).Orderly mem sz 0 := by
  intro h
  have hinside := (h (fun _ => 0) 2 [.fail .other] (by decide)).inside ⟨-1, 3, none⟩
  have hmem : (⟨-1, 3, none⟩ : WriteCall) ∈ (writeS (fun _ => 0) 2 [.fail .other]).calls := by
    decide
  exact absurd (hinside hmem).1 (by decide)

end Loop

end HttpCallback
