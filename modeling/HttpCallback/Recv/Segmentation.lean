import HttpCallback.Recv.Basic

/-!
# Segmentation independence

However the network cuts a stream into segments, and however many of them a read finds, a call of
`onRecv` takes the next `len` bytes of the stream (or what is left of it), so the `k`-th call of
`callback` leaves the first `100 * k` bytes in `tcp->buf` and parses exactly these. The scratch
array is taken here to be as large as the calls need.
-/

namespace HttpCallback

open CString

/-- A way to cut the stream `s` into segments. -/
structure Cuts (segs : List Bytes) (s : Bytes) : Prop where
  flatten : segs.flatten = s
  ne_nil : ∀ seg ∈ segs, seg ≠ []

/-- The events of a stream that arrives in the segments `segs` and then ends; `m` is the number of
reads that may see the end. -/
def stream (segs : List Bytes) (m : Nat) : List ReadEv :=
  segs.map .data ++ List.replicate m (.data [])

theorem Cuts.tail {seg s : Bytes} {segs : List Bytes} (h : Cuts (seg :: segs) s) :
    Cuts segs (s.drop seg.length) :=
  ⟨by rw [← h.flatten, List.flatten_cons, List.drop_left],
    fun x hx => h.ne_nil x (List.mem_cons_of_mem _ hx)⟩

/-- A read that leaves a part of the segment in front leaves a cut of the rest of the stream. -/
theorem Cuts.left {seg s : Bytes} {segs : List Bytes} (h : Cuts (seg :: segs) s) {n : Nat}
    (hn : n ≤ seg.length) :
    ∃ segs', Cuts segs' (s.drop n) ∧ ∀ m, (ReadEv.data seg).left n ++ stream segs m =
      stream segs' m := by
  have hs : s.drop n = seg.drop n ++ segs.flatten := by
    rw [← h.flatten, List.flatten_cons, List.drop_append_of_le_length hn]
  have htail : ∀ x ∈ segs, x ≠ [] := fun x hx => h.ne_nil x (List.mem_cons_of_mem _ hx)
  by_cases he : seg.length ≤ n
  · refine ⟨segs, ⟨?_, htail⟩, fun m => ?_⟩
    · rw [hs, List.drop_eq_nil_of_le he, List.nil_append]
    · simp only [ReadEv.left, if_pos he, List.nil_append]
  · refine ⟨seg.drop n :: segs, ⟨by rw [hs, List.flatten_cons], ?_⟩, fun m => ?_⟩
    · intro x hx
      rcases List.mem_cons.1 hx with rfl | hx
      · intro h0
        exact he (List.drop_eq_nil_iff.1 h0)
      · exact htail x hx
    · simp only [ReadEv.left, if_neg he]
      rfl

/-- A read of `n` bytes leaves a cut of what stands behind its chunk. -/
theorem Cuts.read {seg s : Bytes} {segs : List Bytes} (h : Cuts (seg :: segs) s) (n : Nat) :
    s = seg.take n ++ s.drop (seg.take n).length ∧
      ∃ segs', Cuts segs' (s.drop (seg.take n).length) ∧
        ∀ m, (ReadEv.data seg).left n ++ stream segs m = stream segs' m := by
  constructor
  · have hpre : seg.take n <+: s := by
      rw [← h.flatten, List.flatten_cons]
      exact (List.take_prefix n seg).trans (List.prefix_append _ _)
    exact (List.prefix_iff_eq_append.1 hpre).symm
  · by_cases hn : n ≤ seg.length
    · rw [List.length_take_of_le hn]
      exact h.left hn
    · have hle : seg.length ≤ n := Nat.le_of_not_le hn
      refine ⟨segs, ?_, fun m => ?_⟩
      · rw [List.take_of_length_le hle]
        exact h.tail
      · simp only [ReadEv.left, if_pos hle, List.nil_append]

/-! ## One call of `onRecv` -/

section Loop

variable {len : UInt64}

theorem RecvSt.not_below {st : RecvSt} (hlen : len.toNat < readCountBuf)
    (hsum : st.ptr.toNat + st.nleft.toNat = len.toNat) : st.below = false := by
  have hr : readCountBuf = 1000 := rfl
  simp only [RecvSt.below, decide_eq_false_iff_not]
  omega

/-- One turn of the loop on a non-empty read. -/
theorem onRecvLoop_data (len : UInt64) {seg : Bytes} (evs : List ReadEv) {st : RecvSt}
    (hb : st.below = false) (hne : (ReadEv.data seg).nread st.nleft ≠ 0) :
    onRecvLoop len (.data seg :: evs) st =
      let st₁ := st.clear.append (seg.take st.nleft.toNat) ((ReadEv.data seg).nread st.nleft)
      if st₁.nleft = 0 then
        ⟨st₁, (ReadEv.data seg).left st.nleft.toNat ++ evs, .ret (len - st₁.nleft)⟩
      else onRecvLoop len evs st₁ := by
  simp only [onRecvLoop, hb, Bool.false_eq_true, if_false]
  rw [if_neg (nread_not_neg _ _)]
  simp only [show st.clear.nleft = st.nleft from rfl]
  rw [if_neg hne]
  rfl

/-- The invariant of the loop on a stream: `ptr + nleft = len`, and what is still to come is a cut
of the rest of the stream. -/
theorem onRecvLoop_stream (hlen : len.toNat < readCountBuf) (m : Nat) {segs : List Bytes} :
    ∀ {s : Bytes} {st : RecvSt}, Cuts segs s → NulFree s →
    st.ptr.toNat + st.nleft.toNat = len.toNat → 0 < st.nleft.toNat →
    ∃ st' segs' m' n, onRecvLoop len (stream segs (m + 1)) st = ⟨st', stream segs' m', .ret n⟩ ∧
      Cuts segs' (s.drop st.nleft.toNat) ∧ m ≤ m' ∧
      st'.buf = st.buf ++ s.take st.nleft.toNat := by
  induction segs with
  | nil =>
    intro s st hc _ hsum _
    have hs : s = [] := hc.flatten.symm
    subst hs
    refine ⟨st.clear, [], m, len - st.nleft, ?_, by simpa using hc, Nat.le_refl m, ?_⟩
    · have hb := RecvSt.not_below hlen hsum
      simp only [stream, List.map_nil, List.nil_append, List.replicate_succ, onRecvLoop, hb,
        Bool.false_eq_true, if_false]
      rw [nread_nil]
      rfl
    · simp [RecvSt.clear]
  | cons seg segs ih =>
    intro s st hc hnf hsum hpos
    have hb := RecvSt.not_below hlen hsum
    have hseg : seg ≠ [] := hc.ne_nil seg List.mem_cons_self
    have hn := nread_data st.nleft seg
    have hlt : len.toNat < 2 ^ 64 := len.toNat_lt
    have hle := List.length_take_le st.nleft.toNat seg
    have hs : s = seg ++ segs.flatten := by rw [← hc.flatten, List.flatten_cons]
    have hchunk : (seg.take st.nleft.toNat).length < readCountBuf := by omega
    have hcstr : cstr (seg.take st.nleft.toNat) = seg.take st.nleft.toNat := by
      refine cstr_eq_self (hnf.sublist ?_)
      rw [hs]
      exact (List.take_sublist _ _).trans (List.sublist_append_left _ _)
    have hne : (ReadEv.data seg).nread st.nleft ≠ 0 := nread_ne_zero hpos hseg
    obtain ⟨hp', hl'⟩ :=
      RecvSt.append_toNat (seg.take st.nleft.toNat) (nread_le st.nleft seg) (by omega)
    have hbuf : (st.clear.append (seg.take st.nleft.toNat) ((ReadEv.data seg).nread st.nleft)).buf =
        st.buf ++ cstr (seg.take st.nleft.toNat) := RecvSt.append_clear_buf _ hchunk
    rw [hcstr] at hbuf
    have hloop := onRecvLoop_data len (stream segs (m + 1)) hb hne
    generalize hst : st.clear.append (seg.take st.nleft.toNat)
      ((ReadEv.data seg).nread st.nleft) = st₁ at hp' hl' hbuf hloop
    have hcons : stream (seg :: segs) (m + 1) = .data seg :: stream segs (m + 1) := rfl
    by_cases hfull : st.nleft.toNat ≤ seg.length
    · -- the segment in front holds all that is asked for
      have htake : (seg.take st.nleft.toNat).length = st.nleft.toNat := by
        rw [List.length_take, Nat.min_eq_left hfull]
      have hz : st₁.nleft = 0 := by
        rw [← toNat_eq_zero, hl', hn, htake, Nat.sub_self]
      obtain ⟨segs', hc', hleft⟩ := hc.left hfull
      refine ⟨st₁, segs', m + 1, len - st₁.nleft, ?_, hc', Nat.le_succ m, ?_⟩
      · rw [hcons, hloop, if_pos hz, hleft]
      · rw [hbuf, hs, List.take_append_of_le_length hfull]
    · -- the whole segment is taken and the loop goes on
      have hlt' : seg.length < st.nleft.toNat := Nat.lt_of_not_le hfull
      have htake : seg.take st.nleft.toNat = seg := List.take_of_length_le (Nat.le_of_lt hlt')
      rw [htake] at hn hbuf
      have hnz : st₁.nleft ≠ 0 := by
        rw [Ne, ← toNat_eq_zero]
        omega
      have hrest : s.drop seg.length = segs.flatten := by rw [hs, List.drop_left]
      have hct := hc.tail
      rw [hrest] at hct
      obtain ⟨st', segs', m', n, hrun, hc', hm', hbuf'⟩ := @ih _ st₁ hct
        (hnf.sublist (by rw [hs]; exact List.sublist_append_right _ _)) (by omega) (by omega)
      refine ⟨st', segs', m', n, ?_, ?_, hm', ?_⟩
      · rw [hcons, hloop, if_neg hnz, hrun]
      · rw [hl', hn] at hc'
        rw [hs, List.drop_append, List.drop_eq_nil_of_le (Nat.le_of_lt hlt'), List.nil_append]
        exact hc'
      · rw [hbuf', hbuf, hl', hn, hs, List.take_append, htake, List.append_assoc]

end Loop

/-- On a stream a call of `onRecv` returns and has appended the next `len` bytes. -/
theorem onRecv_stream (stack : Mem) (buf : Bytes) {len : UInt64} (hpos : 0 < len.toNat)
    (hlen : len.toNat < readCountBuf) (m : Nat) {segs : List Bytes} {s : Bytes} (hc : Cuts segs s)
    (hs : NulFree s) :
    ∃ st segs' m' n, onRecv stack buf len (stream segs (m + 1)) = ⟨st, stream segs' m', .ret n⟩ ∧
      Cuts segs' (s.drop len.toNat) ∧ m ≤ m' ∧ st.buf = buf ++ s.take len.toNat := by
  have hne : len ≠ 0 := by
    rintro rfl
    exact absurd hpos (Nat.lt_irrefl 0)
  unfold onRecv
  simp only [if_neg hne]
  exact onRecvLoop_stream hlen m hc hs (by simp) hpos

/-! ## A run of calls -/

/-- The `k`-th call of a run on a stream: what it leaves in `tcp->buf` and what it parses. -/
theorem callbacks_stream (stack : Mem) {s : Bytes} (hs : NulFree s) : ∀ {n m k : Nat}
    {tcp : HttpTcp} {segs : List Bytes} {d : Nat}, Cuts segs (s.drop d) → tcp.buf = s.take d →
    n ≤ m → k < n →
    (∀ j < k, ∃ req, (analasy (snprintf bufsize (s.take (d + 100 * (j + 1))))).out = .ret req) →
    ∃ c, (callbacks stack readCount n tcp (stream segs m))[k]? = some c ∧
      c.tcp.buf = s.take (d + 100 * (k + 1)) ∧
      c.fin = .parsed (analasy (snprintf bufsize (s.take (d + 100 * (k + 1))))).out := by
  intro n
  induction n with
  | zero => intro m k tcp segs d _ _ _ hk; exact absurd hk (Nat.not_lt_zero k)
  | succ n ih =>
    intro m k tcp segs d hc hbuf hm hk hret
    obtain ⟨m, rfl⟩ := Nat.exists_eq_succ_of_ne_zero (Nat.ne_of_gt (Nat.zero_lt_of_lt hm))
    have h100 : readCount.toNat = 100 := rfl
    obtain ⟨st, segs', m', r, hrecv, hc', hm', hbuf'⟩ := onRecv_stream stack tcp.buf
      (by decide : 0 < readCount.toNat) (by decide) m hc
      (hs.sublist (List.drop_sublist d s))
    rw [h100, List.drop_drop] at hc'
    have hst : st.buf = s.take (d + 100) := by
      rw [hbuf', hbuf, h100, ← List.take_add]
    have hcall : callback stack tcp readCount (stream segs (m + 1)) =
        ⟨{ tcp with ctx := snprintf bufsize (s.take (d + 100)), buf := s.take (d + 100) }, st.got,
          st.ranges, stream segs' m',
          .parsed (analasy (snprintf bufsize (s.take (d + 100)))).out⟩ := by
      simp only [callback, hrecv, hst]
      rfl
    cases k with
    | zero =>
      refine ⟨callback stack tcp readCount (stream segs (m + 1)), ?_, ?_, ?_⟩
      · simp only [callbacks]
        split <;> rfl
      · rw [hcall]
      · rw [hcall]
    | succ k =>
      obtain ⟨req, hreq⟩ := hret 0 (Nat.zero_lt_succ k)
      rw [Nat.zero_add, Nat.mul_one] at hreq
      have hrun : (callbacks stack readCount (n + 1) tcp (stream segs (m + 1)))[k + 1]? =
          (callbacks stack readCount n
            { tcp with ctx := snprintf bufsize (s.take (d + 100)), buf := s.take (d + 100) }
            (stream segs' m'))[k]? := by
        simp only [callbacks, hcall, Callback.returned, hreq, List.getElem?_cons_succ]
      have hd : ∀ j, d + 100 + 100 * (j + 1) = d + 100 * (j + 1 + 1) := fun j => by omega
      have hlater : ∀ j < k, ∃ req,
          (analasy (snprintf bufsize (s.take (d + 100 + 100 * (j + 1))))).out = .ret req := by
        intro j hj
        rw [hd]
        exact hret (j + 1) (Nat.succ_lt_succ hj)
      obtain ⟨c, hcget, hcbuf, hcfin⟩ := @ih m' k
        { tcp with ctx := snprintf bufsize (s.take (d + 100)), buf := s.take (d + 100) }
        segs' (d + 100) hc' rfl (by omega) (by omega) hlater
      rw [hd] at hcbuf hcfin
      exact ⟨c, hrun.trans hcget, hcbuf, hcfin⟩

/-- **Segmentation independence.** On a NUL-free stream of at most 4095 bytes, cut in any two ways,
with a scratch array as large as the calls need, the `k`-th calls of `callback` (counted from 0)
leave the same string in `tcp->buf`, the first `100 * (k + 1)` bytes of the stream, and return the
same: NULL while that prefix has no CRLFCRLF, and otherwise what `analasy` returns on it. -/
theorem callback_segmentation (s : Bytes) (hs : NulFree s) (hlen : s.length ≤ 4095)
    (segs₁ segs₂ : List Bytes) (h₁ : Cuts segs₁ s) (h₂ : Cuts segs₂ s)
    (stack₁ stack₂ : Mem) (tcp₁ tcp₂ : HttpTcp) (ht₁ : tcp₁.buf = []) (ht₂ : tcp₂.buf = [])
    (n k : Nat) (hk : k < n)
    (hret : ∀ j ≤ k, ∃ req, (analasy (s.take (100 * (j + 1)))).out = .ret req) :
    ∃ c₁ c₂, (callbacks stack₁ readCount n tcp₁ (stream segs₁ n))[k]? = some c₁ ∧
      (callbacks stack₂ readCount n tcp₂ (stream segs₂ n))[k]? = some c₂ ∧
      c₁.tcp.buf = s.take (100 * (k + 1)) ∧ c₂.tcp.buf = s.take (100 * (k + 1)) ∧
      c₁.returned = c₂.returned ∧
      (¬crlf ++ crlf <:+: s.take (100 * (k + 1)) → c₁.returned = some none) ∧
      ∀ req, (analasy (s.take (100 * (k + 1)))).out = .ret req → c₁.returned = some req := by
  have hfits : ∀ d, snprintf bufsize (s.take d) = s.take d := fun d =>
    List.take_of_length_le ((List.length_take_le' d s).trans hlen)
  have hprev : ∀ j < k, ∃ req,
      (analasy (snprintf bufsize (s.take (0 + 100 * (j + 1))))).out = .ret req := by
    intro j hj
    rw [Nat.zero_add, hfits]
    exact hret j (Nat.le_of_lt hj)
  obtain ⟨c₁, hget₁, hbuf₁, hfin₁⟩ := callbacks_stream (d := 0) stack₁ hs h₁ ht₁ (Nat.le_refl n)
    hk hprev
  obtain ⟨c₂, hget₂, hbuf₂, hfin₂⟩ := callbacks_stream (d := 0) stack₂ hs h₂ ht₂ (Nat.le_refl n)
    hk hprev
  rw [Nat.zero_add] at hbuf₁ hbuf₂ hfin₁ hfin₂
  rw [hfits] at hfin₁ hfin₂
  refine ⟨c₁, c₂, hget₁, hget₂, hbuf₁, hbuf₂, ?_, ?_, ?_⟩
  · simp only [Callback.returned, hfin₁, hfin₂]
  · intro hno
    have hnull : (analasy (s.take (100 * (k + 1)))).out = .ret none := by
      rw [← strstr_iff] at hno
      unfold analasy
      rw [if_pos (Bool.eq_false_iff.2 hno)]
    simp only [Callback.returned, hfin₁, hnull]
  · intro req hreq
    simp only [Callback.returned, hfin₁, hreq]

/-- `GET / H CRLF CRLF` in one segment and in two. -/
theorem callback_segmentation_get :
    ∃ c₁ c₂, (callbacks (fun _ => 0) readCount 1 ⟨5, [], []⟩
        (stream [[71, 69, 84, 32, 47, 32, 72, 13, 10, 13, 10]] 1))[0]? = some c₁ ∧
      (callbacks (fun _ => 7) readCount 1 ⟨5, [], []⟩
        (stream [[71, 69], [84, 32, 47, 32, 72, 13, 10, 13, 10]] 1))[0]? = some c₂ ∧
      c₁.returned = c₂.returned := by
  have hcuts : ∀ segs : List Bytes, (∀ seg ∈ segs, seg ≠ []) →
      segs.flatten = [71, 69, 84, 32, 47, 32, 72, 13, 10, 13, 10] →
      Cuts segs [71, 69, 84, 32, 47, 32, 72, 13, 10, 13, 10] := fun _ hne hf => ⟨hf, hne⟩
  obtain ⟨c₁, c₂, hget₁, hget₂, -, -, heq, -⟩ := callback_segmentation
    [71, 69, 84, 32, 47, 32, 72, 13, 10, 13, 10] (by decide) (by decide) _ _
    (hcuts [[71, 69, 84, 32, 47, 32, 72, 13, 10, 13, 10]] (by decide) rfl)
    (hcuts [[71, 69], [84, 32, 47, 32, 72, 13, 10, 13, 10]] (by decide) rfl)
    (fun _ => 0) (fun _ => 7) ⟨5, [], []⟩ ⟨5, [], []⟩ rfl rfl 1 0 Nat.one_pos (by
      intro j hj
      obtain rfl := Nat.le_zero.1 hj
      exact ⟨some ⟨[71, 69, 84], [47], [72], []⟩, by decide +kernel⟩)
  exact ⟨c₁, c₂, hget₁, hget₂, heq⟩

end HttpCallback
