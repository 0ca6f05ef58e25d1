import HttpCallback.Recv.Segmentation

/-!
# The ranges of the scratch array

Every turn of the loop clears `READ_COUNT_BUF` bytes from `ptr` on, however far `ptr` has moved into
the array of that size. The array is kept to exactly when there is no second turn behind a chunk:
when the first read stores all that is asked for, or nothing. A run of calls on a stream that
arrives in whole chunks keeps to it (`callbacks_inside`).
-/

namespace HttpCallback

open CString

section Loop

variable {len : UInt64}

theorem Recv.touched_ret (st : RecvSt) (rest : List ReadEv) (n : UInt64) :
    (⟨st, rest, .ret n⟩ : Recv).touched = st.ranges := rfl

theorem Recv.subset_touched (r : Recv) : r.st.ranges ⊆ r.touched := by
  unfold Recv.touched
  split
  · exact List.subset_append_left _ _
  · exact List.Subset.refl _

/-- The loop only adds to the ranges. -/
theorem onRecvLoop_ranges (evs : List ReadEv) : ∀ st : RecvSt,
    st.ranges ⊆ (onRecvLoop len evs st).st.ranges := by
  induction evs with
  | nil => exact fun _ => List.Subset.refl _
  | cons ev evs ih =>
    intro st
    have hclear : st.ranges ⊆ st.clear.ranges := List.subset_append_left _ _
    have happ : ∀ chunk nread, st.ranges ⊆ (st.clear.append chunk nread).ranges :=
      fun _ _ => List.Subset.trans hclear (List.subset_append_left _ _)
    unfold onRecvLoop
    simp only
    rw [if_neg (nread_not_neg _ ev)]
    split
    · exact List.Subset.refl _
    · split
      · exact hclear
      · split
        · exact happ _ _
        · exact List.Subset.trans (happ _ _) (ih _)

/-- A turn of the loop clears from `ptr` on. -/
theorem mem_touched_onRecvLoop (evs : List ReadEv) {st : RecvSt} (hb : st.below = false) :
    (st.ptr, readCountBuf) ∈ (onRecvLoop len evs st).touched := by
  cases evs with
  | nil => exact List.mem_append_right _ List.mem_cons_self
  | cons ev evs =>
    have hclear : (st.ptr, readCountBuf) ∈ st.clear.ranges :=
      List.mem_append_right _ List.mem_cons_self
    have happ : ∀ chunk nread, (st.ptr, readCountBuf) ∈ (st.clear.append chunk nread).ranges :=
      fun _ _ => List.mem_append_left _ hclear
    apply Recv.subset_touched
    unfold onRecvLoop
    simp only [hb, Bool.false_eq_true, if_false]
    rw [if_neg (nread_not_neg _ ev)]
    split
    · exact hclear
    · split
      · exact happ _ _
      · exact onRecvLoop_ranges evs _ (happ _ _)

/-- A turn behind a chunk does not keep to the array. -/
theorem not_inside_second (evs : List ReadEv) {st : RecvSt} (hb : st.below = false)
    (hptr : 0 < st.ptr.toNat) : ¬(onRecvLoop len evs st).Inside := by
  intro h
  have hin := h _ (mem_touched_onRecvLoop evs hb)
  simp only at hin
  omega

end Loop

/-! ## The first turn -/

section First

variable (stack : Mem) (buf : Bytes) {len : UInt64} {seg : Bytes}

/-- The string at `cur_ptr` is the chunk exactly when a NUL stands behind it: in the cleared array,
or behind the array on the stack. -/
theorem first_buf (len : UInt64) {chunk : Bytes} (hnul : NulFree chunk) (nread : UInt64) :
    ((RecvSt.clear ⟨len, 0, stack.fill 0 0 readCountBuf, buf, [], []⟩).append chunk nread).buf =
        buf ++ chunk ↔ (readCountBuf ≤ chunk.length → stack chunk.length = 0) := by
  generalize hmem : (RecvSt.clear ⟨len, 0, stack.fill 0 0 readCountBuf, buf, [], []⟩).mem = mem
  have hbehind : mem (0 + chunk.length) =
      if chunk.length < readCountBuf then 0 else stack chunk.length := by
    rw [← hmem, Nat.zero_add]
    split
    · rename_i hlt
      exact Mem.fill_in (Nat.zero_le _) ((Nat.zero_add readCountBuf).symm ▸ hlt)
    · rename_i hge
      have hout : ¬(0 ≤ chunk.length ∧ chunk.length < 0 + readCountBuf) := by omega
      exact (if_neg hout).trans (if_neg hout)
  have hf : chunk.length < chunk.length + readCountBuf := Nat.lt_add_of_pos_right (by decide)
  have hstr : ((RecvSt.clear ⟨len, 0, stack.fill 0 0 readCountBuf, buf, [], []⟩).append chunk
      nread).buf = buf ++ (mem.write 0 chunk).strAt 0 (chunk.length + readCountBuf) := by
    rw [← hmem]
    rfl
  rw [hstr]
  constructor
  · intro heq hle
    rw [if_neg (Nat.not_lt.2 hle)] at hbehind
    by_contra h0
    have hw : mem.write 0 chunk (0 + chunk.length) ≠ 0 := by
      rw [Mem.write_behind (Nat.le_refl _), hbehind]
      exact h0
    have hlong := Mem.lt_length_strAt hnul (Mem.holds_write mem 0 chunk) hw hf
    rw [List.append_cancel_left heq] at hlong
    exact absurd hlong (Nat.lt_irrefl _)
  · intro h0
    have hz : mem (0 + chunk.length) = 0 := by
      rw [hbehind]
      split
      · rfl
      · rename_i hge
        exact h0 (Nat.le_of_not_lt hge)
    rw [Mem.strAt_write hz hf, cstr_eq_self hnul]

/-- The first turn, on a non-empty segment. -/
theorem onRecv_first (hpos : 0 < len.toNat) (hne : seg ≠ []) (evs : List ReadEv) :
    ∃ st : RecvSt, st.ptr.toNat = (seg.take len.toNat).length ∧
      st.nleft.toNat = len.toNat - (seg.take len.toNat).length ∧
      st.ranges = [(0, readCountBuf), (0, (seg.take len.toNat).length)] ∧
      (NulFree seg → (st.buf = buf ++ seg.take len.toNat ↔
        (readCountBuf ≤ (seg.take len.toNat).length → stack (seg.take len.toNat).length = 0))) ∧
      onRecv stack buf len (.data seg :: evs) =
        if st.nleft = 0 then
          ⟨st, (ReadEv.data seg).left len.toNat ++ evs, .ret (len - st.nleft)⟩
        else onRecvLoop len evs st := by
  have h0 : len ≠ 0 := fun h => absurd (toNat_eq_zero.2 h) (Nat.ne_of_gt hpos)
  have hn := nread_data len seg
  have hbuf := fun hnul : NulFree seg =>
    first_buf stack buf len (hnul.sublist (List.take_sublist len.toNat seg))
      ((ReadEv.data seg).nread len)
  generalize hst : (⟨len, 0, stack.fill 0 0 readCountBuf, buf, [], []⟩ : RecvSt) = st at hbuf ⊢
  have hptr : st.ptr = 0 := by rw [← hst]
  have hnleft : st.nleft = len := by rw [← hst]
  have hranges : st.ranges = [] := by rw [← hst]
  have hb : st.below = false := by
    unfold RecvSt.below
    rw [hptr]
    rfl
  have hnread : (ReadEv.data seg).nread st.nleft ≠ 0 := by
    rw [hnleft]
    exact nread_ne_zero hpos hne
  have hsum : st.ptr.toNat + st.nleft.toNat < 2 ^ 64 := by
    rw [hptr, hnleft]
    exact (Nat.zero_add _).trans_lt len.toNat_lt
  obtain ⟨hp, hl⟩ := RecvSt.append_toNat (seg.take len.toNat) (nread_le st.nleft seg) hsum
  have hloop := onRecvLoop_data len evs hb hnread
  rw [hnleft] at hloop
  refine ⟨st.clear.append (seg.take len.toNat) ((ReadEv.data seg).nread st.nleft), ?_, ?_, ?_, ?_,
    ?_⟩
  · rw [hp, hptr, hnleft, hn]
    exact Nat.zero_add _
  · rw [hl, hnleft, hn]
  · simp only [RecvSt.append, RecvSt.clear, hranges, hptr]
    rfl
  · rw [hnleft]
    exact hbuf
  · unfold onRecv
    rw [if_neg h0, hst, hnleft]
    exact hloop

/-- A segment that holds all that is asked for ends the call. -/
theorem onRecv_full (hpos : 0 < len.toNat) (hfull : len.toNat ≤ seg.length) (evs : List ReadEv) :
    ∃ st : RecvSt, st.nleft = 0 ∧ st.ranges = [(0, readCountBuf), (0, len.toNat)] ∧
      (NulFree seg → (st.buf = buf ++ seg.take len.toNat ↔
        (readCountBuf ≤ len.toNat → stack len.toNat = 0))) ∧
      onRecv stack buf len (.data seg :: evs) =
        ⟨st, (ReadEv.data seg).left len.toNat ++ evs, .ret len⟩ := by
  have hne : seg ≠ [] := List.length_pos_iff.1 (hpos.trans_le hfull)
  obtain ⟨st, -, hnleft, hranges, hbuf, hrecv⟩ := onRecv_first stack buf hpos hne evs
  rw [List.length_take_of_le hfull] at hnleft hranges hbuf
  rw [Nat.sub_self, toNat_eq_zero] at hnleft
  refine ⟨st, hnleft, hranges, hbuf, ?_⟩
  rw [hrecv, if_pos hnleft, hnleft, UInt64.sub_zero]

/-- Behind a shorter segment there is a second turn. -/
theorem onRecv_short (hne : seg ≠ []) (hlt : seg.length < len.toNat) (evs : List ReadEv) :
    ∃ st : RecvSt, st.ptr.toNat = seg.length ∧
      onRecv stack buf len (.data seg :: evs) = onRecvLoop len evs st := by
  obtain ⟨st, hptr, hnleft, -, -, hrecv⟩ :=
    onRecv_first stack buf ((Nat.zero_le _).trans_lt hlt) hne evs
  rw [List.take_of_length_le (Nat.le_of_lt hlt)] at hptr hnleft
  have hz : st.nleft ≠ 0 := by
    rw [Ne, ← toNat_eq_zero]
    omega
  exact ⟨st, hptr, by rw [hrecv, if_neg hz]⟩

/-- The end of the stream. -/
theorem onRecv_eof (hpos : 0 < len.toNat) (evs : List ReadEv) :
    ∃ st : RecvSt, st.nleft = len ∧ st.ranges = [(0, readCountBuf)] ∧ st.buf = buf ∧
      onRecv stack buf len (.data [] :: evs) = ⟨st, evs, .ret 0⟩ := by
  have h0 : len ≠ 0 := fun h => absurd (toNat_eq_zero.2 h) (Nat.ne_of_gt hpos)
  refine ⟨RecvSt.clear ⟨len, 0, stack.fill 0 0 readCountBuf, buf, [], []⟩, rfl, rfl, rfl, ?_⟩
  unfold onRecv
  rw [if_neg h0]
  simp only [onRecvLoop, RecvSt.below, RecvSt.clear, nread_nil]
  rw [UInt64.sub_self]
  rfl

end First

/-- A call that only clears the array keeps to it, and so does one that also fills its front. -/
theorem Recv.inside_of_touched {r : Recv} {n : Nat} (hn : n ≤ readCountBuf)
    (h : r.touched ⊆ [(0, readCountBuf), (0, n)]) : r.Inside := by
  intro x hx
  rcases List.mem_cons.1 (h hx) with rfl | hx
  · decide
  · rw [List.mem_singleton.1 hx]
    exact (Nat.zero_add n).trans_le hn

section Inside

variable (stack : Mem) (buf : Bytes) {len : UInt64} {seg : Bytes}

theorem onRecv_eof_inside (hpos : 0 < len.toNat) (evs : List ReadEv) :
    (onRecv stack buf len (.data [] :: evs)).Inside := by
  obtain ⟨st, -, hranges, -, hrecv⟩ := onRecv_eof stack buf hpos evs
  refine Recv.inside_of_touched (Nat.zero_le _) ?_
  rw [hrecv, Recv.touched_ret, hranges]
  exact List.subset_append_left [(0, readCountBuf)] [(0, 0)]

theorem onRecv_full_inside_iff (hpos : 0 < len.toNat) (hfull : len.toNat ≤ seg.length)
    (evs : List ReadEv) :
    (onRecv stack buf len (.data seg :: evs)).Inside ↔ len.toNat ≤ readCountBuf := by
  obtain ⟨st, -, hranges, -, hrecv⟩ := onRecv_full stack buf hpos hfull evs
  have htouched : (onRecv stack buf len (.data seg :: evs)).touched =
      [(0, readCountBuf), (0, len.toNat)] := by
    rw [hrecv, Recv.touched_ret, hranges]
  refine ⟨fun hin => ?_, fun hle => Recv.inside_of_touched hle (htouched ▸ List.Subset.refl _)⟩
  have hle : (0 : UInt64).toNat + len.toNat ≤ readCountBuf := by
    refine hin (0, len.toNat) ?_
    rw [htouched]
    exact List.mem_cons_of_mem _ List.mem_cons_self
  exact (Nat.zero_add _).symm.trans_le hle

end Inside

/-- **The scratch array is kept to exactly when one chunk is all.** For every sequence of successful
reads, whatever their sizes: all ranges that `onRecv` clears or fills for `READ_COUNT` bytes lie
inside its array if and only if the first read stores nothing or all of them. -/
theorem onRecv_scratch_iff (stack : Mem) (buf : Bytes) (segs : List Bytes) :
    (∀ r ∈ (onRecv stack buf readCount (segs.map .data)).touched,
        r.1.toNat + r.2 ≤ readCountBuf) ↔
      ∀ seg ∈ segs.head?, seg = [] ∨ readCount.toNat ≤ seg.length := by
  have hpos : 0 < readCount.toNat := by decide
  show (onRecv stack buf readCount (segs.map .data)).Inside ↔ _
  cases segs with
  | nil =>
    have hfront : (onRecv stack buf readCount []).touched ⊆ [(0, readCountBuf), (0, 0)] :=
      List.subset_append_left [(0, readCountBuf)] [(0, 0)]
    exact ⟨fun _ => nofun, fun _ => Recv.inside_of_touched (Nat.zero_le _) hfront⟩
  | cons seg segs =>
    simp only [List.head?_cons, Option.mem_some_iff, forall_eq', List.map_cons]
    by_cases hne : seg = []
    · subst hne
      exact ⟨fun _ => Or.inl rfl, fun _ => onRecv_eof_inside stack buf hpos _⟩
    · by_cases hfull : readCount.toNat ≤ seg.length
      · refine ⟨fun _ => Or.inr hfull, fun _ => ?_⟩
        exact (onRecv_full_inside_iff stack buf hpos hfull _).2 (by decide)
      · -- a second turn clears behind the chunk
        have hlt := Nat.lt_of_not_le hfull
        obtain ⟨st, hptr, hrecv⟩ := onRecv_short stack buf hne hlt (segs.map .data)
        have hb : st.below = false := by
          have h100 : readCount.toNat = 100 := rfl
          unfold RecvSt.below
          rw [decide_eq_false_iff_not]
          omega
        rw [hrecv]
        refine iff_of_false (not_inside_second _ hb ?_) (not_or.2 ⟨hne, hfull⟩)
        rw [hptr]
        exact List.length_pos_iff.2 hne

/-- One byte, then the end of the stream: the second `memset` starts behind the byte. -/
theorem onRecv_scratch_overrun :
    ¬∀ (stack : Mem) (buf : Bytes) (segs : List Bytes),
      (segs.map List.length).sum ≤ readCount.toNat →
      ∀ r ∈ (onRecv stack buf readCount (segs.map .data)).touched,
        r.1.toNat + r.2 ≤ readCountBuf := by
  intro h
  have hin := h (fun _ => 0) [] [[97], []] (by decide) (1, 1000) (by decide +kernel)
  exact absurd hin (by decide)

/-! ## A run of calls -/

/-- Of the stream `s` the next `n` bytes are there for one read, or `s` has come to its end; `evs`
are the events that this leads to. -/
def Arrived (n : Nat) (s : Bytes) (evs : List ReadEv) : Prop :=
  (∃ seg more, evs = .data seg :: more ∧ n ≤ seg.length ∧ seg <+: s) ∨
    s = [] ∧ ∃ more, evs = .data [] :: more

/-- A call that finds enough takes the next `len` bytes, and keeps to its array. -/
theorem onRecv_arrived (stack : Mem) (buf : Bytes) {len : UInt64} (hpos : 0 < len.toNat)
    (hlen : len.toNat < readCountBuf) {s : Bytes} (hs : NulFree s) {evs : List ReadEv}
    (h : Arrived len.toNat s evs) :
    (onRecv stack buf len evs).Inside ∧ (∃ n, (onRecv stack buf len evs).fin = .ret n) ∧
      (onRecv stack buf len evs).st.buf = buf ++ s.take len.toNat := by
  rcases h with ⟨seg, more, rfl, hfull, hfront⟩ | ⟨rfl, more, rfl⟩
  · obtain ⟨st, -, -, hbuf, hrecv⟩ := onRecv_full stack buf hpos hfull more
    have hstored := (hbuf (hs.sublist hfront.sublist)).2 fun hge => absurd hlen (Nat.not_lt.2 hge)
    refine ⟨(onRecv_full_inside_iff stack buf hpos hfull more).2 (Nat.le_of_lt hlen), ?_⟩
    obtain ⟨t, rfl⟩ := hfront
    rw [hrecv, List.take_append_of_le_length hfull]
    exact ⟨⟨_, rfl⟩, hstored⟩
  · obtain ⟨st, -, -, hbuf, hrecv⟩ := onRecv_eof stack buf hpos more
    refine ⟨onRecv_eof_inside stack buf hpos more, ?_⟩
    rw [hrecv, List.take_nil, List.append_nil]
    exact ⟨⟨_, rfl⟩, hbuf⟩

theorem callback_inside (stack : Mem) (tcp : HttpTcp) (len : UInt64) (evs : List ReadEv) :
    (callback stack tcp len evs).Inside ↔ (onRecv stack tcp.buf len evs).Inside := by
  unfold callback
  simp only
  split <;> exact Iff.rfl

theorem callback_rest (stack : Mem) (tcp : HttpTcp) (len : UInt64) (evs : List ReadEv) :
    (callback stack tcp len evs).rest = (onRecv stack tcp.buf len evs).rest := by
  unfold callback
  simp only
  split <;> rfl

/-- A call on a stream of segments of whole chunks takes one of them, and leaves such a stream. -/
theorem callback_stream_inside (stack : Mem) (tcp : HttpTcp) (m : Nat) {segs : List Bytes}
    (hne : ∀ seg ∈ segs, seg ≠ []) (hsegs : ∀ seg ∈ segs, readCount.toNat ∣ seg.length) :
    (callback stack tcp readCount (stream segs (m + 1))).Inside ∧
      ∃ segs' m', m ≤ m' ∧ (∀ seg ∈ segs', seg ≠ []) ∧
        (∀ seg ∈ segs', readCount.toNat ∣ seg.length) ∧
        (callback stack tcp readCount (stream segs (m + 1))).rest = stream segs' m' := by
  have hpos : 0 < readCount.toNat := by decide
  rw [callback_inside, callback_rest]
  cases segs with
  | nil =>
    have hstream : stream [] (m + 1) = .data [] :: stream [] m := rfl
    obtain ⟨st, -, -, -, hrecv⟩ := onRecv_eof stack tcp.buf hpos (stream [] m)
    rw [hstream]
    refine ⟨onRecv_eof_inside stack tcp.buf hpos _, [], m, le_rfl, hne, hsegs, ?_⟩
    rw [hrecv]
  | cons seg segs =>
    obtain ⟨hseg, hrest⟩ := List.forall_mem_cons.1 hne
    obtain ⟨hdvd, hdvds⟩ := List.forall_mem_cons.1 hsegs
    have hfull := Nat.le_of_dvd (List.length_pos_iff.2 hseg) hdvd
    have hstream : stream (seg :: segs) (m + 1) = .data seg :: stream segs (m + 1) := rfl
    obtain ⟨st, -, -, -, hrecv⟩ := onRecv_full stack tcp.buf hpos hfull (stream segs (m + 1))
    rw [hstream]
    refine ⟨(onRecv_full_inside_iff stack tcp.buf hpos hfull _).2 (by decide), ?_⟩
    rw [hrecv]
    simp only [ReadEv.left]
    by_cases hle : seg.length ≤ readCount.toNat
    · rw [if_pos hle]
      exact ⟨segs, m + 1, Nat.le_succ m, hrest, hdvds, rfl⟩
    · rw [if_neg hle]
      refine ⟨seg.drop readCount.toNat :: segs, m + 1, Nat.le_succ m, ?_, ?_, rfl⟩
      · exact List.forall_mem_cons.2 ⟨fun hnil => hle (List.drop_eq_nil_iff.1 hnil), hrest⟩
      · refine List.forall_mem_cons.2 ⟨?_, hdvds⟩
        rw [List.length_drop]
        exact Nat.dvd_sub hdvd (dvd_refl _)

/-- On a stream that arrives in whole chunks of `READ_COUNT` bytes every call of a run keeps to its
scratch array. -/
theorem callbacks_inside (stack : Mem) : ∀ {n m : Nat} {tcp : HttpTcp} {segs : List Bytes},
    (∀ seg ∈ segs, seg ≠ []) → (∀ seg ∈ segs, readCount.toNat ∣ seg.length) → n ≤ m →
    ∀ c ∈ callbacks stack readCount n tcp (stream segs m), c.Inside := by
  intro n
  induction n with
  | zero => exact fun _ _ _ => List.forall_mem_nil _
  | succ n ih =>
    intro m tcp segs hne hsegs hm
    obtain ⟨m, rfl⟩ := Nat.exists_eq_succ_of_ne_zero (Nat.ne_of_gt (Nat.zero_lt_of_lt hm))
    obtain ⟨hin, segs', m', hm', hne', hsegs', hrest⟩ :=
      callback_stream_inside stack tcp m hne hsegs
    unfold callbacks
    simp only [Nat.succ_eq_add_one]
    split
    · refine List.forall_mem_cons.2 ⟨hin, ?_⟩
      rw [hrest]
      exact ih hne' hsegs' ((Nat.le_of_succ_le_succ hm).trans hm')
    · exact List.forall_mem_singleton.2 hin

end HttpCallback
