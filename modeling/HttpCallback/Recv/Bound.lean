import HttpCallback.Recv.Segmentation

/-!
# The size of the accumulated buffer

`tcp->buf` is appended to by every call and never reset, and nothing compares its length with the
`BUFSIZE` bytes allocated for it. It stays inside them exactly as long as the connection has not
delivered more than 4095 bytes.
-/

namespace HttpCallback

open CString

/-- What a run of calls has received: of every chunk that a `read` stored, the bytes in front of its
first NUL. -/
def received (cs : List Callback) : Nat :=
  ((cs.flatMap (·.got)).map fun chunk => (cstr chunk).length).sum

theorem received_cons (c : Callback) (cs : List Callback) :
    received (c :: cs) = (c.got.map fun chunk => (cstr chunk).length).sum + received cs := by
  simp [received]

theorem callback_buf_length (stack : Mem) (tcp : HttpTcp) (evs : List ReadEv) :
    (callback stack tcp readCount evs).tcp.buf.length =
      tcp.buf.length + ((callback stack tcp readCount evs).got.map fun chunk =>
        (cstr chunk).length).sum := by
  have hbuf := congrArg List.length
    (onRecv_buf stack tcp.buf (by decide : readCount.toNat < readCountBuf) evs)
  rw [List.length_append, List.length_flatten, List.map_map] at hbuf
  unfold callback
  simp only
  split <;> exact hbuf

/-- The buffer after the calls of a run: none of them makes it longer than all of them together, and
the last one makes it as long as that. -/
theorem callbacks_buf_length (stack : Mem) (n : Nat) : ∀ (tcp : HttpTcp) (evs : List ReadEv),
    (∀ c ∈ callbacks stack readCount n tcp evs, c.tcp.buf.length ≤
      tcp.buf.length + received (callbacks stack readCount n tcp evs)) ∧
    (callbacks stack readCount n tcp evs ≠ [] →
      ∃ c ∈ callbacks stack readCount n tcp evs, c.tcp.buf.length =
        tcp.buf.length + received (callbacks stack readCount n tcp evs)) := by
  induction n with
  | zero => exact fun _ _ => ⟨nofun, fun h => absurd rfl h⟩
  | succ n ih =>
    intro tcp evs
    have hlen := callback_buf_length stack tcp evs
    unfold callbacks
    simp only
    generalize callback stack tcp readCount evs = c at hlen
    split
    · obtain ⟨hle, hlast⟩ := ih c.tcp c.rest
      rw [received_cons]
      constructor
      · intro x hx
        rcases List.mem_cons.1 hx with rfl | hx
        · omega
        · have := hle x hx
          omega
      · intro _
        by_cases hnil : callbacks stack readCount n c.tcp c.rest = []
        · rw [hnil]
          exact ⟨c, List.mem_cons_self, by rw [hlen, received]; simp⟩
        · obtain ⟨x, hx, hxlen⟩ := hlast hnil
          exact ⟨x, List.mem_cons_of_mem _ hx, by omega⟩
    · rw [received_cons]
      have h0 : received [] = 0 := rfl
      refine ⟨?_, fun _ => ⟨c, List.mem_cons_self, by omega⟩⟩
      intro x hx
      rw [List.mem_singleton.1 hx]
      omega

/-- **The buffer fits as long as no more than 4095 bytes have come.** In a run of calls on a
connection whose buffer starts empty, the string in `tcp->buf` and its terminator stay inside the
`BUFSIZE` bytes if and only if the reads of the run have stored at most 4095 bytes, counting of each
read those in front of its first NUL. -/
theorem callbacks_fit_iff (stack : Mem) (fd : Int) (ctx : Bytes) (n : Nat) (evs : List ReadEv) :
    (∀ c ∈ callbacks stack readCount n ⟨fd, ctx, []⟩ evs, c.tcp.buf.length + 1 ≤ bufsize) ↔
      received (callbacks stack readCount n ⟨fd, ctx, []⟩ evs) ≤ 4095 := by
  obtain ⟨hle, hlast⟩ := callbacks_buf_length stack n ⟨fd, ctx, []⟩ evs
  have hb : bufsize = 4096 := rfl
  simp only [List.length_nil, Nat.zero_add] at hle hlast
  constructor
  · intro h
    by_cases hnil : callbacks stack readCount n ⟨fd, ctx, []⟩ evs = []
    · rw [hnil]
      exact Nat.zero_le _
    · obtain ⟨c, hc, hlen⟩ := hlast hnil
      have := h c hc
      omega
  · intro h c hc
    have := hle c hc
    omega

theorem analasy_no_cr {s : Bytes} (h : cr ∉ s) : (analasy s).out = .ret none := by
  have hno : strstr s (crlf ++ crlf) = false := by
    rw [Bool.eq_false_iff, Ne, strstr_iff]
    exact fun hi => h (hi.subset List.mem_cons_self)
  unfold analasy
  rw [if_pos hno]

/-- 41 segments of 100 bytes, no line end among them, overrun the buffer. -/
theorem callbacks_overrun :
    ¬∀ (stack : Mem) (fd : Int) (ctx : Bytes) (n : Nat) (evs : List ReadEv),
      ∀ c ∈ callbacks stack readCount n ⟨fd, ctx, []⟩ evs, c.tcp.buf.length + 1 ≤ bufsize := by
  intro h
  have hmem : ∀ x ∈ List.replicate 4100 (97 : UInt8), x = 97 := fun x => List.eq_of_mem_replicate
  have hnul : NulFree (List.replicate 4100 97) := fun h0 => absurd (hmem _ h0) (by decide)
  have hcuts : Cuts (List.replicate 41 (List.replicate 100 97)) (List.replicate 4100 97) :=
    ⟨by rw [List.flatten_replicate_replicate], fun seg hs => by
      rw [List.eq_of_mem_replicate hs]
      decide⟩
  have hcr : ∀ d e, cr ∉ ((List.replicate 4100 (97 : UInt8)).take d).take e := by
    intro d e hc
    have := hmem _ (List.mem_of_mem_take (List.mem_of_mem_take hc))
    exact absurd this (by decide)
  obtain ⟨c, hget, hbuf, -⟩ := @callbacks_stream (fun _ => 0) _ hnul 41 41 40 ⟨7, [], []⟩ _ 0 hcuts
    rfl (Nat.le_refl _) (by decide) (fun j _ => ⟨none, analasy_no_cr (hcr _ _)⟩)
  have hfit := h _ _ _ _ _ c (List.mem_of_getElem? hget)
  rw [hbuf, List.take_replicate, List.length_replicate] at hfit
  exact absurd hfit (by decide)

end HttpCallback
