import HttpCallback.Worker.Basic

/-!
# What the block behind `tcp->buf` held before

`http_tcp_alloc` hands the block for `tcp->buf` on as `malloc` returned it, and the first `strncat`
appends to whatever string it starts with. Two initial contents of the block can be told apart by
what the callbacks leave in it exactly when they start with different strings; the scratch array and
the context's block make no difference.
-/

namespace HttpCallback

open CString

/-! ## What `onRecv` does does not depend on `buf` -/

/-- The same, apart from the contents of the scratch array and of the buffer. -/
structure RecvSt.Alike (st₁ st₂ : RecvSt) : Prop where
  nleft : st₁.nleft = st₂.nleft
  ptr : st₁.ptr = st₂.ptr
  got : st₁.got = st₂.got

structure Recv.Alike (r₁ r₂ : Recv) : Prop where
  st : r₁.st.Alike r₂.st
  rest : r₁.rest = r₂.rest
  fin : r₁.fin = r₂.fin

theorem onRecvLoop_alike (len : UInt64) (evs : List ReadEv) : ∀ {st₁ st₂ : RecvSt},
    st₁.Alike st₂ → (onRecvLoop len evs st₁).Alike (onRecvLoop len evs st₂) := by
  induction evs with
  | nil => exact fun h => ⟨h, rfl, rfl⟩
  | cons ev evs ih =>
    intro st₁ st₂ h
    have hbelow : st₁.below = st₂.below := by
      unfold RecvSt.below
      rw [h.ptr]
    have hnleft : st₁.clear.nleft = st₂.clear.nleft := h.nleft
    have happ : (st₁.clear.append (ev.chunk st₂.clear.nleft.toNat) (ev.nread st₂.clear.nleft)).Alike
        (st₂.clear.append (ev.chunk st₂.clear.nleft.toNat) (ev.nread st₂.clear.nleft)) :=
      ⟨congrArg (· - _) h.nleft, congrArg (· + _) h.ptr, congrArg (· ++ _) h.got⟩
    unfold onRecvLoop
    simp only
    rw [hbelow, hnleft, happ.nleft]
    split
    · exact ⟨h, rfl, rfl⟩
    · rw [if_neg (nread_not_neg _ ev), if_neg (nread_not_neg _ ev)]
      split
      · exact ⟨⟨h.nleft, h.ptr, h.got⟩, rfl, rfl⟩
      · split
        · exact ⟨happ, rfl, rfl⟩
        · exact ih happ

theorem onRecv_alike (stack₁ stack₂ : Mem) (buf₁ buf₂ : Bytes) (len : UInt64) (evs : List ReadEv) :
    (onRecv stack₁ buf₁ len evs).Alike (onRecv stack₂ buf₂ len evs) := by
  unfold onRecv
  simp only
  split
  · exact ⟨⟨rfl, rfl, rfl⟩, rfl, rfl⟩
  · exact onRecvLoop_alike len evs ⟨rfl, rfl, rfl⟩

/-- Whatever the scratch array held, the same bytes are appended to every buffer. -/
theorem callback_appends (stack₁ stack₂ : Mem) (tcp₁ tcp₂ : HttpTcp) (evs : List ReadEv) :
    ∃ got, (callback stack₁ tcp₁ readCount evs).tcp.buf = tcp₁.buf ++ got ∧
      (callback stack₂ tcp₂ readCount evs).tcp.buf = tcp₂.buf ++ got := by
  have hlen : readCount.toNat < readCountBuf := by decide
  refine ⟨((onRecv stack₁ tcp₁.buf readCount evs).st.got.map cstr).flatten, ?_, ?_⟩
  · rw [← onRecv_buf stack₁ tcp₁.buf hlen evs]
    unfold callback
    simp only
    split <;> rfl
  · rw [(onRecv_alike stack₁ stack₂ tcp₁.buf tcp₂.buf readCount evs).st.got,
      ← onRecv_buf stack₂ tcp₂.buf hlen evs]
    unfold callback
    simp only
    split <;> rfl

/-- Two calls on the same buffer end alike. -/
theorem callback_alike (stack₁ stack₂ : Mem) {tcp₁ tcp₂ : HttpTcp} (hbuf : tcp₁.buf = tcp₂.buf)
    (evs : List ReadEv) :
    (callback stack₁ tcp₁ readCount evs).rest = (callback stack₂ tcp₂ readCount evs).rest ∧
      (callback stack₁ tcp₁ readCount evs).fin = (callback stack₂ tcp₂ readCount evs).fin := by
  have hlen : readCount.toNat < readCountBuf := by decide
  obtain ⟨hst, hrest, hfin⟩ := onRecv_alike stack₁ stack₂ tcp₁.buf tcp₂.buf readCount evs
  have hb : (onRecv stack₁ tcp₁.buf readCount evs).st.buf =
      (onRecv stack₂ tcp₂.buf readCount evs).st.buf := by
    rw [onRecv_buf stack₁ tcp₁.buf hlen evs, onRecv_buf stack₂ tcp₂.buf hlen evs, hst.got, hbuf]
  unfold callback
  simp only
  rw [hfin, hrest, hb]
  split <;> exact ⟨rfl, rfl⟩

/-! ## Runs of callbacks -/

/-- What a run of callbacks shows: after each the accumulated buffer, and how it ended, with the
request it returned. -/
def shown (cs : List Callback) : List (Bytes × CallbackEnd) := cs.map fun c => (c.tcp.buf, c.fin)

theorem callbacks_alike (stack₁ stack₂ : Mem) (n : Nat) : ∀ {tcp₁ tcp₂ : HttpTcp}
    (evs : List ReadEv), tcp₁.buf = tcp₂.buf →
    shown (callbacks stack₁ readCount n tcp₁ evs) =
      shown (callbacks stack₂ readCount n tcp₂ evs) := by
  induction n with
  | zero => exact fun _ _ => rfl
  | succ n ih =>
    intro tcp₁ tcp₂ evs hbuf
    obtain ⟨hrest, hfin⟩ := callback_alike stack₁ stack₂ hbuf evs
    obtain ⟨got, hbuf₁, hbuf₂⟩ := callback_appends stack₁ stack₂ tcp₁ tcp₂ evs
    have hbuf' : (callback stack₁ tcp₁ readCount evs).tcp.buf =
        (callback stack₂ tcp₂ readCount evs).tcp.buf := by
      rw [hbuf₁, hbuf₂, hbuf]
    have hret : (callback stack₁ tcp₁ readCount evs).returned =
        (callback stack₂ tcp₂ readCount evs).returned := by
      unfold Callback.returned
      rw [hfin]
    unfold callbacks
    simp only
    rw [hret]
    split
    · have hrec := ih (callback stack₁ tcp₁ readCount evs).rest hbuf'
      unfold shown at hrec ⊢
      rw [List.map_cons, List.map_cons, hbuf', hfin, hrec, hrest]
    · unfold shown
      rw [List.map_singleton, List.map_singleton, hbuf', hfin]

/-- **Two blocks cannot be told apart exactly when they start with the same string.** For whatever
a connection receives and whatever the stack and the block of the context held: two runs on blocks
for `tcp->buf` with the initial contents `m₁` and `m₂` accumulate the same buffers and return the
same requests if and only if `m₁` and `m₂` agree up to their first NUL. -/
theorem recycled_iff (stack₁ stack₂ : Mem) (fd : Int) (ctx₁ ctx₂ m₁ m₂ : Bytes)
    (evs : List ReadEv) :
    (∀ n, shown (callbacks stack₁ readCount n (Worker.httpTcpAlloc fd (cstr ctx₁) (cstr m₁)) evs) =
        shown (callbacks stack₂ readCount n (Worker.httpTcpAlloc fd (cstr ctx₂) (cstr m₂)) evs)) ↔
      cstr m₁ = cstr m₂ := by
  constructor
  · intro h
    obtain ⟨got, hbuf₁, hbuf₂⟩ := callback_appends stack₁ stack₂
      (Worker.httpTcpAlloc fd (cstr ctx₁) (cstr m₁)) (Worker.httpTcpAlloc fd (cstr ctx₂) (cstr m₂))
      evs
    have hone : ∀ stack tcp, callbacks stack readCount 1 tcp evs =
        [callback stack tcp readCount evs] := by
      intro stack tcp
      unfold callbacks
      simp only
      split <;> rfl
    have hfirst := h 1
    rw [hone, hone] at hfirst
    unfold shown at hfirst
    rw [List.map_singleton, List.map_singleton, List.singleton_inj, Prod.mk.injEq, hbuf₁,
      hbuf₂] at hfirst
    exact List.append_cancel_right hfirst.1
  · exact fun h n => callbacks_alike stack₁ stack₂ n evs h

/-- Nothing is received: a block of zeros is left empty, and one that starts with `a` is not. -/
theorem recycled_differs :
    ¬∀ (stack : Mem) (fd : Int) (ctx m₁ m₂ : Bytes) (n : Nat) (evs : List ReadEv),
      m₁.length = bufsize → m₂.length = bufsize →
      shown (callbacks stack readCount n (Worker.httpTcpAlloc fd ctx (cstr m₁)) evs) =
        shown (callbacks stack readCount n (Worker.httpTcpAlloc fd ctx (cstr m₂)) evs) := by
  intro h
  have heq := h (fun _ => 0) 5 [] (0 :: List.replicate 4095 0) (97 :: 0 :: List.replicate 4094 0) 1
    [.data []] (by rw [List.length_cons, List.length_replicate]; rfl)
    (by rw [List.length_cons, List.length_cons, List.length_replicate]; rfl)
  have hzero : cstr (0 :: List.replicate 4095 0) = [] := rfl
  have ha : cstr (97 :: 0 :: List.replicate 4094 0) = [97] := rfl
  rw [hzero, ha] at heq
  exact absurd heq (by decide)

end HttpCallback
