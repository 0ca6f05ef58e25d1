import HttpCallback.Recv.Scratch

/-!
# Errors between the chunks

What a receive should make of a sequence of read outcomes (`recvSpec`): EINTR is passed over, the
end of the stream and EAGAIN end it with the count of the bytes received, any other error ends it
with the error value. `onRecv` cannot: none of its error branches can be taken, and behind a first
chunk that is not all it clears the memory behind its array. What is left are the calls that end
with their first read (`onRecv_meets_iff`).
-/

namespace HttpCallback

open CString

/-- The bytes a receive is to append, and how it ends: it still waits, or it has the count to
return, or an error. -/
structure RecvSpec where
  bytes : Bytes
  ended : Option Bool
  deriving Repr, DecidableEq

/-- A receive of `left` more bytes. -/
def recvSpec : Nat → List ReadEv → RecvSpec
  | 0, _ => ⟨[], some true⟩
  | _ + 1, [] => ⟨[], none⟩
  | left + 1, .data bs :: evs =>
    if bs = [] then ⟨[], some true⟩
    else
      let chunk := bs.take (left + 1)
      let r := recvSpec (left + 1 - chunk.length) evs
      ⟨chunk ++ r.bytes, r.ended⟩
  | left + 1, .fail .eintr :: evs => recvSpec (left + 1) evs
  | _ + 1, .fail .eagain :: _ => ⟨[], some true⟩
  | _ + 1, .fail .other :: _ => ⟨[], some false⟩

/-- How the call ends. -/
def RecvSpec.fin (r : RecvSpec) : RecvEnd :=
  match r.ended with
  | none => .waiting
  | some true => .ret (UInt64.ofNat r.bytes.length)
  | some false => .ret (-1)

/-- The call does what is specified: the bytes are appended to `buf`, the remaining count has gone
down from `len` by their number, and the end is the one specified. -/
structure Recv.Meets (r : Recv) (buf : Bytes) (len : Nat) (spec : RecvSpec) : Prop where
  buf : r.st.buf = buf ++ spec.bytes
  nleft : r.st.nleft.toNat + spec.bytes.length = len
  fin : r.fin = spec.fin

/-- One read is all that a call makes: it asks for no bytes, or the first read has not come in yet,
meets the end of the stream, or stores all the bytes that are asked for. They fill no more than the
scratch array, and it only in front of a NUL. -/
def OneRead (stack : Mem) (len : Nat) (evs : List ReadEv) : Prop :=
  len = 0 ∨ ∀ ev ∈ evs.head?, ev = .data [] ∨
    ∃ bs, ev = .data bs ∧ len ≤ bs.length ∧ len ≤ readCountBuf ∧
      (len = readCountBuf → stack len = 0)

/-! ## The specification -/

theorem recvSpec_zero (evs : List ReadEv) : recvSpec 0 evs = ⟨[], some true⟩ := by
  cases evs <;> rfl

theorem recvSpec_nil {left : Nat} (hpos : 0 < left) : recvSpec left [] = ⟨[], none⟩ := by
  obtain ⟨left, rfl⟩ := Nat.exists_eq_succ_of_ne_zero (Nat.ne_of_gt hpos)
  rfl

theorem recvSpec_eof {left : Nat} (hpos : 0 < left) (evs : List ReadEv) :
    recvSpec left (.data [] :: evs) = ⟨[], some true⟩ := by
  obtain ⟨left, rfl⟩ := Nat.exists_eq_succ_of_ne_zero (Nat.ne_of_gt hpos)
  rfl

/-- A read that stores the last bytes wanted. -/
theorem recvSpec_full {left : Nat} (hpos : 0 < left) {bs : Bytes} (hfull : left ≤ bs.length)
    (evs : List ReadEv) : recvSpec left (.data bs :: evs) = ⟨bs.take left, some true⟩ := by
  have hne : bs ≠ [] := List.length_pos_iff.1 (hpos.trans_le hfull)
  obtain ⟨left, rfl⟩ := Nat.exists_eq_succ_of_ne_zero (Nat.ne_of_gt hpos)
  simp only [recvSpec, if_neg hne, List.length_take_of_le hfull, Nat.sub_self, recvSpec_zero,
    List.append_nil]

/-- Of a failed read no bytes are specified. -/
theorem recvSpec_fail {left : Nat} (hpos : 0 < left) (e : Errno) :
    (recvSpec left [.fail e]).bytes = [] := by
  obtain ⟨left, rfl⟩ := Nat.exists_eq_succ_of_ne_zero (Nat.ne_of_gt hpos)
  cases e <;> rfl

/-! ## One call -/

/-- One turn of the loop on a failed read, which counts as one of `2^64 - 1` bytes. -/
theorem onRecvLoop_fail (len : UInt64) (e : Errno) (evs : List ReadEv) {st : RecvSt}
    (hb : st.below = false) :
    onRecvLoop len (.fail e :: evs) st =
      let st₁ := st.clear.append [] (-1)
      if st₁.nleft = 0 then ⟨st₁, evs, .ret (len - st₁.nleft)⟩ else onRecvLoop len evs st₁ := by
  have hne : (ReadEv.fail e).nread st.clear.nleft ≠ 0 := by
    rw [nread_fail]
    decide
  simp only [onRecvLoop, hb, Bool.false_eq_true, if_false]
  rw [if_neg (nread_not_neg _ _), if_neg hne]
  rfl

section Call

variable (stack : Mem) (buf : Bytes) {len : UInt64}

/-- A failed read leaves another count than is specified. -/
theorem onRecv_fail_not_meets (hpos : 0 < len.toNat) (e : Errno) :
    ¬(onRecv stack buf len [.fail e]).Meets buf len.toNat (recvSpec len.toNat [.fail e]) := by
  intro hm
  have hnleft := hm.nleft
  rw [recvSpec_fail hpos, List.length_nil, Nat.add_zero] at hnleft
  have h0 : len ≠ 0 := fun h => absurd (toNat_eq_zero.2 h) (Nat.ne_of_gt hpos)
  have hl : (len - -1).toNat = (2 ^ 64 - (2 ^ 64 - 1) + len.toNat) % 2 ^ 64 :=
    UInt64.toNat_sub _ _
  have hlt := len.toNat_lt
  have hst : (onRecv stack buf len [.fail e]).st.nleft = len - -1 := by
    unfold onRecv
    rw [if_neg h0, onRecvLoop_fail len e [] rfl]
    simp only
    split <;> rfl
  rw [hst, hl] at hnleft
  omega

/-- A call whose one read is the end of the stream. -/
theorem onRecv_eof_meets (hpos : 0 < len.toNat) (evs : List ReadEv) :
    (onRecv stack buf len (.data [] :: evs)).Meets buf len.toNat
        (recvSpec len.toNat (.data [] :: evs)) ∧
      (onRecv stack buf len (.data [] :: evs)).Inside := by
  obtain ⟨st, hnleft, -, hbuf, hrecv⟩ := onRecv_eof stack buf hpos evs
  refine ⟨?_, onRecv_eof_inside stack buf hpos evs⟩
  rw [recvSpec_eof hpos, hrecv]
  exact ⟨hbuf.trans (List.append_nil _).symm, congrArg UInt64.toNat hnleft, rfl⟩

/-- A call whose one read stores all bytes does what is specified, inside the array, exactly when
they fit it and the string that is appended ends with them. -/
theorem onRecv_full_meets_iff (hpos : 0 < len.toNat) {bs : Bytes} (hnul : NulFree bs)
    (hfull : len.toNat ≤ bs.length) (evs : List ReadEv) :
    ((onRecv stack buf len (.data bs :: evs)).Meets buf len.toNat
          (recvSpec len.toNat (.data bs :: evs)) ∧
        (onRecv stack buf len (.data bs :: evs)).Inside) ↔
      len.toNat ≤ readCountBuf ∧ (len.toNat = readCountBuf → stack len.toNat = 0) := by
  obtain ⟨st, hnleft, -, hbuf, hrecv⟩ := onRecv_full stack buf hpos hfull evs
  rw [onRecv_full_inside_iff stack buf hpos hfull, recvSpec_full hpos hfull, hrecv]
  constructor
  · rintro ⟨hmeets, hle⟩
    exact ⟨hle, fun heq => (hbuf hnul).1 hmeets.buf heq.ge⟩
  · rintro ⟨hle, hzero⟩
    refine ⟨⟨(hbuf hnul).2 fun hge => hzero (hle.antisymm hge), ?_, ?_⟩, hle⟩
    · rw [hnleft, List.length_take_of_le hfull]
      exact Nat.zero_add _
    · simp only [RecvSpec.fin, List.length_take_of_le hfull, UInt64.ofNat_toNat]

/-- A call that has not got all bytes at once has cleared behind its first chunk. -/
theorem onRecv_short_not_inside {bs : Bytes} (hne : bs ≠ []) (hlt : bs.length < len.toNat) :
    ¬(onRecv stack buf len [.data bs]).Inside := by
  obtain ⟨st, hptr, hrecv⟩ := onRecv_short stack buf hne hlt []
  have hpos := List.length_pos_iff.2 hne
  intro h
  rw [hrecv] at h
  have hin := h (st.ptr, readCountBuf) (List.mem_append_right _ List.mem_cons_self)
  simp only at hin
  omega

end Call

/-- **`onRecv` does what is specified exactly where one read is all.** For every requested length
and every sequence of read outcomes whose chunks are NUL-free: after each of the reads `buf` has
grown by the bytes specified, the remaining count has gone down by their number, the call waits or
has returned as specified, and only the scratch array has been cleared and filled, if and only if no
bytes are asked for, or no read has come in, or the first meets the end of the stream or stores all
the bytes: not more than the array holds, and so many only in front of a NUL. -/
theorem onRecv_meets_iff (stack : Mem) (buf : Bytes) (len : UInt64) {evs : List ReadEv}
    (hnul : ∀ bs, .data bs ∈ evs → NulFree bs) :
    (∀ evs', evs' <+: evs →
        (onRecv stack buf len evs').Meets buf len.toNat (recvSpec len.toNat evs') ∧
          (onRecv stack buf len evs').Inside) ↔
      OneRead stack len.toNat evs := by
  by_cases hlen : len = 0
  · subst hlen
    refine iff_of_true (fun evs' _ => ?_) (Or.inl rfl)
    have hspec : recvSpec (0 : UInt64).toNat evs' = ⟨[], some true⟩ := recvSpec_zero evs'
    rw [hspec]
    exact ⟨⟨(List.append_nil _).symm, rfl, rfl⟩, List.forall_mem_nil _⟩
  · have hpos : 0 < len.toNat := Nat.pos_of_ne_zero fun h => hlen (toNat_eq_zero.1 h)
    -- before the first read the call waits
    have hnil : (onRecv stack buf len []).Meets buf len.toNat (recvSpec len.toNat []) ∧
        (onRecv stack buf len []).Inside := by
      unfold onRecv
      rw [recvSpec_nil hpos, if_neg hlen]
      refine ⟨⟨(List.append_nil _).symm, rfl, rfl⟩, ?_⟩
      exact Recv.inside_of_touched (Nat.zero_le _)
        (List.subset_append_left [(0, readCountBuf)] [(0, 0)])
    unfold OneRead
    rw [or_iff_right (Nat.ne_of_gt hpos)]
    cases evs with
    | nil =>
      refine iff_of_true (fun evs' hpre => ?_) nofun
      rw [List.prefix_nil.1 hpre]
      exact hnil
    | cons ev evs =>
      simp only [List.head?_cons, Option.mem_some_iff, forall_eq']
      constructor
      · intro h
        have hone := h [ev] ⟨evs, rfl⟩
        cases ev with
        | fail e => exact absurd hone.1 (onRecv_fail_not_meets stack buf hpos e)
        | data bs =>
          by_cases hne : bs = []
          · exact Or.inl (congrArg _ hne)
          · have hfull : len.toNat ≤ bs.length := by
              by_contra hlt
              exact onRecv_short_not_inside stack buf hne (Nat.lt_of_not_le hlt) hone.2
            exact Or.inr ⟨bs, rfl, hfull,
              (onRecv_full_meets_iff stack buf hpos (hnul bs List.mem_cons_self) hfull []).1 hone⟩
      · intro h evs' hpre
        rcases List.prefix_cons_iff.1 hpre with rfl | ⟨evs', rfl, -⟩
        · exact hnil
        · rcases h with rfl | ⟨bs, rfl, hfull, hfit⟩
          · exact onRecv_eof_meets stack buf hpos evs'
          · exact (onRecv_full_meets_iff stack buf hpos (hnul bs List.mem_cons_self) hfull evs').2
              hfit

/-- 100 bytes in one read. -/
theorem onRecv_meets_chunk :
    (onRecv (fun _ => 0) [] readCount [.data (List.replicate 100 97)]).Meets [] 100
        (recvSpec 100 [.data (List.replicate 100 97)]) ∧
      (onRecv (fun _ => 0) [] readCount [.data (List.replicate 100 97)]).Inside := by
  have hnul : ∀ bs, .data bs ∈ [ReadEv.data (List.replicate 100 97)] → NulFree bs := by
    intro bs hbs
    rw [List.mem_singleton, ReadEv.data.injEq] at hbs
    rw [hbs]
    decide
  refine (onRecv_meets_iff (fun _ => 0) [] readCount hnul).2 (Or.inr ?_) _ (List.prefix_refl _)
  rintro ev ⟨⟩
  exact Or.inr ⟨_, rfl, by decide, by decide, fun _ => rfl⟩

/-- On a drained socket the call does not return. -/
theorem onRecv_eagain :
    ¬∀ (stack : Mem) (buf : Bytes) (len : UInt64) (evs : List ReadEv),
      (∀ bs, .data bs ∈ evs → NulFree bs) →
      (onRecv stack buf len evs).Meets buf len.toNat (recvSpec len.toNat evs) := by
  intro h
  have hfin := (h (fun _ => 0) [] readCount [.fail .eagain] (by simp)).fin
  exact absurd hfin (by decide)

end HttpCallback
