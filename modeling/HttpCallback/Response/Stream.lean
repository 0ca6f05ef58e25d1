import HttpCallback.Request.Results
import HttpCallback.Response

/-!
# The stream of a response

`responseOk` takes the success of `stat` for that of `fopen`, and its copy loop tests the
end-of-file indicator alone. A read that fails sets the error indicator, which is looked at behind
the loop only, so the loop ends as it should exactly when the file can be opened and no read fails
in front of the end of the file (`responseOk_ends_iff`).
-/

namespace HttpCallback

open CString

namespace Fread

def isEof : Fread → Bool
  | .eof _ => true
  | _ => false

def isError : Fread → Bool
  | .error _ => true
  | _ => false

end Fread

/-- No read has failed before the end of the file was met. -/
def ReadsClean (fs : List Fread) : Prop := ∀ f ∈ fs.takeWhile (!·.isEof), f.isError = false

/-- How a call ends whose sends all return. -/
def streamEnd : Option (List Fread) → ResponseEnd
  | none => .nullStream
  | some fs => if (copyLoop fs).2 then .ret else .reading

/-! ## The copy loop -/

theorem forall_split_cons {α : Type*} {p : List α → α → Prop} {a : α} {as : List α} :
    (∀ pre x post, a :: as = pre ++ x :: post → p pre x) ↔
      p [] a ∧ ∀ pre x post, as = pre ++ x :: post → p (a :: pre) x := by
  constructor
  · intro h
    exact ⟨h [] a as rfl, fun pre x post heq => h (a :: pre) x post (congrArg (a :: ·) heq)⟩
  · rintro ⟨hhead, htail⟩ pre x post heq
    rcases pre with - | ⟨b, pre⟩
    · cases heq
      exact hhead
    · obtain ⟨rfl, hrest⟩ := List.cons.inj heq
      exact htail pre x post hrest

/-- The loop has ended behind each read that reports the end of the file or an error, exactly on
clean reads. -/
theorem copyLoop_ends_iff (fs : List Fread) :
    (∀ pre f post, fs = pre ++ f :: post → (f.isEof || f.isError) = true →
      (copyLoop (pre ++ [f])).2 = true) ↔ ReadsClean fs := by
  unfold ReadsClean
  induction fs with
  | nil => simp
  | cons f fs ih =>
    rw [forall_split_cons]
    cases f with
    | data bs =>
      have hstep : ∀ fs, (copyLoop (.data bs :: fs)).2 = (copyLoop fs).2 := fun _ => rfl
      simp only [List.cons_append, hstep, ih]
      simp [Fread.isEof, Fread.isError]
    | eof bs => simp [Fread.isEof, copyLoop]
    | error bs => simp [Fread.isEof, Fread.isError, copyLoop]

/-! ## Sends that do not wait -/

/-- When every send fails, no statement waits. -/
theorem runOps_fail (ops : List SendOp) : ∀ n, ops.length ≤ n →
    (runOps ops (List.replicate n (.fail .other))).fin ≠ .waiting := by
  induction ops with
  | nil =>
    intro n _ h
    cases h
  | cons op ops ih =>
    intro n hn
    obtain ⟨n, rfl⟩ := Nat.exists_eq_succ_of_ne_zero (Nat.ne_of_gt (Nat.zero_lt_of_lt hn))
    have hn' : ops.length ≤ n := Nat.le_of_succ_le_succ hn
    unfold runOps
    rw [List.replicate_succ]
    cases op with
    | send buf => exact ih n hn'
    | httpSend buf =>
      simp only [SendOp.run, httpSend]
      by_cases hne : buf = []
      · rw [hne, httpSendLoop_nil]
        exact ih (n + 1) (Nat.le_succ_of_le hn')
      · rw [httpSendLoop_fail _ _ hne, if_pos rfl]
        exact ih n hn'

section Response

variable (pathName : Bytes) (stSize : Int)

/-- Behind sends that return, the end is the one of the stream. -/
theorem responseOk_fin {localFp : Option (List Fread)} {evs : List SendEv}
    (h : (runOps (responseOps pathName stSize localFp) evs).fin ≠ .waiting) :
    (responseOk pathName stSize localFp evs).fin = streamEnd localFp := by
  unfold responseOk
  simp only
  cases hfin : (runOps (responseOps pathName stSize localFp) evs).fin with
  | waiting => exact absurd hfin h
  | ret n => cases localFp <;> rfl

theorem responseOk_waiting {localFp : Option (List Fread)} {evs : List SendEv}
    (h : (runOps (responseOps pathName stSize localFp) evs).fin = .waiting) :
    (responseOk pathName stSize localFp evs).fin = .waiting := by
  unfold responseOk
  simp only [h]

/-- Every end of the stream is met by some run of the sends. -/
theorem forall_responseOk_fin (localFp : Option (List Fread)) {fin : ResponseEnd}
    (hfin : fin ≠ .waiting) :
    (∀ evs, (responseOk pathName stSize localFp evs).fin ≠ fin) ↔ streamEnd localFp ≠ fin := by
  constructor
  · intro h
    have hwait := runOps_fail (responseOps pathName stSize localFp) _ (Nat.le_refl _)
    rw [← responseOk_fin pathName stSize hwait]
    exact h _
  · intro h evs
    by_cases hwait : (runOps (responseOps pathName stSize localFp) evs).fin = .waiting
    · rw [responseOk_waiting pathName stSize hwait]
      exact hfin.symm
    · rw [responseOk_fin pathName stSize hwait]
      exact h

theorem responseOk_nullStream_iff (localFp : Option (List Fread)) :
    (∀ evs, (responseOk pathName stSize localFp evs).fin ≠ .nullStream) ↔ localFp ≠ none := by
  have hne : ResponseEnd.nullStream ≠ .waiting := by decide
  rw [forall_responseOk_fin pathName stSize localFp hne]
  cases localFp with
  | none => simp [streamEnd]
  | some fs =>
    unfold streamEnd
    simp only
    split <;> simp

theorem responseOk_reading_iff (fs : List Fread) :
    (∀ evs, (responseOk pathName stSize (some fs) evs).fin ≠ .reading) ↔
      (copyLoop fs).2 = true := by
  have hne : ResponseEnd.reading ≠ .waiting := by decide
  rw [forall_responseOk_fin pathName stSize (some fs) hne]
  simp [streamEnd]

/-- **When the stream is used as it should be.** For every path and all outcomes of `fopen` and of
the reads: no call uses a NULL stream, and a call whose last read has reported the end of the file
or an error reads no more, if and only if the file was opened and no read has failed before the end
of the file was met. -/
theorem responseOk_ends_iff (localFp : Option (List Fread)) :
    ((∀ evs, (responseOk pathName stSize localFp evs).fin ≠ .nullStream) ∧
      ∀ fs, localFp = some fs → ∀ pre f post, fs = pre ++ f :: post →
        (f.isEof || f.isError) = true →
        ∀ evs, (responseOk pathName stSize (some (pre ++ [f])) evs).fin ≠ .reading) ↔
      ∃ fs, localFp = some fs ∧ ReadsClean fs := by
  rw [responseOk_nullStream_iff]
  simp only [responseOk_reading_iff, copyLoop_ends_iff]
  cases localFp with
  | none => simp
  | some fs => simp

end Response

/-- `/d` is a directory, which can be opened and not be read. -/
theorem responseOk_ends_dir :
    ¬∀ (stale : Mem) (fs : FileSystem) (req : HttpRequest) (pathName : Bytes) (stSize : Int)
      (pre : List Fread) (f : Fread) (evs : List SendEv),
      (httpModuleHandlerResponse stale fs req).InBounds →
      (httpModuleHandlerResponse stale fs req).reply = .responseOk pathName →
      (f.isEof || f.isError) = true →
      (responseOk pathName stSize (some (pre ++ [f])) evs).fin ≠ .reading := by
  intro h
  have hin := plain_sampleDir.inBounds stops_sampleDir fun _ => some .dir
  have hreply := @reply_dir (fun _ => 32) (fun _ => some .dir) _ plain_sampleDir served_sampleDir
    rfl
  have hends := (responseOk_reading_iff _ 4096 [.error []]).1 fun evs =>
    h _ _ _ _ 4096 [] (.error []) evs hin hreply rfl
  cases hends

end HttpCallback
