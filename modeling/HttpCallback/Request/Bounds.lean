import HttpCallback.Request.Basic

/-!
# The array accesses of an answer

The text `method ' ' url` has to fit `buff_filename`, its first word `method`, and its second word
`url`. The copy of the second word does not stop at the terminator: it runs on to the next white
space in whatever the array held before, and stores one byte more than it has copied when it meets
its bound first. `httpModuleHandlerResponse_inBounds_iff` gives the exact condition.

An access outside leaves no result that can be relied on (compiled, the byte behind the url is the
first of the method): `HandlerResponse.checked` has a result of the calls inside their arrays only.
-/

namespace HttpCallback

open CString

structure AcceptRequest.InBounds (a : AcceptRequest) : Prop where
  buf : ∀ i ∈ a.bufIx, i < buffsize
  method : ∀ i ∈ a.methodIx, i < partsize
  url : ∀ i ∈ a.urlIx, i < partsize
  localPath : ∀ i ∈ a.localPathIx, i < buffsize

/-- Every access made while a request is answered stays inside its array. -/
structure HandlerResponse.InBounds (h : HandlerResponse) : Prop where
  filename : h.filename.length + 1 ≤ buffsize
  accept : h.accept.InBounds

instance (a : AcceptRequest) : Decidable a.InBounds :=
  decidable_of_iff ((∀ i ∈ a.bufIx, i < buffsize) ∧ (∀ i ∈ a.methodIx, i < partsize) ∧
      (∀ i ∈ a.urlIx, i < partsize) ∧ ∀ i ∈ a.localPathIx, i < buffsize)
    ⟨fun ⟨hb, hm, hu, hl⟩ => ⟨hb, hm, hu, hl⟩, fun h => ⟨h.buf, h.method, h.url, h.localPath⟩⟩

instance (h : HandlerResponse) : Decidable h.InBounds :=
  decidable_of_iff (h.filename.length + 1 ≤ buffsize ∧ h.accept.InBounds)
    ⟨fun ⟨hf, ha⟩ => ⟨hf, ha⟩, fun h => ⟨h.filename, h.accept⟩⟩

/-- The call, with an access outside an array as an outcome of its own. -/
def AcceptRequest.checked (a : AcceptRequest) : Option AcceptRequest :=
  if a.InBounds then some a else none

def HandlerResponse.checked (h : HandlerResponse) : Option HandlerResponse :=
  if h.InBounds then some h else none

theorem HandlerResponse.InBounds.checked {h : HandlerResponse} (hin : h.InBounds) :
    h.checked = some h := if_pos hin

/-- What holds of the result of every call inside its arrays. -/
theorem AcceptRequest.forall_checked {a : AcceptRequest} {P : AcceptRequest → Prop} :
    (∀ b, a.checked = some b → P b) ↔ (a.InBounds → P a) := by
  unfold checked
  split <;> simp [*]

theorem HandlerResponse.forall_checked {h : HandlerResponse} {P : HandlerResponse → Prop} :
    (∀ h', h.checked = some h' → P h') ↔ (h.InBounds → P h) := by
  unfold checked
  split <;> simp [*]

theorem HandlerResponse.exists_checked {h : HandlerResponse} {P : HandlerResponse → Prop} :
    (∃ h', h.checked = some h' ∧ P h') ↔ h.InBounds ∧ P h := by
  unfold checked
  split <;> simp [*]

/-- The array `buf` behind the `strcpy` of the text `s`. -/
def textBuf (stale : Mem) (s : Bytes) : Mem := stale.write 0 (s ++ [0])

/-- The index at which the second word of `s` starts. -/
def secondStart (s : Bytes) : Nat := (firstWord s).length + (gap s).length

/-- What ends the copy of the second word of `s` in bounds: from its start on, white space stands
within `PARTSIZE` bytes and inside `buf`, in the text or among the stale bytes behind it. -/
def Stops (stale : Mem) (s : Bytes) : Prop :=
  ∃ k, secondStart s ≤ k ∧ k < secondStart s + partsize ∧ k < buffsize ∧
    isspace (textBuf stale s k) = true

theorem forall_stringIx {s : Bytes} {n : Nat} : (∀ i ∈ stringIx s, i < n) ↔ s.length < n := by
  unfold stringIx
  constructor
  · intro h
    exact h _ (List.mem_range.2 (Nat.lt_succ_self _))
  · intro h i hi
    have := List.mem_range.1 hi
    omega

theorem forall_range' {j l n : Nat} : (∀ i ∈ List.range' j (l + 1), i < n) ↔ j + l < n := by
  constructor
  · intro h
    exact h _ (List.mem_range'_1.2 ⟨Nat.le_add_right _ _, by omega⟩)
  · intro h i hi
    have := (List.mem_range'_1.1 hi).2
    omega

theorem holds_textBuf (stale : Mem) (s : Bytes) :
    (textBuf stale s).Holds 0
      (firstWord s ++ (gap s ++ (secondWord s ++ (behindWords s ++ [0])))) := by
  have h := Mem.holds_write stale 0 (s ++ [0])
  have hs : s ++ [0] = firstWord s ++ (gap s ++ (secondWord s ++ (behindWords s ++ [0]))) := by
    rw [← List.append_assoc (secondWord s), ← List.append_assoc (gap s), ← List.append_assoc,
      ← words_append]
  unfold textBuf
  rw [hs] at h ⊢
  exact h

/-! ## The three loops -/

section Loops

variable (stale : Mem) {s : Bytes}

theorem not_isspace_firstWord : ∀ b ∈ firstWord s, isspace b = false := by
  intro b hb
  simpa using List.mem_takeWhile_imp hb

theorem not_isspace_secondWord : ∀ b ∈ secondWord s, isspace b = false := by
  intro b hb
  simpa using List.mem_takeWhile_imp hb

theorem isspace_gap : ∀ b ∈ gap s, isspace b = true := fun _ hb => List.mem_takeWhile_imp hb

/-- A dropped run is empty or ends in front of a byte of the other kind. -/
theorem dropWhile_eq_cons {p : UInt8 → Bool} {t : Bytes} (h : t.dropWhile p ≠ []) :
    ∃ x r, t.dropWhile p = x :: r ∧ p x = false := by
  obtain ⟨x, r, hx⟩ := List.exists_cons_of_ne_nil h
  refine ⟨x, r, hx, ?_⟩
  have := List.head_dropWhile_not p (l := t) h
  simpa [hx] using this

/-- White space follows the first word of a text that holds any. -/
theorem gap_eq_cons (hsp : ∃ b ∈ s, isspace b = true) :
    ∃ x g, gap s = x :: g ∧ isspace x = true := by
  have hne : s.dropWhile (!isspace ·) ≠ [] := by
    intro hnil
    obtain ⟨b, hb, hs⟩ := hsp
    have := List.dropWhile_eq_nil_iff.1 hnil b hb
    rw [hs] at this
    cases this
  obtain ⟨x, r, hx, hs⟩ := dropWhile_eq_cons hne
  have hs' : isspace x = true := by simpa using hs
  refine ⟨x, r.takeWhile isspace, ?_, hs'⟩
  unfold gap
  rw [hx, List.takeWhile_cons_of_pos hs']

/-- What follows the gap, the terminator taken in, does not start with white space. -/
theorem behind_gap_eq_cons (s : Bytes) :
    ∃ x r, secondWord s ++ (behindWords s ++ [0]) = x :: r ∧ isspace x = false := by
  have h0 : isspace 0 = false := rfl
  unfold secondWord behindWords
  rw [← List.append_assoc, List.takeWhile_append_dropWhile]
  by_cases hnil : (s.dropWhile (!isspace ·)).dropWhile isspace = []
  · rw [hnil]
    exact ⟨0, [], rfl, h0⟩
  · obtain ⟨x, r, hx, hs⟩ := dropWhile_eq_cons hnil
    rw [hx]
    exact ⟨x, r ++ [0], rfl, hs⟩

/-- The first loop stops in front of its bound when the first word does, and has then copied it. -/
theorem copyPart_first (hsp : ∃ b ∈ s, isspace b = true) (hw : (firstWord s).length < partsize) :
    (copyPart (textBuf stale s) partsize 0).text = firstWord s ∧
      (copyPart (textBuf stale s) partsize 0).stop = (firstWord s).length := by
  obtain ⟨x, g, hg, hx⟩ := gap_eq_cons hsp
  have hold := holds_textBuf stale s
  rw [hg] at hold
  have htext := copyPart_word not_isspace_firstWord hx hold hw
  refine ⟨htext, ?_⟩
  rw [(copyPart_copied _ _ _).stop, htext, Nat.zero_add]

theorem copyPart_first_lt (h : (copyPart (textBuf stale s) partsize 0).text.length < partsize) :
    (firstWord s).length < partsize := by
  have hend := (copyPart_copied (textBuf stale s) partsize 0).ended h
  generalize (copyPart (textBuf stale s) partsize 0).text.length = l at h hend
  by_contra hge
  have hl : l < (firstWord s).length := by omega
  have hl' : l < (firstWord s ++ (gap s ++ (secondWord s ++ (behindWords s ++ [0])))).length := by
    rw [List.length_append]
    omega
  have hbyte := holds_textBuf stale s l hl'
  rw [List.getElem_append_left hl] at hbyte
  rw [hbyte, not_isspace_firstWord _ (List.getElem_mem hl)] at hend
  cases hend

/-- The skip stops at the second word. -/
theorem skipSpace_second (hs : s.length < buffsize) :
    (skipSpace (textBuf stale s) (buffsize - (firstWord s).length) (firstWord s).length).stop =
        secondStart s ∧
      (skipSpace (textBuf stale s) (buffsize - (firstWord s).length) (firstWord s).length).reads =
        List.range' (firstWord s).length ((gap s).length + 1) := by
  obtain ⟨x, r, hx, hsx⟩ := behind_gap_eq_cons s
  have hold := (holds_textBuf stale s).behind
  rw [hx, Nat.zero_add] at hold
  have hlen := congrArg List.length (words_append s)
  rw [List.length_append, List.length_append] at hlen
  exact skipSpace_gap isspace_gap hsx hold (by omega)

theorem secondStart_le (s : Bytes) : secondStart s ≤ s.length := by
  have hlen := congrArg List.length (words_append s)
  rw [List.length_append, List.length_append] at hlen
  unfold secondStart
  omega

end Loops

/-! ## The accesses of `acceptRequest` -/

theorem splitRequest_ix {stale buf : Mem} {s : Bytes} {m ws u : Scan}
    (hb : textBuf stale s = buf) (hm : copyPart buf partsize 0 = m)
    (hws : skipSpace buf (buffsize - m.stop) m.stop = ws) (hu : copyPart buf partsize ws.stop = u) :
    (splitRequest stale s).bufIx = stringIx s ++ m.reads ++ ws.reads ++ u.reads ∧
      (splitRequest stale s).methodIx = stringIx m.text ∧
      (splitRequest stale s).urlIx = stringIx u.text := by
  unfold textBuf at hb
  unfold splitRequest
  simp only [hb, hm, hws, hu, and_self]

/-- The indices, whichever way the call returns. -/
theorem acceptRequest_ix (stale : Mem) (fs : FileSystem) (s : Bytes) :
    (acceptRequest stale fs s).bufIx = (splitRequest stale s).bufIx ∧
      (acceptRequest stale fs s).methodIx = (splitRequest stale s).methodIx ∧
      (acceptRequest stale fs s).urlIx = (splitRequest stale s).urlIx := by
  unfold acceptRequest
  simp only
  split
  · exact ⟨rfl, rfl, rfl⟩
  · split <;> exact ⟨rfl, rfl, rfl⟩

theorem length_cstr_le (s : Bytes) : (cstr s).length ≤ s.length :=
  (List.takeWhile_prefix _).length_le

theorem length_splitRequest_url (stale : Mem) (s : Bytes) :
    (splitRequest stale s).url.length ≤ partsize + 1 := by
  unfold splitRequest
  simp only
  generalize (skipSpace _ _ _).stop = j
  have hle := (copyPart_copied (stale.write 0 (s ++ [0])) partsize j).le
  generalize (copyPart (stale.write 0 (s ++ [0])) partsize j).text = w at hle
  have hurl := length_cstr_le (w ++ [0])
  rw [List.length_append, List.length_singleton] at hurl
  exact hurl.trans (Nat.succ_le_succ hle)

/-- The path always fits: the url is at most `PARTSIZE` bytes long. -/
theorem acceptRequest_localPath (stale : Mem) (fs : FileSystem) (s : Bytes) :
    ∀ i ∈ (acceptRequest stale fs s).localPathIx, i < buffsize := by
  have hurl := length_splitRequest_url stale s
  unfold acceptRequest
  simp only
  generalize (splitRequest stale s).url = url at hurl
  have hroot : root.length = 25 := by decide
  have hindex : indexHtml.length = 10 := by decide
  have hp : partsize = 512 := rfl
  have hb : buffsize = 1024 := rfl
  have hopen : (openPath url).length ≤ 25 + url.length + 10 := by
    unfold openPath
    simp only
    split
    · simp only [List.length_append, hroot, hindex, Nat.le_refl]
    · simp only [List.length_append, hroot, Nat.le_add_right]
  split
  · nofun
  · split
    · exact forall_stringIx.2 (by omega)
    · apply forall_stringIx.2
      rw [List.length_append, List.length_cons]
      omega
    · exact forall_stringIx.2 (by omega)

/-- **Where the accesses stay in bounds.** The text fits, its first word fits, and the copy of the
second word meets white space. -/
theorem acceptRequest_inBounds_iff (stale : Mem) (fs : FileSystem) {s : Bytes}
    (hsp : ∃ b ∈ s, isspace b = true) :
    (acceptRequest stale fs s).InBounds ↔
      s.length < buffsize ∧ (firstWord s).length < partsize ∧ Stops stale s := by
  unfold Stops
  have hcopied := fun j => copyPart_copied (textBuf stale s) partsize j
  obtain ⟨hbuf, hmethod, hurl⟩ := acceptRequest_ix stale fs s
  obtain ⟨hbuf', hmethod', hurl'⟩ := splitRequest_ix (rfl : textBuf stale s = _) rfl rfl rfl
  rw [hbuf'] at hbuf
  rw [hmethod'] at hmethod
  rw [hurl'] at hurl
  constructor
  · intro h
    have hin := h.buf
    rw [hbuf] at hin
    have hs : s.length < buffsize := by
      refine forall_stringIx.1 fun i hi => hin i ?_
      simp only [List.mem_append]
      exact Or.inl (Or.inl (Or.inl hi))
    have hm := h.method
    rw [hmethod] at hm
    have hw := copyPart_first_lt stale (forall_stringIx.1 hm)
    have hstop := (copyPart_first stale hsp hw).2
    have hu := h.url
    rw [hurl, hstop, (skipSpace_second stale hs).1] at hu
    refine ⟨hs, hw, ((hcopied (secondStart s)).lt_iff _).1 ⟨forall_stringIx.1 hu, ?_⟩⟩
    rw [hstop, (skipSpace_second stale hs).1, (hcopied (secondStart s)).reads] at hin
    refine forall_range'.1 fun i hi => hin i ?_
    exact List.mem_append_right _ hi
  · rintro ⟨hs, hw, hk⟩
    obtain ⟨htext, hstop⟩ := copyPart_first stale hsp hw
    obtain ⟨hstop₂, hreads₂⟩ := skipSpace_second stale hs
    obtain ⟨hlt, hlim⟩ := ((hcopied (secondStart s)).lt_iff _).2 hk
    have hstart := secondStart_le s
    unfold secondStart at hstart
    refine ⟨?_, ?_, ?_, acceptRequest_localPath stale fs s⟩
    · rw [hbuf, hstop, hstop₂, hreads₂, (hcopied 0).reads, (hcopied (secondStart s)).reads, htext]
      intro i hi
      simp only [List.mem_append] at hi
      rcases hi with ((hi | hi) | hi) | hi
      · exact forall_stringIx.2 hs i hi
      · exact forall_range'.2 (by omega) i hi
      · exact forall_range'.2 (by omega) i hi
      · exact forall_range'.2 hlim i hi
    · rw [hmethod, htext]
      exact forall_stringIx.2 hw
    · rw [hurl, hstop, hstop₂]
      exact forall_stringIx.2 hlt

/-! ## The accesses of an answer -/

theorem HttpRequest.isspace_line (req : HttpRequest) : ∃ b ∈ req.line, isspace b = true :=
  ⟨sp, List.mem_append_right _ List.mem_cons_self, rfl⟩

/-- The text that is built fits `buff_filename` when it fits `buf`. -/
theorem inBounds_iff_accept {stale : Mem} {fs : FileSystem} {req : HttpRequest} :
    (httpModuleHandlerResponse stale fs req).InBounds ↔
      (acceptRequest stale fs req.line).InBounds := by
  refine ⟨HandlerResponse.InBounds.accept, fun h => ⟨?_, h⟩⟩
  exact ((acceptRequest_inBounds_iff stale fs req.isspace_line).1 h).1

/-- **An answer stays in bounds exactly when its words fit and the copy of the second meets white
space.** For every request, whether the parser can produce it or not: `method ' ' url` is at most
1023 bytes long, its first word at most 511, and from the start of the second word on there is white
space within 512 bytes and below index 1024, in the text or among the stale bytes behind it. -/
theorem httpModuleHandlerResponse_inBounds_iff (stale : Mem) (fs : FileSystem)
    (req : HttpRequest) :
    (httpModuleHandlerResponse stale fs req).InBounds ↔
      req.line.length < buffsize ∧ (firstWord req.line).length < partsize ∧
        ∃ k, secondStart req.line ≤ k ∧ k < secondStart req.line + partsize ∧ k < buffsize ∧
          isspace (textBuf stale req.line k) = true := by
  have haccept := acceptRequest_inBounds_iff stale fs req.isspace_line
  unfold Stops at haccept
  exact inBounds_iff_accept.trans haccept

/-- `GET / H`, answered with a zeroed stack: the copy of the url finds no white space in its 512
bytes and stores the terminator behind them. -/
theorem httpModuleHandlerResponse_overrun :
    ¬∀ (stale : Mem) (fs : FileSystem) (text : Bytes) (req : HttpRequest), NulFree text →
      text.length ≤ 4095 → (analasy text).out = .ret (some req) →
      (httpModuleHandlerResponse stale fs req).InBounds := by
  intro h
  have hin := h (fun _ => 0) (fun _ => none) [71, 69, 84, 32, 47, 32, 72, 13, 10, 13, 10]
    ⟨[71, 69, 84], [47], [72], []⟩ (by decide) (by decide) (by decide)
  have hsp : ∃ b ∈ ([71, 69, 84, 32, 47] : Bytes), isspace b = true := ⟨32, by decide, rfl⟩
  obtain ⟨-, -, k, hk, -, -, hs⟩ :=
    (acceptRequest_inBounds_iff (fun _ => 0) (fun _ => none) hsp).1 hin.accept
  have hstart : secondStart [71, 69, 84, 32, 47] = 4 := by decide
  rw [hstart] at hk
  -- a `/`, the terminator, and then zeros
  have hzero : ∀ k, textBuf (fun _ => 0) [71, 69, 84, 32, 47] (k + 5) = 0 := by
    intro k
    rcases k with - | k
    · rfl
    · rfl
  rcases Nat.eq_or_lt_of_le hk with rfl | hlt
  · exact absurd hs (by decide)
  · rw [← Nat.sub_add_cancel hlt, hzero] at hs
    exact absurd hs (by decide)

end HttpCallback
