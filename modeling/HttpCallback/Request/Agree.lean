import HttpCallback.Request.Confine

/-!
# The two splitters of the request line

`analasy` cuts the method and the url at spaces only; `acceptRequest`, given the two with a space
between them, cuts them out again at any white space. The strings it finds, where it stays inside
its arrays, are those of the parser exactly when no other white space stands in them.
-/

namespace HttpCallback

open CString

section Line

variable {req : HttpRequest}

/-- Behind a method without white space the text goes on with the space that was put there. -/
theorem dropWhile_line (h : ∀ b ∈ req.method, isspace b = false) :
    req.line.dropWhile (!isspace ·) = sp :: req.url := by
  unfold HttpRequest.line
  rw [List.dropWhile_append_of_pos fun b hb => by simp [h b hb]]
  rfl

theorem firstWord_line (h : ∀ b ∈ req.method, isspace b = false) :
    firstWord req.line = req.method := by
  have hline : req.line = req.method ++ sp :: req.url := rfl
  unfold firstWord
  rw [hline]
  refine takeWhile_append_stop (fun b hb => by simp [h b hb]) ?_
  rintro x r hx
  cases hx
  rfl

/-- The second word is the first one of the url. -/
theorem secondWord_line (h : ∀ b ∈ req.method, isspace b = false) :
    secondWord req.line = (req.url.dropWhile isspace).takeWhile (!isspace ·) := by
  have hsp : isspace sp = true := rfl
  unfold secondWord
  rw [dropWhile_line h, List.dropWhile_cons_of_pos hsp]

theorem secondWord_line_url (hm : ∀ b ∈ req.method, isspace b = false)
    (hu : ∀ b ∈ req.url, isspace b = false) (hne : req.url ≠ []) :
    secondWord req.line = req.url := by
  obtain ⟨c, cs, hc⟩ := List.exists_cons_of_ne_nil hne
  have hhead : isspace c = false := hu c (hc ▸ List.mem_cons_self)
  have hdrop : req.url.dropWhile isspace = req.url := by
    rw [hc, List.dropWhile_cons_of_neg (by simp [hhead])]
  rw [secondWord_line hm, hdrop]
  exact List.takeWhile_eq_self_iff.2 fun b hb => by simp [hu b hb]

/-- The first word never reaches behind the method. -/
theorem length_firstWord_line (req : HttpRequest) :
    (firstWord req.line).length ≤ req.method.length := by
  have hsp : isspace sp = true := rfl
  unfold firstWord HttpRequest.line
  rw [List.takeWhile_append]
  split
  · rw [List.length_append, List.takeWhile_cons_of_neg (by simp [hsp])]
    simp
  · exact (List.takeWhile_sublist _).length_le

end Line

/-- **The two splitters agree exactly where space is the only white space.** For a request that the
parser has produced and whose method and text fit the arrays: the answer stays inside its arrays,
the strings that `acceptRequest` cuts out of the text `method ' ' url` are the parser's method and
url, and what it looks up is that url's path, if and only if the copy of the url meets white space
in bounds and neither of the two holds any. -/
theorem splitRequest_agrees_iff (stale : Mem) (fs : FileSystem) {text : Bytes} {req : HttpRequest}
    (hnul : NulFree text) (hret : (analasy text).out = .ret (some req))
    (hm : req.method.length ≤ 511) (hl : req.method.length + 1 + req.url.length ≤ 1023) :
    (∃ h, (httpModuleHandlerResponse stale fs req).checked = some h ∧
        (splitRequest stale h.filename).method = req.method ∧
        (splitRequest stale h.filename).url = req.url ∧
        h.accept.stat = if Served req.method then some (openPath req.url) else none) ↔
      Stops stale req.line ∧ ∀ b ∈ req.method ++ req.url, isspace b = false := by
  obtain ⟨hwm, hwu⟩ := analasy_words hnul hret
  have hnul' : NulFree req.line := req.nulFree_line hwm hwu
  have hline : req.line.length < buffsize := by
    rw [req.length_line]
    exact Nat.lt_succ_of_le hl
  have hfirst : (firstWord req.line).length < partsize :=
    Nat.lt_succ_of_le ((length_firstWord_line req).trans hm)
  rw [HandlerResponse.exists_checked, inBounds_iff_accept,
    acceptRequest_inBounds_iff stale fs req.isspace_line, and_iff_right hline,
    and_iff_right hfirst]
  refine and_congr_right fun hstops => ?_
  have hfit : Fits req.line := ⟨hline, hfirst, hstops.second_lt⟩
  obtain ⟨hmethod, hurl⟩ := splitRequest_words stale hnul' req.isspace_line hfit
  show (splitRequest stale req.line).method = _ ∧ (splitRequest stale req.line).url = _ ∧
    (acceptRequest stale fs req.line).stat = _ ↔ _
  rw [acceptRequest_stat, hmethod, hurl]
  constructor
  · rintro ⟨heq, heq', -⟩ b hb
    rcases List.mem_append.1 hb with hb | hb
    · rw [← heq] at hb
      exact not_isspace_firstWord b hb
    · rw [← heq'] at hb
      exact not_isspace_secondWord b hb
  · intro h
    have hns : ∀ b ∈ req.method, isspace b = false := fun b hb => h b (List.mem_append_left _ hb)
    have hnu : ∀ b ∈ req.url, isspace b = false := fun b hb => h b (List.mem_append_right _ hb)
    rw [firstWord_line hns, secondWord_line_url hns hnu hwu.ne]
    exact ⟨rfl, rfl, rfl⟩

/-- `GET / H` with blanks behind the text: both splitters find `GET` and `/`. -/
theorem splitRequest_agrees_get :
    ∃ h, (httpModuleHandlerResponse (fun _ => 32) (fun _ => none)
        ⟨[71, 69, 84], [47], [72], []⟩).checked = some h ∧
      (splitRequest (fun _ => 32) h.filename).method = [71, 69, 84] ∧
      (splitRequest (fun _ => 32) h.filename).url = [47] ∧
      h.accept.stat = if Served [71, 69, 84] then some (openPath [47]) else none := by
  have hns : ∀ b ∈ ([71, 69, 84] ++ [47] : Bytes), isspace b = false := by simp [isspace]
  have hstops : Stops (fun _ => 32) [71, 69, 84, 32, 47] :=
    ⟨6, by decide, by decide, by decide, by decide⟩
  exact (@splitRequest_agrees_iff (fun _ => 32) (fun _ => none)
    [71, 69, 84, 32, 47, 32, 72, 13, 10, 13, 10] ⟨[71, 69, 84], [47], [72], []⟩ (by decide)
    (by decide) (by decide) (by decide)).2 ⟨hstops, hns⟩

/-- A tab inside the method: `acceptRequest` finds `GET` where the parser has found `GET\tx`. -/
theorem splitRequest_tab :
    ¬∀ (stale : Mem) (fs : FileSystem) (text : Bytes) (req : HttpRequest) (h : HandlerResponse),
      NulFree text → (analasy text).out = .ret (some req) → req.method.length ≤ 511 →
      req.url.length ≤ 511 → req.method.length + 1 + req.url.length ≤ 1023 →
      (httpModuleHandlerResponse stale fs req).checked = some h →
      (splitRequest stale h.filename).method = req.method ∧
        (splitRequest stale h.filename).url = req.url := by
  intro h
  have hsp : ∃ b ∈ ([71, 69, 84, 9, 120, 32, 47] : Bytes), isspace b = true := ⟨9, by decide, rfl⟩
  -- the second word is the `x`, with the space behind it
  have hstops : Stops (fun _ => 32) [71, 69, 84, 9, 120, 32, 47] :=
    ⟨5, by decide, by decide, by decide, by decide⟩
  have hin := (acceptRequest_inBounds_iff (fun _ => 32) (fun _ => none) hsp).2
    ⟨by decide, by decide, hstops⟩
  have hagree := HandlerResponse.forall_checked.1
    (fun h' => h (fun _ => 32) (fun _ => none) [71, 69, 84, 9, 120, 32, 47, 32, 72, 13, 10, 13, 10]
      ⟨[71, 69, 84, 9, 120], [47], [72], []⟩ h' (by decide) (by decide) (by decide) (by decide)
      (by decide)) (inBounds_iff_accept.2 hin)
  have hmethod := splitRequest_method (fun _ => 32) (by decide) hsp (by decide)
  have heq := hmethod.symm.trans hagree.1
  exact absurd heq (by decide)

end HttpCallback
