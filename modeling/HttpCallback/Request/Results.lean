import HttpCallback.Request.Agree

/-!
# The results of a request

What `acceptRequest` returns, looks up and leaves in `localPath` is a function of the two strings
that its loops have cut out and of what the file system says about the path. Of a request whose
words hold no white space these strings are the words themselves, whatever the stale bytes were, a
store behind an array taken to have no effect (`acceptRequest_results`). The path that is opened is
the one that was looked up, except for a directory: the `sprintf` behind the `strcat` of
`/index.html` takes that back (`httpModuleHandlerResponse_served_iff`).
-/

namespace HttpCallback

open CString

/-! ## Words without white space -/

/-- A method and a url that `acceptRequest` finds again. -/
structure Plain (req : HttpRequest) : Prop where
  method : ∀ b ∈ req.method, isspace b = false
  method_nul : NulFree req.method
  method_length : req.method.length ≤ 511
  url_ne : req.url ≠ []
  url : ∀ b ∈ req.url, isspace b = false
  url_nul : NulFree req.url
  url_length : req.url.length ≤ 511
  length : req.method.length + 1 + req.url.length ≤ 1023

theorem Plain.firstWord {req : HttpRequest} (h : Plain req) : firstWord req.line = req.method :=
  firstWord_line h.method

theorem Plain.secondWord {req : HttpRequest} (h : Plain req) : secondWord req.line = req.url :=
  secondWord_line_url h.method h.url h.url_ne

theorem Plain.nulFree_line {req : HttpRequest} (h : Plain req) : NulFree req.line := by
  unfold HttpRequest.line
  rw [nulFree_append, nulFree_cons]
  exact ⟨h.method_nul, by decide, h.url_nul⟩

theorem Plain.fits {req : HttpRequest} (h : Plain req) : Fits req.line := by
  have hp : partsize = 512 := rfl
  have hb : buffsize = 1024 := rfl
  have hline := req.length_line
  have := h.method_length
  have := h.url_length
  have := h.length
  refine ⟨by omega, ?_, ?_⟩
  · rw [h.firstWord]
    omega
  · rw [h.secondWord]
    omega

/-- Its answer stays inside its arrays when the copy of the url stops. -/
theorem Plain.inBounds {req : HttpRequest} (h : Plain req) {stale : Mem}
    (hstops : Stops stale req.line) (fs : FileSystem) :
    (httpModuleHandlerResponse stale fs req).InBounds :=
  inBounds_iff_accept.2 ((h.fits.inBounds_iff req.isspace_line stale fs).2 hstops)

theorem Plain.split {req : HttpRequest} (h : Plain req) (stale : Mem) :
    (splitRequest stale req.line).method = req.method ∧
      (splitRequest stale req.line).url = req.url := by
  have hwords := splitRequest_words stale h.nulFree_line req.isspace_line h.fits
  rwa [h.firstWord, h.secondWord] at hwords

/-- **The results of a plain request.** For every method and url without white space that fit, all
stale bytes and every file system: the method is rejected exactly when it is not served, and
otherwise the path of the url is looked up and reported as found exactly when the file system knows
it. The answer is the one of the three that belongs to the result. -/
theorem acceptRequest_results (stale : Mem) (fs : FileSystem) {req : HttpRequest}
    (h : Plain req) :
    ((acceptRequest stale fs req.line).code = .errorMethod ↔ ¬Served req.method) ∧
      (acceptRequest stale fs req.line).stat =
        (if Served req.method then some (openPath req.url) else none) ∧
      (Served req.method →
        ((acceptRequest stale fs req.line).code = .errorNotFind ↔ fs (openPath req.url) = none) ∧
        ((acceptRequest stale fs req.line).code = .success ↔ fs (openPath req.url) ≠ none)) ∧
      (httpModuleHandlerResponse stale fs req).reply =
        (if ¬Served req.method then .errorMethod
          else if fs (openPath req.url) = none then .unknow
          else .responseOk (acceptRequest stale fs req.line).localPath) ∧
      (httpModuleHandlerResponse stale fs req).reply ≠ .wrongPath := by
  obtain ⟨hmethod, hurl⟩ := h.split stale
  have hstat := acceptRequest_stat stale fs req.line
  rw [hmethod, hurl] at hstat
  unfold httpModuleHandlerResponse
  simp only
  by_cases hserved : Served req.method
  · have hcode := (@acceptRequest_served stale fs req.line (by rwa [hmethod])).1
    rw [hurl] at hcode
    rw [hcode, hstat, if_neg (not_not_intro hserved)]
    by_cases hfs : fs (openPath req.url) = none
    · simp [hserved, hfs]
    · simp [hserved, hfs]
  · have hcode := @acceptRequest_not_served stale fs req.line (by rwa [hmethod])
    rw [hcode, hstat, if_pos hserved]
    simp [hserved]

/-- `GET /` where the index exists. -/
theorem acceptRequest_results_get :
    (httpModuleHandlerResponse (fun _ => 32) (fun _ => some .other)
      ⟨[71, 69, 84], [47], [72], []⟩).reply ≠ .wrongPath := by
  have hplain : Plain ⟨[71, 69, 84], [47], [72], []⟩ :=
    ⟨by simp [isspace], by decide, by decide, by decide, by simp [isspace], by decide, by decide,
      by decide⟩
  exact (acceptRequest_results (fun _ => 32) (fun _ => some .other) hplain).2.2.2.2

/-! ## The answers to a plain request -/

section Answers

variable (stale : Mem) {fs : FileSystem} {req : HttpRequest}

theorem Plain.served (hplain : Plain req) (hserved : Served req.method) :
    Served (splitRequest stale req.line).method := by
  rwa [(hplain.split stale).1]

/-- It looks up the path of the url. -/
theorem Plain.stat (hplain : Plain req) (hserved : Served req.method) :
    (httpModuleHandlerResponse stale fs req).accept.stat = some (openPath req.url) := by
  have hstat := acceptRequest_stat stale fs req.line
  rw [if_pos (hplain.served stale hserved), (hplain.split stale).2] at hstat
  exact hstat

theorem reply_file (hplain : Plain req) (hserved : Served req.method)
    (hfs : fs (openPath req.url) = some .other) :
    (httpModuleHandlerResponse stale fs req).reply = .responseOk (openPath req.url) := by
  obtain ⟨hcode, hpath⟩ := @acceptRequest_served stale fs req.line (hplain.served stale hserved)
  rw [(hplain.split stale).2] at hcode hpath
  simp only [hfs, reduceCtorEq, if_false] at hcode hpath
  unfold httpModuleHandlerResponse
  simp only [hcode, hpath]
  rfl

theorem reply_dir (hplain : Plain req) (hserved : Served req.method)
    (hfs : fs (openPath req.url) = some .dir) :
    (httpModuleHandlerResponse stale fs req).reply = .responseOk (root ++ req.url) := by
  obtain ⟨hcode, hpath⟩ := @acceptRequest_served stale fs req.line (hplain.served stale hserved)
  rw [(hplain.split stale).2] at hcode hpath
  rw [if_neg (by simp [hfs])] at hcode
  rw [if_pos hfs] at hpath
  unfold httpModuleHandlerResponse
  simp only [hcode, hpath]

theorem reply_unknow (hplain : Plain req) (hserved : Served req.method)
    (hfs : fs (openPath req.url) = none) :
    (httpModuleHandlerResponse stale fs req).reply = .unknow := by
  have hcode := (@acceptRequest_served stale fs req.line (hplain.served stale hserved)).1
  rw [(hplain.split stale).2, if_pos hfs] at hcode
  unfold httpModuleHandlerResponse
  simp only [hcode]

end Answers

/-! ## The path that is opened -/

theorem root_append_ne (url : Bytes) : root ++ url ≠ openPath url ++ slash :: indexHtml := by
  intro heq
  have hle : (root ++ url).length ≤ (openPath url).length := by
    unfold openPath
    simp only
    split
    · rw [@List.length_append _ _ indexHtml]
      exact Nat.le_add_right _ _
    · exact Nat.le_refl _
  have hlen : (root ++ url).length = (openPath url).length + (indexHtml.length + 1) := by
    rw [heq, @List.length_append _ _ (slash :: indexHtml), List.length_cons]
  omega

/-- **A directory is opened under the url's own path.** For every request of strings, all stale
bytes and every file system: of an answer inside its arrays, the path that is passed on to be opened
is the one that was looked up, with `/index.html` behind it for a directory, and is itself no
directory that was looked up, if and only if the words do not fit or the copy of the url meets no
white space in bounds, so that there is no such answer, or the method is not served, or the path
that the url stands for is no directory. -/
theorem httpModuleHandlerResponse_served_iff (stale : Mem) (fs : FileSystem) {req : HttpRequest}
    (hnul : NulFree req.line) :
    (∀ h, (httpModuleHandlerResponse stale fs req).checked = some h →
        ∀ path, h.reply = .responseOk path →
          ∃ p, h.accept.stat = some p ∧
            path = (if fs p = some .dir then p ++ slash :: indexHtml else p) ∧
            (fs p = some .dir → path ≠ p)) ↔
      ¬(req.line.length < buffsize ∧ (firstWord req.line).length < partsize ∧
          Stops stale req.line) ∨
        ¬Served (firstWord req.line) ∨ fs (openPath (secondWord req.line)) ≠ some .dir := by
  have hbounds := acceptRequest_inBounds_iff stale fs req.isspace_line
  rw [HandlerResponse.forall_checked, inBounds_iff_accept, hbounds, ← imp_iff_not_or]
  refine imp_congr_right fun hin => ?_
  obtain ⟨hmethod, hurl⟩ :=
    splitRequest_words stale hnul req.isspace_line ((hbounds.2 hin).fits req.isspace_line)
  have hstat := acceptRequest_stat stale fs req.line
  unfold httpModuleHandlerResponse
  simp only
  rw [hmethod, hurl] at hstat
  by_cases hserved : Served (firstWord req.line)
  · obtain ⟨hcode, hpath⟩ := @acceptRequest_served stale fs req.line (by rwa [hmethod])
    rw [hurl] at hcode hpath
    rw [if_pos hserved] at hstat
    rw [hcode, hpath, hstat]
    generalize secondWord req.line = url
    by_cases hdir : fs (openPath url) = some .dir
    · simp [hserved, hdir, root_append_ne url]
    · by_cases hfs : fs (openPath url) = none
      · simp [hfs]
      · simp [hfs, hdir]
  · rw [acceptRequest_not_served (by rwa [hmethod])]
    simp [hserved]

/-- `GET /d`. -/
def sampleDir : HttpRequest := ⟨[71, 69, 84], [47, 100], [72], []⟩

theorem plain_sampleDir : Plain sampleDir :=
  ⟨by simp [sampleDir, isspace], by decide, by decide, by decide, by simp [sampleDir, isspace],
    by decide, by decide, by decide⟩

/-- Blanks behind the text end the copy of its url. -/
theorem stops_sampleDir : Stops (fun _ => 32) sampleDir.line :=
  ⟨7, by decide, by decide, by decide, by decide⟩

theorem served_sampleDir : Served sampleDir.method := by decide

/-- `/d` is a file. -/
theorem httpModuleHandlerResponse_served_iff_file : ∃ h path,
    (httpModuleHandlerResponse (fun _ => 32) (fun _ => some .other) sampleDir).checked = some h ∧
      h.reply = .responseOk path ∧ h.accept.stat = some path := by
  have hin := plain_sampleDir.inBounds stops_sampleDir fun _ => some .other
  have hreply := @reply_file (fun _ => 32) (fun _ => some .other) _ plain_sampleDir
    served_sampleDir rfl
  obtain ⟨p, hstat, rfl, -⟩ := (httpModuleHandlerResponse_served_iff (fun _ => 32)
    (fun _ => some .other) plain_sampleDir.nulFree_line).2 (Or.inr (Or.inr (by decide))) _
      hin.checked _ hreply
  exact ⟨_, _, hin.checked, hreply, hstat⟩

/-- `/d` is a directory. -/
theorem httpModuleHandlerResponse_dir :
    ¬∀ (stale : Mem) (fs : FileSystem) (req : HttpRequest) (h : HandlerResponse) (path p : Bytes),
      NulFree req.line → (httpModuleHandlerResponse stale fs req).checked = some h →
      h.reply = .responseOk path → h.accept.stat = some p → fs p = some .dir →
      path = p ++ slash :: indexHtml := by
  intro h
  have hstat := @Plain.stat (fun _ => 32) (fun _ => some .dir) _ plain_sampleDir served_sampleDir
  have hreply := @reply_dir (fun _ => 32) (fun _ => some .dir) _ plain_sampleDir served_sampleDir
    rfl
  have hin := plain_sampleDir.inBounds stops_sampleDir fun _ => some .dir
  exact root_append_ne _ (h _ _ _ _ _ _ plain_sampleDir.nulFree_line hin.checked hreply hstat rfl)

end HttpCallback
