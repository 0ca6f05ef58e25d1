import HttpCallback.Lib.LexPath
import HttpCallback.Request.Bounds

/-!
# The document root

`acceptRequest` puts the root in front of whatever the second word is. Neither the bytes behind the
text nor the rewriting of the path (`index.html`, directories) changes where it leads; the segments
of the url alone do, and `..` among them is not looked at. `acceptRequest_confined_iff` says which
urls stay under the root: those whose walk, counted from the root, ends there. The bytes behind the
text decide only whether the call stays inside its arrays.
-/

namespace HttpCallback

open CString LexPath

/-! ## What is looked up -/

/-- The method is one of the two that are served. -/
def Served (method : Bytes) : Prop :=
  strcasecmpEq method (ascii "GET") = true ∨ strcasecmpEq method (ascii "POST") = true

instance (method : Bytes) : Decidable (Served method) := inferInstanceAs (Decidable (_ ∨ _))

theorem not_served_iff (method : Bytes) :
    (!strcasecmpEq method (ascii "GET") && !strcasecmpEq method (ascii "POST")) = true ↔
      ¬Served method := by
  unfold Served
  rw [not_or, Bool.and_eq_true, Bool.not_eq_true', Bool.not_eq_true', Bool.not_eq_true,
    Bool.not_eq_true]

section Code

variable {stale : Mem} {fs : FileSystem} {s : Bytes}

theorem acceptRequest_not_served (h : ¬Served (splitRequest stale s).method) :
    (acceptRequest stale fs s).code = .errorMethod := by
  unfold acceptRequest
  simp only
  rw [if_pos ((not_served_iff _).2 h)]

/-- Behind a served method the three branches are those of the file system's answer. -/
theorem acceptRequest_served (h : Served (splitRequest stale s).method) :
    (acceptRequest stale fs s).code =
        (if fs (openPath (splitRequest stale s).url) = none then .errorNotFind else .success) ∧
      (acceptRequest stale fs s).localPath =
        if fs (openPath (splitRequest stale s).url) = some .dir then
          root ++ (splitRequest stale s).url
        else openPath (splitRequest stale s).url := by
  unfold acceptRequest
  simp only
  rw [if_neg (mt (not_served_iff _).1 (not_not_intro h))]
  generalize openPath _ = path
  cases hfs : fs path with
  | none => exact ⟨rfl, rfl⟩
  | some mode => cases mode <;> exact ⟨rfl, rfl⟩

/-- What `acceptRequest` looks up depends on the two strings alone. -/
theorem acceptRequest_stat (stale : Mem) (fs : FileSystem) (s : Bytes) :
    (acceptRequest stale fs s).stat =
      if Served (splitRequest stale s).method then some (openPath (splitRequest stale s).url)
      else none := by
  unfold acceptRequest
  simp only
  split
  · rename_i hno
    rw [if_neg ((not_served_iff _).1 hno)]
  · rename_i hyes
    rw [if_pos (not_not.1 fun h => hyes ((not_served_iff _).2 h))]
    split <;> rfl

end Code

/-- The text and its two words fit the arrays they are copied to. -/
structure Fits (s : Bytes) : Prop where
  line : s.length < buffsize
  first : (firstWord s).length < partsize
  second : (secondWord s).length < partsize

/-- A second word behind which the copy stops in bounds fits. -/
theorem Stops.second_lt {stale : Mem} {s : Bytes} (h : Stops stale s) :
    (secondWord s).length < partsize := by
  obtain ⟨k, hle, hlt, -, hs⟩ := h
  have hold := (holds_textBuf stale s).behind.behind
  rw [Nat.zero_add] at hold
  by_contra hge
  have hk : k - secondStart s < (secondWord s).length := by omega
  have hk' : k - secondStart s < (secondWord s ++ (behindWords s ++ [0])).length := by
    rw [List.length_append]
    omega
  have hbyte := hold (k - secondStart s) hk'
  unfold secondStart at hle hk hk' hbyte
  rw [List.getElem_append_left hk, Nat.add_sub_cancel' hle] at hbyte
  rw [hbyte, not_isspace_secondWord _ (List.getElem_mem hk)] at hs
  cases hs

/-- A text that fits is taken apart in bounds when the copy of its second word stops. -/
theorem Fits.inBounds_iff {s : Bytes} (h : Fits s) (hsp : ∃ b ∈ s, isspace b = true)
    (stale : Mem) (fs : FileSystem) : (acceptRequest stale fs s).InBounds ↔ Stops stale s := by
  rw [acceptRequest_inBounds_iff stale fs hsp, and_iff_right h.line, and_iff_right h.first]

/-- A call inside its arrays is one on a text that fits. -/
theorem AcceptRequest.InBounds.fits {stale : Mem} {fs : FileSystem} {s : Bytes}
    (hsp : ∃ b ∈ s, isspace b = true) (h : (acceptRequest stale fs s).InBounds) : Fits s := by
  obtain ⟨hline, hfirst, hstops⟩ := (acceptRequest_inBounds_iff stale fs hsp).1 h
  exact ⟨hline, hfirst, hstops.second_lt⟩

section Words

variable (stale : Mem) {s : Bytes}

theorem nulFree_secondWord (h : NulFree s) : NulFree (secondWord s) := by
  unfold secondWord
  apply h.sublist
  apply (List.takeWhile_sublist _).trans
  exact (List.dropWhile_sublist _).trans (List.dropWhile_sublist _)

theorem nulFree_firstWord (h : NulFree s) : NulFree (firstWord s) :=
  h.sublist (List.takeWhile_sublist _)

/-- The url is the second word, whatever the bytes behind the text. -/
theorem copyPart_second (hnul : NulFree s) (hw : (secondWord s).length < partsize) :
    cstr ((copyPart (textBuf stale s) partsize (secondStart s)).text ++ [0]) = secondWord s := by
  have hold := (holds_textBuf stale s).behind.behind
  rw [Nat.zero_add] at hold
  have hsecond := nulFree_secondWord hnul
  by_cases hnil : behindWords s = []
  · rw [hnil, List.nil_append] at hold
    exact copyPart_cstr not_isspace_secondWord hsecond hold hw
  · obtain ⟨x, r, hx, hs⟩ := dropWhile_eq_cons hnil
    have hs' : isspace x = true := by simpa using hs
    have hb : behindWords s = x :: r := hx
    rw [hb] at hold
    have htext := copyPart_word not_isspace_secondWord hs' hold hw
    exact (congrArg (fun w => cstr (w ++ [0])) htext).trans (cstr_append_nul hsecond)

theorem splitRequest_method (hnul : NulFree s) (hsp : ∃ b ∈ s, isspace b = true)
    (hw : (firstWord s).length < partsize) : (splitRequest stale s).method = firstWord s := by
  have htext := (copyPart_first stale hsp hw).1
  unfold textBuf at htext
  unfold splitRequest
  simp only [htext]
  exact cstr_append_nul (nulFree_firstWord hnul)

theorem splitRequest_url (hnul : NulFree s) (hsp : ∃ b ∈ s, isspace b = true) (hfit : Fits s) :
    (splitRequest stale s).url = secondWord s := by
  have hstop := (copyPart_first stale hsp hfit.first).2
  have hstop₂ := (skipSpace_second stale hfit.line).1
  have hurl := copyPart_second stale hnul hfit.second
  unfold textBuf at hstop hstop₂ hurl
  unfold splitRequest
  simp only [hstop, hstop₂, hurl]

/-- In a text that fits, the two strings are its first two words. -/
theorem splitRequest_words (hnul : NulFree s) (hsp : ∃ b ∈ s, isspace b = true)
    (hfit : Fits s) :
    (splitRequest stale s).method = firstWord s ∧ (splitRequest stale s).url = secondWord s :=
  ⟨splitRequest_method stale hnul hsp hfit.first, splitRequest_url stale hnul hsp hfit⟩

end Words

/-! ## Where a path leads -/

def dot : UInt8 := 46

/-- A segment of a path as a move: empty and `.` stay, `..` goes up. -/
def segMove (seg : Bytes) : Move Bytes :=
  if seg = [] ∨ seg = [dot] then .stay else if seg = [dot, dot] then .up else .down seg

def pathMoves (path : Bytes) : List (Move Bytes) := (path.splitOn slash).map segMove

def rootNames : List Bytes := [ascii "home", ascii "jackwu", ascii "Desktop", ascii "test"]

/-- The path resolves to the document root or to a place below it. -/
def UnderRoot (path : Bytes) : Prop := rootNames <+: resolve (pathMoves path)

/-- The walk of a url that is put behind the root. A first segment that is not empty lengthens the
root's last name, so that the walk starts beside the root. -/
def urlWalk (url : Bytes) : Pos :=
  match url.splitOn slash with
  | [] => ⟨4, 0⟩
  | seg :: segs =>
    Pos.walk rootNames (if seg = [] then ⟨4, 0⟩ else ⟨3, 1⟩) (segs.map segMove)

/-- Letters in front of a path lengthen its first segment. -/
theorem splitOn_append {w : Bytes} (hw : slash ∉ w) (t : Bytes) :
    (w ++ t).splitOn slash = (t.splitOn slash).modifyHead (w ++ ·) := by
  induction w with
  | nil => cases h : t.splitOn slash <;> simp [h]
  | cons b w ih =>
    have hb : (b == slash) = false := by
      apply beq_eq_false_iff_ne.2
      intro heq
      exact hw (heq ▸ List.mem_cons_self)
    rw [List.cons_append, List.splitOn_cons_eq_if_modifyHead, hb,
      ih fun h => hw (List.mem_cons_of_mem _ h)]
    cases t.splitOn slash <;> rfl

/-- The last name of the root, with the first segment of the url behind it. -/
theorem move_lastName (seg : Bytes) :
    Pos.move rootNames ⟨3, 0⟩ (segMove (ascii "test" ++ seg)) =
      if seg = [] then ⟨4, 0⟩ else ⟨3, 1⟩ := by
  by_cases hseg : seg = []
  · subst hseg
    decide
  · have htest : ascii "test" = [116, 101, 115, 116] := by decide
    have hne : ¬rootNames[3]? = some (ascii "test" ++ seg) := by
      intro heq
      have hlast : rootNames[3]? = some (ascii "test") := rfl
      rw [hlast, Option.some.injEq] at heq
      exact hseg (List.self_eq_append_right.1 heq)
    have hmove : segMove (ascii "test" ++ seg) = .down (ascii "test" ++ seg) := by
      unfold segMove
      rw [htest]
      simp
    rw [hmove, if_neg hseg]
    exact if_neg fun h => hne h.2

/-- **A url behind the root leads to a place under it exactly when its walk ends there.** -/
theorem underRoot_iff (url : Bytes) :
    UnderRoot (root ++ url) ↔ (urlWalk url).shared = rootNames.length := by
  have hroot : root = slash :: (ascii "home" ++ slash :: (ascii "jackwu" ++ slash ::
      (ascii "Desktop" ++ slash :: ascii "test"))) := by decide
  have hmoves : pathMoves (root ++ url) = .stay :: ((rootNames.take 3).map .down ++
      ((url.splitOn slash).modifyHead (ascii "test" ++ ·)).map segMove) := by
    unfold pathMoves
    rw [hroot]
    simp only [List.cons_append, List.append_assoc]
    rw [← List.nil_append (slash :: _), List.splitOn_append_cons_self_of_not_mem (by decide),
      List.splitOn_append_cons_self_of_not_mem (by decide),
      List.splitOn_append_cons_self_of_not_mem (by decide),
      List.splitOn_append_cons_self_of_not_mem (by decide), splitOn_append (by decide)]
    rfl
  unfold UnderRoot
  rw [hmoves]
  refine (resolve_under_iff (show 3 ≤ rootNames.length by decide) _).trans ?_
  unfold urlWalk
  cases h : url.splitOn slash with
  | nil => exact absurd h (List.splitOn_ne_nil _ _)
  | cons seg segs =>
    simp only [List.modifyHead, List.map_cons, Pos.walk, List.foldl_cons]
    rw [move_lastName]

/-- `index.html` behind a final slash adds a name, and not the root's last one. -/
theorem underRoot_openPath (url : Bytes) : UnderRoot (openPath url) ↔ UnderRoot (root ++ url) := by
  unfold openPath
  simp only
  split
  · rename_i hlast
    obtain ⟨q, hq⟩ := List.getLast?_eq_some_iff.1 hlast
    have hsplit : indexHtml.splitOn slash = [indexHtml] := List.splitOn_eq_singleton (by decide)
    have hindex : segMove indexHtml = .down indexHtml := by decide
    unfold UnderRoot pathMoves
    rw [hq, List.append_assoc, List.singleton_append, List.splitOn_append_cons_self,
      List.splitOn_append_cons_self, hsplit, List.splitOn_nil]
    simp only [List.map_append, List.map_cons, List.map_nil, resolve, resolveFrom_append, hindex]
    generalize resolveFrom [] ((q.splitOn slash).map segMove) = l
    have hdown : resolveFrom l [.down indexHtml] = l ++ [indexHtml] := rfl
    have hstay : resolveFrom l [segMove []] = l := rfl
    rw [hdown, hstay, List.prefix_concat_iff]
    constructor
    · rintro (heq | h)
      · have hl := congrArg List.getLast? heq
        rw [List.getLast?_concat] at hl
        exact absurd hl (by decide)
      · exact h
    · exact Or.inr
  · exact Iff.rfl

/-! ## What is served -/

theorem HttpRequest.nulFree_line {req : HttpRequest} (hm : Word req.method) (hu : Word req.url) :
    NulFree req.line :=
  nulFree_append.2 ⟨hm.nulFree, nulFree_cons.2 ⟨by decide, hu.nulFree⟩⟩

/-- The file is sent when `acceptRequest` succeeds, from the path that it leaves. -/
theorem reply_eq_responseOk (stale : Mem) (fs : FileSystem) (req : HttpRequest) (path : Bytes) :
    (httpModuleHandlerResponse stale fs req).reply = .responseOk path ↔
      (acceptRequest stale fs req.line).code = .success ∧
        (acceptRequest stale fs req.line).localPath = path := by
  unfold httpModuleHandlerResponse
  simp only
  cases (acceptRequest stale fs req.line).code <;> simp

/-- A text's answer stays under the root when it is an error or its url does. -/
theorem acceptRequest_underRoot (stale : Mem) (fs : FileSystem) {s : Bytes} (hnul : NulFree s)
    (hsp : ∃ b ∈ s, isspace b = true) (hfit : Fits s) :
    ((acceptRequest stale fs s).code = .success →
        UnderRoot (acceptRequest stale fs s).localPath) ↔
      ¬Served (firstWord s) ∨ fs (openPath (secondWord s)) = none ∨
        (urlWalk (secondWord s)).shared = rootNames.length := by
  obtain ⟨hmethod, hurl⟩ := splitRequest_words stale hnul hsp hfit
  by_cases hserved : Served (firstWord s)
  · obtain ⟨hcode, hpath⟩ := @acceptRequest_served stale fs s (by rwa [hmethod])
    rw [hurl] at hcode hpath
    have hunder : UnderRoot (acceptRequest stale fs s).localPath ↔
        (urlWalk (secondWord s)).shared = rootNames.length := by
      rw [← underRoot_iff, hpath]
      split
      · exact Iff.rfl
      · exact underRoot_openPath _
    rw [hcode, hunder]
    by_cases hfs : fs (openPath (secondWord s)) = none
    · simp [hfs]
    · simp [hserved, hfs]
  · rw [acceptRequest_not_served (by rwa [hmethod])]
    exact ⟨fun _ => Or.inl hserved, nofun⟩

/-- **Exactly the urls that walk back to the root are confined.** For a request that the parser has
produced and that fits the arrays, a call of `acceptRequest` inside its arrays leaves a path under
the root whenever it succeeds, and an answer inside its arrays sends no file outside it, if and only
if the copy of the url meets no white space in bounds, so that there is no such call, or the method
is not served, or nothing is found at the path, or the walk of the url's segments ends with all
names of the root shared. -/
theorem acceptRequest_confined_iff (stale : Mem) (fs : FileSystem) {text : Bytes}
    {req : HttpRequest} (hnul : NulFree text) (hret : (analasy text).out = .ret (some req))
    (hfit : Fits req.line) :
    ((∀ a, (acceptRequest stale fs req.line).checked = some a → a.code = .success →
          UnderRoot a.localPath) ∧
        ∀ h, (httpModuleHandlerResponse stale fs req).checked = some h →
          ∀ path, h.reply = .responseOk path → UnderRoot path) ↔
      ¬Stops stale req.line ∨ ¬Served (firstWord req.line) ∨
        fs (openPath (secondWord req.line)) = none ∨
        (urlWalk (secondWord req.line)).shared = rootNames.length := by
  obtain ⟨hm, hu⟩ := analasy_words hnul hret
  rw [AcceptRequest.forall_checked, HandlerResponse.forall_checked, inBounds_iff_accept,
    hfit.inBounds_iff req.isspace_line,
    ← acceptRequest_underRoot stale fs (req.nulFree_line hm hu) req.isspace_line hfit,
    ← imp_iff_not_or]
  constructor
  · intro h
    exact h.1
  · intro h
    refine ⟨h, fun hstops path hreply => ?_⟩
    obtain ⟨hcode, hpath⟩ := (reply_eq_responseOk stale fs req path).1 hreply
    rw [← hpath]
    exact h hstops hcode

/-- A request for `/`, answered from an empty file system, with blanks behind the text. -/
theorem acceptRequest_confined_iff_get :
    ((∀ a, (acceptRequest (fun _ => 32) (fun _ => none) [71, 69, 84, 32, 47]).checked = some a →
          a.code = .success → UnderRoot a.localPath) ∧
        ∀ h, (httpModuleHandlerResponse (fun _ => 32) (fun _ => none)
          ⟨[71, 69, 84], [47], [72], []⟩).checked = some h →
          ∀ path, h.reply = .responseOk path → UnderRoot path) ↔
      ¬Stops (fun _ => 32) [71, 69, 84, 32, 47] ∨ ¬Served (firstWord [71, 69, 84, 32, 47]) ∨
        (none : Option FileMode) = none ∨
        (urlWalk (secondWord [71, 69, 84, 32, 47])).shared = rootNames.length :=
  @acceptRequest_confined_iff (fun _ => 32) (fun _ => none)
    [71, 69, 84, 32, 47, 32, 72, 13, 10, 13, 10] ⟨[71, 69, 84], [47], [72], []⟩ (by decide)
    (by decide) ⟨by decide, by decide, by decide⟩

/-- `GET /../x` with blanks behind it is served from beside the root. -/
theorem acceptRequest_dotdot :
    ¬∀ (stale : Mem) (fs : FileSystem) (text : Bytes) (req : HttpRequest) (a : AcceptRequest),
      NulFree text → (analasy text).out = .ret (some req) → Fits req.line →
      (acceptRequest stale fs req.line).checked = some a → a.code = .success →
      UnderRoot a.localPath := by
  intro h
  have hparse : (analasy [71, 69, 84, 32, 47, 46, 46, 47, 120, 32, 72, 13, 10, 13, 10]).out =
      .ret (some ⟨[71, 69, 84], [47, 46, 46, 47, 120], [72], []⟩) := by decide
  have hfit : Fits [71, 69, 84, 32, 47, 46, 46, 47, 120] := ⟨by decide, by decide, by decide⟩
  have hsp : ∃ b ∈ ([71, 69, 84, 32, 47, 46, 46, 47, 120] : Bytes), isspace b = true :=
    ⟨32, by decide, rfl⟩
  -- the byte behind the terminator is a blank
  have hstops : Stops (fun _ => 32) [71, 69, 84, 32, 47, 46, 46, 47, 120] :=
    ⟨10, by decide, by decide, by decide, by decide⟩
  have hconf := AcceptRequest.forall_checked.1
    (fun a => h (fun _ => 32) (fun _ => some .other) _ _ a (by decide) hparse hfit)
    ((hfit.inBounds_iff hsp _ _).2 hstops)
  rcases (acceptRequest_underRoot _ _ (by decide) hsp hfit).1 hconf with hm | hfs | hwalk
  · exact hm (by decide)
  · cases hfs
  · exact absurd hwalk (by decide)

end HttpCallback
