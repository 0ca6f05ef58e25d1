import HttpCallback.Lib.Memory
import HttpCallback.Parse.Basic

/-!
# Answering a request

`httpModuleHandlerResponse` pastes the method and the url together, `acceptRequest` takes the text
apart again at white space, puts the document root in front of the second word and looks the path
up.

`buf` is an uninitialised array: behind the terminator of the text it holds what was there before
(`stale`). The two copy loops test for white space and for their own bound, not for the terminator,
so they read on into those bytes. Every index the code uses on an array is listed; a store behind
the end of one is listed and has no effect here, so that a call with such an index is looked at as
a failure of its own (`HandlerResponse.checked`) wherever its result matters.
-/

namespace HttpCallback

open CString

/-- `BUFFSIZE`. -/
def buffsize : Nat := 1024

/-- `PARTSIZE`. -/
def partsize : Nat := 512

def slash : UInt8 := 47

def ascii (s : String) : Bytes := s.toList.map fun c => UInt8.ofNat c.toNat

/-- `isspace` in the C locale. -/
def isspace (b : UInt8) : Bool := b == 32 || (9 ≤ b && b ≤ 13)

def tolower (b : UInt8) : UInt8 := if 65 ≤ b ∧ b ≤ 90 then b + 32 else b

/-- `strcasecmp(a, b) == 0`. -/
def strcasecmpEq (a b : Bytes) : Bool := a.map tolower == b.map tolower

inductive HttpCode
  | success
  | errorNotFind
  | errorMethod
  | errorRequest
  deriving Repr, DecidableEq

/-- `st_mode & S_IFMT`, as far as the code looks at it. -/
inductive FileMode
  | dir
  | other
  deriving Repr, DecidableEq

/-- What `stat` finds at a path. -/
abbrev FileSystem := Bytes → Option FileMode

/-- A loop over `buf`: the bytes it copies, the index it stops at, the indices it reads. -/
structure Scan where
  text : Bytes
  stop : Nat
  reads : List Nat
  deriving Repr, DecidableEq

/-- `while (!isspace(buf[j]) && i < PARTSIZE) dst[i++] = buf[j++]`, with `n = PARTSIZE - i`. -/
def copyPart (buf : Mem) : Nat → Nat → Scan
  | 0, j => ⟨[], j, [j]⟩
  | n + 1, j =>
    if isspace (buf j) then ⟨[], j, [j]⟩
    else
      let s := copyPart buf n (j + 1)
      ⟨buf j :: s.text, s.stop, j :: s.reads⟩

/-- `while (isspace(buf[j]) && j < BUFFSIZE) j++`, with `n = BUFFSIZE - j`. -/
def skipSpace (buf : Mem) : Nat → Nat → Scan
  | 0, j => ⟨[], j, [j]⟩
  | n + 1, j =>
    if isspace (buf j) then
      let s := skipSpace buf n (j + 1)
      ⟨[], s.stop, j :: s.reads⟩
    else ⟨[], j, [j]⟩

/-- The local prefix. -/
def root : Bytes := ascii "/home/jackwu/Desktop/test"

def indexHtml : Bytes := ascii "index.html"

/-- The indices that a store of the string `s` and its terminator uses. -/
def stringIx (s : Bytes) : List Nat := List.range (s.length + 1)

/-- What the three loops of `accept_request` and the terminators behind them leave: the strings in
`method` and `url`, and the indices used on `buf` and stored to in the two. -/
structure Split where
  method : Bytes
  url : Bytes
  bufIx : List Nat
  methodIx : List Nat
  urlIx : List Nat
  deriving Repr, DecidableEq

def splitRequest (stale : Mem) (localPath : Bytes) : Split :=
  let buf := stale.write 0 (localPath ++ [0])
  let m := copyPart buf partsize 0
  let ws := skipSpace buf (buffsize - m.stop) m.stop
  let u := copyPart buf partsize ws.stop
  ⟨cstr (m.text ++ [0]), cstr (u.text ++ [0]), stringIx localPath ++ m.reads ++ ws.reads ++ u.reads,
    stringIx m.text, stringIx u.text⟩

/-- A call of `accept_request`: its result, the string it leaves in `localPath`, the path it passes
to `stat`, and the indices it uses on `buf` and stores to in the other arrays. Where one of them
lies outside its array the other fields are what a store without effect leaves. -/
structure AcceptRequest where
  code : HttpCode
  localPath : Bytes
  stat : Option Bytes
  bufIx : List Nat
  methodIx : List Nat
  urlIx : List Nat
  localPathIx : List Nat
  deriving Repr, DecidableEq

/-- `localPath` behind the first `sprintf` and the `strcat` of `index.html`. -/
def openPath (url : Bytes) : Bytes :=
  let path := root ++ url
  if path.getLast? = some slash then path ++ indexHtml else path

def acceptRequest (stale : Mem) (fs : FileSystem) (localPath : Bytes) : AcceptRequest :=
  let r := splitRequest stale localPath
  if !strcasecmpEq r.method (ascii "GET") && !strcasecmpEq r.method (ascii "POST") then
    ⟨.errorMethod, localPath, none, r.bufIx, r.methodIx, r.urlIx, []⟩
  else
    let path := openPath r.url
    match fs path with
    | none => ⟨.errorNotFind, path, some path, r.bufIx, r.methodIx, r.urlIx, stringIx path⟩
    | some .dir =>
      -- `/index.html` is appended, and the `sprintf` behind it writes the path anew
      ⟨.success, root ++ r.url, some path, r.bufIx, r.methodIx, r.urlIx,
        stringIx (path ++ slash :: indexHtml)⟩
    | some .other => ⟨.success, path, some path, r.bufIx, r.methodIx, r.urlIx, stringIx path⟩

/-- The answer that is sent. -/
inductive Reply
  | responseOk (pathName : Bytes)
  | unknow
  | errorMethod
  | wrongPath
  deriving Repr, DecidableEq

/-- A call of `http_module_handler_response`: the string built in `buff_filename`, the call of
`accept_request` on it, and the answer. -/
structure HandlerResponse where
  filename : Bytes
  accept : AcceptRequest
  reply : Reply
  deriving Repr, DecidableEq

/-- `method ' ' url`, as `buff_filename` holds it. -/
def HttpRequest.line (req : HttpRequest) : Bytes := req.method ++ sp :: req.url

theorem HttpRequest.length_line (req : HttpRequest) :
    req.line.length = req.method.length + 1 + req.url.length := by
  rw [line, List.length_append, List.length_cons]
  omega

def httpModuleHandlerResponse (stale : Mem) (fs : FileSystem) (req : HttpRequest) :
    HandlerResponse :=
  let a := acceptRequest stale fs req.line
  ⟨req.line, a, match a.code with
    | .success => .responseOk a.localPath
    | .errorNotFind => .unknow
    | .errorMethod => .errorMethod
    | .errorRequest => .wrongPath⟩

/-! ## What the loops find -/

/-- Where a copy loop from `j` on stands when it ends. -/
structure Copied (buf : Mem) (n j : Nat) (s : Scan) : Prop where
  le : s.text.length ≤ n
  stop : s.stop = j + s.text.length
  reads : s.reads = List.range' j (s.text.length + 1)
  copied : ∀ k < s.text.length, isspace (buf (j + k)) = false
  ended : s.text.length < n → isspace (buf (j + s.text.length)) = true

theorem copyPart_copied (buf : Mem) (n : Nat) : ∀ j, Copied buf n j (copyPart buf n j) := by
  induction n with
  | zero =>
    intro j
    exact ⟨Nat.le_refl _, rfl, rfl, fun k hk => absurd hk (Nat.not_lt_zero _),
      fun h => absurd h (Nat.lt_irrefl _)⟩
  | succ n ih =>
    intro j
    unfold copyPart
    by_cases hs : isspace (buf j) = true
    · rw [if_pos hs]
      exact ⟨Nat.zero_le _, rfl, rfl, fun k hk => absurd hk (Nat.not_lt_zero _), fun _ => hs⟩
    · rw [if_neg hs]
      obtain ⟨hle, hstop, hreads, hcopied, hended⟩ := ih (j + 1)
      simp only
      generalize copyPart buf n (j + 1) = s at hle hstop hreads hcopied hended
      refine ⟨Nat.succ_le_succ hle, ?_, ?_, ?_, ?_⟩
      · rw [hstop, List.length_cons]
        omega
      · exact congrArg (j :: ·) hreads
      · intro k hk
        rcases k with - | k
        · exact Bool.eq_false_iff.2 hs
        · have hsucc : j + (k + 1) = j + 1 + k := by omega
          rw [hsucc]
          exact hcopied k (Nat.lt_of_succ_lt_succ hk)
      · intro hlt
        have hsucc : j + (s.text.length + 1) = j + 1 + s.text.length := by omega
        rw [List.length_cons, hsucc]
        exact hended (Nat.lt_of_succ_lt_succ hlt)

/-- A copy loop stops in front of its bound, and in front of `lim`, exactly when there is white
space for it to stop at. -/
theorem Copied.lt_iff {buf : Mem} {n j : Nat} {s : Scan} (h : Copied buf n j s) (lim : Nat) :
    s.text.length < n ∧ j + s.text.length < lim ↔
      ∃ k, j ≤ k ∧ k < j + n ∧ k < lim ∧ isspace (buf k) = true := by
  constructor
  · rintro ⟨hn, hl⟩
    exact ⟨_, Nat.le_add_right _ _, Nat.add_lt_add_left hn _, hl, h.ended hn⟩
  · rintro ⟨k, hj, hn, hl, hs⟩
    have hle : s.text.length ≤ k - j := by
      by_contra hlt
      have hf := h.copied (k - j) (Nat.lt_of_not_le hlt)
      rw [Nat.add_sub_cancel' hj, hs] at hf
      cases hf
    omega

/-- The first word of `s`, the white space behind it, and the word behind that. -/
def firstWord (s : Bytes) : Bytes := s.takeWhile (!isspace ·)

def gap (s : Bytes) : Bytes := (s.dropWhile (!isspace ·)).takeWhile isspace

def secondWord (s : Bytes) : Bytes :=
  ((s.dropWhile (!isspace ·)).dropWhile isspace).takeWhile (!isspace ·)

/-- What stands behind the second word. -/
def behindWords (s : Bytes) : Bytes :=
  ((s.dropWhile (!isspace ·)).dropWhile isspace).dropWhile (!isspace ·)

theorem words_append (s : Bytes) :
    s = firstWord s ++ (gap s ++ (secondWord s ++ behindWords s)) := by
  unfold firstWord gap secondWord behindWords
  rw [List.takeWhile_append_dropWhile, List.takeWhile_append_dropWhile,
    List.takeWhile_append_dropWhile]

/-- The loop copies a word that fits and that white space ends. -/
theorem copyPart_word {buf : Mem} {w r : Bytes} {x : UInt8} (hw : ∀ b ∈ w, isspace b = false)
    (hx : isspace x = true) : ∀ {n j : Nat}, buf.Holds j (w ++ x :: r) → w.length < n →
    (copyPart buf n j).text = w := by
  induction w with
  | nil =>
    intro n j h hn
    obtain ⟨n, rfl⟩ := Nat.exists_eq_succ_of_ne_zero (Nat.ne_of_gt hn)
    unfold copyPart
    rw [h.head, if_pos hx]
  | cons b w ih =>
    intro n j h hn
    obtain ⟨n, rfl⟩ := Nat.exists_eq_succ_of_ne_zero (Nat.ne_of_gt (Nat.zero_lt_of_lt hn))
    have hb := hw b List.mem_cons_self
    have hrec := ih (fun c hc => hw c (List.mem_cons_of_mem _ hc)) h.tail
      (Nat.lt_of_succ_lt_succ hn)
    unfold copyPart
    rw [h.head, if_neg (by simp [hb])]
    exact congrArg (b :: ·) hrec

/-- A word that the terminator ends is copied as a string, whatever stands behind the terminator. -/
theorem copyPart_cstr {buf : Mem} {w : Bytes} (hw : ∀ b ∈ w, isspace b = false)
    (hnul : NulFree w) : ∀ {n j : Nat}, buf.Holds j (w ++ [0]) → w.length < n →
    cstr ((copyPart buf n j).text ++ [0]) = w := by
  induction w with
  | nil =>
    intro n j h hn
    obtain ⟨n, rfl⟩ := Nat.exists_eq_succ_of_ne_zero (Nat.ne_of_gt hn)
    have h0 : isspace 0 = false := rfl
    unfold copyPart
    rw [h.head, if_neg (by simp [h0])]
    rfl
  | cons b w ih =>
    intro n j h hn
    obtain ⟨n, rfl⟩ := Nat.exists_eq_succ_of_ne_zero (Nat.ne_of_gt (Nat.zero_lt_of_lt hn))
    obtain ⟨hb0, hnul'⟩ := nulFree_cons.1 hnul
    have hb := hw b List.mem_cons_self
    have hrec := ih (fun c hc => hw c (List.mem_cons_of_mem _ hc)) hnul' h.tail
      (Nat.lt_of_succ_lt_succ hn)
    unfold copyPart
    rw [h.head, if_neg (by simp [hb])]
    simp only [List.cons_append, cstr]
    rw [List.takeWhile_cons_of_pos (by simp [hb0])]
    exact congrArg (b :: ·) hrec

/-- The skip passes exactly the white space. -/
theorem skipSpace_gap {buf : Mem} {g r : Bytes} {x : UInt8} (hg : ∀ b ∈ g, isspace b = true)
    (hx : isspace x = false) : ∀ {n j : Nat}, buf.Holds j (g ++ x :: r) → g.length ≤ n →
    (skipSpace buf n j).stop = j + g.length ∧
      (skipSpace buf n j).reads = List.range' j (g.length + 1) := by
  induction g with
  | nil =>
    intro n j h _
    cases n with
    | zero => exact ⟨rfl, rfl⟩
    | succ n =>
      unfold skipSpace
      rw [h.head, if_neg (by simp [hx])]
      exact ⟨rfl, rfl⟩
  | cons b g ih =>
    intro n j h hn
    obtain ⟨n, rfl⟩ := Nat.exists_eq_succ_of_ne_zero (Nat.ne_of_gt (Nat.zero_lt_of_lt hn))
    obtain ⟨hstop, hreads⟩ := ih (fun c hc => hg c (List.mem_cons_of_mem _ hc)) h.tail
      (Nat.le_of_succ_le_succ hn)
    unfold skipSpace
    rw [h.head, if_pos (hg b List.mem_cons_self)]
    simp only [hstop, hreads, List.length_cons]
    constructor
    · omega
    · rfl

end HttpCallback
