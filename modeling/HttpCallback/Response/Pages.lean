import HttpCallback.Response.Body

/-!
# The answers

Behind `response_ok` the handler has pages for what went wrong. `unknow` and `error_method` send the
strings of their lines; `wrong_path`, and the pages that nothing calls, send the whole array that
each line is printed to. Behind the first line of such a page there goes out what the array held
before, all of it and nothing else (`Page.leaks_iff`).
-/

namespace HttpCallback

open CString Delivery

/-- `SERVER_TYPE`. -/
def serverType : Bytes := ascii "httpd of file get and sent system"

/-- `unknow`. One of the lines goes out by a bare `send`. -/
def unknow : List SendOp :=
  [.httpSend (ascii "HTTP/1.0 404 NOT FOUND\r\n"),
    .httpSend serverType,
    .httpSend (ascii "Content-Type: text/html\r\n"),
    .send (ascii "Connection: close\r\n"),
    .httpSend crlf,
    .httpSend (ascii "<HTML><TITLE>Not Found</TITLE>\r\n"),
    .httpSend (ascii "<BODY><P>The server could not fulfill\r\n"),
    .httpSend (ascii "your request because the resource specified\r\n"),
    .httpSend (ascii "is unavailable or nonexistent.\r\n"),
    .httpSend (ascii "</BODY></HTML>\r\n")]

/-- `error_method`. -/
def errorMethod : List SendOp :=
  [.send (ascii "HTTP/1.0 501 Method Not Implemented\r\n"),
    .send serverType,
    .send (ascii "Content-Type: text/html\r\n"),
    .send crlf,
    .send (ascii "<HTML><HEAD><TITLE>Method Not Implemented\r\n"),
    .send (ascii "</TITLE></HEAD>\r\n"),
    .send (ascii "<BODY><P>HTTP request method not supported.\r\n"),
    .send (ascii "</BODY></HTML>\r\n")]

/-- `sprintf(buf, line)` and `http_send(sockfd, buf, sizeof(buf))`, for each of the lines. -/
def sizeofPage : Mem → List Bytes → List SendOp
  | _, [] => []
  | buf, line :: lines =>
    let buf := buf.write 0 (line ++ [0])
    .httpSend (buf.block 0 buffsize) :: sizeofPage buf lines

/-- The pages that are sent with `sizeof(buf)`. -/
inductive Page
  | badRequest
  | contiRequest
  | wrongPath
  | toolongUrl
  | badHttp
  deriving Repr, DecidableEq

def Page.status : Page → Bytes
  | .badRequest => ascii "HTTP/1.0 400 BAD REQUEST\r\n"
  | .contiRequest => ascii "HTTP/1.0 100 REQUEST not full\r\n"
  | .wrongPath => ascii "HTTP/1.0 303 BAD PATH\r\n"
  | .toolongUrl => ascii "HTTP/1.0 411 BAD REQUEST\r\n"
  | .badHttp => ascii "HTTP/1.0 505 BAD REQUEST\r\n"

def Page.complaint : Page → Bytes
  | .badRequest => ascii "<P>Your browser sent a bad request, "
  | .contiRequest => ascii "<P>Your browser sent a missing data, "
  | .wrongPath => ascii "<P>Your browser sent a wrong localpath, "
  | .toolongUrl => ascii "<P>Your browser sent a so long request that cant read full, "
  | .badHttp => ascii "<P>Your http is not fit, "

/-- The lines behind the status line. -/
def Page.lines (page : Page) : List Bytes :=
  [ascii "Content-type: text/html\r\n", crlf, page.complaint,
    ascii "such as a POST without a Content-Length.\r\n"]

/-- `bad_request`, `Conti_request`, `wrong_path`, `toolongUrl` and `bad_http`; `stack` is what `buf`
holds at the call. -/
def Page.ops (page : Page) (stack : Mem) : List SendOp :=
  sizeofPage stack (page.status :: page.lines)

/-- What `response_ok` finds at a path: `st_size`, and the file that `fopen` returns. -/
abbrev Disk := Bytes → Int × Option (List Fread)

/-- The sends of an answer. -/
def Reply.ops (disk : Disk) (stack : Mem) : Reply → List SendOp
  | .responseOk pathName => responseOps pathName (disk pathName).1 (disk pathName).2
  | .unknow => HttpCallback.unknow
  | .errorMethod => HttpCallback.errorMethod
  | .wrongPath => Page.wrongPath.ops stack

/-- What the statements offer. -/
def text (ops : List SendOp) : Bytes := ops.flatMap (·.buf)

/-- Of a seamless delivery the client has a front part of the text at every moment. -/
theorem runOps_take_prefix {ops : List SendOp} {evs : List SendEv} (h : Seamless (pieces ops evs))
    (k : Nat) : ((runOps ops evs).calls.take k).flatMap (·.taken) <+: text ops := by
  have hall := (delivered_prefix_iff _).2 h
  rw [message_pieces, ← runOps_delivered] at hall
  exact (Sending.take_prefix (runOps ops evs) k).trans hall

/-! ## What goes out behind the status line -/

section Leak

variable {buf buf' stack stack' : Mem} {line : Bytes}

theorem block_eq_iff {n : Nat} : buf.block 0 n = buf'.block 0 n ↔ ∀ i < n, buf i = buf' i := by
  unfold Mem.block
  simp [List.map_inj_left]

/-- A string printed to two arrays leaves the bytes behind its terminator different. -/
theorem write_agree_iff {n : Nat} :
    (∀ i < n, buf.write 0 (line ++ [0]) i = buf'.write 0 (line ++ [0]) i) ↔
      ∀ i, line.length < i → i < n → buf i = buf' i := by
  have hbehind : ∀ (m : Mem) i, line.length < i → m.write 0 (line ++ [0]) i = m i := by
    intro m i hi
    have hlen : (line ++ [0]).length ≤ i := by
      rw [List.length_append, List.length_singleton]
      omega
    have hwrite := Mem.write_behind (m := m) (p := 0) hlen
    rwa [Nat.zero_add] at hwrite
  constructor
  · intro h i hi hn
    rw [← hbehind buf i hi, ← hbehind buf' i hi, h i hn]
  · intro h i hn
    rcases Nat.lt_or_ge line.length i with hi | hi
    · rw [hbehind buf i hi, hbehind buf' i hi, h i hi hn]
    · have hlt : i < (line ++ [0]).length := by
        rw [List.length_append, List.length_singleton]
        omega
      have hin := fun m : Mem => Mem.write_in (m := m) (p := 0) hlt
      simp only [Nat.zero_add] at hin
      rw [hin, hin]

/-- Lines printed to arrays that agree. -/
theorem sizeofPage_congr (lines : List Bytes) (h : ∀ i < buffsize, buf i = buf' i) :
    sizeofPage buf lines = sizeofPage buf' lines := by
  induction lines generalizing buf buf' with
  | nil => rfl
  | cons line lines ih =>
    have hagree := write_agree_iff.2 fun i (_ : line.length < i) hi => h i hi
    rw [sizeofPage, sizeofPage, block_eq_iff.2 hagree, ih hagree]

/-- The first block holds the array behind the terminator, and fixes the other ones. -/
theorem text_sizeofPage_iff (lines : List Bytes) :
    text (sizeofPage stack (line :: lines)) = text (sizeofPage stack' (line :: lines)) ↔
      ∀ i, line.length < i → i < buffsize → stack i = stack' i := by
  rw [← write_agree_iff]
  constructor
  · intro h
    have hblock := congrArg (List.take buffsize) h
    simp only [text, sizeofPage, List.flatMap_cons, SendOp.buf] at hblock
    rw [List.take_left' (Mem.length_block ..), List.take_left' (Mem.length_block ..)] at hblock
    exact block_eq_iff.1 hblock
  · intro h
    rw [sizeofPage, sizeofPage, block_eq_iff.2 h, sizeofPage_congr lines h]

theorem sizeofPage_httpSend (lines : List Bytes) (buf : Mem) :
    ∀ op ∈ sizeofPage buf lines, ∃ bs, op = .httpSend bs := by
  induction lines generalizing buf with
  | nil => exact List.forall_mem_nil _
  | cons line lines ih => exact List.forall_mem_cons.2 ⟨⟨_, rfl⟩, ih _⟩

variable {evs evs' : List SendEv}

/-- **A page gives away what was on the stack.** For each of the pages and any outcomes that are
counts, EINTR and EAGAIN: two calls that have returned have sent the same bytes if and only if the
arrays agreed, when they were made, in every byte behind the status line and its terminator. -/
theorem Page.leaks_iff (page : Page) (stack stack' : Mem) (hevs : ∀ ev ∈ evs, Resumable ev)
    (hevs' : ∀ ev ∈ evs', Resumable ev) (hret : (runOps (page.ops stack) evs).fin ≠ .waiting)
    (hret' : (runOps (page.ops stack') evs').fin ≠ .waiting) :
    (runOps (page.ops stack) evs).delivered = (runOps (page.ops stack') evs').delivered ↔
      ∀ i, page.status.length < i → i < buffsize → stack i = stack' i := by
  have hsent := runOps_complete (sizeofPage_httpSend _ stack) hevs hret
  have hsent' := runOps_complete (sizeofPage_httpSend _ stack') hevs' hret'
  unfold Page.ops
  rw [hsent, hsent']
  exact text_sizeofPage_iff page.lines

/-- Every send takes its block whole. -/
theorem Page.leaks_iff_badRequest :
    (runOps (Page.badRequest.ops fun _ => 0) (List.replicate 5 (.sent 1024))).delivered =
        (runOps (Page.badRequest.ops fun _ => 7) (List.replicate 5 (.sent 1024))).delivered ↔
      ∀ i, Page.badRequest.status.length < i → i < buffsize → (0 : UInt8) = 7 := by
  refine Page.leaks_iff .badRequest (fun _ => 0) (fun _ => 7) (fun ev hev => ?_) (fun ev hev => ?_)
    (by decide +kernel) (by decide +kernel)
  · obtain rfl := List.eq_of_mem_replicate hev
    exact .sent 1023
  · obtain rfl := List.eq_of_mem_replicate hev
    exact .sent 1023

end Leak

end HttpCallback
