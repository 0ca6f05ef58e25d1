import HttpCallback.Lib.Format
import HttpCallback.Lib.Headers
import HttpCallback.Request.Results
import HttpCallback.Response.Pages

/-!
# What the client reads

An answer as its client takes it apart: a status line, fields, and behind an empty line the body.
The url is cut out at white space, so no line end gets from a request into the answer, and whatever
was asked for, the client reads exactly the lines that were meant, with the file behind them
(`answer_read`). Of an answer cut short it reads a front part of the body, and `Content-Length`
tells it whether there is more to come; the pages have none. In the pages the name of the server
runs on into the name of the type.
-/

namespace HttpCallback

open CString Delivery

/-- An answer read by a client. -/
structure Seen where
  status : Bytes
  fields : List (Bytes × Bytes)
  body : Bytes
  deriving Repr, DecidableEq

/-- `name: value`. -/
def field (line : Bytes) : Bytes × Bytes :=
  (line.takeWhile (!isColon ·), (line.dropWhile (!isColon ·)).drop 2)

def see (t : Bytes) : Option Seen :=
  (Headers.decode t).bind fun (lines, body) =>
    lines.head?.map fun status => ⟨status, lines.tail.map field, body⟩

/-- The body is as long as `Content-Length` says. -/
def Seen.Complete (s : Seen) : Prop :=
  (s.fields.lookup (ascii "Content-Length")).bind Format.readDecimal = some s.body.length

/-- Every path is the one of a file. -/
def Disk.of (files : Bytes → Bytes) : Disk := fun p => ((files p).length, some (freads (files p)))

/-- The lines of an answer, and what stands behind the empty one; `wrong_path` is never sent
(`reply_ne_wrongPath`). -/
def Reply.lines (files : Bytes → Bytes) : Reply → List Bytes
  | .responseOk pathName =>
    [ascii "HTTP/1.0 200 OK ",
      ascii "Content-Length: " ++ Format.decimal (files pathName).length,
      ascii "Content-Type: application/octet-stream",
      ascii "Content-Disposition: filename=" ++ fileName pathName,
      ascii "Connection: close"]
  | .unknow =>
    [ascii "HTTP/1.0 404 NOT FOUND", serverType ++ ascii "Content-Type: text/html",
      ascii "Connection: close"]
  | .errorMethod =>
    [ascii "HTTP/1.0 501 Method Not Implemented", serverType ++ ascii "Content-Type: text/html"]
  | .wrongPath => []

def Reply.body (files : Bytes → Bytes) : Reply → Bytes
  | .responseOk pathName => files pathName
  | .unknow =>
    ascii "<HTML><TITLE>Not Found</TITLE>\r\n<BODY><P>The server could not fulfill\r\n" ++
      ascii "your request because the resource specified\r\nis unavailable or nonexistent.\r\n" ++
      ascii "</BODY></HTML>\r\n"
  | .errorMethod =>
    ascii "<HTML><HEAD><TITLE>Method Not Implemented\r\n</TITLE></HEAD>\r\n" ++
      ascii "<BODY><P>HTTP request method not supported.\r\n</BODY></HTML>\r\n"
  | .wrongPath => []

theorem ascii_toString (n : Nat) : ascii (toString (n : Int)) = Format.decimal n := by
  have hlist : (toString (n : Int)).toList = Nat.toDigits 10 n := Nat.toList_repr
  rw [ascii, hlist, Format.decimal]

/-- The statements of an answer offer its lines and its body. -/
theorem text_ops {files : Bytes → Bytes} {r : Reply} (h : r ≠ .wrongPath) (stack : Mem) :
    text (r.ops (.of files) stack) = Headers.encode (r.lines files) (r.body files) := by
  cases r with
  | responseOk pathName =>
    have hstatus : ascii "HTTP/1.0 200 OK \r\n" = ascii "HTTP/1.0 200 OK " ++ Headers.eol := by
      decide +kernel
    have htype : ascii "Content-Type: application/octet-stream\r\n" =
        ascii "Content-Type: application/octet-stream" ++ Headers.eol := by decide +kernel
    have hclose : ascii "Connection: close\r\n\r\n" =
        ascii "Connection: close" ++ (Headers.eol ++ Headers.eol) := by decide +kernel
    have heol : crlf = Headers.eol := rfl
    rw [Reply.ops, text, Disk.of, responseOps_buf, response, headerLines, ascii_toString, hstatus,
      htype, hclose, heol]
    simp [Headers.encode, Reply.lines, Reply.body]
  | unknow =>
    have hpage : text HttpCallback.unknow =
        Headers.encode (Reply.unknow.lines fun _ => []) (Reply.unknow.body fun _ => []) := by
      decide +kernel
    exact hpage
  | errorMethod =>
    have hpage : text HttpCallback.errorMethod =
        Headers.encode (Reply.errorMethod.lines fun _ => [])
          (Reply.errorMethod.body fun _ => []) := by
      decide +kernel
    exact hpage
  | wrongPath => exact absurd rfl h

/-! ## No line end in a path -/

section Path

variable {stale : Mem} {fs : FileSystem} {s : Bytes} {req : HttpRequest}

theorem isspace_root : ∀ b ∈ root, isspace b = false := by decide +kernel

theorem isspace_copyPart (buf : Mem) (n : Nat) :
    ∀ j, ∀ b ∈ (copyPart buf n j).text, isspace b = false := by
  induction n with
  | zero => exact fun _ => List.forall_mem_nil _
  | succ n ih =>
    intro j
    unfold copyPart
    split
    · exact List.forall_mem_nil _
    · rename_i hs
      exact List.forall_mem_cons.2 ⟨Bool.eq_false_iff.2 hs, ih (j + 1)⟩

theorem isspace_splitRequest_url : ∀ b ∈ (splitRequest stale s).url, isspace b = false := by
  intro b hb
  have hmem := (List.takeWhile_prefix _).subset hb
  rcases List.mem_append.1 hmem with hmem | hmem
  · exact isspace_copyPart _ _ _ b hmem
  · rw [List.mem_singleton.1 hmem]
    rfl

/-- A path that is opened holds no white space. -/
theorem isspace_localPath (h : (acceptRequest stale fs s).code = .success) :
    ∀ b ∈ (acceptRequest stale fs s).localPath, isspace b = false := by
  have hserved : Served (splitRequest stale s).method := by
    by_contra hno
    rw [acceptRequest_not_served hno] at h
    cases h
  have hroot : ∀ b ∈ root ++ (splitRequest stale s).url, isspace b = false :=
    List.forall_mem_append.2 ⟨isspace_root, isspace_splitRequest_url⟩
  rw [(acceptRequest_served hserved).2]
  split
  · exact hroot
  · unfold openPath
    simp only
    split
    · exact List.forall_mem_append.2 ⟨hroot, by decide +kernel⟩
    · exact hroot

/-- The answers there are. -/
theorem reply_cases (stale : Mem) (fs : FileSystem) (req : HttpRequest) :
    (∃ path, (httpModuleHandlerResponse stale fs req).reply = .responseOk path ∧
        ∀ b ∈ path, isspace b = false) ∨
      (httpModuleHandlerResponse stale fs req).reply = .unknow ∨
      (httpModuleHandlerResponse stale fs req).reply = .errorMethod := by
  unfold httpModuleHandlerResponse
  simp only
  by_cases hserved : Served (splitRequest stale req.line).method
  · have hcode := (@acceptRequest_served stale fs _ hserved).1
    split at hcode
    · exact Or.inr (Or.inl (by rw [hcode]))
    · exact Or.inl ⟨_, by rw [hcode], isspace_localPath hcode⟩
  · exact Or.inr (Or.inr (by rw [acceptRequest_not_served hserved]))

theorem lf_not_mem_decimal (n : Nat) : (10 : UInt8) ∉ Format.decimal n := by
  intro h
  have hdigit := Format.isDigit_of_mem_decimal h
  cases hdigit

theorem lf_not_mem_fileName {path : Bytes} (h : ∀ b ∈ path, isspace b = false) :
    (10 : UInt8) ∉ fileName path := by
  intro hmem
  have hpath := (List.takeWhile_prefix _).subset (List.mem_reverse.1 hmem)
  have hspace := h 10 (List.mem_reverse.1 hpath)
  cases hspace

/-- Each line of an answer is one line for the client. -/
theorem isLine_lines (stale : Mem) (fs : FileSystem) (req : HttpRequest) (files : Bytes → Bytes) :
    ∀ l ∈ (httpModuleHandlerResponse stale fs req).reply.lines files, Headers.IsLine l := by
  have hline : ∀ {l : Bytes}, l ≠ [] ∧ (10 : UInt8) ∉ l → Headers.IsLine l :=
    fun h => Headers.isLine_of_not_mem h.1 h.2
  have hjoin : ∀ {l m : Bytes}, l ≠ [] ∧ (10 : UInt8) ∉ l → (10 : UInt8) ∉ m →
      Headers.IsLine (l ++ m) := by
    intro l m hl hm
    refine hline ⟨List.append_ne_nil_of_left_ne_nil hl.1 m, fun hmem => ?_⟩
    exact (List.mem_append.1 hmem).elim hl.2 hm
  rcases reply_cases stale fs req with ⟨path, hreply, hpath⟩ | hreply | hreply
  · rw [hreply]
    refine List.forall_mem_cons.2 ⟨hline (by decide +kernel), ?_⟩
    refine List.forall_mem_cons.2 ⟨hjoin (by decide +kernel) (lf_not_mem_decimal _), ?_⟩
    refine List.forall_mem_cons.2 ⟨hline (by decide +kernel), ?_⟩
    refine List.forall_mem_cons.2 ⟨hjoin (by decide +kernel) (lf_not_mem_fileName hpath), ?_⟩
    exact List.forall_mem_singleton.2 (hline (by decide +kernel))
  · rw [hreply]
    refine List.forall_mem_cons.2 ⟨hline (by decide +kernel), ?_⟩
    refine List.forall_mem_cons.2 ⟨hline (by decide +kernel), ?_⟩
    exact List.forall_mem_singleton.2 (hline (by decide +kernel))
  · rw [hreply]
    refine List.forall_mem_cons.2 ⟨hline (by decide +kernel), ?_⟩
    exact List.forall_mem_singleton.2 (hline (by decide +kernel))

end Path

/-! ## Reading an answer -/

/-- What is to be read of an answer. -/
def Reply.seen (files : Bytes → Bytes) : Reply → Seen
  | .responseOk pathName =>
    ⟨ascii "HTTP/1.0 200 OK ",
      [(ascii "Content-Length", Format.decimal (files pathName).length),
        (ascii "Content-Type", ascii "application/octet-stream"),
        (ascii "Content-Disposition", ascii "filename=" ++ fileName pathName),
        (ascii "Connection", ascii "close")],
      files pathName⟩
  | .unknow =>
    ⟨ascii "HTTP/1.0 404 NOT FOUND",
      [(serverType ++ ascii "Content-Type", ascii "text/html"),
        (ascii "Connection", ascii "close")],
      Reply.unknow.body files⟩
  | .errorMethod =>
    ⟨ascii "HTTP/1.0 501 Method Not Implemented",
      [(serverType ++ ascii "Content-Type", ascii "text/html")], Reply.errorMethod.body files⟩
  | .wrongPath => ⟨[], [], []⟩

theorem seen_lines (files : Bytes → Bytes) {r : Reply} (h : r ≠ .wrongPath) :
    (r.lines files).head? = some (r.seen files).status ∧
      (r.lines files).tail.map field = (r.seen files).fields ∧
      r.body files = (r.seen files).body := by
  cases r with
  | responseOk pathName => exact ⟨rfl, rfl, rfl⟩
  | unknow => exact ⟨rfl, rfl, rfl⟩
  | errorMethod => exact ⟨rfl, rfl, rfl⟩
  | wrongPath => exact absurd rfl h

theorem reply_ne_wrongPath (stale : Mem) (fs : FileSystem) (req : HttpRequest) :
    (httpModuleHandlerResponse stale fs req).reply ≠ .wrongPath := by
  rcases reply_cases stale fs req with ⟨path, hreply, -⟩ | hreply | hreply <;> rw [hreply] <;> nofun

/-- The sends by which a request is answered. -/
def answerOps (stale stack : Mem) (fs : FileSystem) (files : Bytes → Bytes) (req : HttpRequest) :
    List SendOp :=
  (httpModuleHandlerResponse stale fs req).reply.ops (.of files) stack

section Answer

variable (stale stack : Mem) (fs : FileSystem) (files : Bytes → Bytes) (req : HttpRequest)

theorem text_answerOps :
    text (answerOps stale stack fs files req) =
      Headers.encode ((httpModuleHandlerResponse stale fs req).reply.lines files)
        ((httpModuleHandlerResponse stale fs req).reply.seen files).body := by
  have hne := reply_ne_wrongPath stale fs req
  rw [answerOps, text_ops hne, (seen_lines files hne).2.2]

/-- A block of lines with the answer's, and any body behind it. -/
theorem see_of_decode {t b : Bytes}
    (h : Headers.decode t = some ((httpModuleHandlerResponse stale fs req).reply.lines files, b)) :
    see t = some { (httpModuleHandlerResponse stale fs req).reply.seen files with body := b } := by
  obtain ⟨hstatus, hfields, -⟩ := seen_lines files (reply_ne_wrongPath stale fs req)
  rw [see, h, Option.bind_some]
  simp only [hstatus, hfields, Option.map_some]

/-- The text of an answer is read for what was decided. -/
theorem see_text :
    see (text (answerOps stale stack fs files req)) =
      some ((httpModuleHandlerResponse stale fs req).reply.seen files) := by
  refine see_of_decode stale fs files req ?_
  rw [text_answerOps]
  exact Headers.decode_encode (isLine_lines stale fs req files) _

/-- With a front part of its body an answer is complete when the body is the whole file. -/
theorem complete_iff {r : Reply} {b : Bytes} (hb : b <+: (r.seen files).body) :
    { r.seen files with body := b }.Complete ↔
      (∃ path, r = .responseOk path) ∧ b = (r.seen files).body := by
  cases r with
  | responseOk path =>
    have hlookup : { (Reply.responseOk path).seen files with body := b }.Complete ↔
        some (files path).length = some b.length := by
      rw [← Format.readDecimal_decimal]
      rfl
    rw [hlookup, Option.some.injEq]
    constructor
    · exact fun hlen => ⟨⟨path, rfl⟩, hb.eq_of_length hlen.symm⟩
    · rintro ⟨-, rfl⟩
      rfl
  | unknow => exact iff_of_false nofun fun h => nomatch h.1
  | errorMethod => exact iff_of_false nofun fun h => nomatch h.1
  | wrongPath => exact iff_of_false nofun fun h => nomatch h.1

/-- What a client has of an answer, in the `k` sends of a delivery: no complete block of lines, or
the lines of the answer and a front part of its body; and the length that the fields announce is the
one of what it has if and only if it has everything, and what it has is a file. -/
theorem see_delivered {evs : List SendEv}
    (hseam : Seamless (pieces (answerOps stale stack fs files req) evs)) (k : Nat) :
    see (((runOps (answerOps stale stack fs files req) evs).calls.take k).flatMap (·.taken)) =
        none ∨
      ∃ s b, s = { (httpModuleHandlerResponse stale fs req).reply.seen files with body := b } ∧
        see (((runOps (answerOps stale stack fs files req) evs).calls.take k).flatMap (·.taken)) =
          some s ∧
        b <+: ((httpModuleHandlerResponse stale fs req).reply.seen files).body ∧
        (s.Complete ↔ (∃ path, (httpModuleHandlerResponse stale fs req).reply = .responseOk path) ∧
          ((runOps (answerOps stale stack fs files req) evs).calls.take k).flatMap (·.taken) =
            text (answerOps stale stack fs files req)) := by
  have hfront := runOps_take_prefix hseam k
  generalize ((runOps (answerOps stale stack fs files req) evs).calls.take k).flatMap (·.taken) = t
    at hfront ⊢
  rw [text_answerOps] at hfront ⊢
  rcases Headers.decode_prefix (isLine_lines stale fs req files) hfront with
    hnone | ⟨b, hb, ht, hdecode⟩
  · exact Or.inl (by rw [see, hnone]; rfl)
  · refine Or.inr ⟨_, b, rfl, see_of_decode stale fs files req hdecode, hb, ?_⟩
    rw [complete_iff files hb, ht]
    refine and_congr_right fun _ => ⟨fun heq => by rw [heq], fun heq => ?_⟩
    rw [Headers.encode, Headers.encode, List.append_cancel_left_eq,
      List.append_cancel_left_eq] at heq
    exact heq

/-- **The client reads what the handler has decided.** For every request, all stale bytes and every
file system: the text of the answer, taken apart at its line ends, has the status, the fields and
the body of the answer that was chosen, and no others. While a seamless delivery of it is under way
the client has no complete block of lines, or it has the lines of the answer and a front part of the
body, and the announced length is the one of what it has if and only if it has everything, and what
it has is a file. -/
theorem answer_read :
    see (text (answerOps stale stack fs files req)) =
        some ((httpModuleHandlerResponse stale fs req).reply.seen files) ∧
      ∀ evs, Seamless (pieces (answerOps stale stack fs files req) evs) → ∀ k,
        see (((runOps (answerOps stale stack fs files req) evs).calls.take k).flatMap (·.taken)) =
            none ∨
          ∃ s b, s = { (httpModuleHandlerResponse stale fs req).reply.seen files with body := b } ∧
            see (((runOps (answerOps stale stack fs files req) evs).calls.take k).flatMap
              (·.taken)) = some s ∧
            b <+: ((httpModuleHandlerResponse stale fs req).reply.seen files).body ∧
            (s.Complete ↔
              (∃ path, (httpModuleHandlerResponse stale fs req).reply = .responseOk path) ∧
                ((runOps (answerOps stale stack fs files req) evs).calls.take k).flatMap (·.taken) =
                  text (answerOps stale stack fs files req)) :=
  ⟨see_text stale stack fs files req, fun _ hseam k =>
    see_delivered stale stack fs files req hseam k⟩

end Answer

/-- The answer to `GET /` where every file is two bytes long. -/
def sampleAnswer : List SendOp :=
  answerOps (fun _ => 32) (fun _ => 0) (fun _ => some .other) (fun _ => [97, 98])
    ⟨[71, 69, 84], [47], [72], []⟩

/-- One byte of the two has been delivered. -/
theorem answer_read_one : ∃ s,
    see (((runOps sampleAnswer (List.replicate 5 (.sent 99) ++ [.sent 1])).calls.take 6).flatMap
      (·.taken)) = some s ∧ ¬s.Complete := by
  have hseam : Seamless (pieces sampleAnswer (List.replicate 5 (.sent 99) ++ [.sent 1])) :=
    (delivered_prefix_iff _).1 (by decide +kernel)
  rcases (answer_read (fun _ => 32) (fun _ => 0) (fun _ => some .other) (fun _ => [97, 98])
    ⟨[71, 69, 84], [47], [72], []⟩).2 _ hseam 6 with hnone | ⟨s, b, -, hsee, -, hcomplete⟩
  · exact absurd hnone (by decide +kernel)
  · refine ⟨s, hsee, fun h => ?_⟩
    exact absurd (hcomplete.1 h).2 (by decide +kernel)

end HttpCallback
