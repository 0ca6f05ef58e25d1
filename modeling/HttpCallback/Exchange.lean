import HttpCallback.Parse.Canonical
import HttpCallback.Recv.Scratch
import HttpCallback.Response.Seen

/-!
# An exchange

From the bytes that a client sends to those that are sent for it. A canonical request may arrive in
any segments: `callback` returns NULL until the call that has taken in the blank line, and then the
request. What `http_module_handler_response` sends for it is the answer for the url's path, which a
client takes apart again (`exchange`). The scratch array of the calls is taken to be as large as
they need; where the segments are whole chunks they keep to its size.

As bytes are never taken out of the block of a connection, there is no second request
(`first_request_again`). The worker makes these calls too; what it passes on for the client's
descriptor is half of a pointer.
-/

namespace HttpCallback

open CString

/-! ## The head of a request -/

section Head

variable {m u v t : Bytes} {hs : List (Bytes × Bytes)}

/-- What is parsed of a request. -/
def canonicalRequest (m u v : Bytes) (hs : List (Bytes × Bytes)) : HttpRequest :=
  ⟨m, u, v, headStores 0 hs⟩

/-- The lines of a request. -/
def requestLines (m u v : Bytes) (hs : List (Bytes × Bytes)) : List Bytes :=
  (m ++ sp :: (u ++ sp :: v)) :: hs.map fun h => h.1 ++ colon :: sp :: h.2

theorem requestText_encode (m u v : Bytes) (hs : List (Bytes × Bytes)) (t : Bytes) :
    requestText m u v hs t = Headers.encode (requestLines m u v hs) t := by
  have hlines : hs.flatMap headerLine =
      (hs.map fun h => h.1 ++ colon :: sp :: h.2).flatMap (· ++ Headers.eol) := by
    rw [List.flatMap_map]
    refine List.flatMap_congr fun h _ => ?_
    simp [headerLine, Headers.eol, cr, lf]
  rw [requestText_eq, hlines, Headers.encode, requestLines, List.flatMap_cons]
  simp [Headers.eol, cr, lf]

theorem Canonical.isLine (h : Canonical m u v hs t) :
    ∀ l ∈ requestLines m u v hs, Headers.IsLine l := by
  refine List.forall_mem_cons.2 ⟨?_, ?_⟩
  · refine Headers.isLine_of_not_mem (by simp) ?_
    exact h.requestLine.avoids.not (x := lf) (by simp)
  · intro l hl
    obtain ⟨x, hx, rfl⟩ := List.mem_map.1 hl
    have hheader := h.headers x hx
    refine Headers.isLine_of_not_mem (by simp) fun hmem => ?_
    rcases List.mem_append.1 hmem with hname | hrest
    · exact hheader.name.not (x := lf) (by simp) hname
    · rcases List.mem_cons.1 hrest with hcolon | hrest
      · cases hcolon
      · rcases List.mem_cons.1 hrest with hsp | hvalue
        · cases hsp
        · exact hheader.value.not (x := lf) (by simp) hvalue

/-- The number of bytes up to the blank line and with it. -/
def headLength (m u v : Bytes) (hs : List (Bytes × Bytes)) : Nat := (requestText m u v hs []).length

theorem requestText_append (m u v : Bytes) (hs : List (Bytes × Bytes)) (t : Bytes) :
    requestText m u v hs t = requestText m u v hs [] ++ t := by
  rw [requestText_encode, requestText_encode, Headers.encode_append, List.nil_append]

/-- A front part that does not reach behind the blank line. -/
theorem Canonical.analasy_short (h : Canonical m u v hs t) {n : Nat}
    (hn : n < headLength m u v hs) :
    (analasy ((requestText m u v hs t).take n)).out = .ret none := by
  refine analasy_no_blank fun hblank => ?_
  have hfront := List.take_prefix n (requestText m u v hs t)
  have hlen := List.length_take_le n (requestText m u v hs t)
  rw [requestText_encode] at hfront
  rcases Headers.decode_prefix h.isLine hfront with hnone | ⟨b, -, heq, -⟩
  · rw [← requestText_encode] at hnone
    exact Headers.decode_ne_none hblank hnone
  · rw [← requestText_encode, ← requestText_encode, requestText_append m u v hs b] at heq
    rw [heq, List.length_append] at hlen
    unfold headLength at hn
    omega

/-- One that does. -/
theorem Canonical.analasy_long (h : Canonical m u v hs t) {n : Nat}
    (hn : headLength m u v hs ≤ n) :
    (analasy ((requestText m u v hs t).take n)).out = .ret (some (canonicalRequest m u v hs)) := by
  have hnul : NulFree (t.take (n - headLength m u v hs)) :=
    fun hmem => h.tail (List.mem_of_mem_take hmem)
  have htake : (requestText m u v hs t).take n =
      requestText m u v hs (t.take (n - headLength m u v hs)) := by
    rw [requestText_append m u v hs t, List.take_append, requestText_append m u v hs (t.take _),
      List.take_of_length_le hn]
    rfl
  have htext := nulFree_text (h.requestLine.avoids.not (by simp)) (nulFree_headers h.headers) hnul
  obtain ⟨cs, hret, -⟩ := analasyTokens_headers h.requestLine h.headers
    (t.take (n - headLength m u v hs))
  rw [htake, requestText_eq, (analasy_refines htext).2, hret]
  rfl

end Head

/-! ## The calls of `callback` -/

section Calls

variable {m u v t : Bytes} {hs : List (Bytes × Bytes)}

/-- The call that takes in the blank line, counted from 0. -/
def lastCall (m u v : Bytes) (hs : List (Bytes × Bytes)) : Nat := (headLength m u v hs - 1) / 100

theorem headLength_pos (m u v : Bytes) (hs : List (Bytes × Bytes)) : 0 < headLength m u v hs := by
  unfold headLength requestText
  simp only [List.length_append, List.length_cons]
  omega

/-- What the `k`-th call parses, as long as it fits the array, and what it comes to. -/
theorem Canonical.parsed (h : Canonical m u v hs t) {k : Nat}
    (hfit : min (100 * (k + 1)) (requestText m u v hs t).length ≤ 4095) :
    (analasy (snprintf bufsize ((requestText m u v hs t).take (0 + 100 * (k + 1))))).out =
      .ret (if k < lastCall m u v hs then none else some (canonicalRequest m u v hs)) := by
  have hpos := headLength_pos m u v hs
  have hcut : snprintf bufsize ((requestText m u v hs t).take (0 + 100 * (k + 1))) =
      (requestText m u v hs t).take (100 * (k + 1)) := by
    rw [Nat.zero_add]
    refine List.take_of_length_le ?_
    rw [List.length_take]
    exact hfit
  rw [hcut]
  unfold lastCall
  split
  · exact h.analasy_short (by omega)
  · exact h.analasy_long (by omega)

/-- The calls return NULL up to the one that takes in the blank line, and from it on the request. -/
theorem callbacks_canonical (h : Canonical m u v hs t) {segs : List Bytes}
    (hcuts : Cuts segs (requestText m u v hs t)) (stack : Mem) {tcp : HttpTcp}
    (htcp : tcp.buf = []) {n k : Nat} (hk : k < n)
    (hfit : min (100 * (k + 1)) (requestText m u v hs t).length ≤ 4095) :
    ∃ c, (callbacks stack readCount n tcp (stream segs n))[k]? = some c ∧
      c.returned =
        some (if k < lastCall m u v hs then none else some (canonicalRequest m u v hs)) := by
  have hnul : NulFree (requestText m u v hs t) := by
    rw [requestText_eq]
    exact nulFree_text (h.requestLine.avoids.not (by simp)) (nulFree_headers h.headers) h.tail
  have hcuts' : Cuts segs ((requestText m u v hs t).drop 0) := hcuts
  obtain ⟨c, hc, -, hfin⟩ := callbacks_stream stack hnul hcuts' htcp le_rfl hk
    fun j hj => ⟨_, h.parsed (by omega)⟩
  refine ⟨c, hc, ?_⟩
  rw [Callback.returned, hfin, h.parsed hfit]

end Calls

/-- **An exchange.** For every canonical request with a method that is served and a plain url, whose
head fits the arrays, in all segmentations, with a scratch array as large as the calls need:
`callback` returns NULL until it has the whole head, and then a request whose answer, where the copy
of the url meets white space in bounds, stays inside its arrays and reads as the one for the path of
the url: the file's length, name and content where it is a file, and the page for an unknown
resource where the file system knows nothing. Where every segment is a number of whole chunks, all
calls keep to the scratch array there is. -/
theorem exchange {m u v t : Bytes} {hs : List (Bytes × Bytes)} (h : Canonical m u v hs t)
    (hlen : headLength m u v hs ≤ 4000) (hserved : Served m)
    (hplain : Plain (canonicalRequest m u v hs)) {segs : List Bytes}
    (hcuts : Cuts segs (requestText m u v hs t)) (stack : Mem) (tcp : HttpTcp)
    (htcp : tcp.buf = []) {n : Nat} (hn : lastCall m u v hs < n) :
    (∀ k < lastCall m u v hs, ∃ c,
      (callbacks stack readCount n tcp (stream segs n))[k]? = some c ∧ c.returned = some none) ∧
    (∃ c, (callbacks stack readCount n tcp (stream segs n))[lastCall m u v hs]? = some c ∧
      c.returned = some (some (canonicalRequest m u v hs)) ∧
      ∀ stale stack fs files, Stops stale (canonicalRequest m u v hs).line →
        (httpModuleHandlerResponse stale fs (canonicalRequest m u v hs)).InBounds ∧
        (fs (openPath u) = some .other →
          see (text (answerOps stale stack fs files (canonicalRequest m u v hs))) =
            some ((Reply.responseOk (openPath u)).seen files)) ∧
        (fs (openPath u) = none →
          see (text (answerOps stale stack fs files (canonicalRequest m u v hs))) =
            some (Reply.unknow.seen files))) ∧
    ((∀ seg ∈ segs, readCount.toNat ∣ seg.length) →
      ∀ c ∈ callbacks stack readCount n tcp (stream segs n), c.Inside) := by
  have hlast : 100 * lastCall m u v hs ≤ headLength m u v hs - 1 := Nat.mul_div_le _ _
  refine ⟨?_, ?_, fun hchunks => callbacks_inside stack hcuts.ne_nil hchunks le_rfl⟩
  · intro k hk
    obtain ⟨c, hc, hret⟩ := callbacks_canonical h hcuts stack htcp (hk.trans hn) (by omega)
    rw [if_pos hk] at hret
    exact ⟨c, hc, hret⟩
  · obtain ⟨c, hc, hret⟩ := callbacks_canonical h hcuts stack htcp hn (by omega)
    rw [if_neg (Nat.lt_irrefl _)] at hret
    refine ⟨c, hc, hret, fun stale stack fs files hstops => ?_⟩
    rw [see_text]
    refine ⟨hplain.inBounds hstops fs, fun hfs => ?_, fun hfs => ?_⟩
    · rw [reply_file stale hplain hserved hfs]
      rfl
    · rw [reply_unknow stale hplain hserved hfs]

/-- `GET /a H` and a header, with a tail that makes it two chunks, sent in one segment. -/
theorem exchange_get : ∃ c,
    (callbacks (fun _ => 0) readCount 1 ⟨5, [], []⟩
      (stream [requestText [71, 69, 84] [47, 97] [72] [([97], [98])] (List.replicate 182 120)]
        1))[0]? = some c ∧ c.Inside ∧
      c.returned = some (some (canonicalRequest [71, 69, 84] [47, 97] [72] [([97], [98])])) ∧
      see (text (answerOps (fun _ => 32) (fun _ => 0) (fun _ => none) (fun _ => [])
        (canonicalRequest [71, 69, 84] [47, 97] [72] [([97], [98])]))) =
        some (Reply.unknow.seen fun _ => []) := by
  have hcanonical :
      Canonical [71, 69, 84] [47, 97] [72] [([97], [98])] (List.replicate 182 120) := by
    refine ⟨by decide, by decide, by decide, by decide, by decide, by decide, ?_, by decide⟩
    exact List.forall_mem_singleton.2 ⟨by decide, by decide, by decide⟩
  have hcuts : Cuts [requestText [71, 69, 84] [47, 97] [72] [([97], [98])] (List.replicate 182 120)]
      (requestText [71, 69, 84] [47, 97] [72] [([97], [98])] (List.replicate 182 120)) :=
    ⟨by simp, List.forall_mem_singleton.2 (by simp [requestText])⟩
  obtain ⟨-, ⟨c, hc, hret, hanswer⟩, hin⟩ := exchange hcanonical (by decide) (by decide)
    ⟨by simp [canonicalRequest, isspace], by decide, by decide, by decide,
      by simp [canonicalRequest, isspace], by decide, by decide, by decide⟩ hcuts
    (fun _ => 0) ⟨5, [], []⟩ rfl (n := 1) (by decide)
  have hstops : Stops (fun _ => 32)
      (canonicalRequest [71, 69, 84] [47, 97] [72] [([97], [98])]).line :=
    ⟨7, by decide, by decide, by decide, by decide⟩
  refine ⟨c, hc, hin ?_ c (List.mem_of_getElem? hc), hret, (hanswer _ _ _ _ hstops).2.2 rfl⟩
  exact List.forall_mem_singleton.2 (by decide +kernel)

/-- **The first request is the only one.** Whatever a client sends behind a canonical request, a
body or more requests, in all segmentations and as long as all of it fits the block, with a scratch
array as large as the calls need: every call of `callback` from the one that has the whole head on
returns that request again, and so does every call that reads the end of the stream. Where every
segment is a number of whole chunks, these calls keep to the scratch array there is. -/
theorem first_request_again {m u v t : Bytes} {hs : List (Bytes × Bytes)}
    (h : Canonical m u v hs t) (hlen : (requestText m u v hs t).length ≤ 4095) {segs : List Bytes}
    (hcuts : Cuts segs (requestText m u v hs t)) (stack : Mem) (tcp : HttpTcp)
    (htcp : tcp.buf = []) {n k : Nat} (hfirst : lastCall m u v hs ≤ k) (hk : k < n) :
    ∃ c, (callbacks stack readCount n tcp (stream segs n))[k]? = some c ∧
      c.returned = some (some (canonicalRequest m u v hs)) ∧
      ((∀ seg ∈ segs, readCount.toNat ∣ seg.length) → c.Inside) := by
  obtain ⟨c, hc, hret⟩ := callbacks_canonical h hcuts stack htcp hk (by omega)
  rw [if_neg (Nat.not_lt.2 hfirst)] at hret
  refine ⟨c, hc, hret, fun hchunks => ?_⟩
  exact callbacks_inside stack hcuts.ne_nil hchunks le_rfl c (List.mem_of_getElem? hc)

/-- `GET /a H` and then `GET /b H`, in one segment of two chunks. -/
theorem first_request_again_get : ∃ c,
    (callbacks (fun _ => 0) readCount 2 ⟨5, [], []⟩
      (stream [requestText [71, 69, 84] [47, 97] [72] []
        (requestText [71, 69, 84] [47, 98] [72] [] (List.replicate 176 120))] 2))[1]? = some c ∧
      c.returned = some (some ⟨[71, 69, 84], [47, 97], [72], []⟩) ∧ c.Inside := by
  have hcanonical : Canonical [71, 69, 84] [47, 97] [72] []
      (requestText [71, 69, 84] [47, 98] [72] [] (List.replicate 176 120)) :=
    ⟨by decide, by decide, by decide, by decide, by decide, by decide, List.forall_mem_nil _,
      by decide +kernel⟩
  have hcuts : Cuts [requestText [71, 69, 84] [47, 97] [72] []
        (requestText [71, 69, 84] [47, 98] [72] [] (List.replicate 176 120))]
      (requestText [71, 69, 84] [47, 97] [72] []
        (requestText [71, 69, 84] [47, 98] [72] [] (List.replicate 176 120))) :=
    ⟨by simp, List.forall_mem_singleton.2 (by simp [requestText])⟩
  obtain ⟨c, hc, hret, hin⟩ := first_request_again hcanonical (by decide +kernel) hcuts
    (fun _ => 0) ⟨5, [], []⟩ rfl (by decide) (Nat.lt_succ_self 1)
  exact ⟨c, hc, hret, hin (List.forall_mem_singleton.2 (by decide +kernel))⟩

end HttpCallback
