import HttpCallback.Exchange
import HttpCallback.Recv.Scratch
import HttpCallback.Worker.Answers
import HttpCallback.Worker.Silent

/-!
# Every client's own request

The workers take in many connections at once, in whatever order their descriptors become readable.
What a worker has in the block of a connection is a front part of what that client has sent, and it
has parsed a request from it exactly when the whole head is there: the client's own, and never a
byte of another's (`System.own_requests`). So the mix-up of the loop is not in what it receives but
in where it answers (`System.kept`).
-/

namespace HttpCallback

open CString

/-! ## A client -/

theorem callback_fd (stack : Mem) (t : HttpTcp) (evs : List ReadEv) :
    (callback stack t readCount evs).tcp.fd = t.fd := by
  unfold callback
  simp only
  split <;> rfl

/-- What a client sends: a canonical request, and anything behind it that still fits the array. -/
structure Client where
  method : Bytes
  url : Bytes
  version : Bytes
  headers : List (Bytes × Bytes)
  tail : Bytes
  canonical : Canonical method url version headers tail
  fits : (requestText method url version headers tail).length ≤ 4095

namespace Client

variable (c : Client)

def text : Bytes := requestText c.method c.url c.version c.headers c.tail

/-- The number of bytes up to the blank line and with it. -/
def head : Nat := headLength c.method c.url c.version c.headers

def request : HttpRequest := canonicalRequest c.method c.url c.version c.headers

theorem head_pos : 0 < c.head := headLength_pos ..

theorem nulFree_text : NulFree c.text := by
  unfold text
  rw [requestText_eq]
  exact HttpCallback.nulFree_text (c.canonical.requestLine.avoids.not (by simp))
    (nulFree_headers c.canonical.headers) c.canonical.tail

/-- What is parsed of a front part of the text. -/
theorem analasy_front {b : Bytes} (h : b <+: c.text) :
    (analasy (snprintf bufsize b)).out =
      .ret (if c.head ≤ b.length then some c.request else none) := by
  have hle : b.length ≤ 4095 := h.length_le.trans c.fits
  have hcut : snprintf bufsize b = b := List.take_of_length_le hle
  rw [hcut, List.prefix_iff_eq_take.1 h]
  have hlen : (c.text.take b.length).length = b.length := by
    rw [← List.prefix_iff_eq_take.1 h]
  rw [hlen]
  split
  · rename_i hhead
    exact c.canonical.analasy_long hhead
  · rename_i hhead
    exact c.canonical.analasy_short (Nat.lt_of_not_le hhead)

/-- A call of `callback` that finds enough takes in the next bytes of the text. -/
theorem taken (stack : Mem) {t : HttpTcp} (hfront : t.buf <+: c.text) {evs : List ReadEv}
    (h : Arrived readCount.toNat (c.text.drop t.buf.length) evs) :
    (callback stack t readCount evs).tcp.buf <+: c.text ∧
      t.buf.length ≤ (callback stack t readCount evs).tcp.buf.length ∧
      (callback stack t readCount evs).returned =
        some (if c.head ≤ (callback stack t readCount evs).tcp.buf.length then some c.request
          else none) := by
  obtain ⟨-, ⟨n, hfin⟩, hbuf⟩ := onRecv_arrived stack t.buf (by decide) (by decide)
    (c.nulFree_text.sublist (List.drop_sublist _ _)) h
  have hnext : (onRecv stack t.buf readCount evs).st.buf <+: c.text := by
    rw [hbuf]
    obtain ⟨rest, hrest⟩ := hfront
    rw [← hrest, List.drop_left, List.prefix_append_right_inj]
    exact List.take_prefix _ _
  have hle : t.buf.length ≤ (onRecv stack t.buf readCount evs).st.buf.length := by
    rw [hbuf, List.length_append]
    exact Nat.le_add_right ..
  unfold callback
  simp only [hfin, Callback.returned, c.analasy_front hnext]
  exact ⟨hnext, hle, trivial⟩

end Client

/-! ## A worker -/

namespace Worker

/-- The blocks of new connections hold the empty string, and a call on a connection finds the bytes
that it asks for of what its client has still to send, all in one read, or the end of that. -/
def Supplied (cl : Nat → Client) (s : Worker) : WorkerInput → Prop
  | .message _ _ _ _ buf => buf = []
  | .readable _ evs _ => ∀ e rest t j, s.batch = e :: rest → s.heap e.data = some (.tcp t) →
      s.files t.fd = some (.conn j) →
      Arrived readCount.toNat ((cl j).text.drop t.buf.length) evs
  | _ => True

/-- The connection `j` is the client `cl j`: what has been taken in, parsed and answered of it is
its own. -/
structure Own (cl : Nat → Client) (cfg : Setup) (s : Worker) : Prop where
  opened : ∀ a t, s.heap a = some (.tcp t) →
    s.files t.fd ≠ none ∨ s.files cfg.fd0 ≠ some .handoff
  block : ∀ k j, s.files k = some (.conn j) → ∃ a t, s.heap a = some (.tcp t) ∧ t.fd = k
  front : ∀ a t j, s.heap a = some (.tcp t) → s.files t.fd = some (.conn j) →
    t.buf <+: (cl j).text
  request : ∀ a r j, s.heap a = some (.req r (.conn j)) → r = (cl j).request ∧
    ∃ b t, s.heap b = some (.tcp t) ∧ s.files t.fd = some (.conn j) ∧ (cl j).head ≤ t.buf.length
  parsed : ∀ a t j, s.heap a = some (.tcp t) → s.files t.fd = some (.conn j) →
    (cl j).head ≤ t.buf.length → ∃ b, s.heap b = some (.req (cl j).request (.conn j))
  answers : ∀ x ∈ s.answers, ∃ r, s.heap x.req = some (.req r x.origin)

variable {cl cl' : Nat → Client} {cfg : Setup} {D : Set Int} {s s' : Worker} {i : WorkerInput}

theorem init_files_ne (cfg : Setup) (k : Int) (j : Nat) :
    (Worker.init cfg).files k ≠ some (.conn j) := fun h =>
  Nat.not_lt_zero j ((numbered_init cfg).bound k j h)

theorem own_init (cl : Nat → Client) (cfg : Setup) : (Worker.init cfg).Own cl cfg where
  opened := nofun
  block := fun k j h => absurd h (init_files_ne cfg k j)
  front := nofun
  request := nofun
  parsed := nofun
  answers := nofun

/-- Only the clients of the connections so far matter. -/
theorem Own.congr (h : s.Own cl cfg) (hnum : s.Numbered) (hcl : ∀ j < s.conns, cl j = cl' j) :
    s.Own cl' cfg where
  opened := h.opened
  block := h.block
  front := fun a t j ht hj => hcl j (hnum.bound _ j hj) ▸ h.front a t j ht hj
  request := fun a r j hr => by
    obtain ⟨hreq, b, t, ht, hj, hhead⟩ := h.request a r j hr
    rw [hcl j (hnum.bound _ j hj)] at hreq hhead
    exact ⟨hreq, b, t, ht, hj, hhead⟩
  parsed := fun a t j ht hj hhead => by
    rw [← hcl j (hnum.bound _ j hj)] at hhead ⊢
    exact h.parsed a t j ht hj hhead
  answers := h.answers

/-! ## What a step keeps -/

/-- A step that leaves the objects as they are and closes no connection. -/
theorem Own.keep (h : s.Own cl cfg) (hheap : s'.heap = s.heap)
    (hfiles : ∀ k j, s'.files k = some (.conn j) ↔ s.files k = some (.conn j))
    (hopened : ∀ a t, s.heap a = some (.tcp t) →
      s'.files t.fd ≠ none ∨ s'.files cfg.fd0 ≠ some .handoff)
    (hans : ∀ x ∈ s'.answers, ∃ r, s.heap x.req = some (.req r x.origin)) : s'.Own cl cfg where
  opened := by rw [hheap]; exact hopened
  block := by simp only [hheap, hfiles]; exact h.block
  front := by simp only [hheap, hfiles]; exact h.front
  request := by simp only [hheap, hfiles]; exact h.request
  parsed := by simp only [hheap, hfiles]; exact h.parsed
  answers := by rw [hheap]; exact hans

/-- What is allocated at a fresh address leaves the objects as they are. -/
theorem update_fresh {heap : UInt64 → Option Obj} {a b : UInt64} {o o' : Obj}
    (hb : heap b = none) (h : heap a = some o') :
    Function.update heap b (some o) a = some o' := by
  have hne : a ≠ b := by
    rintro rfl
    rw [hb] at h
    cases h
  rwa [Function.update_of_ne hne]

/-- The new object belongs to a descriptor that is open. -/
theorem newDescriptor_open {rest : List Ready} {prior : Cmsg} {ev : RecvmsgEv} {addr : UInt64}
    {ctx buf : Bytes} {clientfd : Int}
    (h : s.newDescriptor cfg rest prior ev addr ctx buf = some s')
    (hv : sockFdRead prior ev = some clientfd) (hne : ev ≠ .fail .eagain) :
    (s.install ev).files clientfd ≠ none := by
  unfold newDescriptor at h
  split at h
  · rw [hv] at h
    simp only at h
    split at h
    · rename_i hagain
      cases ev with
      | fail e => exact absurd (congrArg _ hagain.2) hne
      | fd d => exact absurd hagain.1 (by simp [RecvmsgEv.ret])
      | plain => exact absurd hagain.1 (by simp [RecvmsgEv.ret])
      | eof => exact absurd hagain.1 (by simp [RecvmsgEv.ret])
    · split at h
      · cases h
      · split at h
        · cases h
        · assumption
  · cases h

/-- Behind an arrival: a block with the empty string for an open descriptor. -/
theorem Own.message (h : s.Own cl cfg) {prior : Cmsg} {ev : RecvmsgEv} {addr : UInt64}
    {ctx : Bytes} {clientfd : Int} (hcan : s.CanReceive cfg ev)
    (hv : sockFdRead prior ev = some clientfd) (hopen : (s.install ev).files clientfd ≠ none)
    (hfresh : s.heap addr = none) (hfiles : s'.files = (s.install ev).files)
    (hheap : s'.heap = Function.update s.heap addr (some (.tcp (httpTcpAlloc clientfd ctx []))))
    (hans : s'.answers = s.answers) : s'.Own cl cfg := by
  have hkept : ∀ k file, s.files k = some file → s'.files k = some file := by
    intro k file hk
    rw [hfiles]
    exact install_files hcan hk
  -- no block is left of a descriptor that was closed, so the new number is the new block's only
  have hold : ∀ a t j, s.heap a = some (.tcp t) → s'.files t.fd = some (.conn j) →
      s.files t.fd = some (.conn j) := by
    intro a t j ht hj
    rw [hfiles] at hj
    cases ev with
    | fd d =>
      have hne : t.fd ≠ d := by
        rintro rfl
        rcases h.opened a t ht with hopened | hdeaf
        · exact hopened hcan.2.2
        · exact hdeaf hcan.1
      simpa only [install, Function.update_of_ne hne] using hj
    | plain => exact hj
    | eof => exact hj
    | fail e => exact hj
  have hnew : ∀ k j, s'.files k = some (.conn j) →
      k = clientfd ∨ s.files k = some (.conn j) := by
    intro k j hk
    rw [hfiles] at hk
    cases ev with
    | fd d =>
      have hd : d = clientfd := Option.some.inj hv
      by_cases hkd : k = d
      · exact Or.inl (hkd.trans hd)
      · simp only [install, Function.update_of_ne hkd] at hk
        exact Or.inr hk
    | plain => exact Or.inr hk
    | eof => exact Or.inr hk
    | fail e => exact Or.inr hk
  constructor
  · intro a t ht
    rw [hheap] at ht
    rcases update_some ht with ⟨-, hobj⟩ | ht
    · cases hobj
      exact Or.inl (by rw [hfiles]; exact hopen)
    · rcases h.opened a t ht with hopened | hdeaf
      · obtain ⟨file, hfile⟩ := Option.ne_none_iff_exists'.1 hopened
        exact Or.inl (by rw [hkept _ _ hfile]; exact Option.some_ne_none _)
      · cases ev with
        | fd d => exact absurd hcan.1 hdeaf
        | plain => exact absurd hcan hdeaf
        | eof => exact absurd hcan hdeaf
        | fail e => exact Or.inr (by rw [hfiles]; exact hdeaf)
  · intro k j hk
    rw [hheap]
    rcases hnew k j hk with rfl | hk
    · exact ⟨addr, _, Function.update_self .., rfl⟩
    · obtain ⟨a, t, ht, hfd⟩ := h.block k j hk
      exact ⟨a, t, update_fresh hfresh ht, hfd⟩
  · intro a t j ht hj
    rw [hheap] at ht
    rcases update_some ht with ⟨-, hobj⟩ | ht
    · cases hobj
      exact List.nil_prefix
    · exact h.front a t j ht (hold a t j ht hj)
  · intro a r j hr
    rw [hheap] at hr ⊢
    rcases update_some hr with ⟨-, hobj⟩ | hr
    · cases hobj
    · obtain ⟨hreq, b, t, ht, hj, hhead⟩ := h.request a r j hr
      exact ⟨hreq, b, t, update_fresh hfresh ht, hkept _ _ hj, hhead⟩
  · intro a t j ht hj hhead
    rw [hheap] at ht ⊢
    rcases update_some ht with ⟨-, hobj⟩ | ht
    · cases hobj
      exact absurd hhead (Nat.not_le.2 (cl j).head_pos)
    · obtain ⟨b, hb⟩ := h.parsed a t j ht (hold a t j ht hj) hhead
      exact ⟨b, update_fresh hfresh hb⟩
  · intro x hx
    rw [hans] at hx
    obtain ⟨r, hr⟩ := h.answers x hx
    exact ⟨r, by rw [hheap]; exact update_fresh hfresh hr⟩

/-- What a call of `callback` that returns `q` does to the objects: it rewrites the block at `a`,
and the request, if there is one, is new. -/
structure TakesIn (s s' : Worker) (a : UInt64) (t' : HttpTcp) (file : File)
    (q : Option HttpRequest) : Prop where
  files : s'.files = s.files
  answers : s'.answers = s.answers
  tcp : ∀ b t, s'.heap b = some (.tcp t) ↔ (b = a ∧ t = t') ∨ (b ≠ a ∧ s.heap b = some (.tcp t))
  kept : ∀ b r o, s.heap b = some (.req r o) → s'.heap b = some (.req r o)
  req : ∀ b r o, s'.heap b = some (.req r o) → s.heap b = some (.req r o) ∨ (q = some r ∧ o = file)
  returned : ∀ r, q = some r → ∃ b, s'.heap b = some (.req r file)

theorem readable_takesIn {e : Ready} {rest : List Ready} {stack : Mem} {evs : List ReadEv}
    {addr : UInt64} (h : s.readable e rest stack evs addr = some s') :
    ∃ t file q, s.heap e.data = some (.tcp t) ∧ s.files t.fd = some file ∧
      (callback stack t readCount evs).returned = some q ∧
      TakesIn s s' e.data (callback stack t readCount evs).tcp file q := by
  obtain ⟨t, file, ht, hfile, ⟨hret, rfl⟩ | ⟨req, hret, hfresh, rfl⟩⟩ := readable_cases h
  · refine ⟨t, file, none, ht, hfile, hret, rfl, rfl, fun b u => ?_, fun b r o hr => ?_,
      fun b r o hr => ?_, nofun⟩
    · by_cases hb : b = e.data
      · subst hb
        simp [eq_comm]
      · simp [hb]
    · exact heap_update_req (Or.inr ⟨t, ht⟩) hr
    · rcases update_some hr with ⟨-, hobj⟩ | hr
      · cases hobj
      · exact Or.inl hr
  · have hne : addr ≠ e.data := by
      rintro rfl
      rw [hfresh] at ht
      cases ht
    refine ⟨t, file, some req, ht, hfile, hret, rfl, rfl, fun b u => ?_, fun b r o hr => ?_,
      fun b r o hr => ?_, fun r hr => ?_⟩
    · simp only [epollMod]
      by_cases hb : b = e.data
      · subst hb
        rw [Function.update_of_ne hne.symm]
        simp [eq_comm]
      · by_cases hba : b = addr
        · subst hba
          simp [hb, hfresh]
        · simp [Function.update_of_ne hba, hb]
    · refine heap_update_req (Or.inl ?_) (heap_update_req (Or.inr ⟨t, ht⟩) hr)
      rw [Function.update_of_ne hne]
      exact hfresh
    · simp only [epollMod] at hr
      rcases update_some hr with ⟨-, hobj⟩ | hr
      · cases hobj
        exact Or.inr ⟨rfl, rfl⟩
      · rcases update_some hr with ⟨-, hobj⟩ | hr
        · cases hobj
        · exact Or.inl hr
    · cases hr
      exact ⟨addr, Function.update_self ..⟩

/-- Behind a call of `callback` on the block of a descriptor; where that is a connection, the call
has found enough. -/
theorem Own.takesIn (h : s.Own cl cfg) {a : UInt64} {t : HttpTcp} {file : File}
    {q : Option HttpRequest} {stack : Mem} {evs : List ReadEv} (ht : s.heap a = some (.tcp t))
    (hfile : s.files t.fd = some file)
    (harrived : ∀ j, file = .conn j → Arrived readCount.toNat ((cl j).text.drop t.buf.length) evs)
    (hret : (callback stack t readCount evs).returned = some q)
    (hrec : TakesIn s s' a (callback stack t readCount evs).tcp file q) : s'.Own cl cfg := by
  have hfd := callback_fd stack t evs
  -- what the call does where the descriptor is the connection `j`
  have htaken : ∀ j, file = .conn j → (callback stack t readCount evs).tcp.buf <+: (cl j).text ∧
      t.buf.length ≤ (callback stack t readCount evs).tcp.buf.length ∧
      q = if (cl j).head ≤ (callback stack t readCount evs).tcp.buf.length then
        some (cl j).request else none := by
    rintro j rfl
    obtain ⟨hfront, hle, hq⟩ := (cl j).taken stack (h.front a t j ht hfile) (harrived j rfl)
    rw [hret, Option.some.injEq] at hq
    exact ⟨hfront, hle, hq⟩
  generalize (callback stack t readCount evs).tcp = t' at hfd htaken hrec
  have hself : s'.heap a = some (.tcp t') := (hrec.tcp a t').2 (Or.inl ⟨rfl, rfl⟩)
  have hfile' : ∀ j, s.files t'.fd = some (.conn j) → file = .conn j := by
    intro j hj
    rw [hfd, hfile] at hj
    exact Option.some.inj hj
  constructor
  · intro b u hu
    rw [hrec.files]
    rcases (hrec.tcp b u).1 hu with ⟨-, rfl⟩ | ⟨-, hu⟩
    · rw [hfd]
      exact h.opened a t ht
    · exact h.opened b u hu
  · intro k j hk
    rw [hrec.files] at hk
    obtain ⟨b, u, hu, hk⟩ := h.block k j hk
    by_cases hb : b = a
    · subst hb
      rw [ht, Option.some.injEq, Obj.tcp.injEq] at hu
      exact ⟨b, t', hself, by rw [hfd, hu, hk]⟩
    · exact ⟨b, u, (hrec.tcp b u).2 (Or.inr ⟨hb, hu⟩), hk⟩
  · intro b u j hu hj
    rw [hrec.files] at hj
    rcases (hrec.tcp b u).1 hu with ⟨-, rfl⟩ | ⟨-, hu⟩
    · exact (htaken j (hfile' j hj)).1
    · exact h.front b u j hu hj
  · intro b r j hr
    simp only [hrec.files]
    rcases hrec.req b r _ hr with hr | ⟨hq, hj⟩
    · obtain ⟨hreq, b', u, hu, hj, hhead⟩ := h.request b r j hr
      by_cases hb : b' = a
      · subst hb
        rw [ht, Option.some.injEq, Obj.tcp.injEq] at hu
        subst hu
        rw [hfile, Option.some.injEq] at hj
        refine ⟨hreq, b', t', hself, ?_, hhead.trans (htaken j hj).2.1⟩
        rw [hfd, hfile, hj]
      · exact ⟨hreq, b', u, (hrec.tcp b' u).2 (Or.inr ⟨hb, hu⟩), hj, hhead⟩
    · have hcall := (htaken j hj.symm).2.2
      rw [hq] at hcall
      split at hcall
      · rename_i hhead
        exact ⟨Option.some.inj hcall, a, t', hself, by rw [hfd, hfile, hj], hhead⟩
      · cases hcall
  · intro b u j hu hj hhead
    rw [hrec.files] at hj
    rcases (hrec.tcp b u).1 hu with ⟨-, rfl⟩ | ⟨-, hu⟩
    · have hconn := hfile' j hj
      have hcall := (htaken j hconn).2.2
      rw [if_pos hhead] at hcall
      exact hconn ▸ hrec.returned _ hcall
    · obtain ⟨b', hb'⟩ := h.parsed b u j hu hj hhead
      exact ⟨b', hrec.kept _ _ _ hb'⟩
  · intro x hx
    rw [hrec.answers] at hx
    obtain ⟨r, hr⟩ := h.answers x hx
    exact ⟨r, hrec.kept _ _ _ hr⟩

theorem Own.step (h : s.Own cl cfg) (hsilent : s.Silent cfg D) (hsupplied : s.Supplied cl i)
    (hstep : Worker.step cfg s i = some s') : s'.Own cl cfg := by
  rcases step_cases hstep with ⟨ready, rfl, -, -, -, rfl⟩ |
    ⟨e, rest, prior, ev, addr, ctx, buf, rfl, -, -, hnew⟩ |
    ⟨e, rest, stack, evs, addr, rfl, hb, -, -, hread⟩ | ⟨e, rest, rfl, -, -, -, -, hwrite⟩ |
    ⟨e, rest, rfl, -, -, -, -, rfl⟩
  · exact h.keep rfl (fun _ _ => Iff.rfl) h.opened h.answers
  · obtain ⟨clientfd, hv, hcan, ⟨-, rfl⟩ | ⟨hne, hfresh, rfl⟩⟩ := newDescriptor_cases hnew
    · exact h.keep rfl (fun _ _ => Iff.rfl) h.opened h.answers
    · have hbuf : buf = [] := hsupplied
      rw [hbuf]
      exact h.message hcan hv (newDescriptor_open hnew hv hne) hfresh rfl rfl
        (install_answers s ev)
  · obtain ⟨t, file, q, ht, hfile, hret, hrec⟩ := readable_takesIn hread
    refine h.takesIn ht hfile (fun j hj => ?_) hret hrec
    exact hsupplied e rest t j hb ht (hj ▸ hfile)
  · obtain ⟨r, origin, hr, rfl⟩ := writable_cases hwrite
    have hclosed : s.files (dataFd e.data) = none := by
      by_contra hopen
      exact hsilent.heap _ (by rw [hr]; exact Option.some_ne_none _) (hsilent.files _ hopen)
    have hfiles : Function.update s.files (dataFd e.data) none = s.files := by
      rw [← hclosed, Function.update_eq_self]
    refine h.keep rfl (fun k j => ?_) (fun a t ht => ?_) fun x hx => ?_
    · simp only [close, epollDel, hfiles]
    · simp only [close, epollDel, hfiles]
      exact h.opened a t ht
    · rcases List.mem_append.1 hx with hx | hx
      · exact h.answers x hx
      · rw [List.mem_singleton.1 hx]
        exact ⟨r, hr⟩
  · refine h.keep rfl (fun k j => ?_) (fun a t _ => Or.inr ?_) h.answers
    · have hiff : Function.update s.files cfg.fd0 none k = some (.conn j) ↔
          s.files k = some (.conn j) := by
        by_cases hk : k = cfg.fd0
        · subst hk
          rw [Function.update_self]
          exact iff_of_false (Option.some_ne_none _).symm (hsilent.handoff j)
        · rw [Function.update_of_ne hk]
      exact hiff
    · have hnone : (s.hangup cfg rest).files cfg.fd0 = none := Function.update_self ..
      rw [hnone]
      exact (Option.some_ne_none _).symm

/-- What is asked of an arrival does not depend on who arrives. -/
theorem Supplied.of_brings (h : s.Supplied cl i) (hi : i.Brings) : s.Supplied cl' i := by
  cases i with
  | message prior ev addr ctx buf => exact h
  | wait ready => cases hi
  | readable stack evs addr => cases hi
  | writable => cases hi
  | hangup => cases hi

end Worker

/-! ## All workers -/

namespace System

open Fanout

variable {cfg : SystemSetup} {D : Nat → Set Int} {client : Nat → Client} {s s' : System}

/-- The client behind the connection that worker `w` has numbered `j`. -/
def clientOf (client : Nat → Client) (s : System) (w j : Nat) : Client :=
  client ((share w s.master.loop.registered).getD j 0)

def Supplied (client : Nat → Client) (s : System) : SystemInput → Prop
  | .master _ => True
  | .worker w i => (s.worker w).Supplied (s.clientOf client w) i

/-- Worker `w` has taken in the bytes `b` in a block for its descriptor `k`. -/
def Received (s : System) (w : Nat) (k : Int) (b : Bytes) : Prop :=
  ∃ a t, (s.worker w).heap a = some (.tcp t) ∧ t.fd = k ∧ t.buf = b

/-- It has parsed the request `r` from what `k` refers to. -/
def Parsed (s : System) (w : Nat) (k : Int) (r : HttpRequest) : Prop :=
  ∃ a file, (s.worker w).files k = some file ∧ (s.worker w).heap a = some (.req r file)

/-- It has run the EPOLLOUT branch with the request `r` from what `k` refers to. -/
def Answered (s : System) (w : Nat) (k : Int) (r : HttpRequest) : Prop :=
  ∃ x ∈ (s.worker w).answers, (s.worker w).files k = some x.origin ∧
    (s.worker w).heap x.req = some (.req r x.origin)

theorem own_step (hshared : s.Shared) (hnum : ∀ w, (s.worker w).Numbered)
    (hsilent : ∀ w, (s.worker w).Silent (cfg.worker w) (D w))
    (h : ∀ w, (s.worker w).Own (s.clientOf client w) (cfg.worker w)) {i : SystemInput}
    (hsupplied : s.Supplied client i) (hstep : System.step cfg s i = some s') (w : Nat) :
    (s'.worker w).Own (s'.clientOf client w) (cfg.worker w) := by
  rcases step_cases hstep with ⟨j, m, rfl, hown, hm, rfl⟩ |
    ⟨v, j, t, rfl, -, ht, ⟨hj, c, cs, -, rfl⟩ | ⟨-, rfl⟩⟩
  · unfold clientOf
    simp only [Master.step_registered hown hm]
    exact h w
  · by_cases hw : w = v
    · subst hw
      simp only [Function.update_self]
      refine Worker.Own.step ((h w).congr (hnum w) fun k hk => ?_) (hsilent w)
        (hsupplied.of_brings hj) ht
      unfold clientOf
      rw [← hshared w] at hk
      simp only [share_concat_self]
      rw [List.getD_eq_getElem?_getD, List.getD_eq_getElem?_getD, List.getElem?_append_left hk]
    · unfold clientOf
      simp only [Function.update_of_ne hw, share_concat_ne (Ne.symm hw)]
      exact h w
  · by_cases hw : w = v
    · subst hw
      simp only [Function.update_self]
      exact (h w).step (hsilent w) hsupplied ht
    · simp only [Function.update_of_ne hw]
      exact h w

/-- **Every client's own request, and nobody else's.** Let every client send a canonical request
that fits the array, with anything behind it. In every run of the master and its workers in which
descriptors and addresses do not meet, the blocks of new connections hold the empty string, and each
call on a connection finds in one read the bytes it asks for of what its client has still to send,
or the end of that: for every connection open in a worker, in whatever order they are read, there is
a block, and what it holds is a front part of what that client sends; the requests that have been
parsed from the connection and those that have been answered for it are that client's; and one has
been parsed exactly when its whole head has been taken in. -/
theorem own_requests (cfg : SystemSetup) (client : Nat → Client) (D : Nat → Set Int)
    (hD : ∀ w k, (Worker.init (cfg.worker w)).files k ≠ none → k ∈ D w) (is : List SystemInput)
    (hall : Run.All (step cfg) (fun s i => SystemApart D i ∧ s.Supplied client i) (init cfg) is)
    (s : System) (h : Run.exec (step cfg) (init cfg) is = some s) (w c : Nat) (k : Int)
    (hk : s.Holds w k c) :
    (∃ b, s.Received w k b) ∧ (∀ b, s.Received w k b → b <+: (client c).text) ∧
      (∀ r, s.Parsed w k r → r = (client c).request) ∧
      (∀ r, s.Answered w k r → r = (client c).request) ∧
      ((∃ r, s.Parsed w k r) ↔ ∃ b, s.Received w k b ∧ (client c).head ≤ b.length) := by
  obtain ⟨-, -, hown⟩ := Run.inv_of_all (I := fun s : System =>
      (∃ js, Run.exec (step cfg) (init cfg) js = some s) ∧
        (∀ w, (s.worker w).Silent (cfg.worker w) (D w)) ∧
        ∀ w, (s.worker w).Own (s.clientOf client w) (cfg.worker w))
    (fun t i t' ⟨⟨js, hjs⟩, hsilent, hown⟩ ⟨hapart, hsupplied⟩ hstep =>
      ⟨⟨js ++ [i], Run.exec_snoc hjs hstep⟩, silent_step hsilent hapart hstep,
        own_step (shared hjs) (numbered hjs) hsilent hown hsupplied hstep⟩)
    is ⟨⟨[], rfl⟩, fun w => Worker.silent_init (hD w), fun w => Worker.own_init _ _⟩ hall h
  obtain ⟨j, hj, hc⟩ := hk
  have hclient : s.clientOf client w j = client c := by
    unfold clientOf
    rw [List.getD_eq_getElem?_getD, hc, Option.getD_some]
  rw [← hclient]
  have hworker := hown w
  refine ⟨?_, ?_, ?_, ?_, ?_⟩
  · obtain ⟨a, t, ht, hfd⟩ := hworker.block k j hj
    exact ⟨t.buf, a, t, ht, hfd, rfl⟩
  · rintro b ⟨a, t, ht, rfl, rfl⟩
    exact hworker.front a t j ht hj
  · rintro r ⟨a, file, hfile, hr⟩
    rw [hj, Option.some.injEq] at hfile
    subst hfile
    exact (hworker.request a r j hr).1
  · rintro r ⟨x, -, hfile, hr⟩
    rw [hj, Option.some.injEq] at hfile
    rw [← hfile] at hr
    exact (hworker.request _ r j hr).1
  · constructor
    · rintro ⟨r, a, file, hfile, hr⟩
      rw [hj, Option.some.injEq] at hfile
      subst hfile
      obtain ⟨-, b, t, ht, hj', hhead⟩ := hworker.request a r j hr
      exact ⟨t.buf, ⟨b, t, ht, (numbered h w).unique _ _ j hj' hj, rfl⟩, hhead⟩
    · rintro ⟨b, ⟨a, t, ht, rfl, rfl⟩, hhead⟩
      obtain ⟨b, hb⟩ := hworker.parsed a t j ht hj hhead
      exact ⟨_, b, _, hj, hb⟩

/-- Client 0 sends `GET / H`, the others `GET /b H`, and what makes the text `READ_COUNT` bytes. -/
def sampleClient : Nat → Client
  | 0 => ⟨[71, 69, 84], [47], [72], [], List.replicate 89 120, ⟨by decide, by decide, by decide,
      by decide, by decide, by decide, List.forall_mem_nil _, by decide⟩, by decide +kernel⟩
  | _ => ⟨[71, 69, 84], [47, 98], [72], [], List.replicate 88 120, ⟨by decide, by decide, by decide,
      by decide, by decide, by decide, List.forall_mem_nil _, by decide⟩, by decide +kernel⟩

/-- The text of client `c` is read; the request is allocated at `addr`. -/
def sampleRead (c : Nat) (addr : UInt64) : SystemInput :=
  .worker 1 (.readable (fun _ => 0) [.data (sampleClient c).text] addr)

/-- Two connections are accepted in one turn and sent. -/
def sampleArrivals : List MasterInput :=
  [.wait [⟨7, ⟨true, false, false, false⟩, 7⟩], .event, .loop (.accept (.conn 8)),
    .loop (.sendmsg .ok), .loop (.accept (.conn 9)), .loop (.sendmsg .ok), .loop (.accept .again)]

/-- Worker 1 takes them as its descriptors 5 and 6, and both become readable. -/
def sampleTwo : List SystemInput :=
  sampleArrivals.map .master ++
    (Worker.sampleArrival 5 4096 ++ Worker.sampleArrival 6 8192).map (.worker 1) ++
    [.worker 1 (.wait [⟨6, Worker.onlyIn, 8192⟩, ⟨5, Worker.onlyIn, 4096⟩])]

theorem arrived_sample (c : Nat) :
    Arrived readCount.toNat (sampleClient c).text [.data (sampleClient c).text] := by
  refine Or.inl ⟨_, [], rfl, ?_, List.prefix_refl _⟩
  rcases c with - | c
  · decide +kernel
  · exact (by decide +kernel : readCount.toNat ≤ (sampleClient 1).text.length)

/-- A client whose connection is in front, and of which nothing has been read, sends its text. -/
theorem supplied_read {s : System} {e : Ready} {rest : List Ready} {fd : Int} {c j : Nat}
    (addr : UInt64) (hbatch : (s.worker 1).batch = e :: rest)
    (hheap : (s.worker 1).heap e.data = some (.tcp ⟨fd, [], []⟩))
    (hfile : (s.worker 1).files fd = some (.conn j))
    (hshare : (share 1 s.master.loop.registered)[j]? = some c) :
    s.Supplied sampleClient (sampleRead c addr) := by
  intro e' rest' t j' hbatch' hheap' hfile'
  rw [hbatch, List.cons.injEq] at hbatch'
  obtain ⟨rfl, -⟩ := hbatch'
  rw [hheap, Option.some.injEq, Obj.tcp.injEq] at hheap'
  subst hheap'
  rw [hfile, Option.some.injEq, File.conn.injEq] at hfile'
  subst hfile'
  have hclient : s.clientOf sampleClient 1 j = sampleClient c := by
    unfold clientOf
    rw [List.getD_eq_getElem?_getD, hshare, Option.getD_some]
  rw [hclient]
  exact arrived_sample c

/-- The second is read first, and each request is its own. -/
theorem own_requests_pair : ∃ s, Run.exec (step samplePair) (init samplePair)
    (sampleTwo ++ [sampleRead 1 12288] ++ [sampleRead 0 16384]) = some s ∧ s.Holds 1 6 1 ∧
      s.Holds 1 5 0 ∧ (∃ r, s.Parsed 1 5 r) ∧
      ∀ r, s.Parsed 1 5 r → r = (sampleClient 0).request := by
  have hfirst : (Run.exec (step samplePair) (init samplePair)
      (sampleTwo ++ [sampleRead 1 12288])).map (fun s => ((s.worker 1).batch,
        (s.worker 1).heap 4096, (s.worker 1).files 5, (share 1 s.master.loop.registered)[0]?)) =
      some ([⟨5, Worker.onlyIn, 4096⟩], some (.tcp ⟨5, [], []⟩), some (.conn 0), some 0) := by
    decide +kernel
  have hboth : (Run.exec (step samplePair) (init samplePair)
      (sampleTwo ++ [sampleRead 1 12288] ++ [sampleRead 0 16384])).map (fun s =>
        ((s.worker 1).files 5, (s.worker 1).files 6, (s.worker 1).heap 4096,
          share 1 s.master.loop.registered)) =
      some (some (.conn 0), some (.conn 1),
        some (.tcp ⟨5, (sampleClient 0).text, (sampleClient 0).text⟩), [0, 1]) := by
    decide +kernel
  obtain ⟨s, hs, heq⟩ := Option.map_eq_some_iff.1 hboth
  simp only [Prod.mk.injEq] at heq
  obtain ⟨hfile₅, hfile₆, hheap, hshare⟩ := heq
  have hall : Run.All (step samplePair)
      (fun s i => SystemApart (fun _ => {k : Int | k < 1024}) i ∧ s.Supplied sampleClient i)
      (init samplePair) (sampleTwo ++ [sampleRead 1 12288] ++ [sampleRead 0 16384]) := by
    have h1 : ¬dataFd 12288 < 1024 := by decide
    have h0 : ¬dataFd 16384 < 1024 := by decide
    refine Run.All.append (Run.All.append (Run.all_of_forall ?_ _) fun t ht => ?_) fun t ht => ?_
    · simp [sampleTwo, sampleArrivals, Worker.sampleArrival, SystemApart, WorkerInput.Apart,
        Supplied, Worker.Supplied]
      exact ⟨fun _ => by decide, fun _ => by decide⟩
    · cases ht
      exact ⟨⟨h1, supplied_read _ rfl rfl rfl rfl⟩, fun _ _ => trivial⟩
    · rw [ht, Option.map_some, Option.some.injEq] at hfirst
      simp only [Prod.mk.injEq] at hfirst
      obtain ⟨hbatch, hheap, hfile, hshare⟩ := hfirst
      exact ⟨⟨h0, supplied_read _ hbatch hheap hfile hshare⟩, fun _ _ => trivial⟩
  have hholds : s.Holds 1 5 0 := ⟨0, hfile₅, by rw [hshare]; rfl⟩
  have hown := own_requests samplePair sampleClient _ samplePair_small _ hall s hs 1 0 5 hholds
  refine ⟨s, hs, ⟨1, hfile₆, by rw [hshare]; rfl⟩, hholds, hown.2.2.2.2.2 ?_, hown.2.2.1⟩
  exact ⟨_, ⟨4096, _, hheap, rfl, rfl⟩, by decide +kernel⟩

end System

end HttpCallback
