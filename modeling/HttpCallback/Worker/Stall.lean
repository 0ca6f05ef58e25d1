import HttpCallback.Recv.Scratch
import HttpCallback.Worker.Basic

/-!
# A connection that stalls the worker

Behind a NULL from `callback` the loop breaks out of the batch, and the events behind the one at
hand are dropped. A client that closes its side in the middle of a request stays readable for ever,
with nothing more to read, so each time `epoll_wait` reports it first, nothing else of that batch is
handled: as long as it does, no other connection gets anywhere and none arrives (`stalled`).
-/

namespace HttpCallback

open CString

/-! ## The end of the stream -/

/-- A text without a blank line, at the end of its stream: NULL, whatever the call is repeated. -/
theorem callback_eof (stack : Mem) {t : HttpTcp} (h : ¬crlf ++ crlf <:+: t.buf)
    (evs : List ReadEv) :
    (callback stack t readCount (.data [] :: evs)).tcp =
        { t with ctx := snprintf bufsize t.buf } ∧
      (callback stack t readCount (.data [] :: evs)).returned = some none := by
  have hpos : 0 < readCount.toNat := by decide
  obtain ⟨st, -, -, hbuf, hrecv⟩ := onRecv_eof stack t.buf hpos evs
  have hno : ¬crlf ++ crlf <:+: snprintf bufsize t.buf :=
    fun hin => h (hin.trans (List.take_prefix _ _).isInfix)
  have hnull := analasy_no_blank hno
  unfold callback
  simp only [hrecv, hbuf]
  exact ⟨trivial, by simp only [Callback.returned, hnull]⟩

namespace Worker

variable {cfg : Setup} {s s' : Worker} {e : Ready} {t : HttpTcp}

/-- The event is that of a connection which has sent a part of a request. -/
structure HalfSent (cfg : Setup) (s : Worker) (e : Ready) (t : HttpTcp) : Prop where
  conn : dataFd e.data ≠ cfg.fd0
  event : e.events.epollin = true
  obj : s.heap e.data = some (.tcp t)
  part : ¬crlf ++ crlf <:+: t.buf

/-- The event is reported in front of all others, and its connection is at the end of its stream. -/
def First (e : Ready) : WorkerInput → Prop
  | .wait ready => ready.head? = some e
  | .readable _ evs _ => ∃ rest, evs = .data [] :: rest
  | _ => True

/-- What the worker had at `s₀` is as it was, but for the context of the connection at hand, and the
next event to be handled is that connection's. -/
structure Stalled (s₀ : Worker) (e : Ready) (t : HttpTcp) (s : Worker) : Prop where
  clientfd : s.clientfd = s₀.clientfd
  files : s.files = s₀.files
  regs : s.regs = s₀.regs
  conns : s.conns = s₀.conns
  answers : s.answers = s₀.answers
  obj : ∃ ctx, s.heap e.data = some (.tcp { t with ctx := ctx })
  heap : ∀ a, a ≠ e.data → s.heap a = s₀.heap a
  next : ∀ x ∈ s.batch.head?, x = e

theorem Stalled.step {s₀ : Worker} (h₀ : s₀.HalfSent cfg e t) (h : Stalled s₀ e t s)
    {i : WorkerInput} (hi : First e i) (hstep : Worker.step cfg s i = some s') :
    Stalled s₀ e t s' := by
  have hhead : ∀ x rest, s.batch = x :: rest → x = e := by
    intro x rest hb
    exact h.next x (by rw [hb]; rfl)
  rcases step_cases hstep with ⟨ready, rfl, -, -, -, rfl⟩ |
    ⟨x, rest, prior, ev, addr, ctx, buf, -, hb, hfd, -⟩ |
    ⟨x, rest, stack, evs, addr, rfl, hb, -, -, hread⟩ | ⟨x, rest, -, hb, -, hin, -, -⟩ |
    ⟨x, rest, -, hb, -, hin, -, -⟩
  · refine ⟨h.clientfd, h.files, h.regs, h.conns, h.answers, h.obj, h.heap, fun x hx => ?_⟩
    simp only [First] at hi
    rw [hi] at hx
    exact (Option.mem_some.1 hx).symm
  · rw [hhead x rest hb] at hfd
    exact absurd hfd h₀.conn
  · obtain rfl := hhead x rest hb
    obtain ⟨evs', rfl⟩ := hi
    obtain ⟨ctx, hobj⟩ := h.obj
    obtain ⟨t', file, ht', -, hret⟩ := readable_cases hread
    rw [hobj, Option.some.injEq, Obj.tcp.injEq] at ht'
    subst ht'
    obtain ⟨htcp, hnull⟩ := callback_eof stack (t := { t with ctx := ctx }) h₀.part evs'
    rcases hret with ⟨-, rfl⟩ | ⟨req, hreq, -, -⟩
    · rw [htcp]
      refine ⟨h.clientfd, h.files, h.regs, h.conns, h.answers, ⟨_, Function.update_self ..⟩,
        fun a ha => ?_, nofun⟩
      simp only [Function.update_of_ne ha]
      exact h.heap a ha
    · rw [hnull] at hreq
      cases hreq
  · rw [hhead x rest hb, h₀.event] at hin
    cases hin
  · rw [hhead x rest hb, h₀.event] at hin
    cases hin

/-- A round: the connection is reported first, and read. -/
def stallRound (stack : Mem) (addr : UInt64) (ready : List Ready) : List WorkerInput :=
  [.wait ready, .readable stack [.data []] addr]

/-- Behind a round the worker waits again, and what could be reported before still can. -/
theorem Stalled.round {s₀ : Worker} (h₀ : s₀.HalfSent cfg e t) (h : Stalled s₀ e t s)
    (hb : s.batch = []) (hepoll : s₀.files cfg.epollfd = some .epoll) {file : File}
    (hfile : s₀.files t.fd = some file) (stack : Mem) (addr : UInt64) {ready : List Ready}
    (hfirst : ready.head? = some e) (hlen : ready.length ≤ epollEvents)
    (hkeys : (ready.map (·.key)).Nodup) (hready : ∀ x ∈ ready, s₀.Reports x) :
    ∃ s', Run.exec (Worker.step cfg) s (stallRound stack addr ready) = some s' ∧
      Stalled s₀ e t s' ∧ s'.batch = [] := by
  obtain ⟨rest, rfl⟩ : ∃ rest, ready = e :: rest := by
    cases ready with
    | nil => cases hfirst
    | cons x rest =>
      cases hfirst
      exact ⟨rest, rfl⟩
  have hreports : ∀ x ∈ e :: rest, s.Reports x := by
    intro x hx
    unfold Reports
    rw [h.regs]
    exact hready x hx
  obtain ⟨ctx, hobj⟩ := h.obj
  obtain ⟨-, hnull⟩ := callback_eof stack (t := { t with ctx := ctx }) h₀.part []
  have hwait : Worker.step cfg s (.wait (e :: rest)) = some { s with batch := e :: rest } := by
    unfold Worker.step
    rw [hb]
    exact if_pos ⟨by rw [h.files]; exact hepoll, hlen, hkeys, hreports⟩
  have hread : ∃ s', Worker.step cfg { s with batch := e :: rest }
      (.readable stack [.data []] addr) = some s' ∧ s'.batch = [] := by
    have hfd : s.files t.fd = some file := by rw [h.files]; exact hfile
    unfold Worker.step
    simp only [if_neg h₀.conn, if_pos h₀.event]
    unfold readable
    simp only [hobj, hfd, hnull]
    exact ⟨_, rfl, rfl⟩
  obtain ⟨s', hread, hb'⟩ := hread
  refine ⟨s', ?_, ?_, hb'⟩
  · unfold stallRound Run.exec
    rw [hwait]
    simp only [Run.exec, hread]
  · have hmid : Stalled s₀ e t { s with batch := e :: rest } :=
      h.step h₀ (show First e (.wait (e :: rest)) from rfl) hwait
    exact hmid.step h₀ (show First e (.readable stack [.data []] addr) from ⟨[], rfl⟩) hread

/-- **One half-sent request stalls the worker.** From any state between two batches, while a
connection that has sent a part of a request and closed its side is reported first: whatever else is
reported with it, no descriptor is received or closed, no registration changes, nothing is answered
and no other connection's data is touched. And the worker can be kept there for any number of
rounds, each with any events that were waiting at the start. -/
theorem stalled (cfg : Setup) (s : Worker) (e : Ready) (t : HttpTcp) (h₀ : s.HalfSent cfg e t)
    (hb : s.batch = []) :
    (∀ is s', (∀ i ∈ is, First e i) → Run.exec (Worker.step cfg) s is = some s' →
      Stalled s e t s') ∧
    (s.files cfg.epollfd = some .epoll → s.files t.fd ≠ none →
      ∀ (stack : Mem) (addr : UInt64) (rounds : List (List Ready)),
        (∀ ready ∈ rounds, ready.head? = some e ∧ ready.length ≤ epollEvents ∧
          (ready.map (·.key)).Nodup ∧ ∀ x ∈ ready, s.Reports x) →
        ∃ s', Run.exec (Worker.step cfg) s (rounds.flatMap (stallRound stack addr)) = some s' ∧
          Stalled s e t s') := by
  have hinit : Stalled s e t s :=
    ⟨rfl, rfl, rfl, rfl, rfl, ⟨t.ctx, h₀.obj⟩, fun _ _ => rfl, by rw [hb]; exact nofun⟩
  constructor
  · intro is s' hfirst h
    exact Run.inv_of_all (fun _ _ _ hs hi hstep => hs.step h₀ hi hstep) is hinit
      (Run.all_of_forall (fun i hi _ => hfirst i hi) s) h
  · intro hepoll hopen stack addr rounds hrounds
    obtain ⟨file, hfile⟩ := Option.ne_none_iff_exists'.1 hopen
    have hall : ∀ (rounds : List (List Ready)) (u : Worker), Stalled s e t u → u.batch = [] →
        (∀ ready ∈ rounds, ready.head? = some e ∧ ready.length ≤ epollEvents ∧
          (ready.map (·.key)).Nodup ∧ ∀ x ∈ ready, s.Reports x) →
        ∃ s', Run.exec (Worker.step cfg) u (rounds.flatMap (stallRound stack addr)) = some s' ∧
          Stalled s e t s' := by
      intro rounds
      induction rounds with
      | nil => exact fun u hu _ _ => ⟨u, rfl, hu⟩
      | cons ready rounds ih =>
        intro u hu hub hrounds
        obtain ⟨hfirst, hlen, hkeys, hready⟩ := hrounds ready List.mem_cons_self
        obtain ⟨v, hv, hv', hvb⟩ :=
          hu.round h₀ hub hepoll hfile stack addr hfirst hlen hkeys hready
        obtain ⟨s', hs', hend⟩ := ih v hv' hvb fun r hr => hrounds r (List.mem_cons_of_mem _ hr)
        exact ⟨s', Run.exec_append hv hs', hend⟩
    exact hall rounds s hinit hb hrounds

/-- `GET` and a url that does not end, `READ_COUNT` bytes. -/
def halfText : Bytes := [71, 69, 84, 32] ++ List.replicate 96 120

/-- Connection 5 has sent so much and closed its side. -/
def halfSent : List WorkerInput :=
  sampleArrival 5 4096 ++
    [.wait [⟨5, onlyIn, 4096⟩], .readable (fun _ => 0) [.data halfText] 0]

/-- An arrival that is reported behind it is not received. -/
theorem stalled_get : ∃ s, Run.exec (Worker.step sampleSetup) (Worker.init sampleSetup) halfSent =
      some s ∧
    ∃ s', Run.exec (Worker.step sampleSetup) s
        (stallRound (fun _ => 0) 0 [⟨5, onlyIn, 4096⟩, ⟨3, onlyIn, 3⟩]) = some s' ∧
      Stalled s ⟨5, onlyIn, 4096⟩ ⟨5, halfText, halfText⟩ s' := by
  obtain ⟨s, hs⟩ : ∃ s, Run.exec (Worker.step sampleSetup) (Worker.init sampleSetup) halfSent =
      some s := ⟨_, rfl⟩
  refine ⟨s, hs, ?_⟩
  have hhalf : HalfSent sampleSetup s ⟨5, onlyIn, 4096⟩ ⟨5, halfText, halfText⟩ := by
    cases hs
    exact ⟨by decide, rfl, by decide +kernel, by rw [← strstr_iff]; decide +kernel⟩
  obtain ⟨s', hs'⟩ : ∃ s', Run.exec (Worker.step sampleSetup) s
      (stallRound (fun _ => 0) 0 [⟨5, onlyIn, 4096⟩, ⟨3, onlyIn, 3⟩]) = some s' := by
    cases hs
    exact ⟨_, rfl⟩
  have hb : s.batch = [] := by
    cases hs
    rfl
  refine ⟨s', hs', (stalled sampleSetup s _ _ hhalf hb).1 _ s' ?_ hs'⟩
  simp [stallRound, First]

end Worker

end HttpCallback
