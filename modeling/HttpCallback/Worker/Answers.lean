import HttpCallback.Worker.Frame

/-!
# Where a request is answered

The EPOLLOUT branch answers on the low half of the pointer to the request. For a run in which every
request that gets registered lies at an address whose low half is its own connection's descriptor,
registered for that descriptor, each answer goes to the connection that the request came from, and
no request is answered twice. The invariant (`Paired`) is about what waits for EPOLLOUT: it points
to a request that is not answered yet, and its descriptor still refers to the file the request came
from.
-/

namespace HttpCallback

open CString

namespace Worker

variable {cfg : Setup} {s s' : Worker} {i : WorkerInput} {k : Int} {data addr : UInt64}

/-- Every answer was written to the file that its request came from, which was then unregistered and
closed, and no request was answered twice. -/
structure AnswersRight (as : List Answer) : Prop where
  each : ∀ a ∈ as, a.peer = some a.origin ∧ a.deleted = a.clientfd ∧ a.closed = a.clientfd
  once : (as.map (·.req)).Nodup

theorem AnswersRight.append {as : List Answer} {a : Answer} (h : AnswersRight as)
    (ha : a.peer = some a.origin ∧ a.deleted = a.clientfd ∧ a.closed = a.clientfd)
    (hfresh : a.req ∉ as.map (·.req)) : AnswersRight (as ++ [a]) := by
  constructor
  · intro b hb
    rcases List.mem_append.1 hb with hb | hb
    · exact h.each b hb
    · rw [List.mem_singleton.1 hb]
      exact ha
  · rw [List.map_append, List.nodup_append]
    refine ⟨h.once, by simp, ?_⟩
    intro x hx y hy hxy
    rw [List.map_singleton, List.mem_singleton] at hy
    rw [hxy, hy] at hx
    exact hfresh hx

/-- A request that comes to be registered is registered for its own connection, and its address has
that connection's descriptor for its low half. Exempt are a registration that fails, and an address
whose low half is `fd[0]`: such a request is never answered. -/
def Matched (cfg : Setup) (s : Worker) (i : WorkerInput) : Prop :=
  ∀ t addr, Parses cfg s i t addr →
    s.regs s.clientfd = none ∨ dataFd addr = cfg.fd0 ∨ (s.clientfd = t.fd ∧ dataFd addr = t.fd)

/-- The request at `data` waits to be answered on `k`. -/
structure Live (s : Worker) (k : Int) (data : UInt64) : Prop where
  obj : ∃ r file, s.heap data = some (.req r file) ∧ s.files k = some file
  fd : dataFd data = k
  fresh : data ∉ s.answers.map (·.req)

structure Paired (cfg : Setup) (s : Worker) : Prop where
  answers : AnswersRight s.answers
  answered : ∀ a ∈ s.answers, s.heap a.req ≠ none
  regs : ∀ k r, s.regs k = some r → r.events = .epollout → dataFd r.data ≠ cfg.fd0 →
    s.Live k r.data
  batch : ∀ e ∈ s.batch, e.events.epollin = false → e.events.epollout = true →
    dataFd e.data ≠ cfg.fd0 → s.Live e.key e.data
  keys : (s.batch.map (·.key)).Nodup

theorem Live.mono (h : s.Live k data)
    (hheap : ∀ r file, s.heap data = some (.req r file) → s'.heap data = some (.req r file))
    (hfiles : ∀ file, s.files k = some file → s'.files k = some file)
    (hans : data ∉ s'.answers.map (·.req)) : s'.Live k data := by
  obtain ⟨⟨r, file, hr, hfile⟩, hfd, -⟩ := h
  exact ⟨⟨r, file, hheap r file hr, hfiles file hfile⟩, hfd, hans⟩

theorem paired_init (cfg : Setup) : (Worker.init cfg).Paired cfg := by
  refine ⟨⟨nofun, List.nodup_nil⟩, nofun, ?_, nofun, List.nodup_nil⟩
  intro k r hk hout
  exact absurd rfl (allocated_init cfg k r hk hout)

/-- The invariant behind a step that answers nothing: what was waiting still is, and what is newly
registered for writing waits too. -/
theorem Paired.keep (h : s.Paired cfg) (hans : s'.answers = s.answers)
    (hheap : ∀ a, s.heap a ≠ none → s'.heap a ≠ none)
    (hlive : ∀ k data, s.Live k data → s'.Live k data)
    (hregs : ∀ k r, s'.regs k = some r → r.events = .epollout → dataFd r.data ≠ cfg.fd0 →
      s.regs k = some r ∨ s'.Live k r.data)
    (hbatch : s'.batch = [] ∨ ∃ e, s.batch = e :: s'.batch) : s'.Paired cfg := by
  refine ⟨?_, ?_, ?_, ?_, ?_⟩
  · rw [hans]
    exact h.answers
  · intro a ha
    rw [hans] at ha
    exact hheap a.req (h.answered a ha)
  · intro k r hk hout hfd
    rcases hregs k r hk hout hfd with hk | hl
    · exact hlive k r.data (h.regs k r hk hout hfd)
    · exact hl
  · intro e' he' hin hout hfd
    rcases hbatch with hnil | ⟨e, hb⟩
    · rw [hnil] at he'
      cases he'
    · exact hlive _ _ (h.batch e' (mem_batch hb e' he') hin hout hfd)
  · rcases hbatch with hnil | ⟨e, hb⟩
    · rw [hnil]
      exact List.nodup_nil
    · have hkeys := h.keys
      rw [hb, List.map_cons, List.nodup_cons] at hkeys
      exact hkeys.2

/-! ## The branches -/

/-- What `epoll_wait` reports for writing was registered for it. -/
theorem Paired.wait (h : s.Paired cfg) {ready : List Ready} (hkeys : (ready.map (·.key)).Nodup)
    (hready : ∀ e ∈ ready, s.Reports e) : Paired cfg { s with batch := ready } := by
  have hlive : ∀ k data, s.Live k data → Live { s with batch := ready } k data :=
    fun _ _ hl => hl.mono (fun _ _ hr => hr) (fun _ hf => hf) hl.fresh
  refine ⟨h.answers, h.answered, ?_, ?_, hkeys⟩
  · intro k r hk hout hfd
    exact hlive k r.data (h.regs k r hk hout hfd)
  · intro e he _ hout hfd
    obtain ⟨r, hr, hdata, hallowed⟩ := hready e he
    have hev : r.events = .epollout := by
      cases hcase : r.events with
      | epollin =>
        rw [hcase] at hallowed
        simp [Events.allowed, hout] at hallowed
      | epollout => rfl
    rw [← hdata] at hfd ⊢
    exact hlive _ _ (h.regs e.key r hr hev hfd)

/-- A fresh address is no request's. -/
theorem heap_update_req {heap : UInt64 → Option Obj} {a b : UInt64} {o : Obj} {r : HttpRequest}
    {file : File} (hb : heap b = none ∨ ∃ t, heap b = some (.tcp t))
    (h : heap a = some (.req r file)) :
    Function.update heap b (some o) a = some (.req r file) := by
  have hne : a ≠ b := by
    rintro rfl
    rcases hb with hb | ⟨t, hb⟩
    · rw [hb] at h
      cases h
    · rw [hb] at h
      cases h
  rw [Function.update_of_ne hne, h]

theorem Paired.newDescriptor (h : s.Paired cfg) {e : Ready} {rest : List Ready} {prior : Cmsg}
    {ev : RecvmsgEv} {ctx buf : Bytes} (hb : s.batch = e :: rest)
    (hnew : s.newDescriptor cfg rest prior ev addr ctx buf = some s') : s'.Paired cfg := by
  obtain ⟨clientfd, -, hcan, ⟨-, rfl⟩ | ⟨-, hfresh, rfl⟩⟩ := newDescriptor_cases hnew
  · refine h.keep rfl (fun _ ha => ha) ?_ (fun _ _ hk _ _ => Or.inl hk) (Or.inl rfl)
    exact fun _ _ hl => hl.mono (fun _ _ hr => hr) (fun _ hf => hf) hl.fresh
  · apply h.keep
    · exact install_answers s ev
    · exact fun _ ha => heap_update_ne_none ha
    · intro k data hl
      apply hl.mono
      · exact fun _ _ hr => heap_update_req (Or.inl hfresh) hr
      · exact fun _ hf => install_files hcan hf
      · have hans := hl.fresh
        rw [← install_answers s ev] at hans
        exact hans
    · intro k r hk hout _
      rcases epollAdd_regs_some hk with ⟨-, rfl⟩ | hk
      · cases hout
      · simp only [install_regs] at hk
        exact Or.inl hk
    · exact Or.inr ⟨e, hb⟩

theorem Paired.readable (h : s.Paired cfg) {e : Ready} {rest : List Ready} {stack : Mem}
    {evs : List ReadEv} (hb : s.batch = e :: rest)
    (hread : s.readable e rest stack evs addr = some s')
    (hm : ∀ t req, s.heap e.data = some (.tcp t) →
      (callback stack t readCount evs).returned = some (some req) →
      s.regs s.clientfd = none ∨ dataFd addr = cfg.fd0 ∨ (s.clientfd = t.fd ∧ dataFd addr = t.fd)) :
    s'.Paired cfg := by
  obtain ⟨t, file, ht, hfile, ⟨-, rfl⟩ | ⟨req, hret, hfresh, rfl⟩⟩ := readable_cases hread
  · refine h.keep rfl (fun _ ha => heap_update_ne_none ha) ?_ (fun _ _ hk _ _ => Or.inl hk)
      (Or.inl rfl)
    exact fun _ _ hl => hl.mono (fun _ _ hr => heap_update_req (Or.inr ⟨t, ht⟩) hr)
      (fun _ hf => hf) hl.fresh
  · have hne : addr ≠ e.data := by
      rintro rfl
      rw [ht] at hfresh
      cases hfresh
    apply h.keep
    · rfl
    · exact fun _ ha => heap_update_ne_none (heap_update_ne_none ha)
    · intro k data hl
      apply hl.mono
      · intro r f hr
        refine heap_update_req (Or.inl ?_) (heap_update_req (Or.inr ⟨t, ht⟩) hr)
        rw [Function.update_of_ne hne]
        exact hfresh
      · exact fun _ hf => hf
      · exact hl.fresh
    · intro k r hk hout hfd
      rcases epollMod_regs_some hk with ⟨rfl, rfl, hreg⟩ | hk
      · -- the new registration waits on the descriptor that the request came from
        right
        rcases hm t req ht hret with hnone | h0 | ⟨hfd', haddr⟩
        · exact absurd hnone hreg
        · exact absurd h0 hfd
        · refine ⟨⟨req, file, Function.update_self _ _ _, ?_⟩, ?_, ?_⟩
          · rw [hfd']
            exact hfile
          · rw [haddr, hfd']
          · intro hmem
            obtain ⟨a, ha, hreq⟩ := List.mem_map.1 hmem
            exact h.answered a ha (hreq ▸ hfresh)
      · exact Or.inl hk
    · exact Or.inr ⟨e, hb⟩

/-- The answer goes to the file its request came from, and nothing else waits for that
descriptor. -/
theorem Paired.writable (h : s.Paired cfg) {e : Ready} {rest : List Ready}
    (hb : s.batch = e :: rest) (hfd : dataFd e.data ≠ cfg.fd0) (hin : e.events.epollin = false)
    (hout : e.events.epollout = true) (hwrite : s.writable cfg e rest = some s') :
    s'.Paired cfg := by
  obtain ⟨r, origin, hr, rfl⟩ := writable_cases hwrite
  obtain ⟨⟨r', file, hr', hfile⟩, hkey, hfresh⟩ :=
    h.batch e (hb ▸ List.mem_cons_self) hin hout hfd
  rw [hr, Option.some.injEq, Obj.req.injEq] at hr'
  obtain ⟨rfl, rfl⟩ := hr'
  rw [hkey]
  generalize hans : s.answers ++ [(⟨e.data, origin, e.key, s.files e.key, e.key, e.key⟩ : Answer)] =
    answers
  have hkeys := h.keys
  rw [hb, List.map_cons, List.nodup_cons] at hkeys
  -- what waits for another descriptor is another request
  have hother : ∀ k data, k ≠ e.key → s.Live k data → Live (Worker.close cfg
      (Worker.epollDel { s with answers := answers, batch := rest } e.key) e.key) k data := by
    intro k data hk hl
    apply hl.mono
    · exact fun _ _ hr => hr
    · exact fun _ hf => (Function.update_of_ne hk _ _).trans hf
    · intro hmem
      obtain ⟨a, ha, hreq⟩ := List.mem_map.1 hmem
      rcases List.mem_append.1 (hans ▸ ha) with ha | ha
      · exact hl.fresh (List.mem_map.2 ⟨a, ha, hreq⟩)
      · rw [List.mem_singleton.1 ha] at hreq
        have hfd' := hl.fd
        rw [← hreq, hkey] at hfd'
        exact hk hfd'.symm
  refine ⟨?_, ?_, ?_, ?_, hkeys.2⟩
  · exact hans ▸ h.answers.append ⟨hfile, rfl, rfl⟩ hfresh
  · intro a ha
    rcases List.mem_append.1 (hans ▸ ha) with ha | ha
    · exact h.answered a ha
    · rw [List.mem_singleton.1 ha]
      exact fun hnone => Option.some_ne_none _ (hr.symm.trans hnone)
  · intro k reg hk hout' hfd'
    obtain ⟨hne, hk⟩ := epollDel_regs_some (close_regs_some hk)
    exact hother k reg.data hne (h.regs k reg hk hout' hfd')
  · intro e' he' hin' hout' hfd'
    have hne : e'.key ≠ e.key := by
      intro heq
      exact hkeys.1 (heq ▸ List.mem_map_of_mem he')
    exact hother e'.key e'.data hne (h.batch e' (mem_batch hb e' he') hin' hout' hfd')

theorem Paired.hangup (h : s.Paired cfg) {e : Ready} {rest : List Ready}
    (hb : s.batch = e :: rest) : (s.hangup cfg rest).Paired cfg := by
  have hlive : ∀ k data, dataFd data ≠ cfg.fd0 → s.Live k data →
      (s.hangup cfg rest).Live k data := by
    intro k data hfd hl
    refine hl.mono (fun _ _ hr => hr) ?_ hl.fresh
    exact fun _ hf => (Function.update_of_ne (hl.fd ▸ hfd) _ _).trans hf
  have hkeys := h.keys
  rw [hb, List.map_cons, List.nodup_cons] at hkeys
  refine ⟨h.answers, h.answered, ?_, ?_, hkeys.2⟩
  · intro k r hk hout hfd
    exact hlive k r.data hfd (h.regs k r (epollDel_regs_some (close_regs_some hk)).2 hout hfd)
  · intro e' he' hin hout hfd
    exact hlive _ _ hfd (h.batch e' (mem_batch hb e' he') hin hout hfd)

/-! ## Runs -/

theorem Paired.step (h : s.Paired cfg) (hm : s.Matched cfg i)
    (hstep : Worker.step cfg s i = some s') : s'.Paired cfg := by
  rcases step_cases hstep with ⟨ready, -, -, hkeys, hready, rfl⟩ |
    ⟨e, rest, prior, ev, addr, ctx, buf, -, hb, -, hnew⟩ |
    ⟨e, rest, stack, evs, addr, rfl, hb, -, -, hread⟩ |
    ⟨e, rest, -, hb, hfd, hin, hout, hwrite⟩ | ⟨e, rest, -, hb, -, -, -, rfl⟩
  · exact h.wait hkeys hready
  · exact h.newDescriptor hb hnew
  · apply h.readable hb hread
    intro t req ht hret
    exact hm t addr ⟨stack, evs, e, rest, req, rfl, hb, ht, hret, by rw [hstep]; rfl⟩
  · exact h.writable hb hfd hin hout hwrite
  · exact h.hangup hb

/-- **Where requests are matched, every answer is right.** In every run of the worker, whatever
arrives and whatever becomes readable or writable in whatever order: if each request that gets
registered lies at an address whose low half is its own connection's descriptor and is registered
for that descriptor, then in every state reached each answer was written to the connection its
request came from, that same descriptor was removed and closed, and no request was answered twice.
-/
theorem answers_right (cfg : Setup) (is : List WorkerInput) (s : Worker)
    (hall : Run.All (Worker.step cfg) (Matched cfg) (Worker.init cfg) is)
    (h : Run.exec (Worker.step cfg) (Worker.init cfg) is = some s) : AnswersRight s.answers := by
  have hinv : s.Paired cfg :=
    Run.inv_of_all (fun _ _ _ h hm hs => Paired.step h hm hs) is (paired_init cfg) hall h
  exact hinv.answers

/-- Only a readable connection can have its request parsed. -/
theorem matched_of_ne (h : ∀ stack evs addr, i ≠ .readable stack evs addr) : s.Matched cfg i := by
  rintro t addr ⟨stack, evs, e, rest, req, rfl, -⟩
  exact absurd rfl (h stack evs addr)

/-- Connection 5 arrives and becomes readable. -/
def oneArrival : List WorkerInput := sampleArrival 5 4096 ++ [.wait [⟨5, onlyIn, 4096⟩]]

/-- Its request is read, stored at `addr`, and answered. -/
def oneAnswer (addr : UInt64) : List WorkerInput :=
  [sampleRequest addr, .wait [⟨5, onlyOut, addr⟩], .writable]

/-- The request lies at an address whose low half is 5, and the answer goes to connection 5. -/
theorem answers_right_one : AnswersRight [⟨4294967301, .conn 0, 5, some (.conn 0), 5, 5⟩] := by
  have hview : (Run.exec (Worker.step sampleSetup) (Worker.init sampleSetup) oneArrival).map
      (fun s => (s.clientfd, s.batch, s.heap 4096)) =
        some (5, [⟨5, onlyIn, 4096⟩], some (.tcp ⟨5, [], []⟩)) := by decide +kernel
  have hview' : (Run.exec (Worker.step sampleSetup) (Worker.init sampleSetup)
      (oneArrival ++ oneAnswer 4294967301)).map (·.answers) =
        some [⟨4294967301, .conn 0, 5, some (.conn 0), 5, 5⟩] := by decide +kernel
  obtain ⟨s', hs', hans⟩ := Option.map_eq_some_iff.1 hview'
  rw [← hans]
  apply answers_right sampleSetup (oneArrival ++ oneAnswer 4294967301) s' _ hs'
  apply Run.All.append
  · apply Run.all_of_forall
    intro i hi s
    apply matched_of_ne
    rintro stack evs addr rfl
    simp [oneArrival, sampleArrival] at hi
  · intro s hs
    rw [hs, Option.map_some, Option.some.injEq, Prod.mk.injEq, Prod.mk.injEq] at hview
    obtain ⟨hclient, hbatch, hheap⟩ := hview
    refine ⟨?_, fun t _ => Run.all_of_forall ?_ t⟩
    · rintro t addr ⟨stack, evs, e, rest, req, heq, hb, ht, -⟩
      cases heq
      rw [hbatch, List.cons.injEq] at hb
      rw [← hb.1, hheap, Option.some.injEq, Obj.tcp.injEq] at ht
      rw [hclient, ← ht]
      exact Or.inr (Or.inr ⟨rfl, by decide⟩)
    · intro i hi s
      apply matched_of_ne
      rintro stack evs addr rfl
      simp at hi

/-- One connection, whose request is stored at address 12288, is answered on descriptor 12288. -/
theorem answers_wrong :
    ¬∀ (cfg : Setup) (is : List WorkerInput) (s : Worker),
      Run.exec (Worker.step cfg) (Worker.init cfg) is = some s → AnswersRight s.answers := by
  intro h
  have hview : (Run.exec (Worker.step sampleSetup) (Worker.init sampleSetup)
      (oneArrival ++ oneAnswer 12288)).map (·.answers) =
        some [⟨12288, .conn 0, 12288, none, 12288, 12288⟩] := by decide +kernel
  obtain ⟨s, hs, hans⟩ := Option.map_eq_some_iff.1 hview
  have hright := h _ _ s hs
  rw [hans] at hright
  obtain ⟨hpeer, -⟩ := hright.each _ List.mem_cons_self
  cases hpeer

end Worker

end HttpCallback
