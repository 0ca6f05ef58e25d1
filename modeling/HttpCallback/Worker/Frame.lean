import HttpCallback.Worker.Basic

/-!
# Which registration a parsed request changes

Behind a parsed request the loop changes the registration of `clientfd`, a local that every later
arrival overwrites, and not that of the connection the request came from. The two are the same
exactly when the value in `clientfd` is the connection's own descriptor, still registered. What
makes the condition exact is that a fresh address is registered nowhere (`Allocated`).
-/

namespace HttpCallback

namespace Worker

variable {cfg : Setup} {s s' : Worker} {i : WorkerInput} {t : HttpTcp} {addr : UInt64}

/-- In this step `callback` returns a request to the loop: it was parsed from the bytes received for
`t` and is stored at `addr`. -/
def Parses (cfg : Setup) (s : Worker) (i : WorkerInput) (t : HttpTcp) (addr : UInt64) : Prop :=
  ∃ stack evs e rest req, i = .readable stack evs addr ∧ s.batch = e :: rest ∧
    s.heap e.data = some (.tcp t) ∧
    (callback stack t readCount evs).returned = some (some req) ∧ (step cfg s i).isSome = true

/-- The registration of the request's connection is changed, to wait for EPOLLOUT with the request,
and every other one stays as it was. -/
def FrameKept (cfg : Setup) (s : Worker) (i : WorkerInput) : Prop :=
  ∀ t addr s', Parses cfg s i t addr → step cfg s i = some s' →
    s'.regs = Function.update s.regs t.fd (some ⟨.epollout, addr⟩)

/-- A request is parsed only from the connection whose descriptor is in `clientfd`, where the last
`Sock_fd_read` left it, while that is registered. -/
def LastArrival (cfg : Setup) (s : Worker) (i : WorkerInput) : Prop :=
  ∀ t addr, Parses cfg s i t addr → s.clientfd = t.fd ∧ s.regs t.fd ≠ none

/-- A registration for EPOLLOUT points to an object. -/
def Allocated (s : Worker) : Prop :=
  ∀ k r, s.regs k = some r → r.events = .epollout → s.heap r.data ≠ none

theorem heap_update_ne_none {heap : UInt64 → Option Obj} {a b : UInt64} {o : Obj}
    (h : heap a ≠ none) : Function.update heap b (some o) a ≠ none := by
  by_cases hab : a = b
  · subst hab
    simp
  · rwa [Function.update_of_ne hab]

theorem Allocated.step (h : s.Allocated) (hstep : Worker.step cfg s i = some s') :
    s'.Allocated := by
  intro k r hk hout
  rcases step_cases hstep with ⟨ready, -, -, -, -, rfl⟩ |
    ⟨e, rest, prior, ev, a, ctx, buf, -, -, -, hnew⟩ |
    ⟨e, rest, stack, evs, a, -, -, -, -, hread⟩ | ⟨e, rest, -, -, -, -, -, hwrite⟩ |
    ⟨e, rest, -, -, -, -, -, rfl⟩
  · exact h k r hk hout
  · obtain ⟨clientfd, -, -, ⟨-, rfl⟩ | ⟨-, -, rfl⟩⟩ := newDescriptor_cases hnew
    · exact h k r hk hout
    · rcases epollAdd_regs_some hk with ⟨-, rfl⟩ | hk
      · cases hout
      · simp only [install_regs] at hk
        exact heap_update_ne_none (h k r hk hout)
  · obtain ⟨t, file, -, -, ⟨-, rfl⟩ | ⟨req, -, -, rfl⟩⟩ := readable_cases hread
    · exact heap_update_ne_none (h k r hk hout)
    · rcases epollMod_regs_some hk with ⟨-, rfl, -⟩ | hk
      · simp [epollMod]
      · exact heap_update_ne_none (heap_update_ne_none (h k r hk hout))
  · obtain ⟨q, origin, -, rfl⟩ := writable_cases hwrite
    exact h k r (epollDel_regs_some (close_regs_some hk)).2 hout
  · exact h k r (epollDel_regs_some (close_regs_some hk)).2 hout

theorem allocated_init (cfg : Setup) : (Worker.init cfg).Allocated := by
  intro k r hk hout
  unfold Worker.init at hk
  simp only at hk
  by_cases hk0 : k = cfg.fd0
  · subst hk0
    rw [Function.update_self, Option.some.injEq] at hk
    subst hk
    cases hout
  · rw [Function.update_of_ne hk0] at hk
    cases hk

/-- A step that parses a request stores it at a fresh address and modifies the registration of
`clientfd`. -/
theorem Parses.regs (h : s.Parses cfg i t addr) (hstep : Worker.step cfg s i = some s') :
    s.heap addr = none ∧ s'.regs = (s.epollMod s.clientfd ⟨.epollout, addr⟩).regs := by
  obtain ⟨stack, evs, e, rest, req, rfl, hb, ht, hret, -⟩ := h
  rcases step_cases hstep with ⟨_, h', -⟩ | ⟨_, _, _, _, _, _, _, h', -⟩ |
    ⟨e', rest', _, _, _, h', hb', -, -, hread⟩ | ⟨_, _, h', -⟩ | ⟨_, _, h', -⟩
  · cases h'
  · cases h'
  · cases h'
    rw [hb, List.cons.injEq] at hb'
    obtain ⟨rfl, rfl⟩ := hb'
    obtain ⟨t', file, ht', -, hcase⟩ := readable_cases hread
    rw [ht, Option.some.injEq, Obj.tcp.injEq] at ht'
    subst ht'
    rcases hcase with ⟨hnone, -⟩ | ⟨req', -, hfresh, rfl⟩
    · rw [hret] at hnone
      cases hnone
    · exact ⟨hfresh, rfl⟩
  · cases h'
  · cases h'

/-- At a fresh address, modifying the registration of `fd` modifies that of `t.fd` only if they are
one and the same. -/
theorem epollMod_regs_eq_iff (h : s.Allocated) (hfresh : s.heap addr = none) (fd k : Int) :
    (s.epollMod fd ⟨.epollout, addr⟩).regs = Function.update s.regs k (some ⟨.epollout, addr⟩) ↔
      fd = k ∧ s.regs k ≠ none := by
  have hnew : s.regs k ≠ some ⟨.epollout, addr⟩ := fun hk => h k _ hk rfl hfresh
  unfold epollMod
  constructor
  · intro heq
    have hk := congrFun heq k
    rw [Function.update_self] at hk
    split at hk
    · exact absurd hk hnew
    · rename_i hreg
      simp only at hk
      by_cases hfd : fd = k
      · subst hfd
        exact ⟨rfl, hreg⟩
      · rw [Function.update_of_ne (Ne.symm hfd)] at hk
        exact absurd hk hnew
  · rintro ⟨rfl, hreg⟩
    rw [if_neg hreg]

/-- Wherever requests are stored at fresh addresses, the two conditions agree. -/
theorem frameKept_iff (h : s.Allocated) (i : WorkerInput) :
    s.FrameKept cfg i ↔ s.LastArrival cfg i := by
  constructor
  · intro hframe t addr hp
    obtain ⟨s', hstep⟩ := Option.isSome_iff_exists.1 (by
      obtain ⟨_, _, _, _, _, _, _, _, _, hsome⟩ := hp
      exact hsome)
    obtain ⟨hfresh, hregs⟩ := hp.regs hstep
    have heq := hframe t addr s' hp hstep
    rw [hregs] at heq
    exact (epollMod_regs_eq_iff h hfresh _ _).1 heq
  · intro hlast t addr s' hp hstep
    obtain ⟨hfresh, hregs⟩ := hp.regs hstep
    rw [hregs]
    exact (epollMod_regs_eq_iff h hfresh _ _).2 (hlast t addr hp)

/-- **The registration of the request's connection is the one changed exactly when that connection
was the last to arrive.** In every run of the worker, all requests parsed change their own
connection's registration and no other, if and only if each of them is parsed while `clientfd` holds
that connection's descriptor and the descriptor is registered. -/
theorem frame_iff (cfg : Setup) (is : List WorkerInput) :
    Run.All (Worker.step cfg) (FrameKept cfg) (Worker.init cfg) is ↔
      Run.All (Worker.step cfg) (LastArrival cfg) (Worker.init cfg) is :=
  Run.all_congr (fun _ _ _ h hs => Allocated.step h hs) (fun _ i h => frameKept_iff h i) is
    (allocated_init cfg)

/-- Connections 5 and 6 arrive, and 5 becomes readable. -/
def twoArrivals : List WorkerInput :=
  sampleArrival 5 4096 ++ sampleArrival 6 8192 ++ [.wait [⟨5, onlyIn, 4096⟩]]

/-- The request of 5 changes the registration of 6. -/
theorem frame_interleaved :
    ¬∀ (cfg : Setup) (is : List WorkerInput),
      Run.All (Worker.step cfg) (FrameKept cfg) (Worker.init cfg) is := by
  intro h
  have hall := h sampleSetup (twoArrivals ++ [sampleRequest 12288])
  have hview : (Run.exec (Worker.step sampleSetup) (Worker.init sampleSetup) twoArrivals).map
      (fun s => (s.batch, s.heap 4096, s.regs 6)) = some ([⟨5, onlyIn, 4096⟩],
        some (.tcp ⟨5, [], []⟩), some ⟨.epollin, 8192⟩) := by decide +kernel
  have hview' : (Run.exec (Worker.step sampleSetup) (Worker.init sampleSetup)
      (twoArrivals ++ [sampleRequest 12288])).map (·.regs 6) = some (some ⟨.epollout, 12288⟩) := by
    decide +kernel
  obtain ⟨s, hs, hsview⟩ := Option.map_eq_some_iff.1 hview
  obtain ⟨s', hs', hregs'⟩ := Option.map_eq_some_iff.1 hview'
  simp only [Prod.mk.injEq] at hsview
  obtain ⟨hbatch, hheap, hregs⟩ := hsview
  have hstep := Run.exec_concat hs hs'
  have hparse : s.Parses sampleSetup (sampleRequest 12288) ⟨5, [], []⟩ 12288 :=
    ⟨_, _, _, _, ⟨[71, 69, 84], [47], [72], []⟩, rfl, hbatch, hheap, by decide +kernel,
      by rw [hstep]; rfl⟩
  have heq := congrFun (hall.last hs _ _ s' hparse hstep) 6
  rw [hregs', Function.update_of_ne (by decide), hregs] at heq
  cases heq

end Worker

end HttpCallback
