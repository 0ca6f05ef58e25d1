import HttpCallback.Worker.Answers

/-!
# What the untyped pointers point to

`data.ptr` is a `void *`: the loop casts it to an `http_tcp` behind EPOLLIN and to an `http_request`
behind EPOLLOUT. Objects are never freed, so an address keeps its kind for ever, and with that every
registration and every event not yet processed stays paired with the kind of object its interest
stands for, even when an event before it in the batch has re-registered its descriptor.
-/

namespace HttpCallback

namespace Worker

variable {cfg : Setup} {s s' : Worker} {i : WorkerInput}

/-- At `data` lies the kind of object that is registered for the interest. -/
def PointsTo (heap : UInt64 → Option Obj) (data : UInt64) : Interest → Prop
  | .epollin => ∃ t, heap data = some (.tcp t)
  | .epollout => ∃ r file, heap data = some (.req r file)

/-- Apart from the registration that the worker starts with, interests and pointers match. -/
structure Typed (cfg : Setup) (s : Worker) : Prop where
  regs : ∀ k r, s.regs k = some r →
    (k = cfg.fd0 ∧ r = ⟨.epollin, cfg.data0⟩) ∨ PointsTo s.heap r.data r.events
  batch : ∀ e ∈ s.batch, (e.key = cfg.fd0 ∧ e.data = cfg.data0) ∨
    ∃ x, e.events.allowed x = true ∧ PointsTo s.heap e.data x

/-- A store at a fresh address, or over an `http_tcp` with another, changes the kind of no object. -/
theorem PointsTo.update {heap : UInt64 → Option Obj} {a data : UInt64} {o : Obj} {x : Interest}
    (h : PointsTo heap data x)
    (ho : heap a = none ∨ (∃ t, heap a = some (.tcp t)) ∧ ∃ t, o = .tcp t) :
    PointsTo (Function.update heap a (some o)) data x := by
  cases x with
  | epollin =>
    obtain ⟨t, ht⟩ := h
    by_cases ha : data = a
    · subst ha
      rcases ho with hnone | ⟨-, t', rfl⟩
      · rw [hnone] at ht
        cases ht
      · exact ⟨t', Function.update_self _ _ _⟩
    · exact ⟨t, (Function.update_of_ne ha _ _).trans ht⟩
  | epollout =>
    obtain ⟨r, file, hr⟩ := h
    exact ⟨r, file, heap_update_req (ho.imp_right And.left) hr⟩

theorem typed_init (cfg : Setup) : (Worker.init cfg).Typed cfg := by
  refine ⟨?_, nofun⟩
  intro k r hk
  unfold Worker.init at hk
  simp only at hk
  rcases update_some hk with ⟨hfd, hr⟩ | hk
  · exact Or.inl ⟨hfd, hr⟩
  · cases hk

/-- The invariant behind a step that processes an event: objects keep their kinds, and a new
registration points to the kind it stands for. -/
theorem Typed.keep (h : s.Typed cfg)
    (hheap : ∀ data x, PointsTo s.heap data x → PointsTo s'.heap data x)
    (hregs : ∀ k r, s'.regs k = some r → s.regs k = some r ∨ PointsTo s'.heap r.data r.events)
    (hbatch : ∀ e ∈ s'.batch, e ∈ s.batch) : s'.Typed cfg := by
  constructor
  · intro k r hk
    rcases hregs k r hk with hk | hp
    · exact (h.regs k r hk).imp_right (hheap r.data r.events)
    · exact Or.inr hp
  · intro e he
    rcases h.batch e (hbatch e he) with hfd | ⟨x, hx, hp⟩
    · exact Or.inl hfd
    · exact Or.inr ⟨x, hx, hheap e.data x hp⟩

/-- An event is reported with the data of its registration. -/
theorem Typed.wait (h : s.Typed cfg) {ready : List Ready} (hready : ∀ e ∈ ready, s.Reports e) :
    Typed cfg { s with batch := ready } := by
  refine ⟨h.regs, ?_⟩
  intro e he
  obtain ⟨r, hr, hdata, hallowed⟩ := hready e he
  rw [← hdata]
  rcases h.regs e.key r hr with ⟨hfd, rfl⟩ | hp
  · exact Or.inl ⟨hfd, rfl⟩
  · exact Or.inr ⟨r.events, hallowed, hp⟩

theorem Typed.step (h : s.Typed cfg) (hstep : Worker.step cfg s i = some s') : s'.Typed cfg := by
  rcases step_cases hstep with ⟨ready, -, -, -, hready, rfl⟩ |
    ⟨e, rest, prior, ev, addr, ctx, buf, -, hb, -, hnew⟩ |
    ⟨e, rest, stack, evs, addr, -, hb, -, -, hread⟩ | ⟨e, rest, -, hb, -, -, -, hwrite⟩ |
    ⟨e, rest, -, hb, -, -, -, rfl⟩
  · exact h.wait hready
  · have hrest := mem_batch hb
    obtain ⟨clientfd, -, -, ⟨-, rfl⟩ | ⟨-, hfresh, rfl⟩⟩ := newDescriptor_cases hnew
    · exact h.keep (fun _ _ hp => hp) (fun _ _ hk => Or.inl hk) nofun
    · refine h.keep (fun _ _ hp => hp.update (Or.inl hfresh)) ?_ hrest
      intro k r hk
      rcases epollAdd_regs_some hk with ⟨-, rfl⟩ | hk
      · exact Or.inr ⟨_, Function.update_self _ _ _⟩
      · simp only [install_regs] at hk
        exact Or.inl hk
  · have hrest := mem_batch hb
    obtain ⟨t, file, ht, -, ⟨-, rfl⟩ | ⟨req, -, hfresh, rfl⟩⟩ := readable_cases hread
    · exact h.keep (fun _ _ hp => hp.update (Or.inr ⟨⟨t, ht⟩, _, rfl⟩)) (fun _ _ hk => Or.inl hk)
        nofun
    · have hne : addr ≠ e.data := by
        rintro rfl
        exact absurd (hfresh.symm.trans ht) nofun
      refine h.keep ?_ ?_ hrest
      · intro data x hp
        refine (hp.update (Or.inr ⟨⟨t, ht⟩, _, rfl⟩)).update (Or.inl ?_)
        exact (Function.update_of_ne hne _ _).trans hfresh
      · intro k r hk
        rcases epollMod_regs_some hk with ⟨-, rfl, -⟩ | hk
        · exact Or.inr ⟨req, file, Function.update_self _ _ _⟩
        · exact Or.inl hk
  · obtain ⟨q, origin, -, rfl⟩ := writable_cases hwrite
    refine h.keep (fun _ _ hp => hp) ?_ (mem_batch hb)
    exact fun k r hk => Or.inl (epollDel_regs_some (close_regs_some hk)).2
  · refine h.keep (fun _ _ hp => hp) ?_ (mem_batch hb)
    exact fun k r hk => Or.inl (epollDel_regs_some (close_regs_some hk)).2

/-- **No cast meets the other kind of object.** In every state that a run of the worker reaches,
whatever arrives and in whatever order events are reported and processed: a registered descriptor
other than the hand-off socket waits for EPOLLIN with a pointer to an `http_tcp` or for EPOLLOUT with
a pointer to an `http_request`; so does the registration behind every event not yet processed; and
each of these events that the loop does not take for the hand-off socket's points to an `http_tcp`
if EPOLLIN is set, and to an `http_request` if EPOLLOUT is. -/
theorem casts_right (cfg : Setup) (is : List WorkerInput) (s : Worker)
    (h : Run.exec (Worker.step cfg) (Worker.init cfg) is = some s) :
    (∀ k r, k ≠ cfg.fd0 → s.regs k = some r → PointsTo s.heap r.data r.events) ∧
      (∀ e ∈ s.batch, e.key ≠ cfg.fd0 →
        ∃ x, e.events.allowed x = true ∧ PointsTo s.heap e.data x) ∧
      ∀ e ∈ s.batch, dataFd e.data ≠ cfg.fd0 →
        (e.events.epollin = true → ∃ t, s.heap e.data = some (.tcp t)) ∧
          (e.events.epollout = true → ∃ r file, s.heap e.data = some (.req r file)) := by
  have hinv : s.Typed cfg :=
    Run.inv (fun _ _ _ h hs => Typed.step h hs) is (typed_init cfg) h
  refine ⟨?_, ?_, ?_⟩
  · intro k r hk hr
    exact (hinv.regs k r hr).resolve_left fun hfd => hk hfd.1
  · intro e he hk
    exact (hinv.batch e he).resolve_left fun hfd => hk hfd.1
  · intro e he hfd
    rcases hinv.batch e he with ⟨-, hdata⟩ | ⟨x, hx, hp⟩
    · exact absurd (hdata ▸ cfg.data0_fd) hfd
    · -- an event that has EPOLLIN was reported to EPOLLIN, and one that has EPOLLOUT to EPOLLOUT
      cases x with
      | epollin =>
        refine ⟨fun _ => hp, fun hout => ?_⟩
        simp [Events.allowed, hout] at hx
      | epollout =>
        refine ⟨fun hin => ?_, fun _ => hp⟩
        simp [Events.allowed, hin] at hx

/-- Connection 5 has sent its request, which waits to be answered. -/
theorem casts_right_one :
    ∃ s, Run.exec (Worker.step sampleSetup) (Worker.init sampleSetup)
        (oneArrival ++ [sampleRequest 12288]) = some s ∧
      ∃ r file, s.heap 12288 = some (.req r file) := by
  have hview : (Run.exec (Worker.step sampleSetup) (Worker.init sampleSetup)
      (oneArrival ++ [sampleRequest 12288])).map (·.regs 5) = some (some ⟨.epollout, 12288⟩) := by
    decide +kernel
  obtain ⟨s, hs, hreg⟩ := Option.map_eq_some_iff.1 hview
  exact ⟨s, hs, (casts_right sampleSetup _ s hs).1 5 ⟨.epollout, 12288⟩ (by decide) hreg⟩

end Worker

end HttpCallback
