import HttpCallback.Worker.Answers

/-!
# What an error on a connection does to the worker

An event with neither EPOLLIN nor EPOLLOUT is an error on a connection, but the branch for it
unregisters and closes the hand-off socket `fd[0]`. Nothing ever opens or registers that socket
again, so the worker keeps receiving connections exactly as long as no such event is handled, and no
answer closes `epollfd`, whose number a pointer may have for its low half.
-/

namespace HttpCallback

namespace Worker

variable {cfg : Setup} {s s' : Worker} {i : WorkerInput}

/-- The hand-off socket is open and registered. -/
def Serving (cfg : Setup) (s : Worker) : Prop :=
  s.files cfg.fd0 = some .handoff ∧ s.regs cfg.fd0 ≠ none

/-- If the step handles an event on a connection that is an error and nothing else, it unregisters
and closes the descriptor the event was reported for. -/
def FailedClosed (cfg : Setup) (s : Worker) (i : WorkerInput) : Prop :=
  ∀ e rest s', s.batch = e :: rest → dataFd e.data ≠ cfg.fd0 → e.events.epollin = false →
    e.events.epollout = false → step cfg s i = some s' →
    s'.regs e.key = none ∧ s'.files e.key = none

/-- The event at hand, if it is not for the hand-off socket, has EPOLLIN or has EPOLLOUT and data
whose low half is not `epollfd`. -/
def Calm (cfg : Setup) (s : Worker) (_ : WorkerInput) : Prop :=
  ∀ e ∈ s.batch.head?, dataFd e.data ≠ cfg.fd0 →
    e.events.epollin = true ∨ (e.events.epollout = true ∧ dataFd e.data ≠ cfg.epollfd)

instance (cfg : Setup) (s : Worker) (i : WorkerInput) : Decidable (s.Calm cfg i) := by
  unfold Calm
  infer_instance

/-- The worker serves, and `epollfd` is what it was created as. -/
structure Open (cfg : Setup) (s : Worker) : Prop where
  serving : s.Serving cfg
  epoll : s.files cfg.epollfd = some .epoll

/-- The hand-off socket is closed, or the interest list is gone. -/
def Deaf (cfg : Setup) (s : Worker) : Prop :=
  s.files cfg.fd0 = none ∨ (s.files cfg.epollfd ≠ some .epoll ∧ ∀ k, s.regs k = none)

theorem open_init (cfg : Setup) : (Worker.init cfg).Open cfg := by
  refine ⟨⟨if_pos rfl, ?_⟩, ?_⟩
  · unfold Worker.init
    simp
  · unfold Worker.init
    simp only
    rw [if_neg cfg.ne.symm, if_pos trivial]

theorem Deaf.not_serving (h : s.Deaf cfg) : ¬s.Serving cfg := by
  rintro ⟨hopen, hreg⟩
  rcases h with h | ⟨-, h⟩
  · rw [h] at hopen
    cases hopen
  · exact hreg (h _)

/-! ## What the calls leave -/

theorem epollAdd_regs_ne {fd k : Int} {reg : Registration} (h : s.regs k ≠ none) :
    (s.epollAdd cfg fd reg).regs k ≠ none := by
  unfold epollAdd
  simp only
  split
  · by_cases hk : k = fd
    · subst hk
      rw [Function.update_self]
      exact Option.some_ne_none _
    · rwa [Function.update_of_ne hk]
  · exact h

theorem epollMod_regs_ne {fd k : Int} {reg : Registration} (h : s.regs k ≠ none) :
    (s.epollMod fd reg).regs k ≠ none := by
  unfold epollMod
  simp only
  split
  · exact h
  · by_cases hk : k = fd
    · subst hk
      rw [Function.update_self]
      exact Option.some_ne_none _
    · rwa [Function.update_of_ne hk]

/-- Closing another descriptor than `k` and `epollfd` leaves `k` and its registration. -/
theorem close_epollDel_of_ne {fd k : Int} (hk : k ≠ fd) (hepoll : cfg.epollfd ≠ fd) :
    ((s.epollDel fd).close cfg fd).files k = s.files k ∧
      ((s.epollDel fd).close cfg fd).regs k = s.regs k := by
  refine ⟨Function.update_of_ne hk _ _, ?_⟩
  unfold close
  simp only
  rw [if_neg fun h => hepoll h.1.symm]
  exact Function.update_of_ne hk _ _

/-- Nothing is ever installed as an epoll instance. -/
theorem install_epoll {ev : RecvmsgEv} {k : Int} (h : (s.install ev).files k = some .epoll) :
    s.files k = some .epoll := by
  cases ev with
  | fd d =>
    by_cases hk : k = d
    · subst hk
      unfold install at h
      simp at h
    · exact (Function.update_of_ne hk _ _).symm.trans h
  | plain => exact h
  | eof => exact h
  | fail e => exact h

/-! ## Steps -/

/-- A calm step that does not read on a connection answers one. -/
theorem Calm.answers (h : s.Calm cfg i) {e : Ready} {rest : List Ready} (hb : s.batch = e :: rest)
    (hfd : dataFd e.data ≠ cfg.fd0) (hin : e.events.epollin = false) :
    e.events.epollout = true ∧ dataFd e.data ≠ cfg.epollfd := by
  have hhead : e ∈ s.batch.head? := by
    rw [hb]
    rfl
  refine (h e hhead hfd).resolve_left fun hin' => ?_
  rw [hin] at hin'
  cases hin'

theorem Open.step (h : s.Open cfg) (hc : s.Calm cfg i) (hstep : Worker.step cfg s i = some s') :
    s'.Open cfg := by
  obtain ⟨⟨hopen, hreg⟩, hepoll⟩ := h
  rcases step_cases hstep with ⟨ready, -, -, -, -, rfl⟩ |
    ⟨e, rest, prior, ev, a, ctx, buf, -, -, -, hnew⟩ |
    ⟨e, rest, stack, evs, a, -, -, -, -, hread⟩ | ⟨e, rest, -, hb, hfd, hin, -, hwrite⟩ |
    ⟨e, rest, -, hb, hfd, hin, hout, rfl⟩
  · exact ⟨⟨hopen, hreg⟩, hepoll⟩
  · obtain ⟨clientfd, -, hcan, ⟨-, rfl⟩ | ⟨-, -, rfl⟩⟩ := newDescriptor_cases hnew
    · exact ⟨⟨hopen, hreg⟩, hepoll⟩
    · refine ⟨⟨install_files hcan hopen, epollAdd_regs_ne ?_⟩, install_files hcan hepoll⟩
      simp only [install_regs]
      exact hreg
  · obtain ⟨t, file, -, -, ⟨-, rfl⟩ | ⟨req, -, -, rfl⟩⟩ := readable_cases hread
    · exact ⟨⟨hopen, hreg⟩, hepoll⟩
    · exact ⟨⟨hopen, epollMod_regs_ne hreg⟩, hepoll⟩
  · obtain ⟨q, origin, -, rfl⟩ := writable_cases hwrite
    have hne := (hc.answers hb hfd hin).2
    obtain ⟨hfiles, hregs⟩ := close_epollDel_of_ne (Ne.symm hfd) (Ne.symm hne)
    obtain ⟨hfiles', -⟩ := close_epollDel_of_ne (Ne.symm hne) (Ne.symm hne)
    exact ⟨⟨hfiles.trans hopen, fun h => hreg (hregs.symm.trans h)⟩, hfiles'.trans hepoll⟩
  · have hout' := (hc.answers hb hfd hin).1
    rw [hout] at hout'
    cases hout'

/-- The first event that is not calm closes the hand-off socket or takes the interest list away. -/
theorem Open.cross (h : s.Open cfg) (hc : ¬s.Calm cfg i) (hstep : Worker.step cfg s i = some s') :
    s'.Deaf cfg := by
  unfold Calm at hc
  push Not at hc
  obtain ⟨e, hhead, hfd, hin, hout⟩ := hc
  obtain ⟨rest, hb⟩ : ∃ rest, s.batch = e :: rest := List.head?_eq_some_iff.1 hhead
  rcases step_cases hstep with ⟨ready, -, hb', -⟩ |
    ⟨e', rest', prior, ev, a, ctx, buf, -, hb', hfd', -⟩ |
    ⟨e', rest', stack, evs, a, -, hb', -, hin', -⟩ | ⟨e', rest', -, hb', -, -, hout', hwrite⟩ |
    ⟨e', rest', -, -, -, -, -, rfl⟩
  · rw [hb] at hb'
    cases hb'
  · rw [hb, List.cons.injEq] at hb'
    exact absurd (hb'.1 ▸ hfd') hfd
  · rw [hb, List.cons.injEq] at hb'
    exact absurd (hb'.1 ▸ hin') hin
  · rw [hb, List.cons.injEq] at hb'
    obtain ⟨rfl, rfl⟩ := hb'
    have hepoll := hout hout'
    obtain ⟨q, origin, -, rfl⟩ := writable_cases hwrite
    rw [hepoll]
    refine Or.inr ⟨?_, fun k => ?_⟩
    · unfold close
      simp
    · unfold close
      simp only
      rw [if_pos ⟨trivial, h.epoll⟩]
  · exact Or.inl (Function.update_self _ _ _)

theorem Deaf.close_epollDel (h : s.Deaf cfg) (fd : Int) :
    ((s.epollDel fd).close cfg fd).Deaf cfg := by
  have hnone : ∀ k, s.files k = none → ((s.epollDel fd).close cfg fd).files k = none := by
    intro k hk
    unfold close
    by_cases hfd : k = fd
    · subst hfd
      exact Function.update_self _ _ _
    · exact (Function.update_of_ne hfd _ _).trans hk
  rcases h with hclosed | ⟨hepoll, hregs⟩
  · exact Or.inl (hnone _ hclosed)
  · refine Or.inr ⟨fun hk => ?_, fun k => ?_⟩
    · by_cases hfd : cfg.epollfd = fd
      · subst hfd
        exact absurd ((Function.update_self _ _ _).symm.trans hk) nofun
      · exact hepoll ((Function.update_of_ne hfd _ _).symm.trans hk)
    · cases hr : ((s.epollDel fd).close cfg fd).regs k with
      | none => rfl
      | some r =>
        have hk := (epollDel_regs_some (close_regs_some hr)).2
        rw [hregs k] at hk
        cases hk

theorem Deaf.step (h : s.Deaf cfg) (hstep : Worker.step cfg s i = some s') : s'.Deaf cfg := by
  rcases step_cases hstep with ⟨ready, -, -, -, -, rfl⟩ |
    ⟨e, rest, prior, ev, a, ctx, buf, -, -, -, hnew⟩ |
    ⟨e, rest, stack, evs, a, -, -, -, -, hread⟩ | ⟨e, rest, -, -, -, -, -, hwrite⟩ |
    ⟨e, rest, -, -, -, -, -, rfl⟩
  · exact h
  · obtain ⟨clientfd, -, hcan, ⟨-, rfl⟩ | ⟨-, -, rfl⟩⟩ := newDescriptor_cases hnew
    · exact h
    · rcases h with hclosed | ⟨hepoll, hregs⟩
      · -- on a closed descriptor only a failure is received, which installs nothing
        left
        cases ev with
        | fail err => exact hclosed
        | fd d => exact absurd (hclosed.symm.trans hcan.1) nofun
        | plain => exact absurd (hclosed.symm.trans hcan) nofun
        | eof => exact absurd (hclosed.symm.trans hcan) nofun
      · right
        refine ⟨fun hk => hepoll (install_epoll hk), fun k => ?_⟩
        unfold epollAdd
        simp only
        rw [if_neg fun hadd => hepoll (install_epoll hadd.1), install_regs]
        exact hregs k
  · obtain ⟨t, file, -, -, ⟨-, rfl⟩ | ⟨req, -, -, rfl⟩⟩ := readable_cases hread
    · exact h
    · rcases h with hclosed | ⟨hepoll, hregs⟩
      · exact Or.inl hclosed
      · refine Or.inr ⟨hepoll, fun k => ?_⟩
        unfold epollMod
        simp only
        rw [if_pos (hregs _)]
        exact hregs k
  · obtain ⟨q, origin, -, rfl⟩ := writable_cases hwrite
    exact h.close_epollDel _
  · exact h.close_epollDel _

/-! ## Runs -/

/-- A calm step handles no event that is an error and nothing else. -/
theorem Calm.failedClosed (h : s.Calm cfg i) : s.FailedClosed cfg i := by
  intro e rest s' hb hfd hin hout _
  have hout' := (h.answers hb hfd hin).1
  rw [hout] at hout'
  cases hout'

/-- **Clients are isolated exactly on the calm runs.** In every run of the worker, the state reached
has its hand-off socket open and registered, and every connection whose event was an error and
nothing else was itself unregistered and closed, if and only if no such event was handled in the run
and no answer closed `epollfd`. -/
theorem isolated_iff (cfg : Setup) (is : List WorkerInput) (s : Worker)
    (h : Run.exec (Worker.step cfg) (Worker.init cfg) is = some s) :
    (s.Serving cfg ∧ Run.All (Worker.step cfg) (FailedClosed cfg) (Worker.init cfg) is) ↔
      Run.All (Worker.step cfg) (Calm cfg) (Worker.init cfg) is := by
  rcases Run.dichotomy (fun _ _ _ h hc hs => Open.step h hc hs)
    (fun _ _ _ h hc hs => Open.cross h hc hs) (fun _ _ _ h hs => Deaf.step h hs) is
    (open_init cfg) h with ⟨hall, hopen⟩ | ⟨hall, hdeaf⟩
  · exact ⟨fun _ => hall, fun _ => ⟨hopen.serving, hall.mono fun _ _ hc => hc.failedClosed⟩⟩
  · exact ⟨fun hserv => absurd hserv.1 hdeaf.not_serving, fun h' => absurd h' hall⟩

/-- A connection arrives, becomes readable, and is answered; the request lies at an address whose
low half is the connection's descriptor. -/
theorem isolated_iff_one :
    ∃ s, Run.exec (Worker.step sampleSetup) (Worker.init sampleSetup)
        (oneArrival ++ oneAnswer 4294967301) = some s ∧ s.Serving sampleSetup := by
  have hsome : (Run.exec (Worker.step sampleSetup) (Worker.init sampleSetup)
      (oneArrival ++ oneAnswer 4294967301)).isSome = true := by decide +kernel
  obtain ⟨s, hs⟩ := Option.isSome_iff_exists.1 hsome
  exact ⟨s, hs, ((isolated_iff _ _ s hs).2 (by decide +kernel)).1⟩

/-- Connection 5 arrives and hangs up. -/
def oneHangup : List WorkerInput :=
  sampleArrival 5 4096 ++ [.wait [⟨5, ⟨false, false, false, true⟩, 4096⟩], .hangup]

/-- One client that hangs up takes the hand-off socket away. -/
theorem isolated_hangup :
    ¬∀ (cfg : Setup) (is : List WorkerInput) (s : Worker),
      Run.exec (Worker.step cfg) (Worker.init cfg) is = some s → s.Serving cfg := by
  intro h
  have hview : (Run.exec (Worker.step sampleSetup) (Worker.init sampleSetup) oneHangup).map
      (fun s => (s.files 3, s.regs 3, s.files 5)) = some (none, none, some (.conn 0)) := by
    decide +kernel
  obtain ⟨s, hs, hclosed⟩ := Option.map_eq_some_iff.1 hview
  simp only [Prod.mk.injEq] at hclosed
  exact (h _ _ s hs).2 hclosed.2.1

end Worker

end HttpCallback
