import HttpCallback.Handoff
import HttpCallback.Worker.Basic

/-!
# The master's event loop

`start` around the accept loop: `Epoll_wait`, the dispatch of each event, and the descriptors that
the master holds. Passing a descriptor over the socket pair duplicates it, and the one branch that
closes a client's descriptor needs an event of which there is none: only `listenfd` is ever
registered. So the master keeps a descriptor for every connection it has accepted, handed over or
not, until it exits (`Master.released_iff`).
-/

namespace HttpCallback

/-- What the master starts with: the listening socket and the descriptors that are open. -/
structure MasterSetup where
  listenfd : Nat
  inherited : Nat → Bool
  listening : inherited listenfd = true

/-- An entry of the interest list of `epfd`. -/
structure MasterReg where
  events : Interest
  fd : Int
  deriving Repr, DecidableEq

/-- An entry of the array `pevent`, with the descriptor it was registered for. -/
structure MasterReady where
  key : Int
  events : Events
  fd : Int
  deriving Repr, DecidableEq

/-- The accept loop, the events still to be dispatched, the interest list, and the clients'
descriptors that are open in the master, each with the connection it belongs to. -/
structure Master where
  loop : Handoff
  batch : List MasterReady
  regs : Int → Option MasterReg
  clients : List (Nat × Nat)

inductive MasterInput
  | wait (ready : List MasterReady)
  | event
  | loop (i : HandoffInput)
  deriving Repr, DecidableEq

namespace Master

def init (cfg : MasterSetup) : Master where
  loop := .init
  batch := []
  regs := Function.update (fun _ => none) cfg.listenfd (some ⟨.epollin, cfg.listenfd⟩)
  clients := []

variable (cfg : MasterSetup) (s : Master)

/-- Control is at `Epoll_wait`. -/
def AtWait : Prop := s.loop.pc = .wait ∧ s.batch = []

instance : Decidable s.AtWait := inferInstanceAs (Decidable (_ ∧ _))

/-- The descriptor is open. -/
def IsOpen (fd : Int) : Prop :=
  (∃ n : Nat, fd = n ∧ cfg.inherited n = true) ∨ ∃ c ∈ s.clients, fd = c.1

instance (fd : Int) : Decidable (s.IsOpen cfg fd) :=
  decidable_of_iff ((0 ≤ fd ∧ cfg.inherited fd.toNat = true) ∨ ∃ c ∈ s.clients, fd = c.1)
    (or_congr_left ⟨fun h => ⟨_, (Int.toNat_of_nonneg h.1).symm, h.2⟩, by
      rintro ⟨n, rfl, hn⟩
      exact ⟨Int.natCast_nonneg n, hn⟩⟩)

/-- `e` is an entry that `epoll_wait` can report. -/
def Reports (e : MasterReady) : Prop :=
  ∃ r ∈ s.regs e.key, r.fd = e.fd ∧ e.events.allowed r.events = true

instance (e : MasterReady) : Decidable (s.Reports e) := by
  unfold Reports
  cases s.regs e.key with
  | none => exact isFalse (by simp)
  | some r => exact decidable_of_iff (r.fd = e.fd ∧ e.events.allowed r.events = true) (by simp)

/-- `EPOLL_CTL_ADD`. -/
def epollAdd (fd : Int) (reg : MasterReg) : Master :=
  { s with
    regs :=
      if s.IsOpen cfg fd ∧ s.regs fd = none then Function.update s.regs fd (some reg) else s.regs }

/-- `close` of a client's descriptor. -/
def close (fd : Int) : Master := { s with clients := s.clients.filter fun c => (c.1 : Int) ≠ fd }

/-- A process that has exited has nothing open. -/
def exitClosed : Master :=
  if s.loop.pc = .exited then { s with batch := [], regs := fun _ => none, clients := [] } else s

/-- The body of the `for` loop over the events, as far as the accept loop. `free(pevent)`, in front
of the first branch's exit and in the last branch, is left out. -/
def dispatch (e : MasterReady) (rest : List MasterReady) : Option Master :=
  let s := { s with batch := rest }
  if e.events.epollerr || e.events.epollhup then
    -- `unix_error` exits
    some (exitClosed { s with loop := { s.loop with pc := .exited } })
  else if e.fd = cfg.listenfd then (s.loop.step .wake).map fun loop => { s with loop := loop }
  else if e.events.epollin then
    some (s.epollAdd cfg s.loop.clientfd ⟨.epollout, s.loop.clientfd⟩)
  else if e.events.epollout then some s
  else some (s.close s.loop.clientfd)

/-- `accept` returns a descriptor that is not open. -/
def CanAccept : HandoffInput → Prop
  | .wake => False
  | .accept (.conn fd) => ¬s.IsOpen cfg fd
  | _ => True

instance (i : HandoffInput) : Decidable (s.CanAccept cfg i) := by
  unfold CanAccept
  split <;> infer_instance

/-- The client's descriptor that a step of the accept loop opens. -/
def opened (s : Master) : HandoffInput → List (Nat × Nat)
  | .accept (.conn fd) => [(fd, s.loop.accepted.length)]
  | _ => []

def step (s : Master) : MasterInput → Option Master
  | .wait ready =>
    if s.AtWait ∧ (ready.map (·.key)).Nodup ∧ ∀ e ∈ ready, s.Reports e then
      some { s with batch := ready }
    else none
  | .event =>
    if s.loop.pc = .wait then
      match s.batch with
      | [] => none
      | e :: rest => s.dispatch cfg e rest
    else none
  | .loop i =>
    if s.CanAccept cfg i then
      (s.loop.step i).map fun loop =>
        exitClosed { s with loop := loop, clients := s.clients ++ s.opened i }
    else none

end Master

/-! ## What the accept loop accepts and sends -/

/-- Connections sent have been accepted, and inside the loop there is one at hand. -/
structure Handoff.Numbered (s : Handoff) : Prop where
  sent : ∀ c ∈ s.sent, c < s.accepted.length
  inside : ¬s.Between → 0 < s.accepted.length

theorem Handoff.Numbered.sending {s : Handoff} (h : s.Numbered) (hn : ¬s.Between) (ev : SendmsgEv) :
    ∀ c ∈ (s.sending ev).sent, c < (s.sending ev).accepted.length := by
  rw [sending_accepted]
  cases ev with
  | ok =>
    intro c hc
    rcases List.mem_append.1 hc with hc | hc
    · exact h.sent c hc
    · have hpos := h.inside hn
      rw [List.mem_singleton.1 hc]
      unfold Handoff.current
      omega
  | fail => exact h.sent

theorem Handoff.Numbered.step {s s' : Handoff} {i : HandoffInput} (h : s.Numbered)
    (hstep : s.step i = some s') : s'.Numbered := by
  rcases step_cases hstep with ⟨-, hpc, rfl⟩ | ⟨hpc, hsent, -, -, hacc⟩ |
    ⟨ev, -, ⟨hpc, rfl⟩ | ⟨hpc, rfl⟩⟩ | ⟨w, c, cs, -, -, rfl⟩
  · exact ⟨h.sent, fun hn => absurd ⟨nofun, nofun⟩ hn⟩
  · rcases hacc with ⟨fd, -, hlen, -⟩ | ⟨hlen, hb, -⟩
    · constructor
      · intro c hc
        rw [hsent] at hc
        rw [hlen, List.length_append]
        exact Nat.lt_add_right _ (h.sent c hc)
      · intro _
        rw [hlen, List.length_append, List.length_singleton]
        exact Nat.succ_pos _
    · refine ⟨fun c hc => ?_, fun hn => absurd hb hn⟩
      rw [hsent] at hc
      rw [hlen]
      exact h.sent c hc
  · have hn : ¬s.Between := fun hb => hb.1 hpc
    refine ⟨h.sending hn ev, fun _ => ?_⟩
    simp only [sending_accepted]
    exact h.inside hn
  · have hn : ¬s.Between := fun hb => hb.2 hpc
    refine ⟨h.sending hn ev, fun _ => ?_⟩
    simp only [sending_accepted]
    exact h.inside hn
  · exact ⟨h.sent, h.inside⟩

/-- The descriptor that a step of the accept loop accepts. -/
def HandoffInput.accepted : HandoffInput → List Nat
  | .accept (.conn fd) => [fd]
  | _ => []

theorem Handoff.step_accepted {s s' : Handoff} {i : HandoffInput} (h : s.step i = some s') :
    s'.accepted = s.accepted ++ i.accepted := by
  rcases step_cases h with ⟨rfl, -, rfl⟩ | ⟨-, -, -, -, hacc⟩ | ⟨ev, rfl, ⟨-, rfl⟩ | ⟨-, rfl⟩⟩ |
    ⟨w, c, cs, rfl, -, rfl⟩
  · exact (List.append_nil _).symm
  · rcases hacc with ⟨fd, rfl, hlen, -⟩ | ⟨hlen, -, ev, rfl, hne⟩
    · exact hlen
    · cases ev with
      | conn fd => exact absurd rfl (hne fd)
      | again => exact hlen.trans (List.append_nil _).symm
      | error => exact hlen.trans (List.append_nil _).symm
  · simp [HandoffInput.accepted]
  · simp [HandoffInput.accepted]
  · exact (List.append_nil _).symm

theorem Handoff.step_wake {s s' : Handoff} (h : s.step .wake = some s') :
    s.pc = .wait ∧ s'.pc = .accept := by
  rcases step_cases h with ⟨-, hpc, rfl⟩ | ⟨-, -, -, -, hacc⟩ | ⟨ev, hi, -⟩ | ⟨w, c, cs, hi, -⟩
  · exact ⟨hpc, rfl⟩
  · rcases hacc with ⟨fd, hi, -⟩ | ⟨-, -, ev, hi, -⟩ <;> cases hi
  · cases hi
  · cases hi

/-- The master does not come back. -/
theorem Handoff.step_exited {s s' : Handoff} {i : HandoffInput} (h : s.step i = some s')
    (hpc : s.pc = .exited) : s'.pc = .exited := by
  rcases step_cases h with ⟨-, hpc', -⟩ | ⟨hpc', -⟩ | ⟨ev, -, ⟨hpc', -⟩ | ⟨hpc', -⟩⟩ |
    ⟨w, c, cs, -, -, rfl⟩
  · cases hpc.symm.trans hpc'
  · cases hpc.symm.trans hpc'
  · cases hpc.symm.trans hpc'
  · cases hpc.symm.trans hpc'
  · exact hpc

/-- Only a successful send adds to the connections sent. -/
theorem Handoff.step_sent {s s' : Handoff} {i : HandoffInput} (h : s.step i = some s') :
    s'.sent = [] ↔ s.sent = [] ∧ i ≠ .sendmsg .ok := by
  have hsend : ∀ ev, (s.sending ev).sent = [] ↔
      s.sent = [] ∧ HandoffInput.sendmsg ev ≠ .sendmsg .ok := by
    intro ev
    cases ev <;> simp [sending]
  rcases step_cases h with ⟨rfl, -, rfl⟩ | ⟨-, hsent, -, -, hacc⟩ |
    ⟨ev, rfl, ⟨-, rfl⟩ | ⟨-, rfl⟩⟩ | ⟨w, c, cs, rfl, -, rfl⟩
  · simp
  · have hi : i ≠ .sendmsg .ok := by
      intro heq
      rcases hacc with ⟨fd, rfl, -⟩ | ⟨-, -, ev, rfl, -⟩ <;> cases heq
    rw [hsent]
    exact (and_iff_left hi).symm
  · exact hsend ev
  · exact hsend ev
  · simp

/-! ## What a step of the master does -/

namespace Master

variable {cfg : MasterSetup} {s s' : Master} {i : MasterInput}

@[simp] theorem exitClosed_loop (s : Master) : s.exitClosed.loop = s.loop := by
  unfold exitClosed
  split <;> rfl

theorem exitClosed_exited (h : s.loop.pc = .exited) :
    s.exitClosed = { s with batch := [], regs := fun _ => none, clients := [] } := if_pos h

theorem exitClosed_running (h : s.loop.pc ≠ .exited) : s.exitClosed = s := if_neg h

/-- What does not end the accept loop opens nothing again. -/
theorem exitClosed_with {loop : Handoff} (h : s.exitClosed = s) (hpc : loop.pc = s.loop.pc) :
    exitClosed { s with loop := loop } = { s with loop := loop } := by
  by_cases hgone : s.loop.pc = .exited
  · rw [exitClosed_exited hgone] at h
    refine (exitClosed_exited (hpc.trans hgone)).trans ?_
    rw [← h]
  · exact exitClosed_running (hpc ▸ hgone)

theorem exitClosed_idem (s : Master) : s.exitClosed.exitClosed = s.exitClosed := by
  by_cases h : s.loop.pc = .exited
  · rw [exitClosed_exited h]
    exact exitClosed_exited h
  · rw [exitClosed_running h, exitClosed_running h]

theorem step_cases (h : step cfg s i = some s') :
    (∃ ready, i = .wait ready ∧ s.loop.pc = .wait ∧ (∀ e ∈ ready, s.Reports e) ∧
      s' = { s with batch := ready }) ∨
    (∃ e rest, i = .event ∧ s.batch = e :: rest ∧ s.dispatch cfg e rest = some s') ∨
    (∃ j loop, i = .loop j ∧ s.loop.step j = some loop ∧
      s' = exitClosed { s with loop := loop, clients := s.clients ++ s.opened j }) := by
  unfold step at h
  split at h
  · split at h
    · rename_i ready hw
      exact Or.inl ⟨ready, rfl, hw.1.1, hw.2.2, (Option.some.inj h).symm⟩
    · cases h
  · split at h
    · split at h
      · cases h
      · rename_i e rest hb
        exact Or.inr (Or.inl ⟨e, rest, rfl, hb, h⟩)
    · cases h
  · rename_i j
    split at h
    · obtain ⟨loop, hloop, rfl⟩ := Option.map_eq_some_iff.1 h
      exact Or.inr (Or.inr ⟨j, loop, rfl, hloop, rfl⟩)
    · cases h

/-- An event on `listenfd` ends the master or wakes the accept loop. -/
theorem dispatch_listen {e : MasterReady} {rest : List MasterReady} (hfd : e.fd = cfg.listenfd)
    (h : s.dispatch cfg e rest = some s') :
    s' = exitClosed { s with batch := rest, loop := { s.loop with pc := .exited } } ∨
      ∃ loop, s.loop.step .wake = some loop ∧ s' = { s with batch := rest, loop := loop } := by
  unfold dispatch at h
  simp only at h
  split at h
  · exact Or.inl (Option.some.inj h).symm
  · obtain ⟨loop, hloop, rfl⟩ := Option.map_eq_some_iff.1 h
    exact Or.inr ⟨loop, hloop, rfl⟩

theorem dispatch_sent {e : MasterReady} {rest : List MasterReady}
    (h : s.dispatch cfg e rest = some s') : s'.loop.sent = [] ↔ s.loop.sent = [] := by
  unfold dispatch at h
  simp only at h
  split at h
  · cases h
    rw [exitClosed_loop]
  · split at h
    · obtain ⟨loop, hloop, rfl⟩ := Option.map_eq_some_iff.1 h
      simp [Handoff.step_sent hloop]
    · split at h
      · cases h
        exact Iff.rfl
      · split at h <;> cases h <;> exact Iff.rfl

/-- Whatever has been accepted is open until the master exits, and only `listenfd` is registered. -/
structure Inv (cfg : MasterSetup) (s : Master) : Prop where
  loop : s.loop.Numbered
  regs : ∀ k r, s.regs k = some r → r.fd = cfg.listenfd
  batch : ∀ e ∈ s.batch, e.fd = cfg.listenfd
  clients : s.loop.pc ≠ .exited → s.clients.map (·.2) = List.range s.loop.accepted.length
  exited : s.exitClosed = s

theorem Inv.exitClosed (loop : s.loop.Numbered)
    (regs : ∀ k r, s.regs k = some r → r.fd = cfg.listenfd)
    (batch : ∀ e ∈ s.batch, e.fd = cfg.listenfd)
    (clients : s.loop.pc ≠ .exited → s.clients.map (·.2) = List.range s.loop.accepted.length) :
    s.exitClosed.Inv cfg := by
  by_cases hpc : s.loop.pc = .exited
  · refine ⟨?_, ?_, ?_, ?_, exitClosed_idem s⟩
    all_goals rw [exitClosed_exited hpc]
    · exact loop
    · nofun
    · nofun
    · exact fun hne => absurd hpc hne
  · rw [exitClosed_running hpc]
    exact ⟨loop, regs, batch, clients, exitClosed_running hpc⟩

theorem inv_init (cfg : MasterSetup) : (Master.init cfg).Inv cfg := by
  refine ⟨⟨nofun, fun hn => absurd ⟨nofun, nofun⟩ hn⟩, ?_, nofun, fun _ => rfl, rfl⟩
  intro k r hk
  unfold Master.init at hk
  simp only at hk
  by_cases hk' : k = cfg.listenfd
  · subst hk'
    rw [Function.update_self, Option.some.injEq] at hk
    rw [← hk]
  · rw [Function.update_of_ne hk'] at hk
    cases hk

theorem Inv.step (h : s.Inv cfg) (hstep : Master.step cfg s i = some s') : s'.Inv cfg := by
  rcases step_cases hstep with ⟨ready, -, hpc, hready, rfl⟩ | ⟨e, rest, -, hb, hdisp⟩ |
    ⟨j, loop, -, hloop, rfl⟩
  · refine ⟨h.loop, h.regs, ?_, h.clients, exitClosed_running (by rw [hpc]; nofun)⟩
    intro e he
    obtain ⟨r, hr, hfd, -⟩ := hready e he
    exact hfd.symm.trans (h.regs e.key r hr)
  · have hrest : ∀ x ∈ rest, x.fd = cfg.listenfd :=
      fun x hx => h.batch x (hb ▸ List.mem_cons_of_mem e hx)
    rcases dispatch_listen (h.batch e (hb ▸ List.mem_cons_self)) hdisp with rfl | ⟨loop, hloop, rfl⟩
    · exact Inv.exitClosed ⟨h.loop.sent, fun hn => absurd ⟨nofun, nofun⟩ hn⟩ h.regs hrest
        fun hne => absurd rfl hne
    · have hpc := Handoff.step_wake hloop
      refine ⟨h.loop.step hloop, h.regs, hrest, fun _ => ?_, exitClosed_running ?_⟩
      · simp only [Handoff.step_accepted hloop, HandoffInput.accepted, List.append_nil]
        exact h.clients (by rw [hpc.1]; nofun)
      · rw [hpc.2]
        nofun
  · refine Inv.exitClosed (h.loop.step hloop) h.regs h.batch fun hne => ?_
    have hclients := h.clients fun hpc => hne (Handoff.step_exited hloop hpc)
    simp only [Handoff.step_accepted hloop, List.map_append, List.length_append, hclients]
    unfold opened HandoffInput.accepted
    split
    · exact List.range_succ.symm
    · exact List.append_nil _

/-! ## Runs -/

/-- No connection that a worker has been sent is open in the master, and there are no more clients'
descriptors than connections accepted and not sent. -/
structure Released (s : Master) : Prop where
  handed : ∀ c ∈ s.clients, c.2 ∉ s.loop.sent
  count : s.clients.length ≤
    ((List.range s.loop.accepted.length).filter (· ∉ s.loop.sent)).length

theorem Inv.released_iff_sent (h : s.Inv cfg) :
    s.Released ↔ s.loop.pc = .exited ∨ s.loop.sent = [] := by
  by_cases hpc : s.loop.pc = .exited
  · have hnil : s.clients = [] := by
      rw [← h.exited, exitClosed_exited hpc]
    refine iff_of_true ⟨?_, ?_⟩ (Or.inl hpc)
    · rw [hnil]
      exact List.forall_mem_nil _
    · rw [hnil]
      exact Nat.zero_le _
  · rw [or_iff_right hpc]
    have hclients := h.clients hpc
    have hlen := congrArg List.length hclients
    rw [List.length_map, List.length_range] at hlen
    constructor
    · intro hr
      cases hs : s.loop.sent with
      | nil => rfl
      | cons c cs =>
        have hc : c ∈ s.loop.sent := hs ▸ List.mem_cons_self
        have hmem : c ∈ s.clients.map (·.2) := by
          rw [hclients, List.mem_range]
          exact h.loop.sent c hc
        obtain ⟨p, hp, rfl⟩ := List.mem_map.1 hmem
        exact absurd hc (hr.handed p hp)
    · intro hs
      refine ⟨fun c _ => by simp [hs], ?_⟩
      simp [hs, hlen]

/-- **The master lets go of what it hands over exactly when it hands nothing over.** In every state
that a run of the master reaches, in particular whenever control is back at `Epoll_wait`: no
connection that was passed to the workers is open in it, and its open clients are no more than the
connections accepted and not passed on, if and only if it has exited, as it has not at `Epoll_wait`,
or no `Sock_fd_write` has succeeded. -/
theorem released_iff (cfg : MasterSetup) (is : List MasterInput) (s : Master)
    (h : Run.exec (Master.step cfg) (Master.init cfg) is = some s) :
    s.Released ↔ s.loop.pc = .exited ∨ ∀ i ∈ is, i ≠ .loop (.sendmsg .ok) := by
  have hinv : s.Inv cfg := Run.inv (fun _ _ _ h hs => Inv.step h hs) is (inv_init cfg) h
  have hsent : s.loop.sent = [] ↔ (Master.init cfg).loop.sent = [] ∧
      ∀ i ∈ is, i ≠ .loop (.sendmsg .ok) := by
    refine @Run.keeps_iff _ _ _ (fun s => s.loop.sent = []) (fun i => i ≠ .loop (.sendmsg .ok))
      (fun s i s' hstep => ?_) is _ _ h
    rcases step_cases hstep with ⟨ready, rfl, -, -, rfl⟩ | ⟨e, rest, rfl, -, hdisp⟩ |
      ⟨j, loop, rfl, hloop, rfl⟩
    · exact (and_iff_left nofun).symm
    · exact (dispatch_sent hdisp).trans (and_iff_left nofun).symm
    · simp [Handoff.step_sent hloop]
  rw [hinv.released_iff_sent, hsent]
  exact or_congr_right (and_iff_right rfl)

/-- A master that listens on descriptor 7. -/
def sampleSetup : MasterSetup := ⟨7, fun fd => fd == 7, rfl⟩

/-- Connection 8 arrives; `evs` are the results of the sends. -/
def sampleArrival (evs : List SendmsgEv) : List MasterInput :=
  [.wait [⟨7, ⟨true, false, false, false⟩, 7⟩], .event, .loop (.accept (.conn 8))] ++
    evs.map (fun ev => .loop (.sendmsg ev)) ++ [.loop (.accept .again)]

/-- One connection handed over: the master still holds it. -/
theorem released_iff_one : ∃ s, Run.exec (Master.step sampleSetup) (Master.init sampleSetup)
    (sampleArrival [.ok]) = some s ∧ s.AtWait ∧ ¬s.Released := by
  have hview : (Run.exec (Master.step sampleSetup) (Master.init sampleSetup)
      (sampleArrival [.ok])).map (fun s => (s.loop.pc, s.batch)) = some (.wait, []) := by decide
  obtain ⟨s, hs, hwait⟩ := Option.map_eq_some_iff.1 hview
  rw [Prod.mk.injEq] at hwait
  refine ⟨s, hs, hwait, fun hr => ?_⟩
  rcases (released_iff sampleSetup _ s hs).1 hr with hpc | hnone
  · rw [hwait.1] at hpc
    cases hpc
  · exact hnone _ (by decide) rfl

/-- The descriptor of a connection handed over stays open in the master. -/
theorem released_not :
    ¬∀ (cfg : MasterSetup) (is : List MasterInput) (s : Master),
      Run.exec (Master.step cfg) (Master.init cfg) is = some s → s.AtWait →
      ∀ c ∈ s.clients, c.2 ∉ s.loop.sent := by
  intro h
  have hview : (Run.exec (Master.step sampleSetup) (Master.init sampleSetup)
      (sampleArrival [.ok])).map (fun s => (s.loop.pc, s.batch, s.clients, s.loop.sent)) =
        some (.wait, [], [(8, 0)], [0]) := by decide
  obtain ⟨s, hs, heq⟩ := Option.map_eq_some_iff.1 hview
  simp only [Prod.mk.injEq] at heq
  obtain ⟨hpc, hbatch, hclients, hsent⟩ := heq
  have hnot := h sampleSetup _ s hs ⟨hpc, hbatch⟩ (8, 0) (by rw [hclients]; decide)
  rw [hsent] at hnot
  exact hnot List.mem_cons_self

end Master

end HttpCallback
