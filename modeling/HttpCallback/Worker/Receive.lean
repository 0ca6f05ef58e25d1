import HttpCallback.Worker.Isolation

/-!
# Receiving a descriptor

`Sock_fd_read` looks at the control buffer whether or not `recvmsg` has filled it, so behind a
failure the bytes of an earlier call pass for a message (`sockFdRead_delivered_iff`). The loop in
turn looks at the result only for EAGAIN: behind the end of the stream, a message without a
descriptor and any other error it goes on with the value in `clientfd`, and allocates an `http_tcp`
for it (`received_iff`).
-/

namespace HttpCallback

open CString

/-! ## `Sock_fd_read` -/

/-- The descriptor that a call delivers, or -1. -/
def RecvmsgEv.delivered : RecvmsgEv → Int
  | .fd d => d
  | _ => -1

/-- The value that a header in the control buffer is read as: -1 when it has another length. A
header of this length that passes no descriptor is read as nothing: the process exits. -/
def Cmsg.ReadAs (c : Cmsg) (fd : Int) : Prop :=
  (c.len ≠ cmsgLen ∧ fd = -1) ∨
    (c.len = cmsgLen ∧ c.level = solSocket ∧ c.type = scmRights ∧ fd = c.fd)

instance (c : Cmsg) (fd : Int) : Decidable (c.ReadAs fd) := inferInstanceAs (Decidable (_ ∨ _))

/-- A failure leaves the buffer to be read as it was. -/
theorem sockFdRead_fail {prior : Cmsg} {e : Errno} {fd : Int} :
    sockFdRead prior (.fail e) = some fd ↔ prior.ReadAs fd := by
  unfold sockFdRead Cmsg.ReadAs
  simp only [RecvmsgEv.firstHdr]
  by_cases hlen : prior.len = cmsgLen
  · by_cases hlevel : prior.level = solSocket
    · by_cases htype : prior.type = scmRights
      · simp [hlen, hlevel, htype, eq_comm]
      · simp [hlen, hlevel, htype]
    · simp [hlen, hlevel]
  · simp [hlen, eq_comm]

/-- **The descriptor read is the one delivered, except behind some failures.** For everything that
the control buffer may have held and every outcome: `Sock_fd_read` stores the descriptor that was
delivered, or -1 when none was, if and only if `recvmsg` has not failed or what the buffer held is
read as -1. -/
theorem sockFdRead_delivered_iff (prior : Cmsg) (ev : RecvmsgEv) :
    sockFdRead prior ev = some ev.delivered ↔ (∀ e, ev ≠ .fail e) ∨ prior.ReadAs (-1) := by
  cases ev with
  | fd d => simp [sockFdRead, RecvmsgEv.firstHdr, RecvmsgEv.delivered]
  | plain => simp [sockFdRead, RecvmsgEv.firstHdr, RecvmsgEv.delivered]
  | eof => simp [sockFdRead, RecvmsgEv.firstHdr, RecvmsgEv.delivered]
  | fail e =>
    have hd : (RecvmsgEv.fail e).delivered = -1 := rfl
    rw [hd, sockFdRead_fail]
    simp

/-- Descriptor 7 was received before, and the next call fails. -/
theorem sockFdRead_stale :
    ¬∀ (prior : Cmsg) (ev : RecvmsgEv), sockFdRead prior ev = some ev.delivered := by
  intro h
  exact absurd (h ⟨20, 1, 1, 7⟩ (.fail .eagain)) (by decide)

namespace Worker

variable {cfg : Setup} {s s' : Worker} {i : WorkerInput}

/-! ## Registered descriptors are open -/

/-- A registered descriptor is open. -/
def RegsOpen (s : Worker) : Prop := ∀ k, s.regs k ≠ none → s.files k ≠ none

theorem regsOpen_init (cfg : Setup) : (Worker.init cfg).RegsOpen := by
  intro k hk
  unfold Worker.init at hk ⊢
  simp only at hk ⊢
  by_cases hk0 : k = cfg.fd0
  · rw [if_pos hk0]
    exact Option.some_ne_none _
  · rw [Function.update_of_ne hk0] at hk
    exact absurd rfl hk

/-- A descriptor that is unregistered and closed. -/
theorem RegsOpen.close_epollDel (h : s.RegsOpen) (fd : Int) :
    ((s.epollDel fd).close cfg fd).RegsOpen := by
  intro k hk
  obtain ⟨r, hr⟩ := Option.ne_none_iff_exists'.1 hk
  obtain ⟨hne, hr⟩ := epollDel_regs_some (close_regs_some hr)
  have hopen := h k (by rw [hr]; exact Option.some_ne_none r)
  unfold close epollDel
  simp only
  rwa [Function.update_of_ne hne]

theorem RegsOpen.step (h : s.RegsOpen) (hstep : Worker.step cfg s i = some s') :
    s'.RegsOpen := by
  rcases step_cases hstep with ⟨ready, -, -, -, -, rfl⟩ |
    ⟨e, rest, prior, ev, addr, ctx, buf, -, -, -, hnew⟩ |
    ⟨e, rest, stack, evs, addr, -, -, -, -, hread⟩ | ⟨e, rest, -, -, -, -, -, hwrite⟩ |
    ⟨e, rest, -, -, -, -, -, rfl⟩
  · exact h
  · obtain ⟨clientfd, -, hcan, ⟨-, rfl⟩ | ⟨-, -, rfl⟩⟩ := newDescriptor_cases hnew
    · exact h
    · intro k hk
      have hfiles : ∀ k, s.files k ≠ none → (s.install ev).files k ≠ none := by
        intro k hk
        obtain ⟨file, hfile⟩ := Option.ne_none_iff_exists'.1 hk
        rw [install_files hcan hfile]
        exact Option.some_ne_none file
      unfold epollAdd at hk ⊢
      simp only [install_regs] at hk ⊢
      split at hk
      · rename_i hadd
        by_cases hkc : k = clientfd
        · rw [hkc]
          exact hadd.2.2.1
        · rw [Function.update_of_ne hkc] at hk
          exact hfiles k (h k hk)
      · exact hfiles k (h k hk)
  · obtain ⟨t, file, -, -, ⟨-, rfl⟩ | ⟨req, -, -, rfl⟩⟩ := readable_cases hread
    · exact h
    · intro k hk
      obtain ⟨r, hr⟩ := Option.ne_none_iff_exists'.1 hk
      rcases epollMod_regs_some hr with ⟨rfl, -, hreg⟩ | hr
      · exact h s.clientfd hreg
      · exact h k (by rw [hr]; exact Option.some_ne_none r)
  · obtain ⟨r, origin, -, rfl⟩ := writable_cases hwrite
    exact RegsOpen.close_epollDel h _
  · exact RegsOpen.close_epollDel h _

/-! ## The branch of a new descriptor -/

/-- In this step the loop receives on `fd[0]`, which comes to `ev`, and what it allocates would lie
at `addr`. -/
def Receives (cfg : Setup) (s : Worker) (i : WorkerInput) (prior : Cmsg) (ev : RecvmsgEv)
    (addr : UInt64) (ctx buf : Bytes) : Prop :=
  i = .message prior ev addr ctx buf ∧ (∃ e rest, s.batch = e :: rest ∧ dataFd e.data = cfg.fd0) ∧
    s.CanReceive cfg ev ∧ s.heap addr = none

/-- The objects, the registrations and the open descriptors are the same. -/
structure SameConns (s s' : Worker) : Prop where
  heap : s'.heap = s.heap
  regs : s'.regs = s.regs
  files : s'.files = s.files

/-- So is the local that the loop keeps between two events. -/
structure SameState (s s' : Worker) : Prop extends SameConns s s' where
  clientfd : s'.clientfd = s.clientfd

/-- A step that receives goes on: with an `http_tcp` allocated and registered for the descriptor
that was delivered, and with everything that `Same` speaks of unchanged if none was. -/
def Received (cfg : Setup) (Same : Worker → Worker → Prop) (s : Worker) (i : WorkerInput) : Prop :=
  ∀ prior ev addr ctx buf, Receives cfg s i prior ev addr ctx buf →
    ∃ s', step cfg s i = some s' ∧
      match ev with
      | .fd d =>
        s'.heap = Function.update s.heap addr (some (.tcp (httpTcpAlloc d ctx buf))) ∧
          s'.regs = Function.update s.regs d (some ⟨.epollin, addr⟩)
      | _ => Same s s'

/-- Each receive delivers a descriptor while `epollfd` is open, or fails with EAGAIN while the
control buffer is read as some `fd` that is `Fine`. -/
def Filtered (cfg : Setup) (Fine : Worker → Int → Prop) (s : Worker) (i : WorkerInput) : Prop :=
  ∀ prior ev addr ctx buf, Receives cfg s i prior ev addr ctx buf →
    (∃ d, ev = .fd d ∧ s.files cfg.epollfd = some .epoll) ∨
      (ev = .fail .eagain ∧ ∃ fd, prior.ReadAs fd ∧ Fine s fd)

section Branch

variable {rest : List Ready} {prior : Cmsg} {ev : RecvmsgEv} {addr : UInt64} {ctx buf : Bytes}

theorem Receives.step_eq (h : Receives cfg s i prior ev addr ctx buf) :
    ∃ rest, Worker.step cfg s i = s.newDescriptor cfg rest prior ev addr ctx buf := by
  obtain ⟨rfl, ⟨e, rest, hb, hfd⟩, -, -⟩ := h
  refine ⟨rest, ?_⟩
  unfold Worker.step
  rw [hb]
  simp only [hfd, if_true]

theorem newDescriptor_fd {d : Int} (hcan : s.CanReceive cfg (.fd d)) (hfresh : s.heap addr = none) :
    s.newDescriptor cfg rest prior (.fd d) addr ctx buf =
      some (Worker.epollAdd cfg { s.install (.fd d) with
        clientfd := d
        heap := Function.update s.heap addr (some (.tcp (httpTcpAlloc d ctx buf)))
        batch := rest } d ⟨.epollin, addr⟩) := by
  have hread : sockFdRead prior (.fd d) = some d := rfl
  have hret : ¬((RecvmsgEv.fd d).ret < 0 ∧ (RecvmsgEv.fd d).errno = .eagain) := by
    simp [RecvmsgEv.ret]
  have hopen : (s.install (.fd d)).files d ≠ none := by simp [install]
  unfold newDescriptor
  rw [if_pos hcan, hread]
  simp only [install_heap]
  rw [if_neg hret, if_neg (not_not_intro hfresh), if_neg hopen]

theorem newDescriptor_eagain (hcan : s.CanReceive cfg (.fail .eagain)) :
    s.newDescriptor cfg rest prior (.fail .eagain) addr ctx buf =
      (sockFdRead prior (.fail .eagain)).map fun fd => { s with clientfd := fd, batch := [] } := by
  unfold newDescriptor
  rw [if_pos hcan]
  cases sockFdRead prior (.fail .eagain) <;> rfl

/-- A delivered descriptor was closed before, so it is registered exactly when `epollfd` works. -/
theorem epollAdd_install_iff (h : s.RegsOpen) {d : Int} (hcan : s.CanReceive cfg (.fd d))
    (heap : UInt64 → Option Obj) (clientfd : Int) (reg : Registration) :
    (Worker.epollAdd cfg { s.install (.fd d) with
        clientfd := clientfd, heap := heap, batch := rest } d reg).regs =
        Function.update s.regs d (some reg) ↔
      s.files cfg.epollfd = some .epoll := by
  obtain ⟨-, -, hclosed⟩ := hcan
  have hreg : s.regs d = none := by
    by_contra hreg
    exact h d hreg hclosed
  unfold epollAdd
  simp only [install_regs]
  constructor
  · intro heq
    split at heq
    · rename_i hadd
      have hfiles := hadd.1
      unfold install at hfiles
      simp only at hfiles
      rwa [Function.update_of_ne (Ne.symm hadd.2.1)] at hfiles
    · have hd := congrFun heq d
      rw [Function.update_self, hreg] at hd
      cases hd
  · intro hepoll
    have hne : cfg.epollfd ≠ d := by
      rintro hd
      rw [hd, hclosed] at hepoll
      cases hepoll
    refine if_pos ⟨?_, hne.symm, ?_, hreg⟩
    · exact (Function.update_of_ne hne _ _).trans hepoll
    · simp [install]

/-- One step, for every reading of what must not change. -/
theorem received_iff_filtered {Same : Worker → Worker → Prop} {Fine : Worker → Int → Prop}
    (hsame : ∀ s s', Same s s' → s'.heap = s.heap)
    (hfine : ∀ (s : Worker) fd, Same s { s with clientfd := fd, batch := [] } ↔ Fine s fd)
    (h : s.RegsOpen) (i : WorkerInput) : Received cfg Same s i ↔ Filtered cfg Fine s i := by
  unfold Received Filtered
  refine forall_congr' fun prior => forall_congr' fun ev => forall_congr' fun addr =>
    forall_congr' fun ctx => forall_congr' fun buf => ?_
  refine forall_congr' fun hrec => ?_
  obtain ⟨rest, hstep⟩ := hrec.step_eq
  obtain ⟨-, -, hcan, hfresh⟩ := hrec
  rw [hstep]
  -- behind every other outcome an object is allocated
  have hother : (∀ d, ev ≠ .fd d) → ev ≠ .fail .eagain →
      ¬∃ s', s.newDescriptor cfg rest prior ev addr ctx buf = some s' ∧ Same s s' := by
    rintro - hev ⟨s', hs', hs⟩
    obtain ⟨fd, -, -, ⟨heagain, -⟩ | ⟨-, -, rfl⟩⟩ := newDescriptor_cases hs'
    · exact hev heagain
    · have hheap := congrFun (hsame _ _ hs) addr
      rw [hfresh] at hheap
      simp [epollAdd] at hheap
  cases ev with
  | fd d =>
    rw [newDescriptor_fd hcan hfresh]
    simp only [Option.some.injEq, exists_eq_left']
    rw [epollAdd_install_iff h hcan]
    simp [epollAdd]
  | plain => exact iff_of_false (hother (by simp) (by simp)) (by simp)
  | eof => exact iff_of_false (hother (by simp) (by simp)) (by simp)
  | fail e =>
    by_cases he : e = .eagain
    · subst he
      rw [newDescriptor_eagain hcan]
      simp [sockFdRead_fail, hfine]
    · exact iff_of_false (hother (by simp) (by simp [he])) (by simp [he])

end Branch

/-- **A receive leaves alone what it should exactly when it delivers, or fails with EAGAIN and reads
nothing old.** For every run of the worker: every receive on `fd[0]` has an `http_tcp` allocated and
registered for the descriptor delivered, or changes neither objects nor registrations nor the local
`clientfd`, if and only if each of them delivers a descriptor while `epollfd` is open, or fails with
EAGAIN while the control buffer is read as the value that `clientfd` has. Without the local, any
value may be read behind EAGAIN. -/
theorem received_iff (cfg : Setup) (is : List WorkerInput) :
    (Run.All (Worker.step cfg) (Received cfg SameState) (Worker.init cfg) is ↔
      Run.All (Worker.step cfg) (Filtered cfg fun s fd => fd = s.clientfd) (Worker.init cfg) is) ∧
    (Run.All (Worker.step cfg) (Received cfg SameConns) (Worker.init cfg) is ↔
      Run.All (Worker.step cfg) (Filtered cfg fun _ _ => True) (Worker.init cfg) is) := by
  have hstep := fun (s : Worker) (i : WorkerInput) (s' : Worker) (h : s.RegsOpen)
    (hs : Worker.step cfg s i = some s') => RegsOpen.step h hs
  constructor
  · refine Run.all_congr hstep (fun s i h => received_iff_filtered ?_ ?_ h i) is (regsOpen_init cfg)
    · exact fun s s' h => h.heap
    · exact fun s fd => ⟨fun h => h.clientfd, fun h => ⟨⟨rfl, rfl, rfl⟩, h⟩⟩
  · refine Run.all_congr hstep (fun s i h => received_iff_filtered ?_ ?_ h i) is (regsOpen_init cfg)
    · exact fun s s' h => h.heap
    · exact fun s fd => ⟨fun _ => trivial, fun _ => ⟨rfl, rfl, rfl⟩⟩

/-- The end of the stream: descriptor -1 is to be made non-blocking, and the worker exits. -/
theorem received_eof :
    ¬∀ (cfg : Setup) (is : List WorkerInput),
      Run.All (Worker.step cfg) (Received cfg SameConns) (Worker.init cfg) is := by
  intro h
  have hall := h sampleSetup ([.wait [⟨3, onlyIn, 3⟩]] ++ [.message ⟨0, 0, 0, 0⟩ .eof 4096 [] []])
  have hview : (Run.exec (Worker.step sampleSetup) (Worker.init sampleSetup)
      [.wait [⟨3, onlyIn, 3⟩]]).map (fun s => (s.batch, s.files 3, s.heap 4096)) =
        some ([⟨3, onlyIn, 3⟩], some .handoff, none) := by decide +kernel
  obtain ⟨s, hs, hsview⟩ := Option.map_eq_some_iff.1 hview
  simp only [Prod.mk.injEq] at hsview
  obtain ⟨hbatch, hfile, hheap⟩ := hsview
  have hrec : Receives sampleSetup s (.message ⟨0, 0, 0, 0⟩ .eof 4096 [] []) ⟨0, 0, 0, 0⟩ .eof 4096
      [] [] := ⟨rfl, ⟨_, _, hbatch, by decide⟩, hfile, hheap⟩
  obtain ⟨s', hstep, hsame⟩ := hall.last hs _ _ _ _ _ hrec
  obtain ⟨rest, hnew⟩ := hrec.step_eq
  rw [hnew] at hstep
  obtain ⟨fd, -, -, ⟨heagain, -⟩ | ⟨-, -, rfl⟩⟩ := newDescriptor_cases hstep
  · cases heagain
  · have hnone := congrFun hsame.heap 4096
    rw [hheap] at hnone
    simp [epollAdd] at hnone

end Worker

end HttpCallback
