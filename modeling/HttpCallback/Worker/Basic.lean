import Mathlib.Logic.Function.Basic
import HttpCallback.Lib.Run
import HttpCallback.Recv.Basic

/-!
# The worker's event loop

`jump_task_pool_obj` as a step function. A state is what the loop works on between two events: the
entries of `events` still to be processed, the local `clientfd`, the descriptor table, the interest
list of `epollfd` and the heap. An input is what the system does in the next step: the events that
`Epoll_wait` reports, or the results of the calls that the branch at hand makes. A step that exits,
crashes or never returns has no successor.

`epoll_data_t` is a union of 64 bits: the loop stores a pointer in it and reads its low half as a
descriptor (`dataFd`).
-/

namespace HttpCallback

open CString

/-! ## Data -/

/-- `data.fd` of an `epoll_data_t`. -/
def dataFd (data : UInt64) : Int := data.toUInt32.toInt32.toInt

/-- `EPOLLEVENTS`. -/
def epollEvents : Nat := 100

/-- What a descriptor of the worker refers to. Connections are numbered as they arrive; `other` is
whatever else the process has open. -/
inductive File
  | handoff
  | epoll
  | conn (id : Nat)
  | other (id : Nat)
  deriving Repr, DecidableEq

inductive Interest
  | epollin
  | epollout
  deriving Repr, DecidableEq

/-- The events reported on a descriptor. -/
structure Events where
  epollin : Bool
  epollout : Bool
  epollerr : Bool
  epollhup : Bool
  deriving Repr, DecidableEq

/-- EPOLLIN and EPOLLOUT are reported to those that asked for them, EPOLLERR and EPOLLHUP to all. -/
def Events.allowed (ev : Events) : Interest → Bool
  | .epollin => !ev.epollout && (ev.epollin || ev.epollerr || ev.epollhup)
  | .epollout => !ev.epollin && (ev.epollout || ev.epollerr || ev.epollhup)

/-- An entry of the interest list. -/
structure Registration where
  events : Interest
  data : UInt64
  deriving Repr, DecidableEq

/-- An entry of the array `events`; `key` is the descriptor it was registered for, which the loop
does not see. -/
structure Ready where
  key : Int
  events : Events
  data : UInt64
  deriving Repr, DecidableEq

/-- An object that an `epoll_data_t` can point to. A request remembers the file its bytes were
received from. -/
inductive Obj
  | tcp (t : HttpTcp)
  | req (r : HttpRequest) (origin : File)
  deriving Repr, DecidableEq

/-- One pass of the EPOLLOUT branch: the arguments of `http_module_handler_response`, what its
descriptor refers to, and the arguments of `EPOLL_CTL_DEL` and `close`. -/
structure Answer where
  req : UInt64
  origin : File
  clientfd : Int
  peer : Option File
  deleted : Int
  closed : Int
  deriving Repr, DecidableEq

/-- What the worker starts with: its two descriptors, the union registered for the first of them,
the uninitialised `clientfd`, and what else is open. -/
structure Setup where
  fd0 : Int
  epollfd : Int
  data0 : UInt64
  clientfd : Int
  inherited : Int → Option Nat
  data0_fd : dataFd data0 = fd0
  ne : fd0 ≠ epollfd

structure Worker where
  clientfd : Int
  batch : List Ready
  files : Int → Option File
  regs : Int → Option Registration
  heap : UInt64 → Option Obj
  conns : Nat
  answers : List Answer

inductive WorkerInput
  | wait (ready : List Ready)
  | message (prior : Cmsg) (ev : RecvmsgEv) (addr : UInt64) (ctx buf : Bytes)
  | readable (stack : Mem) (evs : List ReadEv) (addr : UInt64)
  | writable
  | hangup

namespace Worker

def init (cfg : Setup) : Worker where
  clientfd := cfg.clientfd
  batch := []
  files := fun fd =>
    if fd = cfg.fd0 then some .handoff
    else if fd = cfg.epollfd then some .epoll
    else (cfg.inherited fd).map .other
  regs := Function.update (fun _ => none) cfg.fd0 (some ⟨.epollin, cfg.data0⟩)
  heap := fun _ => none
  conns := 0
  answers := []

/-! ## System calls -/

variable (cfg : Setup) (s : Worker)

/-- `EPOLL_CTL_ADD`: fails on a descriptor that is not open, is registered, or is `epollfd`. -/
def epollAdd (fd : Int) (reg : Registration) : Worker :=
  { s with
    regs :=
      if s.files cfg.epollfd = some .epoll ∧ fd ≠ cfg.epollfd ∧ s.files fd ≠ none ∧
          s.regs fd = none then
        Function.update s.regs fd (some reg)
      else s.regs }

/-- `EPOLL_CTL_MOD`: fails on a descriptor that is not registered. -/
def epollMod (fd : Int) (reg : Registration) : Worker :=
  { s with regs := if s.regs fd = none then s.regs else Function.update s.regs fd (some reg) }

/-- `EPOLL_CTL_DEL`. -/
def epollDel (fd : Int) : Worker := { s with regs := Function.update s.regs fd none }

/-- `close`; with `epollfd` its interest list is gone. -/
def close (fd : Int) : Worker :=
  { s with
    files := Function.update s.files fd none
    regs := if fd = cfg.epollfd ∧ s.files fd = some .epoll then fun _ => none else s.regs }

/-- The descriptor that a message brings, installed at a free number. -/
def install (ev : RecvmsgEv) : Worker :=
  match ev with
  | .fd d =>
    { s with files := Function.update s.files d (some (.conn s.conns)), conns := s.conns + 1 }
  | _ => s

/-- What `recvmsg` on `fd[0]` can come to: on a closed descriptor it fails. -/
def CanReceive (ev : RecvmsgEv) : Prop :=
  match ev with
  | .fd d => s.files cfg.fd0 = some .handoff ∧ 0 ≤ d ∧ s.files d = none
  | .fail .other => True
  | _ => s.files cfg.fd0 = some .handoff

instance (ev : RecvmsgEv) : Decidable (s.CanReceive cfg ev) := by
  unfold CanReceive
  split <;> infer_instance

/-- `e` is an entry that `epoll_wait` can report. -/
def Reports (e : Ready) : Prop :=
  ∃ r ∈ s.regs e.key, r.data = e.data ∧ e.events.allowed r.events = true

instance (e : Ready) : Decidable (s.Reports e) := by
  unfold Reports
  cases s.regs e.key with
  | none => exact isFalse (by simp)
  | some r => exact decidable_of_iff (r.data = e.data ∧ e.events.allowed r.events = true) (by simp)

/-! ## The branches -/

/-- `http_tcp_alloc(fd)`; `ctx` and `buf` are the strings that the two blocks hold before. -/
def httpTcpAlloc (fd : Int) (ctx buf : Bytes) : HttpTcp := ⟨fd, ctx, buf⟩

/-- `fd_set == fd[0]`: a descriptor is to be received. -/
def newDescriptor (rest : List Ready) (prior : Cmsg) (ev : RecvmsgEv) (addr : UInt64)
    (ctx buf : Bytes) : Option Worker :=
  if s.CanReceive cfg ev then
    match sockFdRead prior ev with
    | none => none
    | some clientfd =>
      let s := { s.install ev with clientfd := clientfd }
      if ev.ret < 0 ∧ ev.errno = .eagain then some { s with batch := [] }
      else if s.heap addr ≠ none then none
      else
        let s := { s with
          heap := Function.update s.heap addr (some (.tcp (httpTcpAlloc clientfd ctx buf)))
          batch := rest }
        -- `Setnoblock` exits on a descriptor that is not open
        if s.files clientfd = none then none
        -- `data.ptr` is stored behind `data.fd` and takes the whole union
        else some (s.epollAdd cfg clientfd ⟨.epollin, addr⟩)
  else none

/-- `events & EPOLLIN`: the data is taken for a pointer to an `http_tcp`. -/
def readable (e : Ready) (rest : List Ready) (stack : Mem) (evs : List ReadEv) (addr : UInt64) :
    Option Worker :=
  match s.heap e.data with
  | some (.tcp t) =>
    match s.files t.fd with
    | none => none
    | some file =>
      let c := callback stack t readCount evs
      let s := { s with heap := Function.update s.heap e.data (some (.tcp c.tcp)) }
      match c.returned with
      | none => none
      | some none => some { s with batch := [] }
      | some (some req) =>
        if s.heap addr ≠ none then none
        else
          let s := { s with
            heap := Function.update s.heap addr (some (.req req file))
            batch := rest }
          some (s.epollMod s.clientfd ⟨.epollout, addr⟩)
  | _ => none

/-- `events & EPOLLOUT`: the data is taken for a pointer to an `http_request`, and its low half for
the descriptor. -/
def writable (e : Ready) (rest : List Ready) : Option Worker :=
  match s.heap e.data with
  | some (.req _ origin) =>
    let fd := dataFd e.data
    let answer : Answer := ⟨e.data, origin, fd, s.files fd, fd, fd⟩
    some (({ s with answers := s.answers ++ [answer], batch := rest }.epollDel fd).close cfg fd)
  | _ => none

/-- Neither: `fd[0]` is unregistered and closed. -/
def hangup (rest : List Ready) : Worker :=
  ({ s with batch := rest }.epollDel cfg.fd0).close cfg cfg.fd0

def step (s : Worker) (i : WorkerInput) : Option Worker :=
  match s.batch with
  | [] =>
    match i with
    | .wait ready =>
      if s.files cfg.epollfd = some .epoll ∧ ready.length ≤ epollEvents ∧
          (ready.map (·.key)).Nodup ∧ ∀ e ∈ ready, s.Reports e then
        some { s with batch := ready }
      else none
    | _ => none
  | e :: rest =>
    if dataFd e.data = cfg.fd0 then
      match i with
      | .message prior ev addr ctx buf => s.newDescriptor cfg rest prior ev addr ctx buf
      | _ => none
    else if e.events.epollin then
      match i with
      | .readable stack evs addr => s.readable e rest stack evs addr
      | _ => none
    else if e.events.epollout then
      match i with
      | .writable => s.writable cfg e rest
      | _ => none
    else
      match i with
      | .hangup => some (s.hangup cfg rest)
      | _ => none

/-! ## Sample inputs -/

/-- A worker whose descriptors are 3 and 4. -/
def sampleSetup : Setup := ⟨3, 4, 3, 0, fun _ => none, by decide, by decide⟩

def onlyIn : Events := ⟨true, false, false, false⟩

def onlyOut : Events := ⟨false, true, false, false⟩

/-- The connection with descriptor `fd` arrives; its `http_tcp` is allocated at `addr`. -/
def sampleArrival (fd : Int) (addr : UInt64) : List WorkerInput :=
  [.wait [⟨3, onlyIn, 3⟩], .message ⟨0, 0, 0, 0⟩ (.fd fd) addr [] []]

/-- The request `GET / H` and a body are read, `READ_COUNT` bytes in one chunk; the request is
allocated at `addr`. -/
def sampleRequest (addr : UInt64) : WorkerInput :=
  .readable (fun _ => 0)
    [.data ([71, 69, 84, 32, 47, 32, 72, 13, 10, 13, 10] ++ List.replicate 89 120)] addr

/-! ## What the calls change -/

section Calls

variable {cfg : Setup} {s : Worker} {fd k : Int} {r reg : Registration} {ev : RecvmsgEv}

theorem close_regs_some (h : (s.close cfg fd).regs k = some r) : s.regs k = some r := by
  unfold close at h
  simp only at h
  split at h
  · cases h
  · exact h

theorem epollDel_regs_some (h : (s.epollDel fd).regs k = some r) : k ≠ fd ∧ s.regs k = some r := by
  unfold epollDel at h
  simp only at h
  by_cases hk : k = fd
  · subst hk
    rw [Function.update_self] at h
    cases h
  · rw [Function.update_of_ne hk] at h
    exact ⟨hk, h⟩

theorem update_some {α β : Type*} [DecidableEq α] {f : α → Option β} {a b : α} {x y : β}
    (h : Function.update f b (some x) a = some y) : (a = b ∧ y = x) ∨ f a = some y := by
  by_cases hab : a = b
  · subst hab
    rw [Function.update_self] at h
    exact Or.inl ⟨rfl, (Option.some.inj h).symm⟩
  · rw [Function.update_of_ne hab] at h
    exact Or.inr h

theorem epollAdd_regs_some (h : (s.epollAdd cfg fd reg).regs k = some r) :
    (k = fd ∧ r = reg) ∨ s.regs k = some r := by
  unfold epollAdd at h
  simp only at h
  split at h
  · exact update_some h
  · exact Or.inr h

theorem epollMod_regs_some (h : (s.epollMod fd reg).regs k = some r) :
    (k = fd ∧ r = reg ∧ s.regs fd ≠ none) ∨ s.regs k = some r := by
  unfold epollMod at h
  simp only at h
  split at h
  · exact Or.inr h
  · rename_i hreg
    rcases update_some h with ⟨hk, hr⟩ | h
    · exact Or.inl ⟨hk, hr, hreg⟩
    · exact Or.inr h

@[simp] theorem install_regs (s : Worker) (ev : RecvmsgEv) : (s.install ev).regs = s.regs := by
  cases ev <;> rfl

@[simp] theorem install_heap (s : Worker) (ev : RecvmsgEv) : (s.install ev).heap = s.heap := by
  cases ev <;> rfl

@[simp] theorem install_answers (s : Worker) (ev : RecvmsgEv) :
    (s.install ev).answers = s.answers := by
  cases ev <;> rfl

/-- A descriptor that is open stays what it is: the kernel installs the new one at a free number. -/
theorem install_files (hcan : s.CanReceive cfg ev) {file : File}
    (h : s.files k = some file) : (s.install ev).files k = some file := by
  cases ev with
  | fd d =>
    have hne : k ≠ d := by
      rintro rfl
      rw [hcan.2.2] at h
      cases h
    exact (Function.update_of_ne hne _ _).trans h
  | plain => exact h
  | eof => exact h
  | fail e => exact h

end Calls

/-! ## What a step does -/

section Cases

variable {cfg : Setup} {s s' : Worker} {e : Ready} {rest : List Ready}

theorem mem_batch (hb : s.batch = e :: rest) : ∀ x ∈ rest, x ∈ s.batch :=
  fun _ hx => hb ▸ List.mem_cons_of_mem e hx

/-- The branches of a step. -/
theorem step_cases {i : WorkerInput} (h : step cfg s i = some s') :
    (∃ ready, i = .wait ready ∧ s.batch = [] ∧ (ready.map (·.key)).Nodup ∧
      (∀ e ∈ ready, s.Reports e) ∧ s' = { s with batch := ready }) ∨
    (∃ e rest prior ev addr ctx buf, i = .message prior ev addr ctx buf ∧ s.batch = e :: rest ∧
      dataFd e.data = cfg.fd0 ∧ s.newDescriptor cfg rest prior ev addr ctx buf = some s') ∨
    (∃ e rest stack evs addr, i = .readable stack evs addr ∧ s.batch = e :: rest ∧
      dataFd e.data ≠ cfg.fd0 ∧ e.events.epollin = true ∧
      s.readable e rest stack evs addr = some s') ∨
    (∃ e rest, i = .writable ∧ s.batch = e :: rest ∧ dataFd e.data ≠ cfg.fd0 ∧
      e.events.epollin = false ∧ e.events.epollout = true ∧ s.writable cfg e rest = some s') ∨
    (∃ e rest, i = .hangup ∧ s.batch = e :: rest ∧ dataFd e.data ≠ cfg.fd0 ∧
      e.events.epollin = false ∧ e.events.epollout = false ∧ s' = s.hangup cfg rest) := by
  unfold step at h
  split at h
  · rename_i hb
    split at h
    · split at h
      · rename_i ready hw
        exact Or.inl ⟨ready, rfl, hb, hw.2.2.1, hw.2.2.2, (Option.some.inj h).symm⟩
      · cases h
    · cases h
  · rename_i e rest hb
    split at h
    · rename_i hfd
      split at h
      · exact Or.inr (Or.inl ⟨e, rest, _, _, _, _, _, rfl, hb, hfd, h⟩)
      · cases h
    · rename_i hfd
      split at h
      · rename_i hin
        split at h
        · exact Or.inr (Or.inr (Or.inl ⟨e, rest, _, _, _, rfl, hb, hfd, hin, h⟩))
        · cases h
      · rename_i hin
        split at h
        · rename_i hout
          split at h
          · exact Or.inr (Or.inr (Or.inr (Or.inl
              ⟨e, rest, rfl, hb, hfd, Bool.eq_false_iff.2 hin, hout, h⟩)))
          · cases h
        · rename_i hout
          split at h
          · exact Or.inr (Or.inr (Or.inr (Or.inr ⟨e, rest, rfl, hb, hfd,
              Bool.eq_false_iff.2 hin, Bool.eq_false_iff.2 hout, (Option.some.inj h).symm⟩)))
          · cases h

/-- Receiving ends with EAGAIN, or with an object allocated and added for the value in `clientfd`.
-/
theorem newDescriptor_cases {prior : Cmsg} {ev : RecvmsgEv} {addr : UInt64} {ctx buf : Bytes}
    (h : s.newDescriptor cfg rest prior ev addr ctx buf = some s') :
    ∃ clientfd, sockFdRead prior ev = some clientfd ∧ s.CanReceive cfg ev ∧
      ((ev = .fail .eagain ∧ s' = { s with clientfd := clientfd, batch := [] }) ∨
        (ev ≠ .fail .eagain ∧ s.heap addr = none ∧ s' = Worker.epollAdd cfg { s.install ev with
            clientfd := clientfd
            heap := Function.update s.heap addr (some (.tcp (httpTcpAlloc clientfd ctx buf)))
            batch := rest } clientfd ⟨.epollin, addr⟩)) := by
  unfold newDescriptor at h
  split at h
  · rename_i hcan
    cases hv : sockFdRead prior ev with
    | none => rw [hv] at h; cases h
    | some clientfd =>
      rw [hv] at h
      simp only at h
      refine ⟨clientfd, rfl, hcan, ?_⟩
      split at h
      · rename_i hagain
        apply Or.inl
        cases ev with
        | fail err => exact ⟨congrArg _ hagain.2, (Option.some.inj h).symm⟩
        | fd d => exact absurd hagain.1 (by simp [RecvmsgEv.ret])
        | plain => exact absurd hagain.1 (by simp [RecvmsgEv.ret])
        | eof => exact absurd hagain.1 (by simp [RecvmsgEv.ret])
      · rename_i hgo
        rw [install_heap] at h
        split at h
        · cases h
        · rename_i hnone
          split at h
          · cases h
          · refine Or.inr ⟨?_, not_not.1 hnone, (Option.some.inj h).symm⟩
            rintro rfl
            exact hgo ⟨by decide, rfl⟩
  · cases h

/-- A readable connection: `callback` returns NULL, or a request that is stored and registered for
the value in `clientfd`. -/
theorem readable_cases {stack : Mem} {evs : List ReadEv} {addr : UInt64}
    (h : s.readable e rest stack evs addr = some s') :
    ∃ t file, s.heap e.data = some (.tcp t) ∧ s.files t.fd = some file ∧
      (((callback stack t readCount evs).returned = some none ∧ s' = { s with
          heap := Function.update s.heap e.data
            (some (.tcp (callback stack t readCount evs).tcp))
          batch := [] }) ∨
        ∃ req, (callback stack t readCount evs).returned = some (some req) ∧
          s.heap addr = none ∧ s' = Worker.epollMod { s with
            heap := Function.update (Function.update s.heap e.data
              (some (.tcp (callback stack t readCount evs).tcp))) addr (some (.req req file))
            batch := rest } s.clientfd ⟨.epollout, addr⟩) := by
  unfold readable at h
  split at h
  · rename_i t ht
    split at h
    · cases h
    · rename_i file hfile
      refine ⟨t, file, ht, hfile, ?_⟩
      simp only at h
      split at h
      · cases h
      · rename_i hret
        exact Or.inl ⟨hret, (Option.some.inj h).symm⟩
      · rename_i req hret
        split at h
        · cases h
        · rename_i hnone
          refine Or.inr ⟨req, hret, ?_, (Option.some.inj h).symm⟩
          rw [not_not] at hnone
          have hne : addr ≠ e.data := by
            rintro rfl
            rw [Function.update_self] at hnone
            cases hnone
          rwa [Function.update_of_ne hne] at hnone
  · cases h

theorem writable_cases (h : s.writable cfg e rest = some s') :
    ∃ r origin, s.heap e.data = some (.req r origin) ∧
      s' = Worker.close cfg (Worker.epollDel { s with
        answers := s.answers ++ [⟨e.data, origin, dataFd e.data, s.files (dataFd e.data),
          dataFd e.data, dataFd e.data⟩]
        batch := rest } (dataFd e.data)) (dataFd e.data) := by
  unfold writable at h
  split at h
  · rename_i r origin hr
    exact ⟨r, origin, hr, (Option.some.inj h).symm⟩
  · cases h

end Cases

end Worker

end HttpCallback
