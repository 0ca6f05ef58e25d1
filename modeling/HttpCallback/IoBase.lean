import HttpCallback.Lib.Run
import HttpCallback.Request.Results

/-!
# The other event loop

`do_epoll` is the loop of a thread that is given a descriptor. It never takes a connection, as the
branch that would is commented out, and `http_module_handler_request` asks `accept_request` about an
empty string. What the loop does for ever is therefore known (`idle`): each report of a readable
descriptor costs an `info_t` that says 500, and nothing is read, written or closed.
-/

namespace HttpCallback

open CString

/-! ## Texts that are no request -/

/-- A text whose first byte is that of no served method. -/
theorem not_served_of_head {s : Bytes} {c : UInt8} (stale : Mem) (hc : (s ++ [0]).head? = some c)
    (hg : tolower c ≠ 103) (hp : tolower c ≠ 112) : ¬Served (splitRequest stale s).method := by
  have hfirst : stale.write 0 (s ++ [0]) 0 = c := by
    obtain ⟨x, r, hs⟩ := List.exists_cons_of_ne_nil (List.append_ne_nil_of_right_ne_nil s
      (List.cons_ne_nil (0 : UInt8) []))
    rw [hs] at hc ⊢
    cases hc
    rfl
  have hmethod : (splitRequest stale s).method = [] ∨
      ∃ w, (splitRequest stale s).method = c :: w := by
    unfold splitRequest partsize
    simp only
    rw [copyPart]
    split
    · exact Or.inl rfl
    · simp only [hfirst, cstr, List.cons_append]
      by_cases hzero : c = 0
      · subst hzero
        exact Or.inl rfl
      · refine Or.inr ⟨_, List.takeWhile_cons_of_pos ?_⟩
        simpa using hzero
  rcases hmethod with hnil | ⟨w, hcons⟩
  · rw [hnil]
    decide
  · rw [hcons]
    rintro (hget | hpost)
    · have hhead := congrArg List.head? (beq_iff_eq.1 hget)
      exact hg (Option.some.inj hhead)
    · have hhead := congrArg List.head? (beq_iff_eq.1 hpost)
      exact hp (Option.some.inj hhead)

/-- A request whose method is not served leaves the array as it was. -/
theorem acceptRequest_untouched {stale : Mem} {fs : FileSystem} {s : Bytes}
    (h : ¬Served (splitRequest stale s).method) : (acceptRequest stale fs s).localPath = s := by
  unfold acceptRequest
  simp only
  rw [if_pos ((not_served_iff _).2 h)]

/-- `geterror_type(req)`. -/
def geterrorType (stale : Mem) (fs : FileSystem) (req : HttpRequest) : HttpCode :=
  (acceptRequest stale fs req.url).code

/-- It takes the url for a method. -/
theorem geterrorType_slash (stale : Mem) (fs : FileSystem) {req : HttpRequest} {path : Bytes}
    (h : req.url = slash :: path) : geterrorType stale fs req = .errorMethod := by
  refine acceptRequest_not_served (not_served_of_head stale (c := slash) ?_ ?_ ?_)
  · rw [h]
    rfl
  · decide
  · decide

/-! ## The loop -/

/-- `info_t`. -/
structure InfoT where
  errtype : HttpCode
  filename : Bytes
  deriving Repr, DecidableEq

/-- `http_module_handler_request`. -/
def httpModuleHandlerRequest (stale : Mem) (fs : FileSystem) : InfoT :=
  ⟨(acceptRequest stale fs []).code, (acceptRequest stale fs []).localPath⟩

/-- The events that a descriptor is watched for, and those reported of it. -/
structure IoEvents where
  epollin : Bool
  epollout : Bool
  deriving Repr, DecidableEq

inductive IoCall
  | write (fd : Int) (bs : Bytes)
  | close (fd : Int)
  deriving Repr, DecidableEq

/-- `MAXSIZE`. -/
def maxsize : Nat := 1024

/-- The loop: what `epollfd` watches, the array `buf`, the objects from `malloc` that are still
there, and the calls made on descriptors. -/
structure IoBase where
  interest : Int → Option IoEvents
  buf : Bytes
  infos : List InfoT
  calls : List IoCall

/-- A reported event, the memory that `accept_request` finds, and what a `write` would return. -/
structure IoEvent where
  fd : Int
  events : IoEvents
  stale : Mem
  fs : FileSystem
  nwrite : Int

namespace IoBase

/-- `EPOLL_CTL_ADD`, `EPOLL_CTL_MOD` and `EPOLL_CTL_DEL`; a failure changes nothing. -/
def addEvent (s : IoBase) (fd : Int) (state : IoEvents) : IoBase :=
  if s.interest fd = none then
    { s with interest := Function.update s.interest fd (some state) }
  else s

def modifyEvent (s : IoBase) (fd : Int) (state : IoEvents) : IoBase :=
  if s.interest fd = none then s
  else { s with interest := Function.update s.interest fd (some state) }

def deleteEvent (s : IoBase) (fd : Int) : IoBase :=
  { s with interest := Function.update s.interest fd none }

def doRead (s : IoBase) (ev : IoEvent) : IoBase :=
  { s with infos := s.infos ++ [httpModuleHandlerRequest ev.stale ev.fs] }

def doWrite (s : IoBase) (ev : IoEvent) : IoBase :=
  let s := { s with calls := s.calls ++ [IoCall.write ev.fd (cstr s.buf)] }
  let s :=
    if ev.nwrite = -1 then
      { s with calls := s.calls ++ [IoCall.close ev.fd] }.deleteEvent ev.fd
    else s.modifyEvent ev.fd ⟨true, false⟩
  { s with buf := List.replicate maxsize 0 }

/-- `handle_events`: the events of one `epoll_wait`. -/
def handleEvents (s : IoBase) (evs : List IoEvent) : IoBase :=
  evs.foldl (fun s ev =>
    if ev.events.epollin then s.doRead ev
    else if ev.events.epollout then s.doWrite ev
    else s) s

/-- The loop behind the `add_event` of the descriptors that threads were given. -/
def start (fds : List Int) : IoBase :=
  fds.foldl (fun s fd => s.addEvent fd ⟨true, false⟩)
    ⟨fun _ => none, List.replicate maxsize 0, [], []⟩

def step (s : IoBase) (evs : List IoEvent) : Option IoBase := some (s.handleEvents evs)

/-- `epoll_wait` reports only events that a descriptor is watched for. -/
def Reported (s : IoBase) (evs : List IoEvent) : Prop :=
  ∀ ev ∈ evs, ∃ state, s.interest ev.fd = some state ∧
    (ev.events.epollin = true → state.epollin = true) ∧
    (ev.events.epollout = true → state.epollout = true)

/-! ## What it comes to -/

theorem httpModuleHandlerRequest_eq (stale : Mem) (fs : FileSystem) :
    httpModuleHandlerRequest stale fs = ⟨.errorMethod, []⟩ := by
  have hno : ¬Served (splitRequest stale []).method :=
    not_served_of_head stale (c := 0) rfl (by decide) (by decide)
  rw [httpModuleHandlerRequest, acceptRequest_not_served hno, acceptRequest_untouched hno]

/-- `n` descriptors have been reported readable, and nothing else has happened. -/
structure Idle (s₀ s : IoBase) (n : Nat) : Prop where
  interest : s.interest = s₀.interest
  buf : s.buf = s₀.buf
  calls : s.calls = []
  infos : s.infos = List.replicate n ⟨.errorMethod, []⟩

variable {s₀ s s' : IoBase} {n : Nat}

/-- Nothing is watched for writing. -/
def ReadsOnly (s : IoBase) : Prop := ∀ fd state, s.interest fd = some state → state.epollout = false

theorem start_idle (fds : List Int) : (start fds).ReadsOnly ∧ (start fds).Idle (start fds) 0 := by
  have hadd : ∀ (fds : List Int) (s : IoBase), s.ReadsOnly → s.calls = [] → s.infos = [] →
      (fds.foldl (fun s fd => s.addEvent fd ⟨true, false⟩) s).ReadsOnly ∧
        (fds.foldl (fun s fd => s.addEvent fd ⟨true, false⟩) s).calls = [] ∧
        (fds.foldl (fun s fd => s.addEvent fd ⟨true, false⟩) s).infos = [] := by
    intro fds
    induction fds with
    | nil => exact fun s hs hcalls hinfos => ⟨hs, hcalls, hinfos⟩
    | cons fd fds ih =>
      intro s hs hcalls hinfos
      rw [List.foldl_cons, addEvent]
      split
      · refine ih _ (fun fd' state h => ?_) hcalls hinfos
        by_cases heq : fd' = fd
        · subst heq
          simp only [Function.update_self] at h
          cases h
          rfl
        · simp only [Function.update_of_ne heq] at h
          exact hs fd' state h
      · exact ih s hs hcalls hinfos
  obtain ⟨hreads, hcalls, hinfos⟩ :=
    hadd fds ⟨fun _ => none, List.replicate maxsize 0, [], []⟩ nofun rfl rfl
  exact ⟨hreads, rfl, rfl, hcalls, hinfos⟩

/-- The events of one wait. -/
theorem Idle.handleEvents {evs : List IoEvent} (hreads : s₀.ReadsOnly) (h : s₀.Idle s n)
    (hevs : s.Reported evs) :
    s₀.Idle (s.handleEvents evs) (n + evs.countP (·.events.epollin)) := by
  induction evs generalizing s n with
  | nil => exact h
  | cons ev evs ih =>
    obtain ⟨⟨state, hstate, hin, hout⟩, hrest⟩ := List.forall_mem_cons.1 hevs
    have hnot : ev.events.epollout = false := by
      rw [h.interest] at hstate
      rw [Bool.eq_false_iff]
      intro hyes
      have hwatched := hout hyes
      rw [hreads _ _ hstate] at hwatched
      cases hwatched
    rw [IoBase.handleEvents, List.foldl_cons, hnot, List.countP_cons]
    cases hepollin : ev.events.epollin with
    | true =>
      have hread : s₀.Idle (s.doRead ev) (n + 1) := by
        refine ⟨h.interest, h.buf, h.calls, ?_⟩
        rw [doRead, h.infos, httpModuleHandlerRequest_eq, List.replicate_succ']
      have hall := ih hread hrest
      rw [Nat.add_right_comm] at hall
      exact hall
    | false => exact ih h hrest

theorem Idle.run {batches : List (List IoEvent)} (hreads : s₀.ReadsOnly) (h : s₀.Idle s n)
    (hall : Run.All step Reported s batches) (hrun : Run.exec step s batches = some s') :
    s₀.Idle s' (n + batches.flatten.countP (·.events.epollin)) := by
  induction batches generalizing s n with
  | nil =>
    cases hrun
    exact h
  | cons evs batches ih =>
    obtain ⟨t, ht, hrest⟩ := Run.exec_cons hrun
    cases ht
    have hnext := ih (h.handleEvents hreads hall.1) (hall.2 _ rfl) hrest
    rwa [Nat.add_assoc, ← List.countP_append, ← List.flatten_cons] at hnext

/-- **The loop does nothing.** For all descriptors that it may be given, and whatever is reported of
them, as long as they are watched for it: after any number of waits the same descriptors are watched
for the same events, nothing has been written or closed, and there is one object for each report of
a readable descriptor, which says 500 and has no name. -/
theorem idle (fds : List Int) (batches : List (List IoEvent))
    (hall : Run.All step Reported (start fds) batches) (s : IoBase)
    (hrun : Run.exec step (start fds) batches = some s) :
    (start fds).Idle s (batches.flatten.countP (·.events.epollin)) := by
  obtain ⟨hreads, hidle⟩ := start_idle fds
  have hend := hidle.run hreads hall hrun
  rwa [Nat.zero_add] at hend

/-- Descriptor 5, reported twice. -/
theorem idle_twice : ∃ s, (start [5]).Idle s 2 := by
  have hall : Run.All step Reported (start [5])
      [[⟨5, ⟨true, false⟩, fun _ => 0, fun _ => none, 0⟩],
        [⟨5, ⟨true, false⟩, fun _ => 7, fun _ => none, 0⟩]] := by
    refine ⟨List.forall_mem_singleton.2 ⟨_, rfl, id, id⟩, fun s hs => ?_⟩
    cases hs
    exact ⟨List.forall_mem_singleton.2 ⟨_, rfl, id, id⟩, fun _ _ => trivial⟩
  exact ⟨_, idle [5] _ hall _ rfl⟩

end IoBase

end HttpCallback
