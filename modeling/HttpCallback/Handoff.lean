import HttpCallback.Lib.Run
import HttpCallback.Socket

/-!
# Handing connections to the workers

The accept loop of `start`: `Accept` until it answers 0, and for each descriptor a loop around
`Sock_fd_write` that sends once in its condition and, after a failure, once more in its body. The
messages go through one socket pair, and whichever worker receives one registers its descriptor.

A connection is its position in the list of accepted ones, so that two messages for one descriptor
can be told from messages for two. `handoff_once_iff` gives the runs on which every connection is
handed over exactly once.
-/

namespace HttpCallback

/-- What `accept` comes to: a descriptor, EAGAIN, or another error. -/
inductive AcceptEv
  | conn (fd : Nat)
  | again
  | error
  deriving Repr, DecidableEq

/-- `Accept`: no connection is 0. -/
def AcceptEv.ret : AcceptEv → Int
  | .conn fd => fd
  | .again => 0
  | .error => -1

/-- What `sendmsg` of the two bytes comes to. -/
inductive SendmsgEv
  | ok
  | fail
  deriving Repr, DecidableEq

/-- `Sock_fd_write`. -/
def SendmsgEv.ret : SendmsgEv → Int
  | .ok => 2
  | .fail => -1

/-- Where the master stands: in `Epoll_wait`, in front of `Accept`, in front of the send in the
condition of the inner loop, in front of the one in its body, or gone. -/
inductive Pc
  | wait
  | accept
  | cond
  | body
  | exited
  deriving Repr, DecidableEq

/-- The master, the socket pair and the workers. `accepted` lists the descriptors that `accept` has
returned; connections in `sent`, `chan` and `registered` are positions in it. `sent` lists the
messages sent so far, `chan` those not yet received, `registered` who received which. -/
structure Handoff where
  pc : Pc
  clientfd : Int
  accepted : List Nat
  sent : List Nat
  chan : List Nat
  registered : List (Nat × Nat)
  deriving Repr, DecidableEq

def Handoff.init : Handoff := ⟨.wait, 0, [], [], [], []⟩

/-- The connection at hand, the last one accepted. -/
def Handoff.current (s : Handoff) : Nat := s.accepted.length - 1

inductive HandoffInput
  | wake
  | accept (ev : AcceptEv)
  | sendmsg (ev : SendmsgEv)
  | receive (worker : Nat)
  deriving Repr, DecidableEq

/-- `accept` puts a connection into the master. -/
def Handoff.accepting (s : Handoff) : AcceptEv → Handoff
  | .conn fd => { s with accepted := s.accepted ++ [fd] }
  | .again => s
  | .error => s

/-- `sendmsg` puts a message into the socket pair. -/
def Handoff.sending (s : Handoff) : SendmsgEv → Handoff
  | .ok => { s with sent := s.sent ++ [s.current], chan := s.chan ++ [s.current] }
  | .fail => s

def Handoff.step (s : Handoff) : HandoffInput → Option Handoff
  | .wake => if s.pc = .wait then some { s with pc := .accept } else none
  | .accept ev =>
    if s.pc = .accept then
      let clientfd := ev.ret
      let s := { s.accepting ev with clientfd := clientfd }
      if clientfd = 0 then some { s with pc := .wait }
      else if clientfd = -1 then some { s with pc := .exited }
      else some { s with pc := .cond }
    else none
  | .sendmsg ev =>
    if s.pc = .cond then
      if ev.ret ≤ 0 then some { s.sending ev with pc := .body }
      else some { s.sending ev with pc := .accept }
    else if s.pc = .body then some { s.sending ev with pc := .cond }
    else none
  | .receive worker =>
    match s.chan with
    | [] => none
    | c :: cs => some { s with chan := cs, registered := s.registered ++ [(worker, c)] }

/-- The loop is done with every connection it has accepted. -/
def Handoff.Between (s : Handoff) : Prop := s.pc ≠ .cond ∧ s.pc ≠ .body

/-- How often the connection `c` has been registered, over all workers. -/
def Handoff.registrations (s : Handoff) (c : Nat) : Nat := (s.registered.map (·.2)).count c

/-- Every connection accepted so far was put on the channel once, and is either still there or
registered by one worker. -/
def Handoff.OnceEach (s : Handoff) : Prop :=
  ∀ c < s.accepted.length, s.sent.count c = 1 ∧ s.chan.count c + s.registrations c = 1

/-- The step neither takes descriptor 0 for "no connection" nor sends from the body of the loop. -/
def Handoff.Regular (s : Handoff) (i : HandoffInput) : Prop :=
  i ≠ .accept (.conn 0) ∧ ¬(s.pc = .body ∧ i = .sendmsg .ok)

/-! ## What a step does -/

theorem Handoff.step_cases {s s' : Handoff} {i : HandoffInput} (h : s.step i = some s') :
    (i = .wake ∧ s.pc = .wait ∧ s' = { s with pc := .accept }) ∨
    (s.pc = .accept ∧ s'.sent = s.sent ∧ s'.chan = s.chan ∧ s'.registered = s.registered ∧
      ((∃ fd, i = .accept (.conn fd) ∧ s'.accepted = s.accepted ++ [fd] ∧
          s'.pc = if fd = 0 then .wait else .cond) ∨
        (s'.accepted = s.accepted ∧ s'.Between ∧ ∃ ev, i = .accept ev ∧ ∀ fd, ev ≠ .conn fd))) ∨
    (∃ ev, i = .sendmsg ev ∧ ((s.pc = .cond ∧ s' = { s.sending ev with
        pc := if ev = .ok then .accept else .body }) ∨
      (s.pc = .body ∧ s' = { s.sending ev with pc := .cond }))) ∨
    (∃ w c cs, i = .receive w ∧ s.chan = c :: cs ∧
      s' = { s with chan := cs, registered := s.registered ++ [(w, c)] }) := by
  cases i with
  | wake =>
    unfold step at h
    simp only at h
    split at h
    · rename_i hpc
      exact Or.inl ⟨rfl, hpc, (Option.some.inj h).symm⟩
    · cases h
  | accept ev =>
    unfold step at h
    simp only at h
    split at h
    · rename_i hpc
      refine Or.inr (Or.inl ⟨hpc, ?_⟩)
      cases ev with
      | conn fd =>
        have hret : (AcceptEv.conn fd).ret = (fd : Int) := rfl
        have hne : ¬(fd : Int) = -1 := by omega
        rw [hret, if_neg hne] at h
        by_cases h0 : fd = 0
        · rw [if_pos (by omega)] at h
          cases h
          exact ⟨rfl, rfl, rfl, Or.inl ⟨fd, rfl, rfl, by rw [if_pos h0]⟩⟩
        · rw [if_neg (by omega)] at h
          cases h
          exact ⟨rfl, rfl, rfl, Or.inl ⟨fd, rfl, rfl, by rw [if_neg h0]⟩⟩
      | again =>
        cases h
        exact ⟨rfl, rfl, rfl, Or.inr ⟨rfl, ⟨nofun, nofun⟩, _, rfl, nofun⟩⟩
      | error =>
        cases h
        exact ⟨rfl, rfl, rfl, Or.inr ⟨rfl, ⟨nofun, nofun⟩, _, rfl, nofun⟩⟩
    · cases h
  | sendmsg ev =>
    refine Or.inr (Or.inr (Or.inl ⟨ev, rfl, ?_⟩))
    unfold step at h
    simp only at h
    split at h
    · rename_i hpc
      cases ev <;> exact Or.inl ⟨hpc, (Option.some.inj h).symm⟩
    · split at h
      · rename_i hpc
        exact Or.inr ⟨hpc, (Option.some.inj h).symm⟩
      · cases h
  | receive w =>
    refine Or.inr (Or.inr (Or.inr ?_))
    unfold step at h
    simp only at h
    split at h
    · cases h
    · rename_i c cs hchan
      exact ⟨w, c, cs, rfl, hchan, (Option.some.inj h).symm⟩

/-! ## Messages -/

@[simp] theorem Handoff.sending_accepted (s : Handoff) (ev : SendmsgEv) :
    (s.sending ev).accepted = s.accepted := by
  cases ev <;> rfl

/-- A message that was sent is in the channel or has been received. -/
def Handoff.Conserved (s : Handoff) : Prop :=
  ∀ c, s.sent.count c = s.chan.count c + s.registrations c

theorem Handoff.Conserved.sending {s : Handoff} (h : s.Conserved) (ev : SendmsgEv) :
    (s.sending ev).Conserved := by
  cases ev with
  | ok =>
    intro c
    have hc := h c
    unfold registrations at hc ⊢
    simp only [Handoff.sending, List.count_append]
    omega
  | fail => exact h

theorem Handoff.Conserved.step {s s' : Handoff} {i : HandoffInput} (h : s.Conserved)
    (hstep : s.step i = some s') : s'.Conserved := by
  rcases step_cases hstep with ⟨-, -, rfl⟩ | ⟨-, hsent, hchan, hreg, -⟩ |
    ⟨ev, -, ⟨-, rfl⟩ | ⟨-, rfl⟩⟩ | ⟨w, c, cs, -, hchan, rfl⟩
  · exact h
  · intro d
    unfold registrations
    rw [hsent, hchan, hreg]
    exact h d
  · exact h.sending ev
  · exact h.sending ev
  · intro d
    have hd := h d
    unfold registrations at hd ⊢
    rw [hchan, List.count_cons] at hd
    simp only [List.map_append, List.count_append, List.map_cons, List.map_nil,
      List.count_singleton]
    omega

/-! ## Good runs and bad ones -/

/-- Every connection the loop is done with has been sent once, and the one at hand not yet. -/
structure Handoff.Good (s : Handoff) : Prop where
  between : s.Between → s.sent = List.range s.accepted.length
  inside : ¬s.Between → 0 < s.accepted.length ∧ s.sent = List.range s.current

/-- Some connection has been left out, or is sent twice before the loop is done with it. -/
def Handoff.Bad (s : Handoff) : Prop :=
  ∃ c < s.accepted.length, (s.sent.count c = 0 ∧ (s.Between ∨ c ≠ s.current)) ∨
    (1 ≤ s.sent.count c ∧ ¬s.Between ∧ c = s.current) ∨ 2 ≤ s.sent.count c

section Steps

variable {s s' : Handoff} {i : HandoffInput}

theorem Handoff.between_iff : s.Between ↔ s.pc ≠ .cond ∧ s.pc ≠ .body := Iff.rfl

theorem Handoff.Good.step (h : s.Good) (hr : s.Regular i) (hstep : s.step i = some s') :
    s'.Good := by
  rcases step_cases hstep with ⟨-, hpc, rfl⟩ | ⟨hpc, hsent, hchan, hreg, hacc⟩ |
    ⟨ev, rfl, ⟨hpc, rfl⟩ | ⟨hpc, rfl⟩⟩ | ⟨w, c, cs, -, hchan, rfl⟩
  · have hb : s.Between := by simp [between_iff, hpc]
    exact ⟨fun _ => h.between hb, fun hn => absurd ⟨nofun, nofun⟩ hn⟩
  · have hb : s.Between := by simp [between_iff, hpc]
    rcases hacc with ⟨fd, rfl, hlen, hpc'⟩ | ⟨hlen, hb', -⟩
    · have h0 : fd ≠ 0 := fun h0 => hr.1 (by rw [h0])
      rw [if_neg h0] at hpc'
      refine ⟨fun hb' => absurd hpc' hb'.1, fun _ => ?_⟩
      unfold Handoff.current
      rw [hsent, hlen, h.between hb, List.length_append, List.length_singleton]
      exact ⟨Nat.succ_pos _, by rw [Nat.add_sub_cancel]⟩
    · refine ⟨fun _ => ?_, fun hn => absurd hb' hn⟩
      rw [hsent, hlen]
      exact h.between hb
  · have hn : ¬s.Between := fun hb => hb.1 hpc
    obtain ⟨hpos, hsent⟩ := h.inside hn
    cases ev with
    | ok =>
      refine ⟨fun _ => ?_, fun hn' => absurd ⟨nofun, nofun⟩ hn'⟩
      have hsucc : s.accepted.length = s.current + 1 := by
        unfold Handoff.current
        omega
      simp only [Handoff.sending]
      rw [hsent, hsucc, List.range_succ]
    | fail => exact ⟨fun hb => absurd rfl hb.2, fun _ => ⟨hpos, hsent⟩⟩
  · have hn : ¬s.Between := fun hb => hb.2 hpc
    obtain ⟨hpos, hsent⟩ := h.inside hn
    cases ev with
    | ok => exact absurd ⟨hpc, rfl⟩ hr.2
    | fail => exact ⟨fun hb => absurd rfl hb.1, fun _ => ⟨hpos, hsent⟩⟩
  · exact ⟨h.between, h.inside⟩

/-- The first irregular step leaves a connection out, or sends it from the body of the loop. -/
theorem Handoff.Good.cross (h : s.Good) (hr : ¬s.Regular i) (hstep : s.step i = some s') :
    s'.Bad := by
  unfold Regular at hr
  rw [not_and_or, not_not, not_not] at hr
  rcases hr with rfl | ⟨hpc, rfl⟩
  · rcases step_cases hstep with
      ⟨h', -⟩ | ⟨hpc, hsent, -, -, hacc⟩ | ⟨ev, h', -⟩ | ⟨w, c, cs, h', -⟩
    · cases h'
    · have hb : s.Between := by simp [between_iff, hpc]
      rcases hacc with ⟨fd, hfd, hlen, hpc'⟩ | ⟨-, -, ev, hev, hne⟩
      · cases hfd
        refine ⟨s.accepted.length, by simp [hlen], Or.inl ⟨?_, Or.inl ?_⟩⟩
        · rw [hsent, h.between hb, List.count_eq_zero]
          exact List.not_mem_range_self
        · rw [between_iff, hpc']
          exact ⟨nofun, nofun⟩
      · cases hev
        exact absurd rfl (hne 0)
    · cases h'
    · cases h'
  · have hn : ¬s.Between := fun hb => hb.2 hpc
    obtain ⟨hpos, -⟩ := h.inside hn
    rcases step_cases hstep with ⟨h', -⟩ | ⟨hpc', -⟩ | ⟨ev, h', hcase⟩ | ⟨w, c, cs, h', -⟩
    · cases h'
    · rw [hpc] at hpc'
      cases hpc'
    · cases h'
      rcases hcase with ⟨hpc', -⟩ | ⟨-, rfl⟩
      · rw [hpc] at hpc'
        cases hpc'
      · refine ⟨s.current, ?_, Or.inr (Or.inl ⟨?_, fun hb => hb.1 rfl, rfl⟩)⟩
        · unfold Handoff.current
          simp only [sending_accepted]
          omega
        · simp [Handoff.sending, List.count_append]
    · cases h'

/-- What a send adds to the count of a connection. -/
theorem Handoff.count_sending (s : Handoff) (ev : SendmsgEv) (c : Nat) :
    (s.sending ev).sent.count c =
      s.sent.count c + if ev = .ok ∧ c = s.current then 1 else 0 := by
  cases ev with
  | ok =>
    simp only [Handoff.sending, List.count_append, List.count_singleton, beq_iff_eq, true_and]
    exact congrArg _ (if_congr eq_comm rfl rfl)
  | fail => simp [Handoff.sending]

theorem Handoff.Bad.step (h : s.Bad) (hstep : s.step i = some s') : s'.Bad := by
  obtain ⟨c, hc, hcase⟩ := h
  rcases step_cases hstep with ⟨-, hpc, rfl⟩ | ⟨hpc, hsent, hchan, hreg, hacc⟩ |
    ⟨ev, rfl, hsend⟩ | ⟨w, d, cs, -, hchan, rfl⟩
  · have hb : s.Between := by simp [between_iff, hpc]
    refine ⟨c, hc, ?_⟩
    rcases hcase with ⟨h0, -⟩ | ⟨-, hn, -⟩ | h2
    · exact Or.inl ⟨h0, Or.inl ⟨nofun, nofun⟩⟩
    · exact absurd hb hn
    · exact Or.inr (Or.inr h2)
  · have hb : s.Between := by simp [between_iff, hpc]
    have hlt : c < s'.accepted.length := by
      rcases hacc with ⟨fd, -, hlen, -⟩ | ⟨hlen, -⟩
      · rw [hlen, List.length_append]
        omega
      · rwa [hlen]
    refine ⟨c, hlt, ?_⟩
    rw [hsent]
    rcases hcase with ⟨h0, -⟩ | ⟨-, hn, -⟩ | h2
    · refine Or.inl ⟨h0, ?_⟩
      rcases hacc with ⟨fd, -, hlen, -⟩ | ⟨-, hb', -⟩
      · right
        unfold Handoff.current
        rw [hlen, List.length_append, List.length_singleton]
        omega
      · exact Or.inl hb'
    · exact absurd hb hn
    · exact Or.inr (Or.inr h2)
  · -- a send only adds to the count of the connection at hand
    have hn : ¬s.Between := by
      rcases hsend with ⟨hpc, -⟩ | ⟨hpc, -⟩
      · exact fun hb => hb.1 hpc
      · exact fun hb => hb.2 hpc
    have hcount := s.count_sending ev c
    have hs' : s'.sent = (s.sending ev).sent ∧ s'.accepted = s.accepted ∧
        (s'.Between → ev = .ok) := by
      rcases hsend with ⟨-, rfl⟩ | ⟨-, rfl⟩
      · refine ⟨rfl, sending_accepted s ev, fun hb => ?_⟩
        cases ev with
        | ok => rfl
        | fail => exact absurd rfl hb.2
      · exact ⟨rfl, sending_accepted s ev, fun hb => absurd rfl hb.1⟩
    obtain ⟨hsent, hacc, hok⟩ := hs'
    have hcur : s'.current = s.current := by
      unfold Handoff.current
      rw [hacc]
    refine ⟨c, by rwa [hacc], ?_⟩
    rw [hsent, hcount, hcur]
    rcases hcase with ⟨h0, hb | hne⟩ | ⟨h1, -, heq⟩ | h2
    · exact absurd hb hn
    · refine Or.inl ⟨?_, Or.inr hne⟩
      rw [if_neg fun h => hne h.2]
      exact h0
    · by_cases hb : s'.Between
      · right
        right
        rw [if_pos ⟨hok hb, heq⟩]
        omega
      · exact Or.inr (Or.inl ⟨by omega, hb, heq⟩)
    · exact Or.inr (Or.inr (by omega))
  · exact ⟨c, hc, hcase⟩

end Steps

/-! ## Runs -/

theorem Handoff.good_init : Handoff.init.Good := by
  refine ⟨fun _ => rfl, fun hn => absurd ⟨nofun, nofun⟩ hn⟩

theorem Handoff.Good.onceEach {s : Handoff} (h : s.Good) (hc : s.Conserved) (hb : s.Between) :
    s.OnceEach := by
  intro c hlt
  have hone : s.sent.count c = 1 := by
    rw [h.between hb, List.count_range, if_pos hlt]
  exact ⟨hone, by rw [← hc c, hone]⟩

theorem Handoff.Bad.not_onceEach {s : Handoff} (h : s.Bad) (hb : s.Between) : ¬s.OnceEach := by
  intro honce
  obtain ⟨c, hc, hcase⟩ := h
  have hone := (honce c hc).1
  rcases hcase with ⟨h0, -⟩ | ⟨-, hn, -⟩ | h2
  · omega
  · exact hn hb
  · omega

/-- **Every connection is handed over once exactly on the regular runs.** Whenever the loop is done
with the connections accepted so far, each of them has been put on the channel once, and is still
there or registered by one worker, if and only if no step of the run took descriptor 0 for "no
connection" or sent from the body of the retry loop. -/
theorem handoff_once_iff (is : List HandoffInput) (s : Handoff)
    (h : Run.exec Handoff.step .init is = some s) (hb : s.Between) :
    s.OnceEach ↔ Run.All Handoff.step Handoff.Regular .init is := by
  have hcons : s.Conserved :=
    Run.inv (fun _ _ _ h hs => Handoff.Conserved.step h hs) is (fun _ => rfl) h
  rcases Run.dichotomy (fun _ _ _ h hr hs => Handoff.Good.step h hr hs)
    (fun _ _ _ h hr hs => Handoff.Good.cross h hr hs) (fun _ _ _ h hs => Handoff.Bad.step h hs) is
    Handoff.good_init h with ⟨hall, hgood⟩ | ⟨hall, hbad⟩
  · exact ⟨fun _ => hall, fun _ => hgood.onceEach hcons hb⟩
  · exact ⟨fun honce => absurd honce (hbad.not_onceEach hb), fun h' => absurd h' hall⟩

/-- One connection, handed over at the third attempt and received by worker 0. -/
theorem handoff_once_iff_one :
    (⟨.wait, 0, [5], [0], [], [(0, 0)]⟩ : Handoff).OnceEach ↔
      Run.All Handoff.step Handoff.Regular .init
        [.wake, .accept (.conn 5), .sendmsg .fail, .sendmsg .fail, .sendmsg .ok, .receive 0,
          .accept .again] :=
  handoff_once_iff [.wake, .accept (.conn 5), .sendmsg .fail, .sendmsg .fail, .sendmsg .ok,
    .receive 0, .accept .again] ⟨.wait, 0, [5], [0], [], [(0, 0)]⟩ (by decide)
    ⟨by decide, by decide⟩

/-- A failure, a send from the body, a send from the condition: two messages for one connection. -/
theorem handoff_twice :
    ¬∀ (is : List HandoffInput) (s : Handoff), Run.exec Handoff.step .init is = some s →
      s.Between → s.OnceEach := by
  intro h
  have honce := h [.wake, .accept (.conn 5), .sendmsg .fail, .sendmsg .ok, .sendmsg .ok]
    ⟨.accept, 5, [5], [0, 0], [0, 0], []⟩ (by decide) ⟨by decide, by decide⟩
  exact absurd (honce 0 (by decide)).1 (by decide)

end HttpCallback
