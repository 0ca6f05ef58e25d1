import HttpCallback.Lib.Fanout
import HttpCallback.Master

/-!
# The master and its workers

All processes around the one socket pair. The master puts a message into it for each `sendmsg` that
succeeds; every worker waits on the other end, and whichever receives first takes the message in
front. A step is one of the master or one of a worker, in any order. A worker that finds the channel
empty meets EAGAIN, and the end of the stream once the master is gone. The workers are taken to have
descriptors left, so that a message always brings the one it carries. A master that is gone has no
descriptors; what it sent can still be taken.

Each process runs as it does alone (`master_reachable`, `worker_reachable`). What the channel adds:
messages are taken in the order they were sent, none is lost (`conserved`), and a connection that
was sent once is open in one worker at most (`exclusive`).
-/

namespace HttpCallback

open Fanout

/-- The processes: the master, and the workers by their number. -/
structure SystemSetup where
  master : MasterSetup
  workers : Nat
  worker : Nat → Setup

structure System where
  master : Master
  worker : Nat → Worker

inductive SystemInput
  | master (i : MasterInput)
  | worker (w : Nat) (i : WorkerInput)

/-- A step of the master other than one of the channel. -/
def MasterInput.IsOwn : MasterInput → Prop
  | .loop (.receive _) => False
  | _ => True

instance : DecidablePred MasterInput.IsOwn := fun i => by
  unfold MasterInput.IsOwn
  split <;> infer_instance

namespace System

def init (cfg : SystemSetup) : System := ⟨.init cfg.master, fun w => .init (cfg.worker w)⟩

/-- What the step of the worker `w` does to the channel. -/
def channel (s : System) (w : Nat) : WorkerInput → Option Handoff
  | .message _ (.fd _) _ _ _ => s.master.loop.step (.receive w)
  | .message _ (.fail .eagain) _ _ _ => if s.master.loop.chan = [] then some s.master.loop else none
  | .message _ .eof _ _ _ =>
    if s.master.loop.chan = [] ∧ s.master.loop.pc = .exited then some s.master.loop else none
  | .message _ .plain _ _ _ => none
  | _ => some s.master.loop

def step (cfg : SystemSetup) (s : System) : SystemInput → Option System
  | .master i =>
    if i.IsOwn then (Master.step cfg.master s.master i).map fun m => { s with master := m }
    else none
  | .worker w i =>
    if w < cfg.workers then
      match s.channel w i, Worker.step (cfg.worker w) (s.worker w) i with
      | some loop, some t =>
        some ⟨{ s.master with loop := loop }, Function.update s.worker w t⟩
      | _, _ => none
    else none

/-- Worker `w` has the connection `c` open as descriptor `k`. -/
def Holds (s : System) (w : Nat) (k : Int) (c : Nat) : Prop :=
  ∃ j, (s.worker w).files k = some (.conn j) ∧ (share w s.master.loop.registered)[j]? = some c

end System

/-! ## The descriptors of a worker -/

/-- The input brings a descriptor. -/
def WorkerInput.Brings : WorkerInput → Prop
  | .message _ (.fd _) _ _ _ => True
  | _ => False

namespace Worker

variable {cfg : Setup} {s s' : Worker} {i : WorkerInput}

theorem close_files_some {fd k : Int} {file : File} (h : (s.close cfg fd).files k = some file) :
    s.files k = some file := by
  by_cases hk : k = fd
  · subst hk
    have hnone : (s.close cfg k).files k = none := Function.update_self ..
    rw [hnone] at h
    cases h
  · rwa [show (s.close cfg fd).files k = s.files k from Function.update_of_ne hk _ _] at h

/-- Descriptors come with messages only. -/
theorem step_files (h : Worker.step cfg s i = some s') :
    (∃ prior d addr ctx buf, i = .message prior (.fd d) addr ctx buf ∧
      s'.files = Function.update s.files d (some (.conn s.conns)) ∧ s'.conns = s.conns + 1) ∨
    (¬i.Brings ∧ s'.conns = s.conns ∧
      ∀ k file, s'.files k = some file → s.files k = some file) := by
  rcases step_cases h with ⟨ready, rfl, -, -, -, rfl⟩ |
    ⟨e, rest, prior, ev, addr, ctx, buf, rfl, -, -, hnew⟩ |
    ⟨e, rest, stack, evs, addr, rfl, -, -, -, hread⟩ | ⟨e, rest, rfl, -, -, -, -, hwrite⟩ |
    ⟨e, rest, rfl, -, -, -, -, rfl⟩
  · exact Or.inr ⟨id, rfl, fun _ _ => id⟩
  · obtain ⟨clientfd, -, -, ⟨rfl, rfl⟩ | ⟨-, -, rfl⟩⟩ := newDescriptor_cases hnew
    · exact Or.inr ⟨id, rfl, fun _ _ => id⟩
    · cases ev with
      | fd d => exact Or.inl ⟨prior, d, addr, ctx, buf, rfl, rfl, rfl⟩
      | plain => exact Or.inr ⟨id, rfl, fun _ _ => id⟩
      | eof => exact Or.inr ⟨id, rfl, fun _ _ => id⟩
      | fail e => exact Or.inr ⟨id, rfl, fun _ _ => id⟩
  · obtain ⟨t, file, -, -, ⟨-, rfl⟩ | ⟨req, -, -, rfl⟩⟩ := readable_cases hread
    · exact Or.inr ⟨id, rfl, fun _ _ => id⟩
    · exact Or.inr ⟨id, rfl, fun _ _ => id⟩
  · obtain ⟨r, origin, -, rfl⟩ := writable_cases hwrite
    refine Or.inr ⟨id, rfl, fun k file hk => ?_⟩
    have hfile := close_files_some hk
    exact hfile
  · refine Or.inr ⟨id, rfl, fun k file hk => ?_⟩
    have hfile := close_files_some hk
    exact hfile

/-- The connections are numbered from 0 on, and each is open as one descriptor at most. -/
structure Numbered (s : Worker) : Prop where
  bound : ∀ k j, s.files k = some (.conn j) → j < s.conns
  unique : ∀ k k' j, s.files k = some (.conn j) → s.files k' = some (.conn j) → k = k'

theorem numbered_init (cfg : Setup) : (Worker.init cfg).Numbered := by
  have hnone : ∀ k j, (Worker.init cfg).files k ≠ some (.conn j) := by
    intro k j h
    unfold Worker.init at h
    simp only at h
    split at h
    · cases h
    · split at h
      · cases h
      · obtain ⟨n, -, hn⟩ := Option.map_eq_some_iff.1 h
        cases hn
  exact ⟨fun k j h => absurd h (hnone k j), fun k _ j h => absurd h (hnone k j)⟩

theorem Numbered.step (h : s.Numbered) (hstep : Worker.step cfg s i = some s') : s'.Numbered := by
  rcases step_files hstep with ⟨prior, d, addr, ctx, buf, -, hfiles, hconns⟩ | ⟨-, hconns, hfiles⟩
  · have hold : ∀ k j, s'.files k = some (.conn j) →
        (k = d ∧ j = s.conns) ∨ s.files k = some (.conn j) := by
      intro k j hk
      rw [hfiles] at hk
      by_cases hkd : k = d
      · subst hkd
        rw [Function.update_self, Option.some.injEq, File.conn.injEq] at hk
        exact Or.inl ⟨rfl, hk.symm⟩
      · rw [Function.update_of_ne hkd] at hk
        exact Or.inr hk
    constructor
    · intro k j hk
      rw [hconns]
      rcases hold k j hk with ⟨-, rfl⟩ | hk
      · exact Nat.lt_succ_self _
      · exact Nat.lt_succ_of_lt (h.bound k j hk)
    · intro k k' j hk hk'
      rcases hold k j hk with ⟨rfl, rfl⟩ | hk
      · rcases hold k' _ hk' with ⟨rfl, -⟩ | hk'
        · rfl
        · exact absurd (h.bound k' _ hk') (Nat.lt_irrefl _)
      · rcases hold k' j hk' with ⟨-, rfl⟩ | hk'
        · exact absurd (h.bound k _ hk) (Nat.lt_irrefl _)
        · exact h.unique k k' j hk hk'
  · exact ⟨fun k j hk => hconns ▸ h.bound k j (hfiles k _ hk),
      fun k k' j hk hk' => h.unique k k' j (hfiles k _ hk) (hfiles k' _ hk')⟩

end Worker

/-! ## The channel -/

namespace Handoff

variable {s s' : Handoff} {i : HandoffInput}

/-- The messages taken, and behind them those in the channel, are the ones sent, in their order. -/
def InOrder (s : Handoff) : Prop := s.registered.map Prod.snd ++ s.chan = s.sent

theorem InOrder.sending (h : s.InOrder) (ev : SendmsgEv) : (s.sending ev).InOrder := by
  cases ev with
  | ok =>
    unfold InOrder at h ⊢
    simp only [Handoff.sending]
    rw [← List.append_assoc, h]
  | fail => exact h

theorem InOrder.step (h : s.InOrder) (hstep : s.step i = some s') : s'.InOrder := by
  rcases step_cases hstep with ⟨-, -, rfl⟩ | ⟨-, hsent, hchan, hreg, -⟩ |
    ⟨ev, -, ⟨-, rfl⟩ | ⟨-, rfl⟩⟩ | ⟨w, c, cs, -, hchan, rfl⟩
  · exact h
  · unfold InOrder
    rw [hsent, hchan, hreg]
    exact h
  · exact h.sending ev
  · exact h.sending ev
  · unfold InOrder at h ⊢
    rw [hchan] at h
    simp only [List.map_append, List.map_cons, List.map_nil]
    rw [List.append_assoc]
    exact h

end Handoff

namespace Master

variable {cfg : MasterSetup} {s s' : Master}

theorem event_wait (h : Master.step cfg s .event = some s') : s.loop.pc = .wait := by
  unfold Master.step at h
  exact (Option.ite_none_right_eq_some.1 h).1

/-- An event leaves the messages as they are, and the accept loop has no connection at hand. -/
theorem dispatch_loop {e : MasterReady} {rest : List MasterReady} (hpc : s.loop.pc = .wait)
    (h : s.dispatch cfg e rest = some s') : s'.loop.Between ∧
      s'.loop = { s.loop with pc := s'.loop.pc } := by
  have hb : s.loop.Between := by
    unfold Handoff.Between
    rw [hpc]
    exact ⟨nofun, nofun⟩
  unfold Master.dispatch at h
  simp only at h
  split at h
  · cases h
    rw [exitClosed_loop]
    exact ⟨⟨nofun, nofun⟩, rfl⟩
  split at h
  · obtain ⟨loop, hloop, rfl⟩ := Option.map_eq_some_iff.1 h
    rw [Handoff.step, if_pos hpc, Option.some.injEq] at hloop
    subst hloop
    exact ⟨⟨nofun, nofun⟩, rfl⟩
  split at h
  · cases h
    exact ⟨hb, rfl⟩
  split at h
  · cases h
    exact ⟨hb, rfl⟩
  · cases h
    exact ⟨hb, rfl⟩

theorem inOrder_step {i : MasterInput} (h : s.loop.InOrder)
    (hstep : Master.step cfg s i = some s') : s'.loop.InOrder := by
  rcases step_cases hstep with ⟨ready, -, -, -, rfl⟩ | ⟨e, rest, rfl, -, hdispatch⟩ |
    ⟨j, loop, rfl, hloop, rfl⟩
  · exact h
  · rw [(dispatch_loop (event_wait hstep) hdispatch).2]
    exact h
  · rw [exitClosed_loop]
    exact h.step hloop

/-- Only a step of the channel changes what has been received. -/
theorem step_registered {i : MasterInput} (hown : i.IsOwn)
    (hstep : Master.step cfg s i = some s') : s'.loop.registered = s.loop.registered := by
  rcases step_cases hstep with ⟨ready, -, -, -, rfl⟩ | ⟨e, rest, rfl, -, hdispatch⟩ |
    ⟨j, loop, rfl, hloop, rfl⟩
  · rfl
  · rw [(dispatch_loop (event_wait hstep) hdispatch).2]
  · rw [exitClosed_loop]
    rcases Handoff.step_cases hloop with ⟨-, -, rfl⟩ | ⟨-, -, -, hreg, -⟩ |
      ⟨ev, -, ⟨-, rfl⟩ | ⟨-, rfl⟩⟩ | ⟨w, c, cs, rfl, -, rfl⟩
    · rfl
    · exact hreg
    · cases ev <;> rfl
    · cases ev <;> rfl
    · exact absurd hown id

end Master

namespace System

variable {cfg : SystemSetup} {s s' : System}

/-! ## What a step does -/

theorem channel_brings {w : Nat} {i : WorkerInput} {loop : Handoff}
    (h : s.channel w i = some loop) :
    (i.Brings ∧ s.master.loop.step (.receive w) = some loop) ∨
      (¬i.Brings ∧ loop = s.master.loop) := by
  cases i with
  | message prior ev addr ctx buf =>
    cases ev with
    | fd d => exact Or.inl ⟨trivial, h⟩
    | plain => cases h
    | eof =>
      obtain ⟨-, hloop⟩ := Option.ite_none_right_eq_some.1 h
      exact Or.inr ⟨id, (Option.some.inj hloop).symm⟩
    | fail e =>
      cases e with
      | eagain =>
        obtain ⟨-, hloop⟩ := Option.ite_none_right_eq_some.1 h
        exact Or.inr ⟨id, (Option.some.inj hloop).symm⟩
      | eintr => exact Or.inr ⟨id, (Option.some.inj h).symm⟩
      | other => exact Or.inr ⟨id, (Option.some.inj h).symm⟩
  | wait ready => exact Or.inr ⟨id, (Option.some.inj h).symm⟩
  | readable stack evs addr => exact Or.inr ⟨id, (Option.some.inj h).symm⟩
  | writable => exact Or.inr ⟨id, (Option.some.inj h).symm⟩
  | hangup => exact Or.inr ⟨id, (Option.some.inj h).symm⟩

/-- A step is one of the master by itself, a worker's that takes the message in front of the
channel, or a worker's that takes none. -/
theorem step_cases {i : SystemInput} (h : step cfg s i = some s') :
    (∃ j m, i = .master j ∧ j.IsOwn ∧ Master.step cfg.master s.master j = some m ∧
      s' = { s with master := m }) ∨
    (∃ w j t, i = .worker w j ∧ w < cfg.workers ∧
      Worker.step (cfg.worker w) (s.worker w) j = some t ∧
      ((j.Brings ∧ ∃ c cs, s.master.loop.chan = c :: cs ∧
          s' = ⟨{ s.master with
            loop := { s.master.loop with
              chan := cs, registered := s.master.loop.registered ++ [(w, c)] } },
            Function.update s.worker w t⟩) ∨
        (¬j.Brings ∧ s' = { s with worker := Function.update s.worker w t }))) := by
  cases i with
  | master j =>
    obtain ⟨hown, hm⟩ := Option.ite_none_right_eq_some.1 h
    obtain ⟨m, hstep, rfl⟩ := Option.map_eq_some_iff.1 hm
    exact Or.inl ⟨j, m, rfl, hown, hstep, rfl⟩
  | worker w j =>
    obtain ⟨hw, h⟩ := Option.ite_none_right_eq_some.1 h
    cases hloop : s.channel w j with
    | none => rw [hloop] at h; cases h
    | some loop =>
      cases ht : Worker.step (cfg.worker w) (s.worker w) j with
      | none => rw [hloop, ht] at h; cases h
      | some t =>
        rw [hloop, ht] at h
        cases h
        refine Or.inr ⟨w, j, t, rfl, hw, ht, ?_⟩
        rcases channel_brings hloop with ⟨hbrings, hrcv⟩ | ⟨hbrings, rfl⟩
        · refine Or.inl ⟨hbrings, ?_⟩
          cases hchan : s.master.loop.chan with
          | nil =>
            rw [Handoff.step, hchan] at hrcv
            cases hrcv
          | cons c cs =>
            rw [Handoff.step, hchan] at hrcv
            cases hrcv
            exact ⟨c, cs, rfl, rfl⟩
        · exact Or.inr ⟨hbrings, rfl⟩

/-- Taking a message is a step of the master's channel, also when the master is gone. -/
theorem master_receive {w c : Nat} {cs : List Nat} (hinv : s.master.Inv cfg.master)
    (hchan : s.master.loop.chan = c :: cs) :
    Master.step cfg.master s.master (.loop (.receive w)) = some { s.master with
      loop := { s.master.loop with
        chan := cs, registered := s.master.loop.registered ++ [(w, c)] } } := by
  have hcan : s.master.CanAccept cfg.master (.receive w) := trivial
  simp only [Master.step, if_pos hcan, Handoff.step, hchan, Option.map_some, Master.opened,
    List.append_nil, Option.some.injEq]
  exact Master.exitClosed_with hinv.exited rfl

/-! ## Every process runs as it does alone -/

/-- The master's part of a run is a run of the master. -/
theorem master_reachable {is : List SystemInput} (h : Run.exec (step cfg) (init cfg) is = some s) :
    ∃ js, Run.exec (Master.step cfg.master) (Master.init cfg.master) js = some s.master := by
  refine Run.inv (I := fun s : System =>
    ∃ js, Run.exec (Master.step cfg.master) (Master.init cfg.master) js = some s.master) ?_ is
    ⟨[], rfl⟩ h
  rintro s i s' ⟨js, hjs⟩ hstep
  rcases step_cases hstep with ⟨j, m, -, -, hm, rfl⟩ |
    ⟨w, j, t, -, -, -, ⟨-, c, cs, hchan, rfl⟩ | ⟨-, rfl⟩⟩
  · exact ⟨js ++ [j], Run.exec_snoc hjs hm⟩
  · have hinv := Run.inv (fun _ _ _ hm hstep => hm.step hstep) js (Master.inv_init cfg.master) hjs
    exact ⟨js ++ [.loop (.receive w)], Run.exec_snoc hjs (master_receive hinv hchan)⟩
  · exact ⟨js, hjs⟩

/-- A worker's part of a run is a run of the worker. -/
theorem worker_reachable {is : List SystemInput} (h : Run.exec (step cfg) (init cfg) is = some s)
    (w : Nat) :
    ∃ js, Run.exec (Worker.step (cfg.worker w)) (Worker.init (cfg.worker w)) js =
      some (s.worker w) := by
  refine Run.inv (I := fun s : System => ∃ js, Run.exec (Worker.step (cfg.worker w))
    (Worker.init (cfg.worker w)) js = some (s.worker w)) ?_ is ⟨[], rfl⟩ h
  rintro s i s' ⟨js, hjs⟩ hstep
  have hworker : ∀ v j t, Worker.step (cfg.worker v) (s.worker v) j = some t →
      ∃ js, Run.exec (Worker.step (cfg.worker w)) (Worker.init (cfg.worker w)) js =
        some (Function.update s.worker v t w) := by
    intro v j t ht
    by_cases hv : w = v
    · subst hv
      rw [Function.update_self]
      exact ⟨js ++ [j], Run.exec_snoc hjs ht⟩
    · rw [Function.update_of_ne hv]
      exact ⟨js, hjs⟩
  rcases step_cases hstep with ⟨j, m, -, -, -, rfl⟩ |
    ⟨v, j, t, -, -, ht, ⟨-, c, cs, -, rfl⟩ | ⟨-, rfl⟩⟩
  · exact ⟨js, hjs⟩
  · exact hworker v j t ht
  · exact hworker v j t ht

/-! ## The messages -/

section Run

variable {is : List SystemInput} (h : Run.exec (step cfg) (init cfg) is = some s)

include h

theorem inOrder : s.master.loop.InOrder := by
  obtain ⟨js, hjs⟩ := master_reachable h
  have hinit : (Master.init cfg.master).loop.InOrder := rfl
  exact Run.inv (I := fun m : Master => m.loop.InOrder)
    (fun _ _ _ hm hstep => Master.inOrder_step hm hstep) js hinit hjs

theorem master_inv : s.master.Inv cfg.master := by
  obtain ⟨js, hjs⟩ := master_reachable h
  exact Run.inv (fun _ _ _ hm hstep => hm.step hstep) js (Master.inv_init cfg.master) hjs

theorem numbered (w : Nat) : (s.worker w).Numbered := by
  obtain ⟨js, hjs⟩ := worker_reachable h w
  exact Run.inv (fun _ _ _ hw hstep => hw.step hstep) js (Worker.numbered_init (cfg.worker w)) hjs

end Run

/-- A worker has numbered the messages it took. -/
def Shared (s : System) : Prop :=
  ∀ w, (share w s.master.loop.registered).length = (s.worker w).conns

/-- What a worker's step adds to its share and to its connections. -/
theorem Shared.step (h : s.Shared) {i : SystemInput} (hstep : System.step cfg s i = some s') :
    s'.Shared := by
  intro v
  rcases step_cases hstep with ⟨j, m, -, hown, hm, rfl⟩ |
    ⟨w, j, t, -, -, ht, ⟨hj, c, cs, hchan, rfl⟩ | ⟨hj, rfl⟩⟩
  · simp only [Master.step_registered hown hm]
    exact h v
  · have hconns : t.conns = (s.worker w).conns + 1 := by
      rcases Worker.step_files ht with ⟨_, _, _, _, _, -, -, hconns⟩ | ⟨hno, -⟩
      · exact hconns
      · exact absurd hj hno
    by_cases hv : v = w
    · subst hv
      simp only [Function.update_self, hconns, share_concat_self, List.length_append,
        List.length_singleton, h v]
    · simp only [Function.update_of_ne hv, share_concat_ne (Ne.symm hv)]
      exact h v
  · have hconns : t.conns = (s.worker w).conns := by
      rcases Worker.step_files ht with ⟨_, _, _, _, _, rfl, -⟩ | ⟨-, hconns, -⟩
      · exact absurd trivial hj
      · exact hconns
    by_cases hv : v = w
    · subst hv
      simp only [Function.update_self, hconns]
      exact h v
    · simp only [Function.update_of_ne hv]
      exact h v

theorem shared {is : List SystemInput} (h : Run.exec (step cfg) (init cfg) is = some s) :
    s.Shared :=
  Run.inv (fun _ _ _ hs hstep => hs.step hstep) is (fun _ => rfl) h

/-! ## Who holds a connection -/

/-- The places of a connection are places of the shares. -/
theorem holds_card {is : List SystemInput} (h : Run.exec (step cfg) (init cfg) is = some s)
    {c : Nat} (holders : Finset (Nat × Int)) (hholds : ∀ x ∈ holders, s.Holds x.1 x.2 c) :
    holders.card ≤ s.master.loop.sent.count c := by
  unfold Holds at hholds
  choose! j hfile hshare using hholds
  have hinj : Set.InjOn (fun x : Nat × Int => (x.1, j x)) holders := by
    rintro ⟨w, k⟩ hx ⟨w', k'⟩ hx' heq
    obtain ⟨rfl, hj⟩ := Prod.ext_iff.1 heq
    have hk := hfile _ hx
    have hk' := hfile _ hx'
    simp only at hj hk hk'
    rw [← hj] at hk'
    rw [(numbered h w).unique k k' _ hk hk']
  have horder := inOrder h
  unfold Handoff.InOrder at horder
  rw [← Finset.card_image_of_injOn hinj, ← horder, List.count_append]
  refine Nat.le_add_right_of_le (card_le_count _ _ fun x hx => ?_)
  obtain ⟨y, hy, rfl⟩ := Finset.mem_image.1 hx
  exact hshare y hy

/-- A connection that a worker has open came through the channel, and a master that is not gone has
it open too. -/
theorem exists_holds {is : List SystemInput} (h : Run.exec (step cfg) (init cfg) is = some s)
    {w j : Nat} {k : Int} (hk : (s.worker w).files k = some (.conn j)) :
    ∃ c, s.Holds w k c ∧ c < s.master.loop.accepted.length ∧
      (s.master.loop.pc ≠ .exited → ∃ fd, (fd, c) ∈ s.master.clients) := by
  have hlt := (numbered h w).bound k j hk
  rw [← shared h w] at hlt
  have hget := List.getElem?_eq_getElem hlt
  have hsent : (share w s.master.loop.registered)[j] ∈ s.master.loop.sent := by
    rw [← inOrder h]
    exact List.mem_append_left _ (mem_of_share hget)
  have hacc := (master_inv h).loop.sent _ hsent
  refine ⟨_, ⟨j, hk, hget⟩, hacc, fun hpc => ?_⟩
  rw [← List.mem_range, ← (master_inv h).clients hpc] at hacc
  obtain ⟨⟨fd, c⟩, hmem, hc⟩ := List.mem_map.1 hacc
  exact ⟨fd, hc ▸ hmem⟩

/-- **No message is lost, overtaken or taken twice.** In every state that the master and its workers
reach, in whatever order they step, the workers having a free descriptor for each message: the
messages taken so far and behind them those in the channel are the ones the master has sent, in the
order it sent them; every client descriptor that is open in a worker is a connection that the master
has accepted and, as long as it is not gone, still has open; and a connection is open in at most as
many places, over all workers and all their descriptors, as messages have been sent for it. -/
theorem conserved (cfg : SystemSetup) (is : List SystemInput) (s : System)
    (h : Run.exec (step cfg) (init cfg) is = some s) :
    s.master.loop.registered.map Prod.snd ++ s.master.loop.chan = s.master.loop.sent ∧
      (∀ w k j, (s.worker w).files k = some (.conn j) →
        ∃ c, s.Holds w k c ∧ c < s.master.loop.accepted.length ∧
          (s.master.loop.pc ≠ .exited → ∃ fd, (fd, c) ∈ s.master.clients)) ∧
      ∀ c (holders : Finset (Nat × Int)), (∀ x ∈ holders, s.Holds x.1 x.2 c) →
        holders.card ≤ s.master.loop.sent.count c :=
  ⟨inOrder h, fun _ _ _ hk => exists_holds h hk, fun _ holders => holds_card h holders⟩

/-- A master that listens on descriptor 7, and two workers. -/
def samplePair : SystemSetup := ⟨Master.sampleSetup, 2, fun _ => Worker.sampleSetup⟩

/-- Connection 8 is accepted and sent, and worker 1 takes it as its descriptor 5. -/
def sampleTaken : List SystemInput :=
  (Master.sampleArrival [.ok]).map .master ++
    (Worker.sampleArrival 5 4096).map (.worker 1)

theorem conserved_pair : ∃ s, Run.exec (step samplePair) (init samplePair) sampleTaken = some s ∧
    s.Holds 1 5 0 ∧ Finset.card {((1, 5) : Nat × Int)} ≤ s.master.loop.sent.count 0 :=
  ⟨_, rfl, ⟨0, rfl, rfl⟩, (conserved samplePair sampleTaken _ rfl).2.2 0 {(1, 5)} fun x hx => by
    rw [Finset.mem_singleton.1 hx]
    exact ⟨0, rfl, rfl⟩⟩

/-- The step is regular where it is one of the accept loop. -/
def Regular (s : System) : SystemInput → Prop
  | .master (.loop j) => s.master.loop.Regular j
  | _ => True

instance (s : System) (i : SystemInput) : Decidable (s.Regular i) := by
  unfold Regular Handoff.Regular
  split <;> infer_instance

theorem good_step (h : s.master.loop.Good) {i : SystemInput} (hr : s.Regular i)
    (hstep : System.step cfg s i = some s') : s'.master.loop.Good := by
  rcases step_cases hstep with ⟨j, m, rfl, hown, hm, rfl⟩ |
    ⟨w, j, t, -, -, -, ⟨-, c, cs, hchan, rfl⟩ | ⟨-, rfl⟩⟩
  · rcases Master.step_cases hm with ⟨ready, -, -, -, rfl⟩ | ⟨e, rest, rfl, -, hdispatch⟩ |
      ⟨i, loop, rfl, hloop, rfl⟩
    · exact h
    · have hpc := Master.event_wait hm
      obtain ⟨hb, hloop⟩ := Master.dispatch_loop hpc hdispatch
      have hwait : s.master.loop.Between := by
        unfold Handoff.Between
        rw [hpc]
        exact ⟨nofun, nofun⟩
      refine ⟨fun _ => ?_, fun hn => absurd hb hn⟩
      rw [hloop]
      exact h.between hwait
    · rw [Master.exitClosed_loop]
      exact h.step hr hloop
  · exact ⟨h.between, h.inside⟩
  · exact h

theorem good_nodup {s : Handoff} (h : s.Good) : s.sent.Nodup := by
  by_cases hb : s.Between
  · rw [h.between hb]
    exact List.nodup_range
  · rw [(h.inside hb).2]
    exact List.nodup_range

/-- **A connection is open in one worker at most.** In every run of the master and its workers, with
a free descriptor for each message, in which the accept loop neither takes descriptor 0 for "no
connection" nor sends from the body of its retry loop: no connection is open at two places, in two
workers or as two descriptors of one, and whenever the loop is done with the connections accepted so
far, the ones taken and behind them those in the channel are all of them, in the order they were
accepted. -/
theorem exclusive (cfg : SystemSetup) (is : List SystemInput) (s : System)
    (h : Run.exec (step cfg) (init cfg) is = some s)
    (hall : Run.All (step cfg) Regular (init cfg) is) :
    (∀ c w k w' k', s.Holds w k c → s.Holds w' k' c → w = w' ∧ k = k') ∧
      (s.master.loop.Between → s.master.loop.registered.map Prod.snd ++ s.master.loop.chan =
        List.range s.master.loop.accepted.length) := by
  have hgood : s.master.loop.Good :=
    Run.inv_of_all (I := fun s : System => s.master.loop.Good)
      (fun _ _ _ hs hr hstep => good_step hs hr hstep) is Handoff.good_init hall h
  constructor
  · rintro c w k w' k' ⟨j, hk, hj⟩ ⟨j', hk', hj'⟩
    have hnodup : (s.master.loop.registered.map Prod.snd).Nodup := by
      have hsent := good_nodup hgood
      rw [← inOrder h] at hsent
      exact hsent.of_append_left
    obtain ⟨rfl, rfl⟩ := place_unique hnodup hj hj'
    exact ⟨rfl, (numbered h w).unique k k' j hk hk'⟩
  · intro hb
    rw [inOrder h, hgood.between hb]

theorem exclusive_pair : ∃ s, Run.exec (step samplePair) (init samplePair) sampleTaken = some s ∧
    s.Holds 1 5 0 ∧ ∀ w k, s.Holds w k 0 → 1 = w ∧ 5 = k := by
  refine ⟨_, rfl, ⟨0, rfl, rfl⟩, fun w k => ?_⟩
  exact (exclusive samplePair sampleTaken _ rfl (by decide)).1 0 1 5 w k ⟨0, rfl, rfl⟩

end System

end HttpCallback
