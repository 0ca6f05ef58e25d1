import HttpCallback.Lib.LeastLoaded
import HttpCallback.Pool.Balance
import HttpCallback.Pool.Supervision

/-!
# The manager as a dispatcher

The pool in use: after start-up, `notice_child` is called for each connection and
`handler_dead_processor` for each worker that dies, in any order. `nleft` counts down from
`MAX_FD_NUM` with what a worker has been given, and a new worker starts with all of it, so the pool
is a least-loaded dispatcher (`Dispatcher.step_refines`), and no worker gets more than its share
(`Dispatcher.fair_share`). `tell_chld_exit` reaches each live worker once (`Dispatcher.shutdown`).
-/

namespace HttpCallback

inductive ManagerOp
  | death (d : Manager.Death)
  | notice
  deriving Repr, DecidableEq

/-- The manager, with what has been handed out: `given` counts how often `notice_child` has returned
a pid since its worker was forked, `calls` how often it has been called. -/
structure Dispatcher where
  manager : Manager
  given : Int → Nat
  calls : Nat

/-- `tell_chld_exit`: the pids that it passes to `kill`, in their order. -/
def ProcPool.tellChldExit (s : ProcPool) : List Int := s.procs.map fun item => item.pid

namespace Dispatcher

def start (m : Manager) : Dispatcher := ⟨m, fun _ => 0, 0⟩

def step (s : Dispatcher) : ManagerOp → Option Dispatcher
  | .death d =>
    (s.manager.step d).map fun m => ⟨m, Function.update s.given d.fork 0, s.calls⟩
  | .notice =>
    s.manager.pool.noticeChild.map fun (pid, pool) =>
      ⟨{ s.manager with pool := pool }, Function.update s.given pid (s.given pid + 1), s.calls + 1⟩

/-- A death is regular. -/
def Regular (s : Dispatcher) : ManagerOp → Prop
  | .death d => s.manager.Regular d
  | .notice => True

instance (s : Dispatcher) (op : ManagerOp) : Decidable (s.Regular op) := by
  unfold Regular
  split <;> infer_instance

/-- What the pool is for. -/
def abs (s : Dispatcher) : LeastLoaded.State Int := ⟨s.manager.live, s.given⟩

structure Inv (s : Dispatcher) : Prop where
  manager : s.manager.Inv
  loads : ∀ item ∈ s.manager.pool.procs, item.nleft = maxFdNum - s.given item.pid
  pos : ∀ pid ∈ s.manager.pool.pids, 0 < pid
  fair : LeastLoaded.Fair nprocMaxNum s.calls s.abs

variable {s s' : Dispatcher}

/-! ## The calls of `notice_child` -/

/-- The entry with the most left is that of a worker with the least load. -/
theorem Inv.least (h : s.Inv) {item : Processor} (hitem : item ∈ s.manager.pool.procs)
    (hmax : ∀ x ∈ s.manager.pool.procs, x.nleft ≤ item.nleft) :
    item.pid ∈ s.manager.live ∧ ∀ q ∈ s.manager.live, s.given item.pid ≤ s.given q := by
  refine ⟨(h.manager.supervised.live _).1 (List.mem_map_of_mem hitem), fun q hq => ?_⟩
  obtain ⟨x, hx, rfl⟩ := List.mem_map.1 ((h.manager.supervised.live q).2 hq)
  have hle := hmax x hx
  rw [h.loads x hx, h.loads item hitem] at hle
  omega

theorem Inv.notice (h : s.Inv) :
    ∃ s' pid pool, s.manager.pool.noticeChild = some (pid, pool) ∧ s.step .notice = some s' ∧
      pid ∈ s.manager.live ∧ (∀ q ∈ s.manager.live, s.given pid ≤ s.given q) ∧
      s'.abs = s.abs.assign pid ∧ s'.Inv := by
  have hne : s.manager.pool.procs ≠ [] := by
    intro hnil
    have hlen := h.manager.supervised.length
    rw [hnil] at hlen
    cases hlen
  obtain ⟨front, item, back, hprocs, hfront, hback⟩ := exists_last_max hne
  have hmem : item ∈ s.manager.pool.procs := by
    rw [hprocs]
    exact List.mem_append_right _ List.mem_cons_self
  have hmax : ∀ x ∈ s.manager.pool.procs, x.nleft ≤ item.nleft := by
    intro x hx
    rw [hprocs, List.mem_append, List.mem_cons] at hx
    rcases hx with hx | rfl | hx
    · exact hfront x hx
    · exact Int.le_refl _
    · exact Int.le_of_lt (hback x hx)
  have hnotice := ProcPool.noticeChild_split hprocs hfront hback
  obtain ⟨hlive, hmin⟩ := h.least hmem hmax
  have hstep : s.step .notice = some ⟨{ s.manager with
      pool := { s.manager.pool with procs := front ++ item.assign :: back } },
      Function.update s.given item.pid (s.given item.pid + 1), s.calls + 1⟩ := by
    rw [step, hnotice]
    rfl
  refine ⟨_, item.pid, _, hnotice, hstep, hlive, hmin, rfl, ?_⟩
  have hpids : front.map (·.pid) ++ item.pid :: back.map (·.pid) = s.manager.pool.pids := by
    unfold ProcPool.pids
    rw [hprocs, List.map_append, List.map_cons]
  have hpids' : ProcPool.pids { s.manager.pool with procs := front ++ item.assign :: back } =
      s.manager.pool.pids := by
    rw [← hpids]
    unfold ProcPool.pids
    rw [List.map_append, List.map_cons]
    rfl
  have hother : ∀ x ∈ front ++ back, x.pid ≠ item.pid := by
    have hnodup := h.manager.supervised.nodup
    rw [← hpids] at hnodup
    have hnot := (List.nodup_cons.1 (List.perm_middle.nodup_iff.1 hnodup)).1
    intro x hx heq
    refine hnot ?_
    rw [← List.map_append, ← heq]
    exact List.mem_map_of_mem hx
  constructor
  · refine ⟨⟨?_, fun pid => ?_, ?_⟩, h.manager.nProc⟩
    · rw [hpids']
      exact h.manager.supervised.nodup
    · rw [hpids']
      exact h.manager.supervised.live pid
    · have hlen := h.manager.supervised.length
      rw [hprocs] at hlen
      simp only [List.length_append, List.length_cons] at hlen ⊢
      exact hlen
  · intro x hx
    rcases List.mem_append.1 hx with hx | hx
    · have hne := hother x (List.mem_append_left _ hx)
      simp only [Function.update_of_ne hne]
      refine h.loads x ?_
      rw [hprocs]
      exact List.mem_append_left _ hx
    · rcases List.mem_cons.1 hx with rfl | hx
      · have hload := h.loads item hmem
        have hpid : item.assign.pid = item.pid := rfl
        have hleft : item.assign.nleft = item.nleft - 1 := rfl
        simp only [hpid, hleft, Function.update_self, hload]
        push_cast
        omega
      · have hne := hother x (List.mem_append_right _ hx)
        simp only [Function.update_of_ne hne]
        refine h.loads x ?_
        rw [hprocs]
        exact List.mem_append_right _ (List.mem_cons_of_mem _ hx)
  · rw [hpids']
    exact h.pos
  · exact h.fair.assign hlive hmin

/-! ## The deaths -/

/-- A regular death: the entry of the dead worker is out, that of the new one in front. -/
theorem handled {m : Manager} {d : Manager.Death} (h : m.Inv) (hr : m.Regular d) :
    m.step d = some ⟨(m.pool.deletePoolObj d.dead).insertHead (Manager.started d.fork),
      insert d.fork (m.live.erase d.dead)⟩ := by
  have hlt : (m.pool.deletePoolObj d.dead).nProc < nprocMaxNum := by
    have hle := h.nProc
    have hdown : (m.pool.deletePoolObj d.dead).nProc = m.pool.nProc - 1 := rfl
    omega
  have hins : (m.pool.deletePoolObj d.dead).insertPool d.fork =
      (m.pool.deletePoolObj d.dead).insertHead (Manager.started d.fork) := if_pos hlt
  unfold Manager.step Manager.handlerDeadProcessor
  simp only [if_neg (Int.not_le.2 hr.2.1), hins]

theorem Inv.death (h : s.Inv) {d : Manager.Death} (hr : s.manager.Regular d) :
    ∃ s', s.step (.death d) = some s' ∧ d.dead ∈ s.manager.live ∧
      d.fork ∉ s.manager.live.erase d.dead ∧ s'.abs = s.abs.replace d.dead d.fork ∧ s'.Inv := by
  have hstep := handled h.manager hr
  obtain ⟨m, hm, hinv⟩ := h.manager.step hr
  rw [hstep, Option.some.injEq] at hm
  subst hm
  obtain ⟨hdead, hfork, hfresh⟩ := hr
  have hsup := h.manager.supervised
  obtain ⟨-, hmem, -⟩ := Manager.pids_deletePoolObj hdead hsup.nodup
  have hlive : d.dead ∈ s.manager.live := (hsup.live _).1 hdead
  have hnew : d.fork ∉ s.manager.live.erase d.dead := by
    rw [Finset.mem_erase, ← hsup.live, and_comm, ← hmem]
    exact hfresh
  refine ⟨⟨_, Function.update s.given d.fork 0, s.calls⟩, ?_, hlive, hnew, rfl, hinv, ?_, ?_,
    h.fair.replace hlive hnew⟩
  · rw [step, hstep]
    rfl
  · intro x hx
    rcases List.mem_cons.1 hx with rfl | hx
    · have hpid : (Manager.started d.fork).pid = d.fork := rfl
      simp only [hpid, Function.update_self]
      exact (Int.sub_zero _).symm
    · have hne : x.pid ≠ d.fork := fun heq => hfresh (heq ▸ List.mem_map_of_mem hx)
      simp only [Function.update_of_ne hne]
      exact h.loads x (List.mem_of_mem_eraseP hx)
  · intro pid hpid
    rcases List.mem_cons.1 hpid with rfl | hpid
    · exact hfork
    · exact h.pos pid ((hmem pid).1 hpid).1

/-! ## Runs -/

/-- **The pool is a least-loaded dispatcher**: every call of `notice_child` and every death that is
handled is a step of one. -/
theorem step_refines (h : s.Inv) {op : ManagerOp} (hr : s.Regular op) :
    ∃ s' k, s.step op = some s' ∧ LeastLoaded.Step s.abs k s'.abs ∧ s'.Inv := by
  cases op with
  | death d =>
    obtain ⟨s', hstep, hdead, hfork, habs, hinv⟩ := h.death hr
    exact ⟨s', 0, hstep, habs ▸ .replace _ _ _ hdead hfork, hinv⟩
  | notice =>
    obtain ⟨s', pid, pool, -, hstep, hlive, hmin, habs, hinv⟩ := h.notice
    exact ⟨s', 1, hstep, habs ▸ .assign _ _ hlive hmin, hinv⟩

theorem run_inv {ops : List ManagerOp} (h : s.Inv) (hall : Run.All step Regular s ops) :
    ∃ s', Run.exec step s ops = some s' ∧ s'.Inv :=
  Run.progress (fun _ _ hs hr => by
    obtain ⟨s', -, hstep, -, hinv⟩ := step_refines hs hr
    exact ⟨s', hstep, hinv⟩) ops h hall

/-! ## Start-up -/

/-- After `k` turns of the loop of `init_manager_proc` the first `k` slots are taken. -/
theorem initLoop_take (k : Nat) : ∀ {forks done : List Int} {live : Finset Int} (n : Nat),
    forks.length = k → (∀ pid ∈ done ++ forks, 0 < pid) → (∀ pid, pid ∈ done ↔ pid ∈ live) →
    ∃ m, Manager.initLoop k forks ⟨Manager.partly done (k + n), live⟩ = some m ∧
      m.pool = Manager.partly (done ++ forks) n ∧ ∀ pid, pid ∈ done ++ forks ↔ pid ∈ m.live := by
  induction k with
  | zero =>
    intro forks done live n hlen _ hlive
    rw [List.eq_nil_of_length_eq_zero hlen, List.append_nil, Nat.zero_add]
    exact ⟨_, rfl, rfl, hlive⟩
  | succ k ih =>
    intro forks done live n hlen hpos hlive
    obtain ⟨pid, forks, rfl⟩ := List.exists_cons_of_length_eq_add_one hlen
    have hpid : 0 < pid := hpos pid (List.mem_append_right _ List.mem_cons_self)
    have hdone : ∀ p ∈ done, 0 < p := fun p hp => hpos p (List.mem_append_left _ hp)
    rw [Manager.initLoop, if_neg (Int.not_le.2 hpid), Nat.add_right_comm,
      Manager.insertPoolObj_partly hdone]
    rw [List.append_cons done pid forks] at hpos ⊢
    apply ih n (Nat.succ.inj hlen) hpos
    intro p
    rw [List.mem_append, List.mem_singleton, Finset.mem_insert, hlive p, or_comm]

theorem tellChldExit_partly (done : List Int) (n : Nat) :
    (Manager.partly done n).tellChldExit = done ++ List.replicate n (-1) := by
  unfold ProcPool.tellChldExit Manager.partly
  rw [List.map_append, List.map_replicate, List.map_map]
  exact congrArg (· ++ _) (List.map_id _)

variable {forks : List Int}

/-- The loop of start-up, stopped after `k` turns. -/
theorem initLoop_startup (hpos : ∀ pid ∈ forks, 0 < pid) {k : Nat} (hk : k ≤ forks.length)
    (hlen : forks.length = nprocMaxNum) :
    ∃ m, Manager.initLoop k (forks.take k) ⟨ProcPool.empty.createProcPool, ∅⟩ = some m ∧
      m.pool = Manager.partly (forks.take k) (nprocMaxNum - k) ∧
      ∀ pid, pid ∈ forks.take k ↔ pid ∈ m.live := by
  have hcreate : ProcPool.empty.createProcPool =
      Manager.partly [] (k + (nprocMaxNum - k)) := by
    rw [Nat.add_sub_cancel' (hlen ▸ hk)]
    exact ProcPool.createProcPool_empty
  have htake : (forks.take k).length = k := List.length_take_of_le hk
  rw [hcreate]
  exact initLoop_take k (nprocMaxNum - k) htake
    (by simpa using fun pid hpid => hpos pid (List.mem_of_mem_take hpid)) (by simp)

theorem start_inv (hlen : forks.length = nprocMaxNum) (hpos : ∀ pid ∈ forks, 0 < pid)
    (hnodup : forks.Nodup) :
    ∃ m, Manager.initManagerProc forks = some m ∧ (start m).Inv := by
  obtain ⟨m, hm, hinv⟩ := Manager.initManagerProc_inv hlen hpos hnodup
  obtain ⟨m', hm', hpool, hlive⟩ := initLoop_startup hpos (Nat.le_of_eq hlen.symm) hlen
  rw [List.take_of_length_le (Nat.le_of_eq hlen)] at hm' hpool hlive
  obtain rfl : m = m' := Option.some.inj (hm.symm.trans hm')
  have hprocs : m.pool.procs = forks.map Manager.started := by
    rw [hpool, Nat.sub_self]
    exact List.append_nil _
  have hcard : m.live.card = nprocMaxNum := by
    have hset : m.live = forks.toFinset := Finset.ext fun pid => by
      rw [List.mem_toFinset, hlive]
    rw [hset, List.toFinset_card_of_nodup hnodup, hlen]
  refine ⟨m, hm, hinv, fun x hx => ?_, fun pid hpid => ?_, ?_⟩
  · rw [start, hprocs] at hx
    obtain ⟨pid, -, rfl⟩ := List.mem_map.1 hx
    exact (Int.sub_zero _).symm
  · exact hpos pid ((hlive pid).2 ((hinv.supervised.live pid).1 hpid))
  · have hzero : ∀ p ∈ (start m).abs.live, (start m).abs.load p = 0 := fun _ _ => rfl
    rw [← hcard]
    exact LeastLoaded.fair_init hzero

/-- **No worker is given more than its share, whoever dies when.** Start-up with forks of pairwise
different pids returns, and so does every sequence of `notice_child` calls and deaths of recorded
workers behind it, in any order, each death with a fork that is not recorded. In every state on the
way the pool records exactly the live workers; each of them has its `nleft` down by the connections
it was given, which are at most a `NPROC_MAX_NUM`-th of all connections handed out, rounded up; and
the next connection goes to a live worker that has been given no more than any other. `n_proc` and
`nleft` are taken to be unbounded. -/
theorem fair_share (forks : List Int) (hlen : forks.length = nprocMaxNum)
    (hpos : ∀ pid ∈ forks, 0 < pid) (hnodup : forks.Nodup) :
    ∃ m, Manager.initManagerProc forks = some m ∧
      ∀ ops, Run.All step Regular (start m) ops →
        ∃ s, Run.exec step (start m) ops = some s ∧ s.manager.Supervised ∧
          (∀ item ∈ s.manager.pool.procs, item.nleft = maxFdNum - s.given item.pid ∧
            s.given item.pid ≤ (s.calls + nprocMaxNum - 1) / nprocMaxNum) ∧
          ∃ pid pool, s.manager.pool.noticeChild = some (pid, pool) ∧ pid ∈ s.manager.live ∧
            ∀ q ∈ s.manager.live, s.given pid ≤ s.given q := by
  obtain ⟨m, hm, hinv⟩ := start_inv hlen hpos hnodup
  refine ⟨m, hm, fun ops hall => ?_⟩
  obtain ⟨s, hs, hend⟩ := run_inv hinv hall
  have hsup := hend.manager.supervised
  obtain ⟨-, pid, pool, hnotice, -, hlive, hmin, -⟩ := hend.notice
  refine ⟨s, hs, hsup, fun x hx => ⟨hend.loads x hx, ?_⟩, pid, pool, hnotice, hlive, hmin⟩
  exact hend.fair.share _ ((hsup.live _).1 (List.mem_map_of_mem hx))

/-- Three calls, a death, and another call. -/
theorem fair_share_four : ∃ m, Manager.initManagerProc [1, 2, 3, 4, 5, 6, 7, 8, 9, 10] = some m ∧
    ∃ s, Run.exec step (start m) [.notice, .notice, .death ⟨3, 11⟩, .notice] = some s ∧
      s.manager.Supervised := by
  obtain ⟨m, hm, hruns⟩ := fair_share [1, 2, 3, 4, 5, 6, 7, 8, 9, 10] rfl (by decide) (by decide)
  refine ⟨m, hm, ?_⟩
  obtain rfl := Option.some.inj hm
  obtain ⟨s, hs, hsup, -⟩ := hruns [.notice, .notice, .death ⟨3, 11⟩, .notice] (by decide)
  exact ⟨s, hs, hsup⟩

/-! ## Shutting down -/

/-- **Every live worker is told to exit, once, and nobody else**, behind start-up and any sequence
of calls and deaths. Before start-up is done, when the first `k` workers have been forked, the free
slots are told too: `NPROC_MAX_NUM - k` times `kill` is called with -1, which reaches every process
there is. `n_proc` and `nleft` are taken to be unbounded. -/
theorem shutdown (forks : List Int) (hlen : forks.length = nprocMaxNum)
    (hpos : ∀ pid ∈ forks, 0 < pid) (hnodup : forks.Nodup) :
    (∀ k ≤ forks.length, ∃ m,
      Manager.initLoop k (forks.take k) ⟨ProcPool.empty.createProcPool, ∅⟩ = some m ∧
        m.pool.tellChldExit = forks.take k ++ List.replicate (nprocMaxNum - k) (-1)) ∧
    ∃ m, Manager.initManagerProc forks = some m ∧
      ∀ ops, Run.All step Regular (start m) ops →
        ∃ s, Run.exec step (start m) ops = some s ∧ s.manager.pool.tellChldExit.Nodup ∧
          (∀ pid, pid ∈ s.manager.pool.tellChldExit ↔ pid ∈ s.manager.live) ∧
          ∀ pid ∈ s.manager.pool.tellChldExit, 0 < pid := by
  constructor
  · intro k hk
    obtain ⟨m, hm, hpool, -⟩ := initLoop_startup hpos hk hlen
    exact ⟨m, hm, by rw [hpool, tellChldExit_partly]⟩
  · obtain ⟨m, hm, hinv⟩ := start_inv hlen hpos hnodup
    refine ⟨m, hm, fun ops hall => ?_⟩
    obtain ⟨s, hs, hend⟩ := run_inv hinv hall
    exact ⟨s, hs, hend.manager.supervised.nodup, hend.manager.supervised.live, hend.pos⟩

/-- A worker has died and been replaced. -/
theorem shutdown_one : ∃ m, Manager.initManagerProc [1, 2, 3, 4, 5, 6, 7, 8, 9, 10] = some m ∧
    ∃ s, Run.exec step (start m) [.death ⟨3, 11⟩] = some s ∧
      s.manager.pool.tellChldExit.Nodup := by
  obtain ⟨m, hm, hruns⟩ :=
    (shutdown [1, 2, 3, 4, 5, 6, 7, 8, 9, 10] rfl (by decide) (by decide)).2
  refine ⟨m, hm, ?_⟩
  obtain rfl := Option.some.inj hm
  obtain ⟨s, hs, hnodup, -⟩ := hruns [.death ⟨3, 11⟩] (by decide)
  exact ⟨s, hs, hnodup⟩

end Dispatcher

end HttpCallback
