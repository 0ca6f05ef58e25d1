import HttpCallback.Pool.Nodes

/-!
# The manager on nodes

Start-up, `notice_child` and the deaths of workers are calls of the pool's functions: on lists they
are the dispatcher (`exec_managerCalls`), on nodes they are what they are on lists (`run_refines`).
So in use the pool's code never follows NULL or a pointer to a freed node (`managed`), although
`notice_child` by itself would on an empty pool.
-/

namespace HttpCallback

open SList

/-- The calls of `init_manager_proc`. -/
def startCalls (ms : List Malloc) (forks : List Int) : List PoolCall :=
  .createProcPool ms :: forks.map .insertPoolObj

/-- The calls of an operation; `m` is what `malloc` returns to it. -/
def ManagerOp.poolCalls (m : Malloc) : ManagerOp → List PoolCall
  | .death d => [.deletePoolObj d.dead, .insertPool d.fork m]
  | .notice => [.noticeChild]

def opCalls (ops : List (ManagerOp × Malloc)) : List PoolCall :=
  ops.flatMap fun x => x.1.poolCalls x.2

def managerCalls (ms : List Malloc) (forks : List Int) (ops : List (ManagerOp × Malloc)) :
    List PoolCall :=
  startCalls ms forks ++ opCalls ops

/-! ## On lists -/

variable {forks : List Int}

theorem exec_initLoop {n : Nat} {m m' : Manager} (hlen : forks.length = n)
    (h : Manager.initLoop n forks m = some m') :
    ∀ log, ∃ log', Run.exec ProcPool.stepCall (log, m.pool) (forks.map .insertPoolObj) =
      some (log', m'.pool) := by
  induction n generalizing forks m with
  | zero =>
    cases h
    rw [List.eq_nil_of_length_eq_zero hlen]
    exact fun log => ⟨log, rfl⟩
  | succ n ih =>
    obtain ⟨pid, forks, rfl⟩ := List.exists_cons_of_length_eq_add_one hlen
    have hrest : forks.length = n := Nat.succ.inj hlen
    rw [Manager.initLoop] at h
    split at h
    · cases h
    · have hloop := ih hrest h
      exact fun log => hloop (log ++ [[]])

theorem exec_startCalls {m : Manager} (hlen : forks.length = nprocMaxNum)
    (h : Manager.initManagerProc forks = some m) (ms : List Malloc) :
    ∃ log, Run.exec ProcPool.stepCall ([], ProcPool.empty) (startCalls ms forks) =
      some (log, m.pool) :=
  exec_initLoop hlen h [[]]

/-- A step of the dispatcher. -/
theorem exec_poolCalls {s s' : Dispatcher} {op : ManagerOp} (h : s.step op = some s')
    (m : Malloc) (log : List (List Int)) :
    ∃ log', Run.exec ProcPool.stepCall (log, s.manager.pool) (op.poolCalls m) =
      some (log', s'.manager.pool) := by
  cases op with
  | death d =>
    obtain ⟨m', hm', rfl⟩ := Option.map_eq_some_iff.1 h
    unfold Manager.step Manager.handlerDeadProcessor at hm'
    simp only at hm'
    split at hm'
    · cases hm'
    · cases hm'
      exact ⟨_, rfl⟩
  | notice =>
    obtain ⟨⟨pid, pool⟩, hnotice, rfl⟩ := Option.map_eq_some_iff.1 h
    refine ⟨log ++ [[pid]], ?_⟩
    have hcall : ProcPool.stepCall (log, s.manager.pool) .noticeChild =
        some (log ++ [[pid]], pool) := by
      rw [ProcPool.stepCall, ProcPool.call, hnotice]
      rfl
    rw [ManagerOp.poolCalls, Run.exec, hcall]
    rfl

theorem exec_opCalls {ops : List (ManagerOp × Malloc)} {s s' : Dispatcher}
    (h : Run.exec Dispatcher.step s (ops.map Prod.fst) = some s') :
    ∀ log, ∃ log', Run.exec ProcPool.stepCall (log, s.manager.pool) (opCalls ops) =
      some (log', s'.manager.pool) := by
  induction ops generalizing s with
  | nil =>
    cases h
    exact fun log => ⟨log, rfl⟩
  | cons x ops ih =>
    intro log
    obtain ⟨t, ht, hrest⟩ := Run.exec_cons h
    obtain ⟨log₁, hfirst⟩ := exec_poolCalls ht x.2 log
    obtain ⟨log₂, hlast⟩ := ih hrest log₁
    exact ⟨log₂, Run.exec_append hfirst hlast⟩

/-- The manager in use, on lists. -/
theorem exec_managerCalls {m : Manager} {s : Dispatcher} {ops : List (ManagerOp × Malloc)}
    (hlen : forks.length = nprocMaxNum) (hm : Manager.initManagerProc forks = some m)
    (hs : Run.exec Dispatcher.step (Dispatcher.start m) (ops.map Prod.fst) = some s)
    (ms : List Malloc) :
    ∃ log, Run.exec ProcPool.stepCall ([], ProcPool.empty) (managerCalls ms forks ops) =
      some (log, s.manager.pool) := by
  obtain ⟨log₁, hfirst⟩ := exec_startCalls hlen hm ms
  obtain ⟨log₂, hlast⟩ := exec_opCalls hs log₁
  exact ⟨log₂, Run.exec_append hfirst hlast⟩

/-! ## On nodes -/

/-- Start-up takes one block for each worker, an operation one at most. -/
theorem blocks_managerCalls (ms : List Malloc) (forks : List Int)
    (ops : List (ManagerOp × Malloc)) :
    ((managerCalls ms forks ops).map PoolCall.blocks).sum ≤ nprocMaxNum + ops.length := by
  have hinsert : ((forks.map PoolCall.insertPoolObj).map PoolCall.blocks).sum = 0 := by
    rw [List.map_map]
    exact List.sum_eq_zero fun n hn => by
      obtain ⟨pid, -, rfl⟩ := List.mem_map.1 hn
      rfl
  have hops : ((opCalls ops).map PoolCall.blocks).sum ≤ ops.length := by
    induction ops with
    | nil => exact le_rfl
    | cons x ops ih =>
      have hop : ((x.1.poolCalls x.2).map PoolCall.blocks).sum ≤ 1 := by
        cases x.1 <;> simp [ManagerOp.poolCalls, PoolCall.blocks]
      rw [opCalls, List.flatMap_cons, List.map_append, List.sum_append, List.length_cons,
        Nat.add_comm ops.length]
      exact Nat.add_le_add hop ih
  rw [managerCalls, List.map_append, List.sum_append, startCalls, List.map_cons, List.sum_cons,
    hinsert]
  exact Nat.add_le_add_left hops _

/-- **The pool in use is safe, and it is the dispatcher.** Start-up and any sequence of
`notice_child` calls and of regular deaths behind it, on nodes from a `malloc` that returns blocks
in no use: every call returns, the list is then the pool of the dispatcher, which records each live
worker once with what it has been given, no more than its share, and the nodes allocated are the
ones of the list. `n_proc` and `nleft` are taken to be unbounded. -/
theorem managed (forks : List Int) (hlen : forks.length = nprocMaxNum)
    (hpos : ∀ pid ∈ forks, 0 < pid) (hnodup : forks.Nodup) :
    ∃ m, Manager.initManagerProc forks = some m ∧
      ∀ (ms : List Malloc) (ops : List (ManagerOp × Malloc)) (fuel : Nat),
        nprocMaxNum + ops.length < fuel →
        Run.All Dispatcher.step Dispatcher.Regular (Dispatcher.start m) (ops.map Prod.fst) →
        Run.All (PoolMem.stepCall fuel) PoolMem.Fresh ([], PoolMem.empty)
          (managerCalls ms forks ops) →
        ∃ s log mem,
          Run.exec Dispatcher.step (Dispatcher.start m) (ops.map Prod.fst) = some s ∧
          Run.exec (PoolMem.stepCall fuel) ([], PoolMem.empty) (managerCalls ms forks ops) =
            some (log, mem) ∧
          mem.Holds s.manager.pool ∧ (∀ b, mem.heap b ≠ none ↔ Reaches mem.heap mem.first b) ∧
          s.manager.Supervised ∧
          ∀ item ∈ s.manager.pool.procs, item.nleft = maxFdNum - s.given item.pid ∧
            s.given item.pid ≤ (s.calls + nprocMaxNum - 1) / nprocMaxNum := by
  obtain ⟨m, hm, hinv⟩ := Dispatcher.start_inv hlen hpos hnodup
  refine ⟨m, hm, fun ms ops fuel hfuel hall hfresh => ?_⟩
  obtain ⟨s, hs, hend⟩ := Dispatcher.run_inv hinv hall
  have hsup := hend.manager.supervised
  obtain ⟨log, hlists⟩ := exec_managerCalls hlen hm hs ms
  have hblocks := blocks_managerCalls ms forks ops
  have hrel := PoolMem.run_refines PoolMem.owns_empty (by rw [List.length_nil]; omega) hfresh
  have hview : PoolMem.empty.view [] = ProcPool.empty := rfl
  rw [hview, hlists] at hrel
  generalize Run.exec (PoolMem.stepCall fuel) ([], PoolMem.empty) (managerCalls ms forks ops) = r
    at hrel ⊢
  cases hrel with
  | some hrefines =>
    rename_i nodes
    obtain ⟨-, hholds, hreach⟩ := hrefines
    refine ⟨s, nodes.1, nodes.2, hs, rfl, hholds, hreach, hsup,
      fun x hx => ⟨hend.loads x hx, ?_⟩⟩
    exact hend.fair.share _ ((hsup.live _).1 (List.mem_map_of_mem hx))

/-- A worker is given a connection, another one dies. -/
theorem managed_two : ∃ log mem, Run.exec (PoolMem.stepCall 13) ([], PoolMem.empty)
    (managerCalls ((List.range 10).map fun i => ⟨16 * (i + 1), none⟩)
      [1, 2, 3, 4, 5, 6, 7, 8, 9, 10]
      [(.notice, ⟨0, none⟩), (.death ⟨3, 11⟩, ⟨128, some 7⟩)]) = some (log, mem) := by
  obtain ⟨m, hm, hruns⟩ := managed [1, 2, 3, 4, 5, 6, 7, 8, 9, 10] rfl (by decide) (by decide)
  obtain rfl := Option.some.inj hm
  obtain ⟨s, log, mem, -, hrun, -⟩ := hruns ((List.range 10).map fun i => ⟨16 * (i + 1), none⟩)
    [(.notice, ⟨0, none⟩), (.death ⟨3, 11⟩, ⟨128, some 7⟩)] 13 (by decide) (by decide +kernel)
    (by decide +kernel)
  exact ⟨log, mem, hrun⟩

end HttpCallback
