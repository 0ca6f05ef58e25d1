import Mathlib.Data.Finset.Erase
import Mathlib.Data.Finset.Insert
import HttpCallback.Lib.Run
import HttpCallback.Pool.Basic

/-!
# The manager and its workers

`init_manager_proc` forks the workers and records them in the free slots; when one dies,
`handler_dead_processor` unlinks its entry and records a new one through `insert_pool`, whose guard
is the counter. That counter goes down with every death and never up again, so the guard always lets
the new worker in: the pool records the live workers, whatever the order in which they die.
-/

namespace HttpCallback

/-- The manager's pool and the workers that are alive. -/
structure Manager where
  pool : ProcPool
  live : Finset Int

namespace Manager

/-- The loop of `init_manager_proc`, with `n = NPROC_MAX_NUM - i`; `forks` are the results of
`fork`. A failed `fork` exits, and in the child the call does not return. -/
def initLoop : Nat → List Int → Manager → Option Manager
  | 0, _, m => some m
  | _ + 1, [], _ => none
  | n + 1, pid :: forks, m =>
    if pid ≤ 0 then none
    else initLoop n forks ⟨m.pool.insertPoolObj pid, insert pid m.live⟩

def initManagerProc (forks : List Int) : Option Manager :=
  initLoop nprocMaxNum forks ⟨ProcPool.empty.createProcPool, ∅⟩

/-- `handler_dead_processor(dead, fd)`, called once the worker `dead` has died; `fork` is the result
of `fork`. -/
def handlerDeadProcessor (m : Manager) (dead fork : Int) : Option Manager :=
  let pool := m.pool.deletePoolObj dead
  if fork ≤ 0 then none
  else some ⟨pool.insertPool fork, insert fork (m.live.erase dead)⟩

/-- A death: the worker that dies and the result of the `fork` for it. -/
structure Death where
  dead : Int
  fork : Int
  deriving Repr, DecidableEq

def step (m : Manager) (d : Death) : Option Manager := m.handlerDeadProcessor d.dead d.fork

/-- The worker is recorded, and `fork` returns a pid that is not. -/
def Regular (m : Manager) (d : Death) : Prop :=
  d.dead ∈ m.pool.pids ∧ 0 < d.fork ∧ d.fork ∉ (m.pool.deletePoolObj d.dead).pids

instance (m : Manager) (d : Death) : Decidable (m.Regular d) := inferInstanceAs (Decidable (_ ∧ _))

/-- The pool records the live workers, each once, and has no other entries. -/
structure Supervised (m : Manager) : Prop where
  nodup : m.pool.pids.Nodup
  live : ∀ pid, pid ∈ m.pool.pids ↔ pid ∈ m.live
  length : m.pool.procs.length = nprocMaxNum

/-- What makes `insert_pool` let the new worker in. -/
structure Inv (m : Manager) : Prop where
  supervised : m.Supervised
  nProc : m.pool.nProc ≤ nprocMaxNum

/-! ## Start-up -/

/-- The entry of a worker that `init_manager_proc` has forked. -/
def started (pid : Int) : Processor := { procAlloc with pid := pid }

/-- The pool with the workers `done` recorded and `n` slots still free. -/
def partly (done : List Int) (n : Nat) : ProcPool :=
  ⟨done.length, done.map started ++ List.replicate n procAlloc⟩

/-- `insert_pool_obj` takes the slots in their order. -/
theorem insertPoolObj_partly {done : List Int} (hpos : ∀ pid ∈ done, 0 < pid) (n : Nat)
    (pid : Int) :
    (partly done (n + 1)).insertPoolObj pid = partly (done ++ [pid]) n := by
  have hfront : ∀ x ∈ done.map started, ¬x.IsFree := by
    intro x hx hfree
    obtain ⟨p, hp, rfl⟩ := List.mem_map.1 hx
    have hone : p = -1 := hfree
    have := hpos p hp
    omega
  have hfill : fillSlot pid (done.map started ++ List.replicate (n + 1) procAlloc) =
      some (done.map started ++ started pid :: List.replicate n procAlloc) := by
    have hfree : procAlloc.IsFree := rfl
    rw [List.replicate_succ, fillSlot_append hfront hfree]
    rfl
  unfold partly ProcPool.insertPoolObj
  simp only [hfill]
  simp

theorem initLoop_partly (n : Nat) : ∀ {forks done : List Int} {live : Finset Int},
    forks.length = n → (∀ pid ∈ done ++ forks, 0 < pid) → (∀ pid, pid ∈ done ↔ pid ∈ live) →
    ∃ m, initLoop n forks ⟨partly done n, live⟩ = some m ∧ m.pool = partly (done ++ forks) 0 ∧
      ∀ pid, pid ∈ done ++ forks ↔ pid ∈ m.live := by
  induction n with
  | zero =>
    intro forks done live hlen _ hlive
    rw [List.eq_nil_of_length_eq_zero hlen, List.append_nil]
    exact ⟨_, rfl, rfl, hlive⟩
  | succ n ih =>
    intro forks done live hlen hpos hlive
    obtain ⟨pid, forks, rfl⟩ := List.exists_cons_of_length_eq_add_one hlen
    have hpid : 0 < pid := hpos pid (List.mem_append_right _ List.mem_cons_self)
    have hdone : ∀ p ∈ done, 0 < p := fun p hp => hpos p (List.mem_append_left _ hp)
    rw [initLoop, if_neg (Int.not_le.2 hpid), insertPoolObj_partly hdone]
    rw [List.append_cons done pid forks] at hpos ⊢
    apply ih (Nat.succ.inj hlen) hpos
    intro p
    rw [List.mem_append, List.mem_singleton, Finset.mem_insert, hlive p, or_comm]

/-- After start-up the pool records the workers forked. -/
theorem initManagerProc_inv {forks : List Int} (hlen : forks.length = nprocMaxNum)
    (hpos : ∀ pid ∈ forks, 0 < pid) (hnodup : forks.Nodup) :
    ∃ m, initManagerProc forks = some m ∧ m.Inv := by
  have hcreate : ProcPool.empty.createProcPool = partly [] nprocMaxNum :=
    ProcPool.createProcPool_empty
  have hnone : ∀ pid, pid ∈ ([] : List Int) ↔ pid ∈ (∅ : Finset Int) := by simp
  obtain ⟨m, hm, hpool, hlive⟩ := initLoop_partly nprocMaxNum hlen (by simpa using hpos) hnone
  rw [List.nil_append] at hpool hlive
  have hpids : m.pool.pids = forks := by
    rw [hpool]
    unfold partly ProcPool.pids
    rw [List.replicate_zero, List.append_nil, List.map_map]
    exact List.map_id _
  refine ⟨m, by rw [initManagerProc, hcreate]; exact hm, ⟨⟨?_, ?_, ?_⟩, ?_⟩⟩
  · rw [hpids]
    exact hnodup
  · rw [hpids]
    exact hlive
  · rw [hpool]
    simp [partly, hlen]
  · rw [hpool]
    simp [partly, hlen]

/-! ## Deaths -/

/-- A worker that is recorded once is not recorded behind `delete_pool_obj`; the others are. -/
theorem pids_deletePoolObj {pool : ProcPool} {dead : Int} (hmem : dead ∈ pool.pids)
    (hnodup : pool.pids.Nodup) :
    (pool.deletePoolObj dead).pids.Nodup ∧
      (∀ pid, pid ∈ (pool.deletePoolObj dead).pids ↔ pid ∈ pool.pids ∧ pid ≠ dead) ∧
      (pool.deletePoolObj dead).procs.length + 1 = pool.procs.length := by
  obtain ⟨front, item, back, hprocs, rfl, -, herase⟩ :=
    eraseP_pid_of_mem (List.mem_map.1 hmem)
  have hdel : (pool.deletePoolObj item.pid).pids = front.map (·.pid) ++ back.map (·.pid) := by
    unfold ProcPool.pids ProcPool.deletePoolObj
    simp only [herase, List.map_append]
  have hpids : pool.pids = front.map (·.pid) ++ item.pid :: back.map (·.pid) := by
    unfold ProcPool.pids
    rw [hprocs, List.map_append, List.map_cons]
  have hperm : pool.pids.Perm (item.pid :: (pool.deletePoolObj item.pid).pids) := by
    rw [hpids, hdel]
    exact List.perm_middle
  obtain ⟨hnot, hrest⟩ := List.nodup_cons.1 (hperm.nodup_iff.1 hnodup)
  refine ⟨hrest, fun pid => ?_, ?_⟩
  · rw [hperm.mem_iff, List.mem_cons]
    constructor
    · exact fun h => ⟨Or.inr h, fun heq => hnot (heq ▸ h)⟩
    · exact fun h => h.1.resolve_left h.2
  · have hlen : (pool.deletePoolObj item.pid).procs = front ++ back := herase
    rw [hlen, hprocs, List.length_append, List.length_append, List.length_cons]
    rfl

/-- A regular death is handled and leaves the pool supervised. -/
theorem Inv.step {m : Manager} {d : Death} (h : m.Inv) (hr : m.Regular d) :
    ∃ m', m.step d = some m' ∧ m'.Inv := by
  obtain ⟨hdead, hfork, hfresh⟩ := hr
  obtain ⟨hnodup, hmem, hlen⟩ := pids_deletePoolObj hdead h.supervised.nodup
  have hlt : (m.pool.deletePoolObj d.dead).nProc < nprocMaxNum := by
    have hle := h.nProc
    have hdown : (m.pool.deletePoolObj d.dead).nProc = m.pool.nProc - 1 := rfl
    omega
  have hins : (m.pool.deletePoolObj d.dead).insertPool d.fork =
      (m.pool.deletePoolObj d.dead).insertHead (started d.fork) := if_pos hlt
  have hstep : m.step d = some ⟨(m.pool.deletePoolObj d.dead).insertHead (started d.fork),
      insert d.fork (m.live.erase d.dead)⟩ := by
    unfold Manager.step handlerDeadProcessor
    simp only [if_neg (Int.not_le.2 hfork), hins]
  refine ⟨_, hstep, ⟨⟨?_, ?_, ?_⟩, Int.le_of_lt hlt⟩⟩
  · exact List.nodup_cons.2 ⟨hfresh, hnodup⟩
  · intro pid
    have hhead : pid ∈ ((m.pool.deletePoolObj d.dead).insertHead (started d.fork)).pids ↔
        pid = d.fork ∨ pid ∈ (m.pool.deletePoolObj d.dead).pids := List.mem_cons
    rw [hhead, hmem, h.supervised.live, Finset.mem_insert, Finset.mem_erase,
      and_comm (a := pid ∈ m.live)]
  · have hcons : ((m.pool.deletePoolObj d.dead).insertHead (started d.fork)).procs.length =
        (m.pool.deletePoolObj d.dead).procs.length + 1 := List.length_cons
    rw [hcons, hlen]
    exact h.supervised.length

/-- **No worker is lost or recorded twice.** Start-up with forks of pairwise different pids returns,
and so does every sequence of deaths of recorded workers behind it, each with a fork that is not
recorded; in every state on the way the pool records exactly the live workers, each once, in
`NPROC_MAX_NUM` entries. -/
theorem supervised (forks : List Int) (hlen : forks.length = nprocMaxNum)
    (hpos : ∀ pid ∈ forks, 0 < pid) (hnodup : forks.Nodup) :
    ∃ m₀, initManagerProc forks = some m₀ ∧ ∀ deaths, Run.All step Regular m₀ deaths →
      ∃ m, Run.exec step m₀ deaths = some m ∧ m.Supervised := by
  obtain ⟨m₀, hm₀, hinv⟩ := initManagerProc_inv hlen hpos hnodup
  refine ⟨m₀, hm₀, fun deaths hall => ?_⟩
  obtain ⟨m, hm, hinv'⟩ := Run.progress (fun _ _ h hr => Inv.step h hr) deaths hinv hall
  exact ⟨m, hm, hinv'.supervised⟩

/-- A worker dies, and then the one forked for it. -/
theorem supervised_two : ∃ m₀, initManagerProc [1, 2, 3, 4, 5, 6, 7, 8, 9, 10] = some m₀ ∧
    ∃ m, Run.exec step m₀ [⟨3, 11⟩, ⟨11, 12⟩] = some m ∧ m.Supervised := by
  obtain ⟨m₀, hm₀, hruns⟩ :=
    supervised [1, 2, 3, 4, 5, 6, 7, 8, 9, 10] rfl (by decide) (by decide)
  refine ⟨m₀, hm₀, hruns _ ?_⟩
  obtain rfl := Option.some.inj hm₀
  decide

end Manager

end HttpCallback
