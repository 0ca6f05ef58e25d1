import Mathlib.Data.List.Basic

/-!
# The process pool

`PROC_POOL` lists the workers. `create_proc_pool` fills it with free slots, `insert_pool_obj` takes
the first free slot, `delete_pool_obj` unlinks the first entry of a pid, and `insert_pool` puts a new
entry in front. The head of the list carries a counter next to it, `n_proc`, which each of the three
treats in its own way. It and the `nleft` of the entries are taken to be unbounded.
-/

namespace HttpCallback

/-- `NPROC_MAX_NUM`. -/
def nprocMaxNum : Nat := 10

/-- `MAX_FD_NUM`. -/
def maxFdNum : Int := 200

/-- `processor_t`. -/
structure Processor where
  pid : Int
  nleft : Int
  status : Int
  deriving Repr, DecidableEq

/-- `struct s_pool_t`, with the chain of its entries. -/
structure ProcPool where
  nProc : Int
  procs : List Processor
  deriving Repr, DecidableEq

/-- `proc_alloc()`. -/
def procAlloc : Processor := ⟨-1, maxFdNum, 0⟩

/-- The entry is free. -/
def Processor.IsFree (item : Processor) : Prop := item.pid = -1

instance (item : Processor) : Decidable item.IsFree := inferInstanceAs (Decidable (_ = _))

/-- The loop of `insert_pool_obj`: the first free entry gets the pid; none when there is no free
entry. -/
def fillSlot (pid : Int) : List Processor → Option (List Processor)
  | [] => none
  | item :: procs =>
    if item.IsFree then some ({ item with pid := pid } :: procs)
    else (fillSlot pid procs).map (item :: ·)

namespace ProcPool

/-- `SLIST_HEAD_INITIALIZER`. -/
def empty : ProcPool := ⟨0, []⟩

/-- `SLIST_INSERT_HEAD`. -/
def insertHead (s : ProcPool) (item : Processor) : ProcPool := { s with procs := item :: s.procs }

/-- The loop of `create_proc_pool`, with `n = NPROC_MAX_NUM - i`. -/
def createLoop : Nat → ProcPool → ProcPool
  | 0, s => s
  | n + 1, s => createLoop n (s.insertHead procAlloc)

def createProcPool (s : ProcPool) : ProcPool := createLoop nprocMaxNum s

def insertPoolObj (s : ProcPool) (pid : Int) : ProcPool :=
  match fillSlot pid s.procs with
  | some procs => ⟨s.nProc + 1, procs⟩
  | none => s

/-- `delete_pool_obj`: the counter goes down whether the pid is found or not. -/
def deletePoolObj (s : ProcPool) (pid : Int) : ProcPool :=
  ⟨s.nProc - 1, s.procs.eraseP (·.pid = pid)⟩

/-- `insert_pool`: the counter is tested and left as it is. -/
def insertPool (s : ProcPool) (pid : Int) : ProcPool :=
  if s.nProc < nprocMaxNum then s.insertHead { procAlloc with pid := pid } else s

/-- The pids recorded, in the order of the list. -/
def pids (s : ProcPool) : List Int := s.procs.map (·.pid)

theorem createLoop_eq (n : Nat) : ∀ s : ProcPool,
    createLoop n s = ⟨s.nProc, List.replicate n procAlloc ++ s.procs⟩ := by
  induction n with
  | zero => exact fun _ => rfl
  | succ n ih =>
    intro s
    rw [createLoop, ih, List.replicate_succ', List.append_assoc]
    rfl

theorem createProcPool_empty :
    empty.createProcPool = ⟨0, List.replicate nprocMaxNum procAlloc⟩ := by
  unfold createProcPool
  rw [createLoop_eq]
  simp [empty]

end ProcPool

/-! ## Slots and entries -/

theorem fillSlot_none {pid : Int} {procs : List Processor} (h : fillSlot pid procs = none) :
    ∀ item ∈ procs, ¬item.IsFree := by
  induction procs with
  | nil => nofun
  | cons item procs ih =>
    unfold fillSlot at h
    split at h
    · cases h
    · rename_i hfree
      intro x hx
      rcases List.mem_cons.1 hx with rfl | hx
      · exact hfree
      · exact ih (Option.map_eq_none_iff.1 h) x hx

/-- The slot filled is the first that is free. -/
theorem fillSlot_some {pid : Int} {procs procs' : List Processor}
    (h : fillSlot pid procs = some procs') :
    ∃ front item back, procs = front ++ item :: back ∧ (∀ x ∈ front, ¬x.IsFree) ∧ item.IsFree ∧
      procs' = front ++ { item with pid := pid } :: back := by
  induction procs generalizing procs' with
  | nil => cases h
  | cons item procs ih =>
    unfold fillSlot at h
    split at h
    · rename_i hfree
      cases h
      exact ⟨[], item, procs, rfl, nofun, hfree, rfl⟩
    · rename_i hfree
      obtain ⟨procs'', hrest, rfl⟩ := Option.map_eq_some_iff.1 h
      obtain ⟨front, item', back, rfl, hfront, hfree', rfl⟩ := ih hrest
      refine ⟨item :: front, item', back, rfl, ?_, hfree', rfl⟩
      intro x hx
      rcases List.mem_cons.1 hx with rfl | hx
      · exact hfree
      · exact hfront x hx

theorem fillSlot_append {pid : Int} {front back : List Processor} {item : Processor}
    (hfront : ∀ x ∈ front, ¬x.IsFree) (hfree : item.IsFree) :
    fillSlot pid (front ++ item :: back) = some (front ++ { item with pid := pid } :: back) := by
  induction front with
  | nil => exact if_pos hfree
  | cons x front ih =>
    rw [List.cons_append, fillSlot, if_neg (hfront x List.mem_cons_self),
      ih fun y hy => hfront y (List.mem_cons_of_mem x hy)]
    rfl

/-- Unlinking an entry that is there. -/
theorem eraseP_pid_of_mem {pid : Int} {procs : List Processor}
    (h : ∃ item ∈ procs, item.pid = pid) :
    ∃ front item back, procs = front ++ item :: back ∧ item.pid = pid ∧
      (∀ x ∈ front, x.pid ≠ pid) ∧ procs.eraseP (·.pid = pid) = front ++ back := by
  obtain ⟨x, hx, hpid⟩ := h
  obtain ⟨item, front, back, hfront, hitem, heq, herase⟩ :=
    List.exists_of_eraseP hx (p := (·.pid = pid)) (by simpa using hpid)
  exact ⟨front, item, back, heq, by simpa using hitem, fun y hy => by simpa using hfront y hy,
    herase⟩

end HttpCallback
