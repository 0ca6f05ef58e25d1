import HttpCallback.Lib.Run
import HttpCallback.Pool.Basic

/-!
# The counter of the pool

`n_proc` is meant to count the workers in the list. `insert_pool_obj` counts what it records,
`delete_pool_obj` takes one off even if it finds nothing, and `insert_pool` adds an entry without
counting it. `counted_iff` gives the sequences of calls along which counter and list stay in step.
-/

namespace HttpCallback

inductive PoolOp
  | insertPoolObj (pid : Int)
  | insertPool (pid : Int)
  | deletePoolObj (pid : Int)
  deriving Repr, DecidableEq

namespace ProcPool

variable {s s' : ProcPool} {pid : Int}

def apply (s : ProcPool) : PoolOp → ProcPool
  | .insertPoolObj pid => s.insertPoolObj pid
  | .insertPool pid => s.insertPool pid
  | .deletePoolObj pid => s.deletePoolObj pid

def step (s : ProcPool) (op : PoolOp) : Option ProcPool := some (s.apply op)

/-- The number of entries that record a pid. -/
def used (procs : List Processor) : Nat := procs.countP fun item => ¬item.IsFree

/-- The counter counts the entries in use, and there are not too many entries. -/
structure Counted (s : ProcPool) : Prop where
  nProc : s.nProc = used s.procs
  length : s.procs.length ≤ nprocMaxNum

/-- The call keeps counter and list in step: a slot is filled with a pid or there is none to fill,
nothing is put in front except a free slot that still fits, and what is deleted is recorded. -/
def Exact (s : ProcPool) : PoolOp → Prop
  | .insertPoolObj pid => pid ≠ -1 ∨ ∀ item ∈ s.procs, ¬item.IsFree
  | .insertPool pid => nprocMaxNum ≤ s.nProc ∨ (pid = -1 ∧ s.procs.length < nprocMaxNum)
  | .deletePoolObj pid => pid ≠ -1 ∧ ∃ item ∈ s.procs, item.pid = pid

theorem used_append (procs procs' : List Processor) :
    used (procs ++ procs') = used procs + used procs' := List.countP_append

/-- An entry counts unless its pid is -1. -/
theorem used_cons (item : Processor) (procs : List Processor) :
    used (item :: procs) = used procs + if item.pid = -1 then 0 else 1 := by
  unfold used Processor.IsFree
  rw [List.countP_cons]
  by_cases h : item.pid = -1 <;> simp [h]

theorem counted_create : empty.createProcPool.Counted := by
  rw [createProcPool_empty]
  exact ⟨by decide, by decide⟩

/-! ## Steps -/

theorem Counted.insertPoolObj_iff (h : s.Counted) :
    (s.insertPoolObj pid).Counted ↔ pid ≠ -1 ∨ ∀ item ∈ s.procs, ¬item.IsFree := by
  unfold insertPoolObj
  cases hfill : fillSlot pid s.procs with
  | none => exact ⟨fun _ => Or.inr (fillSlot_none hfill), fun _ => h⟩
  | some procs =>
    obtain ⟨front, item, back, hprocs, -, hfree, rfl⟩ := fillSlot_some hfill
    have hpid : item.pid = -1 := hfree
    have hcount := h.nProc
    have hlen := h.length
    rw [hprocs] at hcount hlen
    rw [used_append, used_cons, if_pos hpid] at hcount
    rw [List.length_append, List.length_cons] at hlen
    have hfull : ¬∀ x ∈ s.procs, ¬x.IsFree := by
      intro hall
      exact hall item (hprocs ▸ List.mem_append_right _ List.mem_cons_self) hfree
    show Counted ⟨s.nProc + 1, front ++ { item with pid := pid } :: back⟩ ↔ _
    constructor
    · intro h'
      have hcount' : s.nProc + 1 = used (front ++ { item with pid := pid } :: back) := h'.nProc
      rw [used_append, used_cons] at hcount'
      refine Or.inl fun hp => ?_
      rw [if_pos hp] at hcount'
      omega
    · intro h'
      have hp := h'.resolve_right hfull
      refine ⟨?_, ?_⟩
      · show s.nProc + 1 = used (front ++ { item with pid := pid } :: back)
        rw [used_append, used_cons, if_neg hp]
        omega
      · rw [List.length_append, List.length_cons]
        exact hlen

theorem Counted.insertPool_iff (h : s.Counted) :
    (s.insertPool pid).Counted ↔
      nprocMaxNum ≤ s.nProc ∨ (pid = -1 ∧ s.procs.length < nprocMaxNum) := by
  have hcount := h.nProc
  unfold insertPool
  by_cases hlt : s.nProc < nprocMaxNum
  · rw [if_pos hlt]
    have hused : used (s.insertHead { procAlloc with pid := pid }).procs =
        used s.procs + if pid = -1 then 0 else 1 := used_cons _ _
    have hlen : (s.insertHead { procAlloc with pid := pid }).procs.length =
        s.procs.length + 1 := List.length_cons
    constructor
    · intro h'
      have hcount' : s.nProc = _ := h'.nProc
      have hlen' := h'.length
      rw [hused] at hcount'
      refine Or.inr ⟨?_, by omega⟩
      by_contra hp
      rw [if_neg hp] at hcount'
      omega
    · intro h'
      obtain ⟨hp, hroom⟩ := h'.resolve_left (by omega)
      refine ⟨?_, by omega⟩
      rw [hused, if_pos hp]
      exact hcount
  · rw [if_neg hlt]
    exact ⟨fun _ => Or.inl (Int.not_lt.1 hlt), fun _ => h⟩

theorem Counted.deletePoolObj_iff (h : s.Counted) :
    (s.deletePoolObj pid).Counted ↔ pid ≠ -1 ∧ ∃ item ∈ s.procs, item.pid = pid := by
  have hcount := h.nProc
  have hlen := h.length
  by_cases hmem : ∃ item ∈ s.procs, item.pid = pid
  · obtain ⟨front, item, back, hprocs, hpid, -, herase⟩ := eraseP_pid_of_mem hmem
    rw [hprocs, used_append, used_cons, hpid] at hcount
    rw [hprocs, List.length_append, List.length_cons] at hlen
    constructor
    · intro h'
      have hcount' : s.nProc - 1 = used (s.procs.eraseP (·.pid = pid)) := h'.nProc
      rw [herase, used_append] at hcount'
      refine ⟨fun hp => ?_, hmem⟩
      rw [if_pos hp] at hcount
      omega
    · rintro ⟨hp, -⟩
      rw [if_neg hp] at hcount
      constructor
      · show s.nProc - 1 = used (s.procs.eraseP (·.pid = pid))
        rw [herase, used_append]
        omega
      · show (s.procs.eraseP (·.pid = pid)).length ≤ nprocMaxNum
        rw [herase, List.length_append]
        omega
  · have herase : s.procs.eraseP (·.pid = pid) = s.procs :=
      List.eraseP_of_forall_not fun x hx hp => hmem ⟨x, hx, by simpa using hp⟩
    refine ⟨fun h' => ?_, fun h' => absurd h'.2 hmem⟩
    have hcount' : s.nProc - 1 = used (s.procs.eraseP (·.pid = pid)) := h'.nProc
    rw [herase] at hcount'
    omega

theorem Counted.step_iff (h : s.Counted) {op : PoolOp} (hstep : s.step op = some s') :
    s'.Counted ↔ s.Exact op := by
  cases hstep
  cases op with
  | insertPoolObj pid => exact h.insertPoolObj_iff
  | insertPool pid => exact h.insertPool_iff
  | deletePoolObj pid => exact h.deletePoolObj_iff

/-- **Counter and list stay in step exactly along the exact calls.** For every sequence of calls on
the pool that `create_proc_pool` makes: in every state that it leads through, `n_proc` counts the
entries in use and there are at most `NPROC_MAX_NUM` entries, if and only if every call in it is
exact in the state it is made in. -/
theorem counted_iff (ops : List PoolOp) :
    (∀ ops' s, ops' <+: ops → Run.exec ProcPool.step empty.createProcPool ops' = some s →
        s.Counted) ↔
      Run.All ProcPool.step Exact empty.createProcPool ops := by
  obtain ⟨s, hs⟩ := Run.exec_total (fun s op => ⟨s.apply op, rfl⟩) ops empty.createProcPool
  exact Run.always_iff (fun _ _ _ h hs => h.step_iff hs) ops counted_create hs

/-- `insert_pool` on the new pool: an eleventh entry that is not counted. -/
theorem counted_insertPool :
    ¬∀ (ops : List PoolOp) (s : ProcPool),
      Run.exec ProcPool.step empty.createProcPool ops = some s → s.Counted := by
  intro h
  have hs := h [.insertPool 5] _ rfl
  exact absurd hs.length (by decide)

end ProcPool

end HttpCallback
