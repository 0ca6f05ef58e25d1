import HttpCallback.Lib.SList
import HttpCallback.Pool.Basic

/-!
# Unlinking a worker

`delete_pool_obj` on the nodes of the list. It runs with a pointer `pre` behind `item`; an entry at
the head is taken out by moving the head on, any other by giving `pre` the pointer of the entry.
What is left is the list without the first entry of the pid (`deletePoolObj_erases`). The counter
goes down in either case.
-/

namespace HttpCallback

open SList

/-- `proc_pool` as it lies in memory. -/
structure PoolMem where
  nProc : Int
  first : Option Nat
  heap : Heap Processor

namespace PoolMem

/-- The loop of `delete_pool_obj`, none where a pointer is followed or freed that is no node's. A
list of `n` entries takes up to `n + 1` turns. -/
def deleteLoop (pid : Int) : Nat → Option Nat → Option Nat → PoolMem → Option PoolMem
  | 0, _, _, _ => none
  | _ + 1, _, none, s => some s
  | fuel + 1, pre, some item, s => do
    let node ← s.heap item
    if node.val.pid = pid then
      if some item = s.first then
        let heap ← free s.heap item
        return { s with first := node.next, heap := heap }
      else
        let heap ← link s.heap (← pre) node.next
        let heap ← free heap item
        return { s with heap := heap }
    else deleteLoop pid fuel (some item) node.next s

def deletePoolObj (fuel : Nat) (s : PoolMem) (pid : Int) : Option PoolMem :=
  (deleteLoop pid fuel s.first s.first s).map fun s => { s with nProc := s.nProc - 1 }

/-- The list `pool` lies in memory. -/
def Holds (s : PoolMem) (pool : ProcPool) : Prop :=
  ∃ xs, Chain s.heap s.first xs ∧ pool = ⟨s.nProc, xs.map Prod.snd⟩

/-! ## The loop -/

section Loop

variable {s : PoolMem} {pid : Int} {pre item item' : Option Nat} {b fuel : Nat} {w : Processor}
  {front back xs : List (Nat × Processor)}

/-- `pre` behind the entries that `item` has passed. -/
def trail (pre : Option Nat) : List (Nat × Processor) → Option Nat
  | [] => pre
  | x :: xs => trail (some x.1) xs

theorem trail_concat (pre : Option Nat) (front : List (Nat × Processor)) (x : Nat × Processor) :
    trail pre (front ++ [x]) = some x.1 := by
  induction front generalizing pre with
  | nil => rfl
  | cons y front ih => exact ih _

/-- The loop passes entries of other pids, and `pre` follows. -/
theorem deleteLoop_pass (hseg : Seg s.heap item front item') (hfront : ∀ x ∈ front, x.2.pid ≠ pid)
    (pre : Option Nat) (fuel : Nat) :
    deleteLoop pid (fuel + front.length) pre item s =
      deleteLoop pid fuel (trail pre front) item' s := by
  induction front generalizing pre item with
  | nil =>
    cases hseg
    rfl
  | cons x front ih =>
    have hx : x.2.pid ≠ pid := hfront x List.mem_cons_self
    have hrest : ∀ y ∈ front, y.2.pid ≠ pid := fun y hy => hfront y (List.mem_cons_of_mem x hy)
    cases hseg with
    | cons hnode hseg =>
      rw [List.length_cons, ← Nat.add_assoc, deleteLoop, hnode, Option.bind_eq_bind,
        Option.bind_some, if_neg hx]
      exact ih hseg hrest _

/-- Without an entry of the pid it comes to the end. -/
theorem deleteLoop_absent (hxs : Chain s.heap s.first xs) (hpid : ∀ x ∈ xs, x.2.pid ≠ pid)
    (hfuel : xs.length < fuel) : deleteLoop pid fuel s.first s.first s = some s := by
  obtain ⟨k, rfl⟩ := Nat.exists_eq_add_of_lt hfuel
  rw [show xs.length + k + 1 = k + 1 + xs.length by omega, deleteLoop_pass hxs hpid]
  rfl

/-- The first entry of the pid is unlinked and freed. -/
theorem deleteLoop_present (hxs : Chain s.heap s.first (front ++ (b, w) :: back))
    (hfront : ∀ x ∈ front, x.2.pid ≠ pid) (hw : w.pid = pid) :
    ∃ first heap, (∀ fuel, front.length < fuel →
        deleteLoop pid fuel s.first s.first s = some ⟨s.nProc, first, heap⟩) ∧
      Unlinked s.heap heap first front b back := by
  obtain ⟨hseg, -⟩ := seg_append_cons.1 hxs
  have hpass : ∀ fuel, front.length < fuel → ∃ k,
      deleteLoop pid fuel s.first s.first s =
        deleteLoop pid (k + 1) (trail s.first front) (some b) s := by
    intro fuel hfuel
    obtain ⟨k, rfl⟩ := Nat.exists_eq_add_of_lt hfuel
    refine ⟨k, ?_⟩
    rw [show front.length + k + 1 = k + 1 + front.length by omega, deleteLoop_pass hseg hfront]
  rcases List.eq_nil_or_concat front with rfl | ⟨init, ⟨a, v⟩, hinit⟩
  · obtain ⟨next, heap, hfirst, hnode, hfree, hun⟩ := Chain.unlink_head hxs
    refine ⟨next, heap, fun fuel hfuel => ?_, hun⟩
    obtain ⟨k, hk⟩ := hpass fuel hfuel
    rw [hk, deleteLoop, hnode, Option.bind_eq_bind, Option.bind_some, if_pos hw, if_pos hfirst.symm,
      hfree]
    rfl
  · rw [List.concat_eq_append] at hinit
    subst hinit
    have hfirst : ¬some b = s.first :=
      (Chain.head_ne hxs (List.append_ne_nil_of_right_ne_nil _ (List.cons_ne_nil _ _))).symm
    rw [← List.append_cons] at hxs
    obtain ⟨next, heap₁, heap, hnode, hlink, hfree, hun⟩ := Chain.unlink_behind hxs
    refine ⟨s.first, heap, fun fuel hfuel => ?_, hun⟩
    obtain ⟨k, hk⟩ := hpass fuel hfuel
    rw [hk, trail_concat, deleteLoop, hnode, Option.bind_eq_bind, Option.bind_some, if_pos hw,
      if_neg hfirst]
    simp only [Option.bind_eq_bind, Option.bind_some, hlink, hfree]
    rfl

end Loop

/-! ## The whole function -/

section Function

variable {s : PoolMem} {xs : List (Nat × Processor)}

/-- A list without the pid, or the first entry that has it. -/
theorem split_pid (pid : Int) (xs : List (Nat × Processor)) :
    (xs.find? (·.2.pid = pid) = none ∧ (∀ x ∈ xs, x.2.pid ≠ pid) ∧
      xs.eraseP (·.2.pid = pid) = xs) ∨
    ∃ front b w back, xs.find? (·.2.pid = pid) = some (b, w) ∧ xs = front ++ (b, w) :: back ∧
      (∀ x ∈ front, x.2.pid ≠ pid) ∧ w.pid = pid ∧ xs.eraseP (·.2.pid = pid) = front ++ back := by
  cases hfind : xs.find? (·.2.pid = pid) with
  | none =>
    have hpid : ∀ x ∈ xs, x.2.pid ≠ pid := by simpa using hfind
    exact Or.inl ⟨rfl, hpid, List.eraseP_of_forall_not (by simpa using hpid)⟩
  | some x =>
    obtain ⟨hx, front, back, rfl, hfront⟩ := List.find?_eq_some_iff_append.1 hfind
    have hhead : (x :: back).eraseP (·.2.pid = pid) = back := List.eraseP_cons_of_pos hx
    refine Or.inr ⟨front, x.1, x.2, back, rfl, rfl, by simpa using hfront, by simpa using hx, ?_⟩
    rw [List.eraseP_append_right _ (by simpa using hfront), hhead]

/-- The ways through a call. -/
theorem deletePoolObj_ways (h : Chain s.heap s.first xs) (pid : Int) :
    ∃ s', (∀ fuel, xs.length < fuel → s.deletePoolObj fuel pid = some s') ∧
      s'.nProc = s.nProc - 1 ∧ Chain s'.heap s'.first (xs.eraseP (·.2.pid = pid)) ∧
      ((xs.find? (·.2.pid = pid) = none ∧ s'.first = s.first ∧ s'.heap = s.heap) ∨
        ∃ front b w back, xs.find? (·.2.pid = pid) = some (b, w) ∧ w.pid = pid ∧
          xs = front ++ (b, w) :: back ∧ Unlinked s.heap s'.heap s'.first front b back) := by
  rcases split_pid pid xs with ⟨hfind, hpid, herase⟩ |
    ⟨front, b, w, back, hfind, rfl, hfront, hw, herase⟩
  · refine ⟨{ s with nProc := s.nProc - 1 }, fun fuel hfuel => ?_, rfl, by rwa [herase],
      Or.inl ⟨hfind, rfl, rfl⟩⟩
    rw [deletePoolObj, deleteLoop_absent h hpid hfuel]
    rfl
  · obtain ⟨first, heap, hloop, hun⟩ := deleteLoop_present h hfront hw
    refine ⟨⟨s.nProc - 1, first, heap⟩, fun fuel hfuel => ?_, rfl, by rw [herase]; exact hun.chain,
      Or.inr ⟨front, b, w, back, hfind, hw, rfl, hun⟩⟩
    rw [List.length_append, List.length_cons] at hfuel
    rw [deletePoolObj, hloop fuel (by omega)]
    rfl

/-- What a call should leave of the list `xs`: the first entry with the pid is out of it and freed,
no other node is freed, and what is outside the list is as it was. -/
structure Erases (s s' : PoolMem) (xs : List (Nat × Processor)) (pid : Int) : Prop where
  chain : Chain s'.heap s'.first (xs.eraseP (·.2.pid = pid))
  freed : ∀ a, s'.heap a = none ↔
    s.heap a = none ∨ ∃ x, xs.find? (·.2.pid = pid) = some x ∧ a = x.1
  unreachable : ∀ x, xs.find? (·.2.pid = pid) = some x → ¬Reaches s'.heap s'.first x.1
  frame : ∀ a, a ∉ xs.map Prod.fst → s'.heap a = s.heap a
  absent : (∀ x ∈ xs, x.2.pid ≠ pid) → s'.first = s.first ∧ s'.heap = s.heap

/-- **`delete_pool_obj` erases the first entry of the pid.** For every list in memory, of any
length, and every pid: the call returns, and what it leaves is the list without the first entry that
has this pid, whose node is the only one freed and cannot be reached any more. -/
theorem deletePoolObj_erases (s : PoolMem) (xs : List (Nat × Processor)) (pid : Int)
    (h : Chain s.heap s.first xs) :
    ∃ s', (∀ fuel, xs.length < fuel → s.deletePoolObj fuel pid = some s') ∧
      s.Erases s' xs pid := by
  obtain ⟨s', hret, -, hchain, hways⟩ := deletePoolObj_ways h pid
  refine ⟨s', hret, ?_⟩
  rcases hways with ⟨hfind, hfirst, hheap⟩ | ⟨front, b, w, back, hfind, hw, rfl, hun⟩
  · refine ⟨hchain, fun a => ?_, fun x hx => ?_, fun _ _ => by rw [hheap],
      fun _ => ⟨hfirst, hheap⟩⟩
    · rw [hfind, hheap]
      simp
    · rw [hfind] at hx
      cases hx
  · refine ⟨hchain, fun a => ?_, fun x hx => ?_, fun a ha => ?_, fun hpid => ?_⟩
    · rw [hun.none_iff h, hfind]
      simp
    · rw [hfind] at hx
      cases hx
      exact hun.not_reaches h
    · rw [List.map_append, List.map_cons, List.mem_append, List.mem_cons, not_or, not_or] at ha
      exact hun.frame a ha.1 ha.2.1
    · exact absurd hw (hpid (b, w) (List.mem_append_right _ List.mem_cons_self))

/-- Three workers at the addresses 16, 32 and 48. -/
def poolThree : PoolMem where
  nProc := 3
  first := some 16
  heap a :=
    if a = 16 then some ⟨⟨501, 200, 0⟩, some 32⟩
    else if a = 32 then some ⟨⟨502, 200, 0⟩, some 48⟩
    else if a = 48 then some ⟨⟨503, 200, 0⟩, none⟩
    else none

/-- The one in the middle. -/
theorem deletePoolObj_erases_middle :
    ∃ s', (∀ fuel, 3 < fuel → poolThree.deletePoolObj fuel 502 = some s') ∧
      poolThree.Erases s' [(16, ⟨501, 200, 0⟩), (32, ⟨502, 200, 0⟩), (48, ⟨503, 200, 0⟩)] 502 :=
  deletePoolObj_erases poolThree [(16, ⟨501, 200, 0⟩), (32, ⟨502, 200, 0⟩), (48, ⟨503, 200, 0⟩)] 502
    (.cons rfl (.cons rfl (.cons rfl (.nil none))))

end Function

end PoolMem

end HttpCallback
