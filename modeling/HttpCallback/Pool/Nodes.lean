import HttpCallback.Lib.Foreach
import HttpCallback.Lib.Run
import HttpCallback.Pool.Balance
import HttpCallback.Pool.Dispatch
import HttpCallback.Pool.Status
import HttpCallback.Pool.Unlink

/-!
# The pool in memory

The other functions of the pool on the nodes of its list. Each loop is an `SLIST_FOREACH`, given by
its body; a new entry is a node from `malloc`, put in front. A sequence of calls on nodes does what
it does on lists, with the same results, and behind it exactly the nodes of the list are allocated
(`calls_refine`): no pointer to a freed node is followed, none is freed twice, and none is lost.
-/

namespace HttpCallback

open SList

/-- What `malloc` returns: an address, and what the link there held. -/
structure Malloc where
  addr : Nat
  junk : Option Nat
  deriving Repr, DecidableEq

inductive PoolCall
  | createProcPool (ms : List Malloc)
  | insertPoolObj (pid : Int)
  | insertPool (pid : Int) (m : Malloc)
  | deletePoolObj (pid : Int)
  | setStatusOk (pid : Int)
  | crossOk (pid : Int)
  | noticeChild
  | tellChldExit
  deriving Repr, DecidableEq

namespace PoolMem

def empty : PoolMem := ⟨0, none, fun _ => none⟩

/-- `proc_alloc`, the fields of the entry, and `SLIST_INSERT_HEAD`. -/
def insertNew (s : PoolMem) (m : Malloc) (item : Processor) : Option PoolMem := do
  let heap ← alloc s.heap m.addr item m.junk
  let heap ← link heap m.addr s.first
  return { s with first := some m.addr, heap := heap }

/-- The loop of `create_proc_pool`, with `n = NPROC_MAX_NUM - i`. -/
def createLoop : Nat → List Malloc → PoolMem → Option PoolMem
  | 0, _, s => some s
  | _ + 1, [], _ => none
  | n + 1, m :: ms, s => do createLoop n ms (← s.insertNew m procAlloc)

def insertPool (s : PoolMem) (pid : Int) (m : Malloc) : Option PoolMem :=
  if s.nProc < nprocMaxNum then s.insertNew m { procAlloc with pid := pid } else some s

def insertPoolObjBody (pid : Int) (nProc : Int) (_ : Nat) (item : Processor) :
    Visit Processor Int :=
  if item.pid = -1 then ⟨nProc + 1, { item with pid := pid }, false⟩ else ⟨nProc, item, true⟩

def insertPoolObj (fuel : Nat) (s : PoolMem) (pid : Int) : Option PoolMem :=
  (foreach (insertPoolObjBody pid) fuel s.first s.nProc s.heap).map fun (nProc, heap) =>
    { s with nProc := nProc, heap := heap }

def setStatusOkBody (pid : Int) (_ : Unit) (_ : Nat) (item : Processor) : Visit Processor Unit :=
  ⟨(), if item.pid = pid then { item with status := 1 } else item, true⟩

def setStatusOk (fuel : Nat) (s : PoolMem) (pid : Int) : Option PoolMem :=
  (foreach (setStatusOkBody pid) fuel s.first () s.heap).map fun (_, heap) =>
    { s with heap := heap }

def crossOkBody (pid : Int) (ret : Int) (_ : Nat) (item : Processor) : Visit Processor Int :=
  let item' := { item with pid := crossTest pid item }
  if crossTest pid item ≠ 0 then ⟨0, item', false⟩ else ⟨ret, item', true⟩

def crossOk (fuel : Nat) (s : PoolMem) (pid : Int) : Option (Int × PoolMem) :=
  (foreach (crossOkBody pid) fuel s.first (-1) s.heap).map fun (ret, heap) =>
    (ret, { s with heap := heap })

/-- The accumulator is `max`, and `pre` with the `pid` of its entry. -/
def noticeBody (acc : Int × Option (Nat × Int)) (a : Nat) (item : Processor) :
    Visit Processor (Int × Option (Nat × Int)) :=
  if acc.1 ≤ item.nleft then ⟨(item.nleft, some (a, item.pid)), item, true⟩ else ⟨acc, item, true⟩

def noticeChild (fuel : Nat) (s : PoolMem) : Option (Int × PoolMem) := do
  let first ← s.heap (← s.first)
  let (acc, heap) ← foreach noticeBody fuel s.first (first.val.nleft, none) s.heap
  let (pre, pid) ← acc.2
  let node ← heap pre
  let heap ← store heap pre node.val.assign
  return (pid, { s with heap := heap })

def tellChldExitBody (pids : List Int) (_ : Nat) (item : Processor) : Visit Processor (List Int) :=
  ⟨pids ++ [item.pid], item, true⟩

def tellChldExit (fuel : Nat) (s : PoolMem) : Option (List Int × PoolMem) :=
  (foreach tellChldExitBody fuel s.first [] s.heap).map fun (pids, heap) =>
    (pids, { s with heap := heap })

/-- A call: what it returns, or passes to `kill`, and the pool behind it. -/
def call (fuel : Nat) (s : PoolMem) : PoolCall → Option (List Int × PoolMem)
  | .createProcPool ms => (createLoop nprocMaxNum ms s).map fun s => ([], s)
  | .insertPoolObj pid => (s.insertPoolObj fuel pid).map fun s => ([], s)
  | .insertPool pid m => (s.insertPool pid m).map fun s => ([], s)
  | .deletePoolObj pid => (s.deletePoolObj fuel pid).map fun s => ([], s)
  | .setStatusOk pid => (s.setStatusOk fuel pid).map fun s => ([], s)
  | .crossOk pid => (s.crossOk fuel pid).map fun (ret, s) => ([ret], s)
  | .noticeChild => (s.noticeChild fuel).map fun (pid, s) => ([pid], s)
  | .tellChldExit => s.tellChldExit fuel

end PoolMem

/-- How many blocks a call takes from `malloc`. -/
def PoolCall.blocks : PoolCall → Nat
  | .createProcPool _ => nprocMaxNum
  | .insertPool _ _ => 1
  | _ => 0

/-- The same calls on lists. -/
def ProcPool.call (s : ProcPool) : PoolCall → Option (List Int × ProcPool)
  | .createProcPool _ => some ([], s.createProcPool)
  | .insertPoolObj pid => some ([], s.insertPoolObj pid)
  | .insertPool pid _ => some ([], s.insertPool pid)
  | .deletePoolObj pid => some ([], s.deletePoolObj pid)
  | .setStatusOk pid => some ([], s.setStatusOk pid)
  | .crossOk pid => some ([(s.crossOk pid).1], (s.crossOk pid).2)
  | .noticeChild => s.noticeChild.map fun (pid, s) => ([pid], s)
  | .tellChldExit => some (s.tellChldExit, s)

def ProcPool.stepCall (s : List (List Int) × ProcPool) (c : PoolCall) :
    Option (List (List Int) × ProcPool) :=
  (s.2.call c).map fun (ret, pool) => (s.1 ++ [ret], pool)

namespace PoolMem

/-- The nodes of the list are `xs`, and no others are allocated. -/
structure Owns (s : PoolMem) (xs : List (Nat × Processor)) : Prop where
  chain : Chain s.heap s.first xs
  nodes : ∀ a, s.heap a ≠ none → a ∈ xs.map Prod.fst

/-- The pool that the nodes stand for. -/
def view (s : PoolMem) (xs : List (Nat × Processor)) : ProcPool := ⟨s.nProc, xs.map Prod.snd⟩

variable {s : PoolMem} {xs ys : List (Nat × Processor)} {fuel : Nat} {pid : Int}

theorem owns_empty : empty.Owns [] := ⟨.nil none, nofun⟩

/-- A loop leaves the nodes where they are. -/
theorem Owns.revalued (h : s.Owns xs) {heap : Heap Processor}
    (hre : Revalued s.heap heap s.first xs ys) (nProc : Int) :
    Owns { s with nProc := nProc, heap := heap } ys := by
  refine ⟨hre.chain, fun a ha => ?_⟩
  rw [hre.addrs]
  by_contra hnot
  simp only [hre.frame a hnot] at ha
  exact hnot (h.nodes a ha)

/-! ## The loops -/

theorem walk_insertPoolObj (pid : Int) (xs : List (Nat × Processor)) (n : Int) :
    (walk (insertPoolObjBody pid) n xs).1 =
        (if (fillSlot pid (xs.map Prod.snd)).isSome then n + 1 else n) ∧
      (walk (insertPoolObjBody pid) n xs).2.map Prod.snd =
        (fillSlot pid (xs.map Prod.snd)).getD (xs.map Prod.snd) := by
  induction xs with
  | nil => exact ⟨rfl, rfl⟩
  | cons x xs ih =>
    obtain ⟨a, item⟩ := x
    by_cases hfree : item.pid = -1
    · have hfree' : item.IsFree := hfree
      simp [walk, insertPoolObjBody, fillSlot, hfree, hfree']
    · have hfree' : ¬item.IsFree := hfree
      have hstep : insertPoolObjBody pid n a item = ⟨n, item, true⟩ := if_neg hfree
      obtain ⟨hacc, hval⟩ := ih
      simp only [walk, hstep, if_true, List.map_cons, fillSlot, hfree', if_false]
      rw [hacc, hval, Option.isSome_map]
      refine ⟨rfl, ?_⟩
      cases fillSlot pid (xs.map Prod.snd) <;> rfl

theorem Owns.insertPoolObj (h : s.Owns xs) (hfuel : xs.length < fuel) (pid : Int) :
    ∃ s' ys, s.insertPoolObj fuel pid = some s' ∧ s'.Owns ys ∧ ys.length = xs.length ∧
      s'.view ys = (s.view xs).insertPoolObj pid := by
  obtain ⟨heap, hloop, hre⟩ := foreach_walk (insertPoolObjBody pid) s.nProc h.chain
  obtain ⟨hacc, hval⟩ := walk_insertPoolObj pid xs s.nProc
  refine ⟨_, _, by rw [PoolMem.insertPoolObj, hloop fuel hfuel]; rfl, h.revalued hre _, ?_, ?_⟩
  · simpa using congrArg List.length hre.addrs
  · unfold view ProcPool.insertPoolObj
    rw [hacc, hval]
    simp only
    cases fillSlot pid (xs.map Prod.snd) <;> rfl

theorem Owns.setStatusOk (h : s.Owns xs) (hfuel : xs.length < fuel) (pid : Int) :
    ∃ s' ys, s.setStatusOk fuel pid = some s' ∧ s'.Owns ys ∧ ys.length = xs.length ∧
      s'.view ys = (s.view xs).setStatusOk pid := by
  obtain ⟨heap, hloop, hre⟩ := foreach_walk (setStatusOkBody pid) () h.chain
  refine ⟨_, _, by rw [PoolMem.setStatusOk, hloop fuel hfuel]; rfl, h.revalued hre _, ?_, ?_⟩
  · simpa using congrArg List.length hre.addrs
  · have hval := @walk_map _ _ (setStatusOkBody pid) _ (fun _ _ _ => rfl) (fun _ _ _ => rfl) () xs
    unfold view ProcPool.setStatusOk
    rw [hval, List.map_map, List.map_map]
    rfl

theorem walk_crossOk (pid : Int) (xs : List (Nat × Processor)) :
    (walk (crossOkBody pid) (-1) xs).1 = (crossOkLoop pid (xs.map Prod.snd)).1 ∧
      (walk (crossOkBody pid) (-1) xs).2.map Prod.snd = (crossOkLoop pid (xs.map Prod.snd)).2 := by
  induction xs with
  | nil => exact ⟨rfl, rfl⟩
  | cons x xs ih =>
    obtain ⟨a, item⟩ := x
    obtain ⟨hacc, hval⟩ := ih
    by_cases htest : crossTest pid item = 0
    · have hstep : crossOkBody pid (-1) a item = ⟨-1, { item with pid := 0 }, true⟩ := by
        simp [crossOkBody, htest]
      simp only [walk, hstep, if_true, List.map_cons, crossOkLoop, htest, hacc, hval, ne_eq,
        not_true_eq_false, if_false]
      exact ⟨trivial, trivial⟩
    · have hstep : crossOkBody pid (-1) a item =
          ⟨0, { item with pid := crossTest pid item }, false⟩ := if_pos htest
      simp [walk, hstep, crossOkLoop, htest]

theorem Owns.crossOk (h : s.Owns xs) (hfuel : xs.length < fuel) (pid : Int) :
    ∃ s' ys, s.crossOk fuel pid = some (((s.view xs).crossOk pid).1, s') ∧ s'.Owns ys ∧
      ys.length = xs.length ∧ s'.view ys = ((s.view xs).crossOk pid).2 := by
  obtain ⟨heap, hloop, hre⟩ := foreach_walk (crossOkBody pid) (-1) h.chain
  obtain ⟨hacc, hval⟩ := walk_crossOk pid xs
  refine ⟨_, _, by rw [PoolMem.crossOk, hloop fuel hfuel, hacc]; rfl, h.revalued hre _, ?_, ?_⟩
  · simpa using congrArg List.length hre.addrs
  · unfold view ProcPool.crossOk
    rw [hval]

theorem walk_tellChldExit (xs : List (Nat × Processor)) (pids : List Int) :
    (walk tellChldExitBody pids xs).1 = pids ++ xs.map (·.2.pid) := by
  induction xs generalizing pids with
  | nil => exact (List.append_nil _).symm
  | cons x xs ih =>
    obtain ⟨a, item⟩ := x
    have hstep : tellChldExitBody pids a item = ⟨pids ++ [item.pid], item, true⟩ := rfl
    rw [walk, hstep, List.map_cons]
    exact (ih _).trans (List.append_assoc ..)

theorem Owns.tellChldExit (h : s.Owns xs) (hfuel : xs.length < fuel) :
    ∃ s', s.tellChldExit fuel = some ((s.view xs).tellChldExit, s') ∧ s'.Owns xs ∧
      s'.view xs = s.view xs := by
  obtain ⟨heap, hloop, hre⟩ := foreach_walk tellChldExitBody [] h.chain
  rw [walk_reads (fun _ _ _ => rfl) (fun _ _ _ => rfl)] at hre
  have hpids : (walk tellChldExitBody [] xs).1 = (s.view xs).tellChldExit := by
    rw [walk_tellChldExit, List.nil_append]
    unfold view ProcPool.tellChldExit
    rw [List.map_map]
    rfl
  exact ⟨_, by rw [PoolMem.tellChldExit, hloop fuel hfuel, hpids]; rfl, h.revalued hre _, rfl⟩

/-! ## The next worker -/

/-- Values behind the last of the largest are passed. -/
theorem walk_notice_back {acc : Int × Option (Nat × Int)} (h : ∀ x ∈ xs, x.2.nleft < acc.1) :
    (walk noticeBody acc xs).1 = acc := by
  induction xs with
  | nil => rfl
  | cons x xs ih =>
    obtain ⟨a, item⟩ := x
    have hx : item.nleft < acc.1 := h (a, item) List.mem_cons_self
    have hstep : noticeBody acc a item = ⟨acc, item, true⟩ := if_neg (by omega)
    rw [walk, hstep]
    exact ih fun y hy => h y (List.mem_cons_of_mem _ hy)

theorem walk_notice {front back : List (Nat × Processor)} {b : Nat} {w : Processor}
    {acc : Int × Option (Nat × Int)} (hacc : acc.1 ≤ w.nleft)
    (hfront : ∀ x ∈ front, x.2.nleft ≤ w.nleft) (hback : ∀ x ∈ back, x.2.nleft < w.nleft) :
    (walk noticeBody acc (front ++ (b, w) :: back)).1 = (w.nleft, some (b, w.pid)) := by
  induction front generalizing acc with
  | nil =>
    have hstep : noticeBody acc b w = ⟨(w.nleft, some (b, w.pid)), w, true⟩ := if_pos hacc
    rw [List.nil_append, walk, hstep]
    exact walk_notice_back hback
  | cons x front ih =>
    obtain ⟨a, item⟩ := x
    have hx : item.nleft ≤ w.nleft := hfront (a, item) List.mem_cons_self
    have hrest : ∀ y ∈ front, y.2.nleft ≤ w.nleft :=
      fun y hy => hfront y (List.mem_cons_of_mem _ hy)
    rw [List.cons_append, walk, noticeBody]
    split
    · exact ih hx hrest
    · exact ih hacc hrest

theorem noticeBody_reads (acc : Int × Option (Nat × Int)) (a : Nat) (item : Processor) :
    (noticeBody acc a item).goOn = true ∧ (noticeBody acc a item).val = item := by
  unfold noticeBody
  split <;> exact ⟨rfl, rfl⟩

/-- The last of the largest, with its node. -/
theorem exists_last_node (hne : xs ≠ []) :
    ∃ front b w back, xs = front ++ (b, w) :: back ∧ (∀ x ∈ front, x.2.nleft ≤ w.nleft) ∧
      ∀ x ∈ back, x.2.nleft < w.nleft := by
  have hmap : xs.map Prod.snd ≠ [] := by simpa using hne
  obtain ⟨front, w, back, hsplit, hfront, hback⟩ := exists_last_max hmap
  obtain ⟨front, rest, rfl, rfl, hrest⟩ := List.map_eq_append_iff.1 hsplit
  obtain ⟨⟨b, w⟩, back, rfl, rfl, rfl⟩ := List.map_eq_cons_iff.1 hrest
  exact ⟨front, b, w, back, rfl, fun x hx => hfront _ (List.mem_map_of_mem hx),
    fun x hx => hback _ (List.mem_map_of_mem hx)⟩

theorem Owns.noticeChild (h : s.Owns xs) (hne : xs ≠ []) (hfuel : xs.length < fuel) :
    ∃ pid s' ys, s.noticeChild fuel = some (pid, s') ∧ s'.Owns ys ∧ ys.length = xs.length ∧
      (s.view xs).noticeChild = some (pid, s'.view ys) := by
  obtain ⟨front, b, w, back, rfl, hfront, hback⟩ := exists_last_node hne
  obtain ⟨a, first, next, hfirst, hnode, hle⟩ : ∃ a first next, s.first = some a ∧
      s.heap a = some ⟨first, next⟩ ∧ first.nleft ≤ w.nleft := by
    cases front with
    | nil =>
      obtain ⟨next, hfirst, hnode⟩ := Chain.head_node h.chain
      exact ⟨b, w, next, hfirst, hnode, le_rfl⟩
    | cons x front =>
      obtain ⟨next, hfirst, hnode⟩ := Chain.head_node h.chain
      exact ⟨x.1, x.2, next, hfirst, hnode, hfront x List.mem_cons_self⟩
  obtain ⟨heap, hloop, hre⟩ := foreach_walk noticeBody (first.nleft, none) h.chain
  rw [walk_reads (fun _ _ _ => (noticeBody_reads ..).1)
    (fun _ _ _ => (noticeBody_reads ..).2)] at hre
  have hseen := h.revalued hre s.nProc
  obtain ⟨heap', hstore, hre'⟩ := Chain.store hseen.chain w.assign
  obtain ⟨-, next', hpre, -⟩ := seg_append_cons.1 hseen.chain
  have hsplit : (s.view (front ++ (b, w) :: back)).procs =
      front.map Prod.snd ++ w :: back.map Prod.snd := by simp [view]
  refine ⟨w.pid, _, _, ?_, hseen.revalued hre' s.nProc, by simp, ?_⟩
  · unfold PoolMem.noticeChild
    simp only [hfirst, hnode, Option.bind_eq_bind, Option.bind_some]
    rw [← hfirst, hloop fuel hfuel, Option.bind_some, walk_notice hle hfront hback]
    simp only [Option.bind_some] at hpre hstore ⊢
    rw [hpre, Option.bind_some, hstore]
    rfl
  · rw [ProcPool.noticeChild_split hsplit (List.forall_mem_map.2 hfront)
      (List.forall_mem_map.2 hback)]
    simp [view]

/-! ## Entries put in and taken out -/

theorem Owns.insertNew (h : s.Owns xs) {m : Malloc} (hfree : s.heap m.addr = none)
    (item : Processor) :
    ∃ s', s.insertNew m item = some s' ∧ s'.Owns ((m.addr, item) :: xs) ∧ s'.nProc = s.nProc ∧
      ∀ a, a ≠ m.addr → s'.heap a = s.heap a := by
  obtain ⟨h₁, h', halloc, hlink, hchain, hframe⟩ := h.chain.push hfree item m.junk
  refine ⟨{ s with first := some m.addr, heap := h' }, ?_, ⟨hchain, fun a ha => ?_⟩, rfl, hframe⟩
  · unfold PoolMem.insertNew
    simp only [halloc, hlink, Option.bind_eq_bind, Option.bind_some]
    rfl
  · by_cases heq : a = m.addr
    · exact List.mem_cons.2 (Or.inl heq)
    · refine List.mem_cons_of_mem _ (h.nodes a ?_)
      rwa [← hframe a heq]

theorem Owns.insertPool (h : s.Owns xs) {m : Malloc}
    (hfree : s.nProc < nprocMaxNum → s.heap m.addr = none) (pid : Int) :
    ∃ s' ys, s.insertPool pid m = some s' ∧ s'.Owns ys ∧ ys.length ≤ xs.length + 1 ∧
      s'.view ys = (s.view xs).insertPool pid := by
  unfold PoolMem.insertPool ProcPool.insertPool view
  split
  · rename_i hroom
    obtain ⟨s', hs', howns, hcount, -⟩ := h.insertNew (hfree hroom) { procAlloc with pid := pid }
    refine ⟨s', _, hs', howns, by simp, ?_⟩
    rw [hcount]
    rfl
  · exact ⟨s, xs, rfl, h, Nat.le_succ _, rfl⟩

/-- The blocks that `create_proc_pool` is given are free, and no two are the same. -/
theorem Owns.createLoop (h : s.Owns xs) {ms : List Malloc} (hnodup : (ms.map (·.addr)).Nodup)
    (hfree : ∀ m ∈ ms, s.heap m.addr = none) :
    ∃ s' ys, createLoop ms.length ms s = some s' ∧ s'.Owns ys ∧
      ys.length = xs.length + ms.length ∧
      s'.view ys = ProcPool.createLoop ms.length (s.view xs) := by
  induction ms generalizing s xs with
  | nil => exact ⟨s, xs, rfl, h, rfl, rfl⟩
  | cons m ms ih =>
    obtain ⟨hm, hrest⟩ := List.forall_mem_cons.1 hfree
    obtain ⟨hnot, hnodup⟩ := List.nodup_cons.1 hnodup
    obtain ⟨t, ht, howns, hcount, hframe⟩ := h.insertNew hm procAlloc
    have hstill : ∀ x ∈ ms, t.heap x.addr = none := by
      intro x hx
      have hne : x.addr ≠ m.addr := fun heq => hnot (List.mem_map.2 ⟨x, hx, heq⟩)
      rw [hframe _ hne, hrest x hx]
    obtain ⟨s', ys, hs', hend, hlen, hview⟩ := ih howns hnodup hstill
    refine ⟨s', ys, ?_, hend, ?_, ?_⟩
    · rw [List.length_cons, PoolMem.createLoop, ht]
      exact hs'
    · rw [hlen, List.length_cons, List.length_cons]
      omega
    · rw [hview, List.length_cons, ProcPool.createLoop, view, hcount]
      rfl

theorem Owns.deletePoolObj (h : s.Owns xs) (hfuel : xs.length < fuel) (pid : Int) :
    ∃ s' ys, s.deletePoolObj fuel pid = some s' ∧ s'.Owns ys ∧ ys.length ≤ xs.length ∧
      s'.view ys = (s.view xs).deletePoolObj pid := by
  obtain ⟨s', hret, hcount, hchain, hways⟩ := deletePoolObj_ways h.chain pid
  refine ⟨s', _, hret fuel hfuel, ⟨hchain, fun a ha => ?_⟩, List.length_eraseP_le, ?_⟩
  · rcases hways with ⟨hfind, hfirst, hheap⟩ | ⟨front, b, w, back, hfind, hw, rfl, hun⟩
    · rw [hheap] at ha
      have hmem := h.nodes a ha
      have hpid : ∀ x ∈ xs, x.2.pid ≠ pid := by simpa using hfind
      rwa [List.eraseP_of_forall_not (by simpa using hpid)]
    · rw [Ne, hun.none_iff h.chain, not_or] at ha
      have hmem := h.nodes a ha.1
      rw [Chain.unique hchain hun.chain]
      simp only [List.map_append, List.map_cons, List.mem_append, List.mem_cons] at hmem ⊢
      tauto
  · unfold view ProcPool.deletePoolObj
    rw [hcount, List.eraseP_map]
    rfl

/-! ## Runs -/

/-- `malloc` returns blocks that are in no use. -/
def Fresh (s : List (List Int) × PoolMem) : PoolCall → Prop
  | .createProcPool ms =>
    ms.length = nprocMaxNum ∧ (ms.map (·.addr)).Nodup ∧ ∀ m ∈ ms, s.2.heap m.addr = none
  | .insertPool _ m => s.2.nProc < nprocMaxNum → s.2.heap m.addr = none
  | _ => True

instance (s : List (List Int) × PoolMem) : ∀ c, Decidable (Fresh s c)
  | .createProcPool ms =>
    inferInstanceAs (Decidable (ms.length = nprocMaxNum ∧ (ms.map (·.addr)).Nodup ∧
      ∀ m ∈ ms, s.2.heap m.addr = none))
  | .insertPool _ m =>
    inferInstanceAs (Decidable (s.2.nProc < nprocMaxNum → s.2.heap m.addr = none))
  | .insertPoolObj _ | .deletePoolObj _ | .setStatusOk _ | .crossOk _ | .noticeChild
  | .tellChldExit => isTrue trivial

/-- A call, with what it returns put to the results before. -/
def stepCall (fuel : Nat) (s : List (List Int) × PoolMem) (c : PoolCall) :
    Option (List (List Int) × PoolMem) :=
  (s.2.call fuel c).map fun (ret, mem) => (s.1 ++ [ret], mem)

/-- The nodes stand for the list, the results are the same, and exactly the nodes that can be
reached are allocated. -/
def Refines (a : List (List Int) × ProcPool) (s : List (List Int) × PoolMem) : Prop :=
  a.1 = s.1 ∧ s.2.Holds a.2 ∧ ∀ b, s.2.heap b ≠ none ↔ Reaches s.2.heap s.2.first b

theorem Owns.refines {log : List (List Int)} (h : s.Owns xs) :
    Refines (log, s.view xs) (log, s) := by
  refine ⟨rfl, ⟨xs, h.chain, rfl⟩, fun b => ?_⟩
  rw [h.chain.reaches_iff]
  refine ⟨h.nodes b, fun hb => ?_⟩
  obtain ⟨x, hx, rfl⟩ := List.mem_map.1 hb
  exact h.chain.ne_none x hx

/-- One call. -/
theorem Owns.call (h : s.Owns xs) (hfuel : xs.length < fuel) {log : List (List Int)} {c : PoolCall}
    (hfresh : Fresh (log, s) c) :
    (s.call fuel c = none ∧ (s.view xs).call c = none) ∨
      ∃ ret s' ys, s.call fuel c = some (ret, s') ∧ (s.view xs).call c = some (ret, s'.view ys) ∧
        s'.Owns ys ∧ ys.length ≤ xs.length + c.blocks := by
  cases c with
  | createProcPool ms =>
    obtain ⟨hlen, hnodup, hfree⟩ := hfresh
    obtain ⟨s', ys, hs', howns, hys, hview⟩ := h.createLoop hnodup hfree
    rw [hlen] at hs' hys hview
    refine Or.inr ⟨[], s', ys, ?_, ?_, howns, hys.le⟩
    · rw [PoolMem.call, hs']
      rfl
    · rw [ProcPool.call, ProcPool.createProcPool, hview]
  | insertPoolObj pid =>
    obtain ⟨s', ys, hs', howns, hys, hview⟩ := h.insertPoolObj hfuel pid
    exact Or.inr ⟨_, s', ys, by rw [PoolMem.call, hs']; rfl, by rw [ProcPool.call, hview], howns,
      hys.le⟩
  | insertPool pid m =>
    obtain ⟨s', ys, hs', howns, hys, hview⟩ := h.insertPool hfresh pid
    exact Or.inr ⟨_, s', ys, by rw [PoolMem.call, hs']; rfl, by rw [ProcPool.call, hview], howns,
      hys⟩
  | deletePoolObj pid =>
    obtain ⟨s', ys, hs', howns, hys, hview⟩ := h.deletePoolObj hfuel pid
    exact Or.inr ⟨_, s', ys, by rw [PoolMem.call, hs']; rfl, by rw [ProcPool.call, hview], howns,
      hys⟩
  | setStatusOk pid =>
    obtain ⟨s', ys, hs', howns, hys, hview⟩ := h.setStatusOk hfuel pid
    exact Or.inr ⟨_, s', ys, by rw [PoolMem.call, hs']; rfl, by rw [ProcPool.call, hview], howns,
      hys.le⟩
  | crossOk pid =>
    obtain ⟨s', ys, hs', howns, hys, hview⟩ := h.crossOk hfuel pid
    exact Or.inr ⟨_, s', ys, by rw [PoolMem.call, hs']; rfl, by rw [ProcPool.call, hview], howns,
      hys.le⟩
  | noticeChild =>
    by_cases hne : xs = []
    · subst hne
      have hfirst : s.first = none := Chain.head_none h.chain
      exact Or.inl ⟨by simp [PoolMem.call, PoolMem.noticeChild, hfirst], rfl⟩
    · obtain ⟨pid, s', ys, hs', howns, hys, hview⟩ := h.noticeChild hne hfuel
      exact Or.inr ⟨_, s', ys, by rw [PoolMem.call, hs']; rfl, by rw [ProcPool.call, hview]; rfl,
        howns, hys.le⟩
  | tellChldExit =>
    obtain ⟨s', hs', howns, hview⟩ := h.tellChldExit hfuel
    exact Or.inr ⟨_, s', xs, hs', by rw [ProcPool.call, hview], howns, le_rfl⟩

theorem run_refines {ops : List PoolCall} {log : List (List Int)} (h : s.Owns xs)
    (hfuel : xs.length + (ops.map PoolCall.blocks).sum < fuel)
    (hall : Run.All (stepCall fuel) Fresh (log, s) ops) :
    Option.Rel Refines (Run.exec ProcPool.stepCall (log, s.view xs) ops)
      (Run.exec (stepCall fuel) (log, s) ops) := by
  induction ops generalizing log s xs with
  | nil => exact .some h.refines
  | cons c ops ih =>
    rw [List.map_cons, List.sum_cons] at hfuel
    have hlt : xs.length < fuel := by omega
    rcases h.call hlt hall.1 with ⟨hnone, hnone'⟩ | ⟨ret, s', ys, hs', hview, howns, hys⟩
    · have hstep : stepCall fuel (log, s) c = none := by rw [stepCall, hnone]; rfl
      have hstep' : ProcPool.stepCall (log, s.view xs) c = none := by
        rw [ProcPool.stepCall, hnone']
        rfl
      rw [Run.exec, Run.exec, hstep, hstep']
      exact .none
    · have hstep : stepCall fuel (log, s) c = some (log ++ [ret], s') := by rw [stepCall, hs']; rfl
      have hstep' : ProcPool.stepCall (log, s.view xs) c = some (log ++ [ret], s'.view ys) := by
        rw [ProcPool.stepCall, hview]
        rfl
      rw [Run.exec, Run.exec, hstep, hstep']
      exact ih howns (by omega) (hall.2 _ hstep)

/-- **The functions on nodes are the ones on lists.** Any calls of the pool's functions, from the
pool of start-up on, with `malloc` returning blocks in no use: on nodes they return what they return
on lists, fail where those fail, and behind them the list is there, without a node that is lost. -/
theorem calls_refine (ops : List PoolCall) (fuel : Nat)
    (hfuel : (ops.map PoolCall.blocks).sum < fuel)
    (hall : Run.All (stepCall fuel) Fresh ([], empty) ops) :
    Option.Rel Refines (Run.exec ProcPool.stepCall ([], ProcPool.empty) ops)
      (Run.exec (stepCall fuel) ([], empty) ops) :=
  run_refines owns_empty (by rwa [List.length_nil, Nat.zero_add]) hall

/-- Two workers, of which one dies and is replaced. -/
theorem calls_refine_two :
    Option.Rel Refines
      (Run.exec ProcPool.stepCall ([], ProcPool.empty) [.insertPool 501 ⟨16, some 8⟩,
        .insertPool 502 ⟨32, none⟩, .noticeChild, .deletePoolObj 501, .insertPool 503 ⟨16, none⟩,
        .tellChldExit])
      (Run.exec (stepCall 9) ([], empty) [.insertPool 501 ⟨16, some 8⟩,
        .insertPool 502 ⟨32, none⟩, .noticeChild, .deletePoolObj 501, .insertPool 503 ⟨16, none⟩,
        .tellChldExit]) :=
  calls_refine _ 9 (by decide) (by decide)

end PoolMem

end HttpCallback
