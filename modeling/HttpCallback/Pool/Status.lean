import HttpCallback.Pool.Basic

/-!
# The status of a worker

`cross_ok` is meant to ask whether a worker is ready, but its test assigns: `item->pid` is given the
value of `pid && item->status == 1`. So the call stops at the first entry with status 1, whosever it
is, leaves 1 in its pid, and 0 in the pids of all entries in front of it.
-/

namespace HttpCallback

/-- `item->pid = pid && item->status == 1`, the value assigned. -/
def crossTest (pid : Int) (item : Processor) : Int :=
  if pid ≠ 0 ∧ item.status = 1 then 1 else 0

/-- The loop of `cross_ok`: what it returns, and the entries behind it. -/
def crossOkLoop (pid : Int) : List Processor → Int × List Processor
  | [] => (-1, [])
  | item :: procs =>
    let item' := { item with pid := crossTest pid item }
    if crossTest pid item ≠ 0 then (0, item' :: procs)
    else ((crossOkLoop pid procs).1, item' :: (crossOkLoop pid procs).2)

namespace ProcPool

def crossOk (s : ProcPool) (pid : Int) : Int × ProcPool :=
  ((crossOkLoop pid s.procs).1, { s with procs := (crossOkLoop pid s.procs).2 })

def setStatusOk (s : ProcPool) (pid : Int) : ProcPool :=
  { s with
    procs := s.procs.map fun item => if item.pid = pid then { item with status := 1 } else item }

end ProcPool

/-! ## What the loop leaves behind -/

section Loop

variable {pid : Int} {procs front back : List Processor} {item : Processor}

theorem crossOkLoop_front (h : ∀ x ∈ front, crossTest pid x = 0) (procs : List Processor) :
    crossOkLoop pid (front ++ procs) =
      ((crossOkLoop pid procs).1,
        front.map (fun x => { x with pid := 0 }) ++ (crossOkLoop pid procs).2) := by
  induction front with
  | nil => rfl
  | cons x front ih =>
    have hx := h x List.mem_cons_self
    have hrest := ih fun y hy => h y (List.mem_cons_of_mem x hy)
    rw [List.cons_append, crossOkLoop, hx]
    simp only [ne_eq, not_true_eq_false, if_false, hrest]
    rfl

/-- Without an entry that ends it the loop clears every pid. -/
theorem crossOkLoop_none (h : ∀ x ∈ procs, crossTest pid x = 0) :
    crossOkLoop pid procs = (-1, procs.map fun x => { x with pid := 0 }) := by
  have hfront := crossOkLoop_front h []
  rw [List.append_nil] at hfront
  rw [hfront, crossOkLoop, List.append_nil]

/-- It ends at the first entry with status 1. -/
theorem crossOkLoop_first (hpid : pid ≠ 0) (hfront : ∀ x ∈ front, x.status ≠ 1)
    (hitem : item.status = 1) (back : List Processor) :
    crossOkLoop pid (front ++ item :: back) =
      (0, front.map (fun x => { x with pid := 0 }) ++ { item with pid := 1 } :: back) := by
  have htest : ∀ x ∈ front, crossTest pid x = 0 := fun x hx => if_neg fun h => hfront x hx h.2
  have hstop : crossTest pid item = 1 := if_pos ⟨hpid, hitem⟩
  rw [crossOkLoop_front htest, crossOkLoop, hstop, if_pos Int.one_ne_zero]

/-- The pool has an entry with status 1 in front of which there is none, or has none at all. -/
theorem status_split (procs : List Processor) :
    (∀ x ∈ procs, x.status ≠ 1) ∨
      ∃ front item back, procs = front ++ item :: back ∧ (∀ x ∈ front, x.status ≠ 1) ∧
        item.status = 1 := by
  cases hfind : procs.find? (·.status = 1) with
  | none =>
    refine Or.inl fun x hx => ?_
    simpa using List.find?_eq_none.1 hfind x hx
  | some item =>
    obtain ⟨hitem, front, back, heq, hfront⟩ := List.find?_eq_some_iff_append.1 hfind
    exact Or.inr ⟨front, item, back, heq, fun x hx => by simpa using hfront x hx,
      by simpa using hitem⟩

/-- What is returned says whether any entry has status 1. -/
theorem crossOkLoop_ret (pid : Int) (procs : List Processor) :
    (crossOkLoop pid procs).1 = if pid ≠ 0 ∧ ∃ x ∈ procs, x.status = 1 then 0 else -1 := by
  by_cases hpid : pid = 0
  · rw [crossOkLoop_none fun x _ => if_neg fun h => h.1 hpid, if_neg fun h => h.1 hpid]
  rcases status_split procs with hnone | ⟨front, item, back, rfl, hfront, hitem⟩
  · rw [crossOkLoop_none fun x hx => if_neg fun h => hnone x hx h.2, if_neg]
    rintro ⟨-, x, hx, hstatus⟩
    exact hnone x hx hstatus
  · rw [crossOkLoop_first hpid hfront hitem, if_pos]
    exact ⟨hpid, item, List.mem_append_right _ List.mem_cons_self, hitem⟩

theorem map_clear_eq_iff (procs : List Processor) :
    procs.map (fun x => { x with pid := 0 }) = procs ↔ ∀ x ∈ procs, x.pid = 0 := by
  induction procs with
  | nil => simp
  | cons x procs ih =>
    rw [List.map_cons, List.cons.injEq, ih, List.forall_mem_cons, Processor.mk.injEq]
    simp [eq_comm]

end Loop

namespace ProcPool

variable {s : ProcPool} {pid : Int}

/-- `cross_ok` is the query it should be, for this pool and this pid: it leaves the pool alone,
returns 0 exactly when an entry has the pid and status 1, and so does as `set_status_ok` says. -/
structure Queries (s : ProcPool) (pid : Int) : Prop where
  frame : (s.crossOk pid).2 = s
  ret : (s.crossOk pid).1 = 0 ↔ ∃ item ∈ s.procs, item.pid = pid ∧ item.status = 1
  set : pid ∈ s.pids → ((s.setStatusOk pid).crossOk pid).1 = 0
  other : ∀ p ≠ pid, ((s.setStatusOk p).crossOk pid).1 = (s.crossOk pid).1

theorem crossOk_eq_zero_iff :
    (s.crossOk pid).1 = 0 ↔ pid ≠ 0 ∧ ∃ x ∈ s.procs, x.status = 1 := by
  unfold crossOk
  rw [crossOkLoop_ret]
  split
  · rename_i h
    exact iff_of_true rfl h
  · rename_i h
    exact iff_of_false (by decide) h

theorem crossOk_congr {s' : ProcPool}
    (h : (∃ x ∈ s'.procs, x.status = 1) ↔ ∃ x ∈ s.procs, x.status = 1) :
    (s'.crossOk pid).1 = (s.crossOk pid).1 := by
  unfold crossOk
  simp only [crossOkLoop_ret, h]

/-- Behind `set_status_ok` some entry has status 1 if one had it before or the pid is recorded. -/
theorem exists_status_setStatusOk (s : ProcPool) (p : Int) :
    (∃ x ∈ (s.setStatusOk p).procs, x.status = 1) ↔
      (∃ x ∈ s.procs, x.status = 1) ∨ p ∈ s.pids := by
  unfold setStatusOk pids
  simp only [List.mem_map]
  constructor
  · rintro ⟨-, ⟨y, hy, rfl⟩, hstatus⟩
    by_cases hp : y.pid = p
    · exact Or.inr ⟨y, hy, hp⟩
    · rw [if_neg hp] at hstatus
      exact Or.inl ⟨y, hy, hstatus⟩
  · rintro (⟨y, hy, hstatus⟩ | ⟨y, hy, hp⟩)
    · refine ⟨_, ⟨y, hy, rfl⟩, ?_⟩
      split
      · rfl
      · exact hstatus
    · exact ⟨_, ⟨y, hy, rfl⟩, by rw [if_pos hp]⟩

/-- The pool is left alone when every entry passed has pid 0 and the one that ends the call has
pid 1. -/
theorem crossOk_frame_none (h : ∀ x ∈ s.procs, crossTest pid x = 0) :
    (s.crossOk pid).2 = s ↔ ∀ x ∈ s.procs, x.pid = 0 := by
  unfold crossOk
  rw [crossOkLoop_none h, ← map_clear_eq_iff]
  cases s
  simp

theorem crossOk_frame_first (hpid : pid ≠ 0) {front back : List Processor} {item : Processor}
    (hprocs : s.procs = front ++ item :: back) (hfront : ∀ x ∈ front, x.status ≠ 1)
    (hitem : item.status = 1) :
    (s.crossOk pid).2 = s ↔ (∀ x ∈ front, x.pid = 0) ∧ item.pid = 1 := by
  have hlen : (front.map fun x => { x with pid := 0 }).length = front.length := List.length_map _
  have hone : { item with pid := 1 } = item ↔ item.pid = 1 := by
    cases item
    simp [eq_comm]
  unfold crossOk
  rw [hprocs, crossOkLoop_first hpid hfront hitem, ← map_clear_eq_iff, ← hone]
  cases s
  simp only at hprocs
  subst hprocs
  rw [ProcPool.mk.injEq, List.append_eq_append_iff_of_size_eq_left hlen, List.cons.injEq]
  simp

/-- When all pids are 0, so is a recorded one. -/
theorem zero_mem_pids (hne : s.procs ≠ []) (h : ∀ x ∈ s.procs, x.pid = 0) : (0 : Int) ∈ s.pids := by
  obtain ⟨x, procs, hx⟩ := List.exists_cons_of_ne_nil hne
  have hmem : x ∈ s.procs := hx ▸ List.mem_cons_self
  exact List.mem_map.2 ⟨x, hmem, h x hmem⟩

theorem Queries.pid_ne (h : s.Queries pid) (hne : s.procs ≠ []) : pid ≠ 0 := by
  rintro rfl
  have hpids := (crossOk_frame_none fun y _ => if_neg fun hy => hy.1 rfl).1 h.frame
  exact (crossOk_eq_zero_iff.1 (h.set (zero_mem_pids hne hpids))).1 rfl

/-- Some entry has status 1: otherwise the pids are all 0, and `set_status_ok(0)` changes what is
returned for the pid. -/
theorem Queries.exists_status (h : s.Queries pid) (hne : s.procs ≠ []) :
    ∃ x ∈ s.procs, x.status = 1 := by
  have hp := h.pid_ne hne
  by_contra hnone
  have htest : ∀ y ∈ s.procs, crossTest pid y = 0 :=
    fun y hy => if_neg fun hstatus => hnone ⟨y, hy, hstatus.2⟩
  have hpids := (crossOk_frame_none htest).1 h.frame
  have hset := (exists_status_setStatusOk s 0).2 (Or.inr (zero_mem_pids hne hpids))
  have hzero := h.other 0 hp.symm
  rw [crossOk_eq_zero_iff.2 ⟨hp, hset⟩] at hzero
  exact hnone (crossOk_eq_zero_iff.1 hzero.symm).2

theorem queries_nil (hnil : s.procs = []) : s.Queries pid := by
  refine ⟨?_, ?_, ?_, ?_⟩
  · refine (crossOk_frame_none ?_).2 ?_ <;> simp [hnil]
  · rw [crossOk_eq_zero_iff, hnil]
    simp
  · intro h
    simp [pids, hnil] at h
  · intro p _
    apply crossOk_congr
    rw [exists_status_setStatusOk]
    simp [pids, hnil]

theorem queries_of_frame (hframe : (s.crossOk pid).2 = s) (hp : pid ≠ 0)
    (hready : ∃ x ∈ s.procs, x.pid = pid ∧ x.status = 1) : s.Queries pid := by
  have hstatus : ∃ x ∈ s.procs, x.status = 1 := hready.imp fun x hx => ⟨hx.1, hx.2.2⟩
  have hset : ∀ p, ∃ x ∈ (s.setStatusOk p).procs, x.status = 1 :=
    fun p => (exists_status_setStatusOk s p).2 (Or.inl hstatus)
  refine ⟨hframe, ?_, ?_, ?_⟩
  · exact iff_of_true (crossOk_eq_zero_iff.2 ⟨hp, hstatus⟩) hready
  · exact fun _ => crossOk_eq_zero_iff.2 ⟨hp, hset pid⟩
  · exact fun p _ => crossOk_congr (iff_of_true (hset p) hstatus)

/-- **`cross_ok` is a query on hardly any pool.** For every pool and every pid: the call leaves the
pool as it is and returns 0 exactly when an entry has the pid and status 1, `set_status_ok` of the
pid makes it return 0 if the pid is recorded, and `set_status_ok` of another changes nothing, if and
only if the pool is empty, or the pid is not 0, some entry has it with status 1, the first entry
with status 1 has pid 1, and the entries in front of that one have pid 0. -/
theorem crossOk_queries_iff (s : ProcPool) (pid : Int) :
    s.Queries pid ↔ s.procs = [] ∨
      (pid ≠ 0 ∧ (∃ x ∈ s.procs, x.pid = pid ∧ x.status = 1) ∧
        ∃ front item back, s.procs = front ++ item :: back ∧
          (∀ x ∈ front, x.pid = 0 ∧ x.status ≠ 1) ∧ item.pid = 1 ∧ item.status = 1) := by
  constructor
  · intro h
    refine or_iff_not_imp_left.2 fun hne => ?_
    have hp := h.pid_ne hne
    have hstatus := h.exists_status hne
    rcases status_split s.procs with hnone | ⟨front, item, back, hprocs, hfront, hitem⟩
    · obtain ⟨x, hx, hone⟩ := hstatus
      exact absurd hone (hnone x hx)
    · obtain ⟨hzero, hone⟩ := (crossOk_frame_first hp hprocs hfront hitem).1 h.frame
      have hready := h.ret.1 (crossOk_eq_zero_iff.2 ⟨hp, hstatus⟩)
      exact ⟨hp, hready, front, item, back, hprocs, fun x hx => ⟨hzero x hx, hfront x hx⟩, hone,
        hitem⟩
  · rintro (hnil | ⟨hp, hready, front, item, back, hprocs, hfront, hone, hitem⟩)
    · exact queries_nil hnil
    · refine queries_of_frame ?_ hp hready
      exact (crossOk_frame_first hp hprocs (fun x hx => (hfront x hx).2) hitem).2
        ⟨fun x hx => (hfront x hx).1, hone⟩

/-- A worker that is not ready, behind one that is: the pool is overwritten, and 0 returned. -/
theorem crossOk_overwrites :
    ¬∀ (s : ProcPool) (pid : Int), (s.crossOk pid).2 = s ∧
      ((s.crossOk pid).1 = 0 ↔ ∃ item ∈ s.procs, item.pid = pid ∧ item.status = 1) := by
  intro h
  have hframe := (h ⟨2, [⟨501, 200, 1⟩, ⟨502, 200, 0⟩]⟩ 502).1
  exact absurd hframe (by decide)

end ProcPool

end HttpCallback
