import Mathlib.Data.Set.Defs
import HttpCallback.System

/-!
# A worker that answers nobody

The EPOLLOUT branch takes the low half of a pointer for the descriptor to answer on and to close.
Where no address has for its low half a descriptor number that is in use, every answer goes to a
closed descriptor and no client's is ever closed: the workers keep every connection they have taken
(`System.kept`).
-/

namespace HttpCallback

/-- The descriptor that the input brings is one of `D`, and the address it allocates does not pass
for one. -/
def WorkerInput.Apart (D : Set Int) : WorkerInput → Prop
  | .message _ ev addr _ _ => (∀ d, ev = .fd d → d ∈ D) ∧ dataFd addr ∉ D
  | .readable _ _ addr => dataFd addr ∉ D
  | _ => True

namespace Worker

variable {cfg : Setup} {D : Set Int} {s s' : Worker} {i : WorkerInput}

/-- Descriptors are in `D` and pointers are not; no connection has been closed or answered. -/
structure Silent (cfg : Setup) (D : Set Int) (s : Worker) : Prop where
  files : ∀ k, s.files k ≠ none → k ∈ D
  handoff : ∀ j, s.files cfg.fd0 ≠ some (.conn j)
  heap : ∀ a, s.heap a ≠ none → dataFd a ∉ D
  opened : ∀ j < s.conns, ∃ k, s.files k = some (.conn j)
  answers : ∀ a ∈ s.answers, a.peer = none

theorem silent_init (h : ∀ k, (Worker.init cfg).files k ≠ none → k ∈ D) :
    (Worker.init cfg).Silent cfg D := by
  refine ⟨h, fun j hj => ?_, nofun, nofun, nofun⟩
  have hfd0 : (Worker.init cfg).files cfg.fd0 = some .handoff := if_pos rfl
  rw [hfd0] at hj
  cases hj

theorem heap_update_silent {a b : UInt64} {o : Obj} (h : ∀ a, s.heap a ≠ none → dataFd a ∉ D)
    (hb : dataFd b ∉ D) (ha : Function.update s.heap b (some o) a ≠ none) : dataFd a ∉ D := by
  by_cases hab : a = b
  · rw [hab]
    exact hb
  · rw [Function.update_of_ne hab] at ha
    exact h a ha

/-- Behind the closing of a descriptor that no connection has. -/
theorem Silent.closing (h : s.Silent cfg D) (fd : Int) (hfd : ∀ j, s.files fd ≠ some (.conn j))
    (hfiles : s'.files = Function.update s.files fd none) (hheap : s'.heap = s.heap)
    (hconns : s'.conns = s.conns) (hans : ∀ a ∈ s'.answers, a.peer = none) :
    s'.Silent cfg D := by
  have hold : ∀ k file, s'.files k = some file → s.files k = some file := by
    intro k file hk
    rw [hfiles] at hk
    by_cases hkfd : k = fd
    · rw [hkfd, Function.update_self] at hk
      cases hk
    · rwa [Function.update_of_ne hkfd] at hk
  refine ⟨fun k hk => ?_, fun j hj => h.handoff j (hold _ _ hj), by rw [hheap]; exact h.heap,
    fun j hj => ?_, hans⟩
  · obtain ⟨file, hfile⟩ := Option.ne_none_iff_exists'.1 hk
    exact h.files k (by rw [hold k file hfile]; exact nofun)
  · rw [hconns] at hj
    obtain ⟨k, hk⟩ := h.opened j hj
    have hne : k ≠ fd := by
      rintro rfl
      exact hfd j hk
    exact ⟨k, by rw [hfiles, Function.update_of_ne hne]; exact hk⟩

/-- A descriptor comes in at a free number. -/
theorem Silent.install (h : s.Silent cfg D) {d : Int} (hcan : s.CanReceive cfg (.fd d))
    (hd : d ∈ D) : (s.install (.fd d)).Silent cfg D := by
  obtain ⟨hhandoff, -, hfree⟩ := hcan
  refine ⟨fun k hk => ?_, fun j hj => ?_, h.heap, fun j hj => ?_, h.answers⟩
  · by_cases hkd : k = d
    · rw [hkd]
      exact hd
    · simp only [Worker.install, Function.update_of_ne hkd] at hk
      exact h.files k hk
  · have hne : cfg.fd0 ≠ d := by
      rintro rfl
      rw [hfree] at hhandoff
      cases hhandoff
    simp only [Worker.install, Function.update_of_ne hne] at hj
    exact h.handoff j hj
  · rcases Nat.lt_succ_iff_lt_or_eq.1 hj with hj | rfl
    · obtain ⟨k, hk⟩ := h.opened j hj
      have hne : k ≠ d := by
        rintro rfl
        rw [hfree] at hk
        cases hk
      exact ⟨k, (Function.update_of_ne hne _ _).trans hk⟩
    · exact ⟨d, Function.update_self ..⟩

theorem Silent.step (h : s.Silent cfg D) (hi : i.Apart D)
    (hstep : Worker.step cfg s i = some s') : s'.Silent cfg D := by
  rcases step_cases hstep with ⟨ready, rfl, -, -, -, rfl⟩ |
    ⟨e, rest, prior, ev, addr, ctx, buf, rfl, -, -, hnew⟩ |
    ⟨e, rest, stack, evs, addr, rfl, -, -, -, hread⟩ | ⟨e, rest, rfl, -, -, -, -, hwrite⟩ |
    ⟨e, rest, rfl, -, -, -, -, rfl⟩
  · exact ⟨h.files, h.handoff, h.heap, h.opened, h.answers⟩
  · obtain ⟨clientfd, -, hcan, ⟨rfl, rfl⟩ | ⟨-, -, rfl⟩⟩ := newDescriptor_cases hnew
    · exact ⟨h.files, h.handoff, h.heap, h.opened, h.answers⟩
    · have hinst : (s.install ev).Silent cfg D := by
        cases ev with
        | fd d => exact h.install hcan (hi.1 d rfl)
        | plain => exact h
        | eof => exact h
        | fail e => exact h
      exact ⟨hinst.files, hinst.handoff,
        fun a ha => heap_update_silent h.heap hi.2 ha, hinst.opened, hinst.answers⟩
  · obtain ⟨t, file, ht, -, hret⟩ := readable_cases hread
    have hdata : dataFd e.data ∉ D := h.heap _ (by rw [ht]; exact nofun)
    rcases hret with ⟨-, rfl⟩ | ⟨req, -, -, rfl⟩
    · exact ⟨h.files, h.handoff, fun a ha => heap_update_silent h.heap hdata ha, h.opened,
        h.answers⟩
    · exact ⟨h.files, h.handoff, fun a ha => heap_update_silent
        (s := { s with heap := Function.update s.heap e.data _ })
        (fun b hb => heap_update_silent h.heap hdata hb) hi ha, h.opened, h.answers⟩
  · obtain ⟨r, origin, hr, rfl⟩ := writable_cases hwrite
    have hdata : dataFd e.data ∉ D := h.heap _ (by rw [hr]; exact nofun)
    have hnone : s.files (dataFd e.data) = none := by
      by_contra hopen
      exact hdata (h.files _ hopen)
    refine h.closing (dataFd e.data) (fun j hj => ?_) rfl rfl rfl fun a ha => ?_
    · rw [hnone] at hj
      cases hj
    · rcases List.mem_append.1 ha with ha | ha
      · exact h.answers a ha
      · rw [List.mem_singleton.1 ha]
        exact hnone
  · exact h.closing _ h.handoff rfl rfl rfl h.answers

end Worker

namespace System

variable {cfg : SystemSetup} {D : Nat → Set Int} {s s' : System}

/-- A worker's input is apart from the descriptors of that worker. -/
def SystemApart (D : Nat → Set Int) : SystemInput → Prop
  | .master _ => True
  | .worker w i => i.Apart (D w)

theorem silent_step (h : ∀ w, (s.worker w).Silent (cfg.worker w) (D w)) {i : SystemInput}
    (hi : SystemApart D i) (hstep : System.step cfg s i = some s') (w : Nat) :
    (s'.worker w).Silent (cfg.worker w) (D w) := by
  have hworker : ∀ {v : Nat} {j : WorkerInput} {t : Worker}, j.Apart (D v) →
      Worker.step (cfg.worker v) (s.worker v) j = some t →
      (Function.update s.worker v t w).Silent (cfg.worker w) (D w) := by
    intro v j t hj ht
    by_cases hv : w = v
    · subst hv
      rw [Function.update_self]
      exact (h w).step hj ht
    · rw [Function.update_of_ne hv]
      exact h w
  rcases step_cases hstep with ⟨j, m, -, -, -, rfl⟩ |
    ⟨v, j, t, rfl, -, ht, ⟨-, c, cs, -, rfl⟩ | ⟨-, rfl⟩⟩
  · exact h w
  · exact hworker hi ht
  · exact hworker hi ht

/-- **The workers answer nobody and keep everybody.** For every choice of a set of descriptor
numbers for each worker that holds those open in it at the start: in every run of the master and its
workers in which descriptors arrive in a worker under numbers of its set and no object is allocated
at an address whose low half is in it, every answer has been sent to a descriptor that was closed,
and every connection that a worker has taken is still open, in that worker and, as long as it is not
gone, in the master. -/
theorem kept (cfg : SystemSetup) (D : Nat → Set Int)
    (hD : ∀ w k, (Worker.init (cfg.worker w)).files k ≠ none → k ∈ D w) (is : List SystemInput)
    (hapart : ∀ i ∈ is, SystemApart D i) (s : System)
    (h : Run.exec (step cfg) (init cfg) is = some s) :
    (∀ w, ∀ a ∈ (s.worker w).answers, a.peer = none) ∧
      ∀ x ∈ s.master.loop.registered,
        (∃ k, s.Holds x.1 k x.2) ∧
          (s.master.loop.pc ≠ .exited → ∃ fd, (fd, x.2) ∈ s.master.clients) := by
  have hsilent : ∀ w, (s.worker w).Silent (cfg.worker w) (D w) :=
    Run.inv_of_all (I := fun s : System => ∀ w, (s.worker w).Silent (cfg.worker w) (D w))
      (H := fun _ i => SystemApart D i) (fun _ _ _ hs hi hstep => silent_step hs hi hstep) is
      (fun w => Worker.silent_init (hD w)) (Run.all_of_forall (fun i hi _ => hapart i hi) _) h
  refine ⟨fun w => (hsilent w).answers, fun x hx => ?_⟩
  obtain ⟨j, hj⟩ := Fanout.exists_place hx
  have hlt := (List.getElem?_eq_some_iff.1 hj).1
  rw [shared h x.1] at hlt
  obtain ⟨k, hk⟩ := (hsilent x.1).opened j hlt
  obtain ⟨c, ⟨j', hk', hj'⟩, -, hmem⟩ := exists_holds h hk
  rw [hk, Option.some.injEq, File.conn.injEq] at hk'
  rw [← hk', hj, Option.some.injEq] at hj'
  exact ⟨⟨k, j, hk, hj⟩, fun hpc => hj' ▸ hmem hpc⟩

/-- Worker 1 takes a connection, reads a request and answers it. -/
def sampleAnswered : List SystemInput :=
  sampleTaken ++
    [.wait [⟨5, Worker.onlyIn, 4096⟩], Worker.sampleRequest 12288,
      .wait [⟨5, Worker.onlyOut, 12288⟩], .writable].map (.worker 1)

/-- The numbers of the descriptors at the start are small. -/
theorem samplePair_small (w : Nat) (k : Int)
    (h : (Worker.init (samplePair.worker w)).files k ≠ none) : k < 1024 := by
  by_contra hge
  have h3 : k ≠ 3 := by
    rintro rfl
    exact hge (by decide)
  have h4 : k ≠ 4 := by
    rintro rfl
    exact hge (by decide)
  exact h (by simp [Worker.init, samplePair, Worker.sampleSetup, h3, h4])

/-- The answer goes nowhere, and the connection stays open. -/
theorem kept_pair : ∃ s, Run.exec (step samplePair) (init samplePair) sampleAnswered = some s ∧
    (s.worker 1).answers.length = 1 ∧ (∀ a ∈ (s.worker 1).answers, a.peer = none) ∧
      (∃ k, s.Holds 1 k 0) ∧ ∃ fd, (fd, 0) ∈ s.master.clients := by
  have hview : (Run.exec (step samplePair) (init samplePair) sampleAnswered).map (fun s =>
      (s.master.loop.pc, s.master.loop.registered, (s.worker 1).answers.length)) =
        some (.wait, [(1, 0)], 1) := by decide +kernel
  obtain ⟨s, hs, heq⟩ := Option.map_eq_some_iff.1 hview
  simp only [Prod.mk.injEq] at heq
  obtain ⟨hpc, hregistered, hanswers⟩ := heq
  obtain ⟨hpeer, hkept⟩ := kept samplePair (fun _ => {k : Int | k < 1024}) samplePair_small
    sampleAnswered (by
      simp [sampleAnswered, sampleTaken, Master.sampleArrival, Worker.sampleArrival,
        Worker.sampleRequest, SystemApart, WorkerInput.Apart]
      decide) s hs
  obtain ⟨hholds, hclients⟩ := hkept (1, 0) (hregistered ▸ List.mem_cons_self)
  exact ⟨s, hs, hanswers, hpeer 1, hholds, hclients (by rw [hpc]; nofun)⟩

end System

end HttpCallback
