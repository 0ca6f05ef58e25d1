import Mathlib.Data.List.MinMax
import HttpCallback.Pool.Basic
import HttpCallback.Lib.Rotation

/-!
# The next worker

`notice_child` gives a connection to the entry with the most descriptors left, and of several to the
last in the list, and takes one from its count. On a pool of equal counts the calls therefore go
round the pool, from its last entry to its first. As with `n_proc` the counts are unbounded.
-/

namespace HttpCallback

/-- The loop of `notice_child` from entry `i` on: `max`, and the entry `pre` with its `pid`, none
while `pre` is null. -/
def noticeLoop (max : Int) (pre : Option (Nat × Int)) (i : Nat) :
    List Processor → Option (Nat × Int)
  | [] => pre
  | item :: procs =>
    if max ≤ item.nleft then noticeLoop item.nleft (some (i, item.pid)) (i + 1) procs
    else noticeLoop max pre (i + 1) procs

/-- `pre->nleft--`. -/
def Processor.assign (item : Processor) : Processor := { item with nleft := item.nleft - 1 }

namespace ProcPool

/-- The entry that `notice_child` takes, by its place, and its pid; none where a null pointer is
followed. -/
def noticed (s : ProcPool) : Option (Nat × Int) :=
  s.procs.head?.bind fun first => noticeLoop first.nleft none 0 s.procs

def noticeChild (s : ProcPool) : Option (Int × ProcPool) :=
  s.noticed.map fun pre => (pre.2, { s with procs := s.procs.modify pre.1 Processor.assign })

/-- The places taken by `k` calls, and the pool behind them. -/
def noticeCalls : Nat → ProcPool → Option (List Nat × ProcPool)
  | 0, s => some ([], s)
  | k + 1, s => do
    let (places, s) ← noticeCalls k s
    let (i, _) ← s.noticed
    let (_, s) ← s.noticeChild
    return (places ++ [i], s)

/-- Maximum minus minimum of `nleft`. -/
def spread (s : ProcPool) : Int :=
  (s.procs.map (·.nleft)).max?.getD 0 - (s.procs.map (·.nleft)).min?.getD 0

end ProcPool

theorem modify_length {α : Type*} (f : α → α) (front : List α) (a : α) (back : List α) :
    (front ++ a :: back).modify front.length f = front ++ f a :: back := by
  induction front with
  | nil => rfl
  | cons x front ih =>
    rw [List.cons_append, List.length_cons, List.modify_succ_cons, ih, List.cons_append]

/-! ## The last of the largest -/

section Loop

variable {max : Int} {front back procs : List Processor} {item : Processor}

theorem noticeLoop_back (h : ∀ x ∈ back, x.nleft < max) (pre : Option (Nat × Int)) (i : Nat) :
    noticeLoop max pre i back = pre := by
  induction back generalizing i with
  | nil => rfl
  | cons x back ih =>
    have hx := h x List.mem_cons_self
    rw [noticeLoop, if_neg (by omega), ih fun y hy => h y (List.mem_cons_of_mem x hy)]

theorem noticeLoop_split (hmax : max ≤ item.nleft) (hfront : ∀ x ∈ front, x.nleft ≤ item.nleft)
    (hback : ∀ x ∈ back, x.nleft < item.nleft) (pre : Option (Nat × Int)) (i : Nat) :
    noticeLoop max pre i (front ++ item :: back) = some (i + front.length, item.pid) := by
  induction front generalizing max pre i with
  | nil =>
    rw [List.nil_append, noticeLoop, if_pos hmax, noticeLoop_back hback]
    rfl
  | cons x front ih =>
    have hx := hfront x List.mem_cons_self
    have hrest : ∀ y ∈ front, y.nleft ≤ item.nleft :=
      fun y hy => hfront y (List.mem_cons_of_mem x hy)
    rw [List.cons_append, noticeLoop, List.length_cons]
    split
    · rw [ih hx hrest, show i + (front.length + 1) = i + 1 + front.length by omega]
    · rw [ih hmax hrest, show i + (front.length + 1) = i + 1 + front.length by omega]

theorem exists_last_max (hne : procs ≠ []) :
    ∃ front item back, procs = front ++ item :: back ∧ (∀ x ∈ front, x.nleft ≤ item.nleft) ∧
      ∀ x ∈ back, x.nleft < item.nleft := by
  induction procs with
  | nil => exact absurd rfl hne
  | cons x procs ih =>
    by_cases hnil : procs = []
    · subst hnil
      exact ⟨[], x, [], rfl, List.forall_mem_nil _, List.forall_mem_nil _⟩
    obtain ⟨front, item, back, rfl, hfront, hback⟩ := ih hnil
    rcases lt_or_ge item.nleft x.nleft with hlt | hge
    · refine ⟨[], x, _, rfl, List.forall_mem_nil _, ?_⟩
      intro y hy
      rcases List.mem_append.1 hy with hy | hy
      · exact Int.lt_of_le_of_lt (hfront y hy) hlt
      · rcases List.mem_cons.1 hy with rfl | hy
        · exact hlt
        · exact Int.lt_trans (hback y hy) hlt
    · exact ⟨x :: front, item, back, rfl, List.forall_mem_cons.2 ⟨hge, hfront⟩, hback⟩

end Loop

namespace ProcPool

variable {s : ProcPool} {front back : List Processor} {item : Processor}

theorem noticed_split (hprocs : s.procs = front ++ item :: back)
    (hfront : ∀ x ∈ front, x.nleft ≤ item.nleft) (hback : ∀ x ∈ back, x.nleft < item.nleft) :
    s.noticed = some (front.length, item.pid) := by
  have hhead : ∃ first, s.procs.head? = some first ∧ first.nleft ≤ item.nleft := by
    cases front with
    | nil => exact ⟨item, by rw [hprocs]; rfl, le_rfl⟩
    | cons x front => exact ⟨x, by rw [hprocs]; rfl, hfront x List.mem_cons_self⟩
  obtain ⟨first, hfirst, hle⟩ := hhead
  rw [noticed, hfirst, Option.bind_some, hprocs, noticeLoop_split hle hfront hback, Nat.zero_add]

theorem noticeChild_split (hprocs : s.procs = front ++ item :: back)
    (hfront : ∀ x ∈ front, x.nleft ≤ item.nleft) (hback : ∀ x ∈ back, x.nleft < item.nleft) :
    s.noticeChild = some (item.pid, { s with procs := front ++ item.assign :: back }) := by
  rw [noticeChild, noticed_split hprocs hfront hback, hprocs, Option.map_some,
    modify_length]

theorem spread_le_iff (hne : s.procs ≠ []) {d : Int} :
    s.spread ≤ d ↔ ∀ x ∈ s.procs, ∀ y ∈ s.procs, x.nleft - y.nleft ≤ d := by
  have hmap : s.procs.map (·.nleft) ≠ [] := by simpa using hne
  have hmax := List.max?_eq_some_max hmap
  have hmin := List.min?_eq_some_min hmap
  obtain ⟨hmaxmem, hmaxle⟩ := List.max?_eq_some_iff.1 hmax
  obtain ⟨hminmem, hminle⟩ := List.min?_eq_some_iff.1 hmin
  rw [spread, hmax, hmin, Option.getD_some, Option.getD_some]
  constructor
  · intro h x hx y hy
    have hx' := hmaxle _ (List.mem_map_of_mem hx)
    have hy' := hminle _ (List.mem_map_of_mem hy)
    omega
  · intro h
    obtain ⟨x, hx, hxeq⟩ := List.mem_map.1 hmaxmem
    obtain ⟨y, hy, hyeq⟩ := List.mem_map.1 hminmem
    have := h x hx y hy
    omega

theorem spread_split_le (hprocs : s.procs = front ++ item :: back)
    (hmax : ∀ x ∈ s.procs, x.nleft ≤ item.nleft) :
    ({ s with procs := front ++ item.assign :: back } : ProcPool).spread ≤ max s.spread 1 := by
  have hne : s.procs ≠ [] := by simp [hprocs]
  have hold := (spread_le_iff hne).1 le_rfl
  have hitem : item ∈ s.procs := hprocs ▸ List.mem_append_right _ List.mem_cons_self
  have hassign : item.assign.nleft = item.nleft - 1 := rfl
  have hmem : ∀ x ∈ front ++ item.assign :: back, x ∈ s.procs ∨ x = item.assign := by
    intro x hx
    rw [hprocs]
    rcases List.mem_append.1 hx with hx | hx
    · exact Or.inl (List.mem_append_left _ hx)
    · rcases List.mem_cons.1 hx with rfl | hx
      · exact Or.inr rfl
      · exact Or.inl (List.mem_append_right _ (List.mem_cons_of_mem _ hx))
  refine (spread_le_iff (by simp)).2 fun x hx y hy => ?_
  rcases hmem x hx with hx | rfl
  · rcases hmem y hy with hy | rfl
    · exact le_max_of_le_left (hold x hx y hy)
    · have := hmax x hx
      exact le_max_of_le_right (by omega)
  · rcases hmem y hy with hy | rfl
    · have := hold item hitem y hy
      exact le_max_of_le_left (by omega)
    · exact le_max_of_le_right (by omega)

/-! ## Equal counts -/

/-- `k` calls from equal counts `c` on: each entry has had its turns. -/
def rotated (s : ProcPool) (c : Int) (k : Nat) : ProcPool :=
  { s with
    procs := s.procs.mapIdx fun i item =>
      { item with nleft := c - ((k + i) / s.procs.length : Nat) } }

variable {c : Int} {k : Nat}

theorem rotated_zero (heq : ∀ x ∈ s.procs, x.nleft = c) : s.rotated c 0 = s := by
  have hzero : ∀ i (hi : i < s.procs.length),
      { s.procs[i] with nleft := c - ((0 + i) / s.procs.length : Nat) } = s.procs[i] := by
    intro i hi
    have hnleft := heq _ (List.getElem_mem hi)
    simp [Nat.div_eq_of_lt hi, ← hnleft]
  have hprocs : (s.procs.mapIdx fun i item =>
      { item with nleft := c - ((0 + i) / s.procs.length : Nat) }) = s.procs :=
    List.ext_getElem List.length_mapIdx fun i hi hi' => by rw [List.getElem_mapIdx, hzero i hi']
  rw [rotated, hprocs]

@[simp] theorem length_rotated : (s.rotated c k).procs.length = s.procs.length := List.length_mapIdx

theorem getElem_rotated {i : Nat} (h : i < (s.rotated c k).procs.length) :
    (s.rotated c k).procs[i].nleft =
      c - (k / s.procs.length + if Rotation.turn s.procs.length k < i then 1 else 0 : Nat) := by
  have hi : i < s.procs.length := length_rotated (c := c) ▸ h
  simp only [rotated, List.getElem_mapIdx, Rotation.quot_eq hi]

/-- The entry whose turn it is has the largest count, and none behind it has it too. -/
theorem noticed_rotated (hne : s.procs ≠ []) :
    ∃ pid, (s.rotated c k).noticed = some (Rotation.turn s.procs.length k, pid) := by
  have hturn := Rotation.turn_lt (List.length_pos_iff.2 hne) k
  set j := Rotation.turn s.procs.length k with hj
  have hjr : j < (s.rotated c k).procs.length := by rwa [length_rotated]
  have hitem := getElem_rotated hjr
  rw [← hj, if_neg (lt_irrefl j)] at hitem
  have hsplit : (s.rotated c k).procs =
      (s.rotated c k).procs.take j ++
        (s.rotated c k).procs[j] :: (s.rotated c k).procs.drop (j + 1) := by
    rw [List.getElem_cons_drop, List.take_append_drop]
  have hlen : ((s.rotated c k).procs.take j).length = j := List.length_take_of_le hjr.le
  refine ⟨(s.rotated c k).procs[j].pid, ?_⟩
  rw [noticed_split hsplit ?_ ?_, hlen]
  · intro x hx
    obtain ⟨i, hi, rfl⟩ := List.mem_take_iff_getElem.1 hx
    rw [hitem, getElem_rotated, ← hj, if_neg (by omega)]
  · intro x hx
    obtain ⟨i, hi, rfl⟩ := List.mem_drop_iff_getElem.1 hx
    rw [hitem, getElem_rotated, ← hj, if_pos (by omega)]
    push_cast
    omega

theorem noticeChild_rotated (hne : s.procs ≠ []) :
    ∃ pid, (s.rotated c k).noticeChild = some (pid, s.rotated c (k + 1)) := by
  obtain ⟨pid, hpid⟩ := noticed_rotated (c := c) (k := k) hne
  have hprocs : (s.rotated c k).procs.modify (Rotation.turn s.procs.length k) Processor.assign =
      (s.rotated c (k + 1)).procs := by
    refine List.ext_getElem (by simp) fun i _ hi => ?_
    have hi' : i < s.procs.length := length_rotated (c := c) ▸ hi
    rw [List.getElem_modify]
    simp only [rotated, List.getElem_mapIdx, Rotation.quot_succ hi' k]
    split
    · simp only [Processor.assign, Processor.mk.injEq]
      push_cast
      simp
      omega
    · simp
  refine ⟨pid, ?_⟩
  rw [noticeChild, hpid, Option.map_some, hprocs]
  rfl

/-- Where `k` calls lead. -/
theorem noticeCalls_eq (hne : s.procs ≠ []) (heq : ∀ x ∈ s.procs, x.nleft = c) (k : Nat) :
    s.noticeCalls k = some (Rotation.turns s.procs.length k, s.rotated c k) := by
  induction k with
  | zero => rw [noticeCalls, rotated_zero heq]; rfl
  | succ k ih =>
    obtain ⟨pid, hnoticed⟩ := noticed_rotated (c := c) (k := k) hne
    obtain ⟨pid', hchild⟩ := noticeChild_rotated (c := c) (k := k) hne
    rw [noticeCalls, ih, Rotation.turns_succ]
    simp only [Option.bind_eq_bind, Option.bind_some, hnoticed, hchild]
    rfl

/-- The calls pick the workers in turn: none is ahead of another by more than one assignment, each
count has gone down by the assignments, and every round of calls picks each entry once. -/
structure InTurn (s : ProcPool) (c : Int) (k : Nat) (places : List Nat) (s' : ProcPool) : Prop where
  calls : places.length = k
  share : ∀ i < s.procs.length,
    places.count i = k / s.procs.length ∨
      places.count i = (k + s.procs.length - 1) / s.procs.length
  left : s'.procs = s.procs.mapIdx fun i item => { item with nleft := c - places.count i }
  round : ∀ q, (q + 1) * s.procs.length ≤ k →
    ((places.drop (q * s.procs.length)).take s.procs.length).Perm (List.range s.procs.length)

/-- **`notice_child` keeps the load balanced.** For every pool with an entry: the call returns the
pid of an entry with the largest `nleft`, takes one from that entry's and changes nothing else, and
leaves a spread of at most the larger of the old one and 1. When all counts are equal, any number of
calls picks the workers in turn. `nleft` is taken to be unbounded. -/
theorem noticeChild_balance (s : ProcPool) (hne : s.procs ≠ []) :
    (∃ front item back, s.procs = front ++ item :: back ∧
      (∀ x ∈ s.procs, x.nleft ≤ item.nleft) ∧
      ∃ s', s.noticeChild = some (item.pid, s') ∧
        s' = { s with procs := front ++ { item with nleft := item.nleft - 1 } :: back } ∧
        s'.spread ≤ max s.spread 1) ∧
    ∀ c, (∀ x ∈ s.procs, x.nleft = c) → ∀ k,
      ∃ places s', s.noticeCalls k = some (places, s') ∧ s.InTurn c k places s' := by
  constructor
  · obtain ⟨front, item, back, hprocs, hfront, hback⟩ := exists_last_max hne
    have hmax : ∀ x ∈ s.procs, x.nleft ≤ item.nleft := by
      intro x hx
      rw [hprocs] at hx
      rcases List.mem_append.1 hx with hx | hx
      · exact hfront x hx
      · rcases List.mem_cons.1 hx with rfl | hx
        · exact le_rfl
        · exact (hback x hx).le
    exact ⟨front, item, back, hprocs, hmax, _, noticeChild_split hprocs hfront hback, rfl,
      spread_split_le hprocs hmax⟩
  · intro c heq k
    refine ⟨_, _, noticeCalls_eq hne heq k, ?_, ?_, ?_, ?_⟩
    · exact Rotation.length_turns _ k
    · exact fun i hi => Rotation.count_turns_floor_or_ceil hi k
    · refine List.ext_getElem (by simp) fun i _ hi => ?_
      have hi' : i < s.procs.length := List.length_mapIdx (l := s.procs) ▸ hi
      simp only [rotated, List.getElem_mapIdx, Rotation.count_turns hi' k]
    · exact fun q hq => Rotation.round_perm hq

/-- A pool of three at rest. -/
theorem noticeChild_balance_three : ∃ places s',
    noticeCalls 7 ⟨3, [⟨501, 200, 0⟩, ⟨502, 200, 0⟩, ⟨503, 200, 0⟩]⟩ = some (places, s') ∧
      InTurn ⟨3, [⟨501, 200, 0⟩, ⟨502, 200, 0⟩, ⟨503, 200, 0⟩]⟩ 200 7 places s' :=
  (noticeChild_balance ⟨3, [⟨501, 200, 0⟩, ⟨502, 200, 0⟩, ⟨503, 200, 0⟩]⟩ (by simp)).2 200
    (by simp) 7

end ProcPool

end HttpCallback
