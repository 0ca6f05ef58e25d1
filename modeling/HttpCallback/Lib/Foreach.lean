import HttpCallback.Lib.SList

/-!
# Loops over a singly linked list

`foreach` visits the nodes of a list one after the other; the body sees an accumulator and the node
at hand, may change the value of that node, and may break. On a chain it computes what `walk`
computes on the list of values, and it touches nothing but the nodes of the chain (`foreach_walk`).
`Chain.push` puts a node in front.
-/

namespace SList

variable {α β : Type*} {h h' : Heap α} {p q : Option Nat} {xs ys : List (Nat × α)} {a b : Nat}
  {v w : α}

/-- `p->val = v`; none where `p` is no node. -/
def store (h : Heap α) (a : Nat) (v : α) : Option (Heap α) :=
  (h a).map fun node => Function.update h a (some { node with val := v })

/-- A visit: the accumulator behind it, the value that the node is left with, and whether the loop
goes on. -/
structure Visit (α β : Type*) where
  acc : β
  val : α
  goOn : Bool

/-- The loop from `p` on; none where a pointer is followed that is no node's. A list of `n` nodes
takes up to `n + 1` turns. -/
def foreach (body : β → Nat → α → Visit α β) : Nat → Option Nat → β → Heap α → Option (β × Heap α)
  | 0, _, _, _ => none
  | _ + 1, none, acc, h => some (acc, h)
  | fuel + 1, some a, acc, h =>
    (h a).bind fun node =>
      let visit := body acc a node.val
      (store h a visit.val).bind fun h =>
        if visit.goOn then foreach body fuel node.next visit.acc h else some (visit.acc, h)

/-- The loop over a list. -/
def walk (body : β → Nat → α → Visit α β) : β → List (Nat × α) → β × List (Nat × α)
  | acc, [] => (acc, [])
  | acc, (a, v) :: xs =>
    let visit := body acc a v
    if visit.goOn then
      ((walk body visit.acc xs).1, (a, visit.val) :: (walk body visit.acc xs).2)
    else (visit.acc, (a, visit.val) :: xs)

/-- A list is changed in its values only. -/
structure Revalued (h h' : Heap α) (p : Option Nat) (xs ys : List (Nat × α)) : Prop where
  chain : Chain h' p ys
  addrs : ys.map Prod.fst = xs.map Prod.fst
  frame : ∀ a, a ∉ xs.map Prod.fst → h' a = h a

theorem Chain.head_none (hxs : Chain h p []) : p = none := by
  cases hxs
  rfl

/-- The node at the head. -/
theorem Chain.head_node (hxs : Chain h p ((a, v) :: xs)) :
    ∃ next, p = some a ∧ h a = some ⟨v, next⟩ := by
  cases hxs with
  | cons hnode _ => exact ⟨_, rfl, hnode⟩

/-! ## Storing a value -/

theorem store_node {next : Option Nat} (hnode : h a = some ⟨v, next⟩) (w : α) :
    store h a w = some (Function.update h a (some ⟨w, next⟩)) := by
  rw [store, hnode]
  rfl

/-- The rest of a chain does not see what is stored in front of it. -/
theorem Chain.tail_update {next : Option Nat} (hxs : Chain h p ((a, v) :: xs))
    (hnode : h a = some ⟨v, next⟩) (node : Option (Node α)) :
    Chain (Function.update h a node) next xs := by
  have hnot := (List.nodup_cons.1 hxs.nodup).1
  cases hxs with
  | cons hnode' hrest =>
    rw [hnode] at hnode'
    cases hnode'
    refine hrest.congr fun x hx => Function.update_of_ne ?_ _ _
    intro heq
    exact hnot (List.mem_map.2 ⟨x, hx, heq⟩)

/-- The value of one node is stored. -/
theorem Chain.store (hxs : Chain h p (xs ++ (b, v) :: ys)) (w : α) :
    ∃ h', store h b w = some h' ∧ Revalued h h' p (xs ++ (b, v) :: ys) (xs ++ (b, w) :: ys) := by
  obtain ⟨hfront, next, hnode, hback⟩ := seg_append_cons.1 hxs
  refine ⟨_, store_node hnode w, ?_, ?_, ?_⟩
  · refine seg_append_cons.2 ⟨?_, next, Function.update_self .., ?_⟩
    · exact hfront.congr fun x hx =>
        Function.update_of_ne (hxs.ne_of_mem (List.mem_append_left _ hx)) _ _
    · exact hback.congr fun x hx =>
        Function.update_of_ne (hxs.ne_of_mem (List.mem_append_right _ hx)) _ _
  · simp
  · intro c hc
    refine Function.update_of_ne ?_ _ _
    rintro rfl
    simp at hc

/-! ## The loop -/

theorem walk_addrs (body : β → Nat → α → Visit α β) (acc : β) (xs : List (Nat × α)) :
    (walk body acc xs).2.map Prod.fst = xs.map Prod.fst := by
  induction xs generalizing acc with
  | nil => rfl
  | cons x xs ih =>
    obtain ⟨a, v⟩ := x
    unfold walk
    simp only
    split
    · exact congrArg (a :: ·) (ih _)
    · rfl

/-- **The loop over the nodes is the loop over the list.** -/
theorem foreach_walk (body : β → Nat → α → Visit α β) (acc : β) (hxs : Chain h p xs) :
    ∃ h', (∀ fuel, xs.length < fuel →
        foreach body fuel p acc h = some ((walk body acc xs).1, h')) ∧
      Revalued h h' p xs (walk body acc xs).2 := by
  induction xs generalizing h p acc with
  | nil =>
    cases hxs
    refine ⟨h, fun fuel hfuel => ?_, .nil none, rfl, fun _ _ => rfl⟩
    obtain ⟨k, rfl⟩ := Nat.exists_eq_succ_of_ne_zero (Nat.ne_of_gt hfuel)
    rfl
  | cons x xs ih =>
    obtain ⟨a, v⟩ := x
    have hall := hxs
    cases hxs with
    | @cons _ _ next _ _ hnode hrest =>
    have hturn : ∀ k, foreach body (k + 1) (some a) acc h =
        if (body acc a v).goOn then foreach body k next (body acc a v).acc
          (Function.update h a (some ⟨(body acc a v).val, next⟩))
        else some ((body acc a v).acc,
          Function.update h a (some ⟨(body acc a v).val, next⟩)) := by
      intro k
      rw [foreach, hnode]
      simp only [Option.bind_some, store_node hnode]
    have htail := hall.tail_update hnode (some ⟨(body acc a v).val, next⟩)
    by_cases hgo : (body acc a v).goOn = true
    · obtain ⟨h', hloop, hre⟩ := ih (body acc a v).acc htail
      have hnot := (List.nodup_cons.1 hall.nodup).1
      refine ⟨h', fun fuel hfuel => ?_, ?_, ?_, fun c hc => ?_⟩
      · obtain ⟨k, rfl⟩ := Nat.exists_eq_succ_of_ne_zero (Nat.ne_of_gt (Nat.zero_lt_of_lt hfuel))
        rw [hturn, if_pos hgo, hloop k (Nat.lt_of_succ_lt_succ hfuel), walk]
        simp only [if_pos hgo]
      · rw [walk]
        simp only [if_pos hgo]
        exact .cons ((hre.frame a hnot).trans (Function.update_self ..)) hre.chain
      · exact walk_addrs body acc ((a, v) :: xs)
      · rw [List.map_cons, List.mem_cons, not_or] at hc
        exact (hre.frame c hc.2).trans (Function.update_of_ne hc.1 _ _)
    · refine ⟨Function.update h a (some ⟨(body acc a v).val, next⟩), fun fuel hfuel => ?_, ?_,
        walk_addrs body acc ((a, v) :: xs), fun c hc => ?_⟩
      · obtain ⟨k, rfl⟩ := Nat.exists_eq_succ_of_ne_zero (Nat.ne_of_gt (Nat.zero_lt_of_lt hfuel))
        rw [hturn, if_neg hgo, walk]
        simp only [hgo, Bool.false_eq_true, if_false]
      · rw [walk]
        simp only [hgo, Bool.false_eq_true, if_false]
        exact .cons (Function.update_self ..) htail
      · rw [List.map_cons, List.mem_cons, not_or] at hc
        exact Function.update_of_ne hc.1 _ _

/-- Visits that leave a value that depends on the old one only, and a loop that goes on. -/
theorem walk_map {body : β → Nat → α → Visit α β} {f : α → α}
    (hgo : ∀ acc a v, (body acc a v).goOn = true) (hval : ∀ acc a v, (body acc a v).val = f v)
    (acc : β) (xs : List (Nat × α)) :
    (walk body acc xs).2 = xs.map fun x => (x.1, f x.2) := by
  induction xs generalizing acc with
  | nil => rfl
  | cons x xs ih =>
    obtain ⟨a, v⟩ := x
    simp only [walk, hgo, if_true, List.map_cons, hval, ih]

/-- Visits that only read. -/
theorem walk_reads {body : β → Nat → α → Visit α β} (hgo : ∀ acc a v, (body acc a v).goOn = true)
    (hval : ∀ acc a v, (body acc a v).val = v) (acc : β) (xs : List (Nat × α)) :
    (walk body acc xs).2 = xs := by
  rw [walk_map hgo hval]
  exact List.map_id xs

/-! ## A new node in front -/

/-- `malloc` of a node: an address that is no node's, with whatever the link held before. -/
def alloc (h : Heap α) (a : Nat) (v : α) (junk : Option Nat) : Option (Heap α) :=
  if h a = none then some (Function.update h a (some ⟨v, junk⟩)) else none

/-- `SLIST_INSERT_HEAD` of a new node. -/
theorem Chain.push (hxs : Chain h p xs) (hfree : h a = none) (v : α) (junk : Option Nat) :
    ∃ h₁ h', alloc h a v junk = some h₁ ∧ link h₁ a p = some h' ∧
      Chain h' (some a) ((a, v) :: xs) ∧ ∀ c, c ≠ a → h' c = h c := by
  have hnot : ∀ x ∈ xs, x.1 ≠ a := by
    rintro x hx rfl
    exact hxs.ne_none x hx hfree
  have hnode : Function.update h a (some ⟨v, junk⟩) a = some ⟨v, junk⟩ := Function.update_self ..
  refine ⟨_, Function.update h a (some ⟨v, p⟩), if_pos hfree, ?_, ?_, ?_⟩
  · rw [link, hnode]
    simp only [Option.map_some, Function.update_idem]
  · exact .cons (Function.update_self ..)
      (hxs.congr fun x hx => Function.update_of_ne (hnot x hx) _ _)
  · exact fun c hc => Function.update_of_ne hc _ _

end SList
