import Mathlib.Data.List.Nodup
import Mathlib.Logic.Function.Basic

/-!
# Singly linked lists in a heap

A heap takes addresses to nodes, a value with a pointer to the next node; NULL is `none`. `Seg`
relates a pointer to the nodes that are met from it on, up to another pointer, and a chain is a
segment that ends at NULL. The nodes of a chain are distinct without being asked to be
(`Chain.nodup`), and they are the ones that can be reached from its head (`Chain.reaches_iff`).
Unlinking a node takes it, and no other, out of its chain.
-/

namespace SList

structure Node (α : Type*) where
  val : α
  next : Option Nat
  deriving Repr, DecidableEq

abbrev Heap (α : Type*) := Nat → Option (Node α)

variable {α : Type*} {h h' : Heap α} {p q : Option Nat} {xs ys : List (Nat × α)} {a b : Nat} {v : α}

/-- From `p` the nodes `xs`, each with its address, lead to `q`. -/
inductive Seg (h : Heap α) : Option Nat → List (Nat × α) → Option Nat → Prop
  | nil (p : Option Nat) : Seg h p [] p
  | cons {a : Nat} {v : α} {next q : Option Nat} {xs : List (Nat × α)}
    (hnode : h a = some ⟨v, next⟩) (hxs : Seg h next xs q) : Seg h (some a) ((a, v) :: xs) q

/-- A segment that ends at NULL. -/
abbrev Chain (h : Heap α) (p : Option Nat) (xs : List (Nat × α)) : Prop := Seg h p xs none

/-- Following the pointers from `p` leads to the address, whether there is a node or not. -/
inductive Reaches (h : Heap α) : Option Nat → Nat → Prop
  | here (a : Nat) : Reaches h (some a) a
  | next {a b : Nat} {node : Node α} (hnode : h a = some node) (hb : Reaches h node.next b) :
    Reaches h (some a) b

/-- `p->next = q`; none where `p` is no node. -/
def link (h : Heap α) (a : Nat) (q : Option Nat) : Option (Heap α) :=
  (h a).map fun node => Function.update h a (some { node with next := q })

/-- `free(p)`; none where `p` is no node. -/
def free (h : Heap α) (a : Nat) : Option (Heap α) := (h a).map fun _ => Function.update h a none

/-! ## Segments -/

theorem seg_append : Seg h p (xs ++ ys) q ↔ ∃ m, Seg h p xs m ∧ Seg h m ys q := by
  induction xs generalizing p with
  | nil =>
    constructor
    · exact fun hys => ⟨p, .nil p, hys⟩
    · rintro ⟨m, hm, hys⟩
      cases hm
      exact hys
  | cons x xs ih =>
    constructor
    · intro hall
      cases hall with
      | cons hnode hrest =>
        obtain ⟨m, hm, hys⟩ := ih.1 hrest
        exact ⟨m, .cons hnode hm, hys⟩
    · rintro ⟨m, hm, hys⟩
      cases hm with
      | cons hnode hrest => exact .cons hnode (ih.2 ⟨m, hrest, hys⟩)

/-- The node behind a segment. -/
theorem seg_append_cons : Seg h p (xs ++ (a, v) :: ys) q ↔
    Seg h p xs (some a) ∧ ∃ next, h a = some ⟨v, next⟩ ∧ Seg h next ys q := by
  rw [seg_append]
  constructor
  · rintro ⟨m, hxs, hrest⟩
    cases hrest with
    | cons hnode hys => exact ⟨hxs, _, hnode, hys⟩
  · rintro ⟨hxs, next, hnode, hys⟩
    exact ⟨some a, hxs, .cons hnode hys⟩

/-- A segment depends on its own nodes only. -/
theorem Seg.congr (hxs : Seg h p xs q) (heq : ∀ x ∈ xs, h' x.1 = h x.1) : Seg h' p xs q := by
  induction hxs with
  | nil p => exact .nil p
  | cons hnode _ ih =>
    obtain ⟨ha, hrest⟩ := List.forall_mem_cons.1 heq
    exact .cons (ha.trans hnode) (ih hrest)

theorem Seg.ne_none (hxs : Seg h p xs q) : ∀ x ∈ xs, h x.1 ≠ none := by
  induction hxs with
  | nil p => exact List.forall_mem_nil _
  | cons hnode _ ih =>
    refine List.forall_mem_cons.2 ⟨?_, ih⟩
    rw [hnode]
    exact Option.some_ne_none _

/-! ## Chains -/

theorem Chain.unique (hxs : Chain h p xs) (hys : Chain h p ys) : xs = ys := by
  induction xs generalizing p ys with
  | nil =>
    cases hxs
    cases hys
    rfl
  | cons x xs ih =>
    cases hxs with
    | cons hnode hxs =>
      cases hys with
      | cons hnode' hys =>
        rw [hnode] at hnode'
        cases hnode'
        rw [ih hxs hys]

/-- **The nodes of a chain are distinct**: behind a node met again the chain would never end. -/
theorem Chain.nodup (hxs : Chain h p xs) : (xs.map Prod.fst).Nodup := by
  induction xs generalizing p with
  | nil => exact List.nodup_nil
  | cons x xs ih =>
    have hall := hxs
    cases hxs with
    | cons hnode hrest =>
      refine List.nodup_cons.2 ⟨?_, ih hrest⟩
      intro hmem
      obtain ⟨⟨a, v⟩, hx, heq⟩ := List.mem_map.1 hmem
      subst heq
      obtain ⟨front, back, rfl⟩ := List.append_of_mem hx
      obtain ⟨-, next, hnode', hback⟩ := seg_append_cons.1 hrest
      have hlen := congrArg List.length (Chain.unique hall (.cons hnode' hback))
      simp only [List.length_cons, List.length_append] at hlen
      omega

/-- **What can be reached from the head of a chain are its nodes.** -/
theorem Chain.reaches_iff (hxs : Chain h p xs) : Reaches h p b ↔ b ∈ xs.map Prod.fst := by
  induction xs generalizing p with
  | nil =>
    cases hxs
    refine iff_of_false (fun hb => ?_) List.not_mem_nil
    cases hb
  | cons x xs ih =>
    cases hxs with
    | cons hnode hrest =>
      rw [List.map_cons, List.mem_cons, ← ih hrest]
      constructor
      · intro hb
        cases hb with
        | here => exact Or.inl rfl
        | next hnode' hb =>
          rw [hnode] at hnode'
          cases hnode'
          exact Or.inr hb
      · rintro (rfl | hb)
        · exact .here _
        · exact .next hnode hb

/-! ## Unlinking a node -/

variable {front back : List (Nat × α)} {w : α}

theorem Chain.not_mem (hxs : Chain h p (front ++ (b, w) :: back)) :
    b ∉ (front ++ back).map Prod.fst := by
  have hnodup := hxs.nodup
  rw [List.map_append, List.map_cons, List.nodup_middle, ← List.map_append] at hnodup
  exact (List.nodup_cons.1 hnodup).1

theorem Chain.ne_of_mem (hxs : Chain h p (front ++ (b, w) :: back)) {x : Nat × α}
    (hx : x ∈ front ++ back) : x.1 ≠ b := by
  rintro rfl
  exact hxs.not_mem (List.mem_map_of_mem hx)

/-- The pointer to a node behind others is not the head. -/
theorem Chain.head_ne (hxs : Chain h p (front ++ (b, w) :: back)) (hne : front ≠ []) :
    p ≠ some b := by
  obtain ⟨y, ys, rfl⟩ := List.exists_cons_of_ne_nil hne
  have hy : y.1 ≠ b := hxs.ne_of_mem List.mem_cons_self
  cases hxs with
  | cons => exact fun heq => hy (Option.some.inj heq)

/-- What is left of a chain behind the freeing of one of its nodes: the other nodes in their order,
with their values, and outside the chain nothing has changed. -/
structure Unlinked (h h' : Heap α) (p' : Option Nat) (front : List (Nat × α)) (b : Nat)
    (back : List (Nat × α)) : Prop where
  chain : Chain h' p' (front ++ back)
  freed : h' b = none
  frame : ∀ c, c ∉ front.map Prod.fst → c ≠ b → h' c = h c

/-- The node at the head. -/
theorem Chain.unlink_head (hxs : Chain h p ((b, w) :: back)) :
    ∃ next h', p = some b ∧ h b = some ⟨w, next⟩ ∧ free h b = some h' ∧
      Unlinked h h' next [] b back := by
  have hxs' : Chain h p ([] ++ (b, w) :: back) := hxs
  have hne : ∀ x ∈ back, x.1 ≠ b := fun x hx => hxs'.ne_of_mem hx
  cases hxs with
  | @cons _ _ next _ _ hnode hback =>
    refine ⟨next, Function.update h b none, rfl, hnode, by rw [free, hnode]; rfl, ?_, ?_, ?_⟩
    · exact hback.congr fun x hx => Function.update_of_ne (hne x hx) _ _
    · exact Function.update_self _ _ _
    · exact fun c _ hc => Function.update_of_ne hc _ _

/-- The node behind `a`. -/
theorem Chain.unlink_behind (hxs : Chain h p (front ++ (a, v) :: (b, w) :: back)) :
    ∃ next h₁ h', h b = some ⟨w, next⟩ ∧ link h a next = some h₁ ∧ free h₁ b = some h' ∧
      Unlinked h h' p (front ++ [(a, v)]) b back := by
  have hneb : ∀ x ∈ front ++ (a, v) :: back, x.1 ≠ b := fun x hx => by
    rw [List.append_cons] at hxs hx
    exact hxs.ne_of_mem hx
  have hnea : ∀ x ∈ front ++ (b, w) :: back, x.1 ≠ a := fun x hx => hxs.ne_of_mem hx
  have hab : a ≠ b := hneb (a, v) (List.mem_append_right _ List.mem_cons_self)
  obtain ⟨hfront, m, ha, hrest⟩ := seg_append_cons.1 hxs
  cases hrest with
  | @cons _ _ next _ _ hb hback =>
    have hother : ∀ c, c ≠ a → c ≠ b →
        Function.update (Function.update h a (some ⟨v, next⟩)) b none c = h c := by
      intro c hca hcb
      rw [Function.update_of_ne hcb, Function.update_of_ne hca]
    refine ⟨next, Function.update h a (some ⟨v, next⟩),
      Function.update (Function.update h a (some ⟨v, next⟩)) b none, hb, ?_, ?_, ?_, ?_, ?_⟩
    · rw [link, ha]
      rfl
    · rw [free, Function.update_of_ne hab.symm, hb]
      rfl
    · rw [← List.append_cons]
      refine seg_append_cons.2 ⟨?_, next, ?_, ?_⟩
      · refine hfront.congr fun x hx => hother x.1 ?_ ?_
        · exact hnea x (List.mem_append_left _ hx)
        · exact hneb x (List.mem_append_left _ hx)
      · rw [Function.update_of_ne hab, Function.update_self]
      · refine hback.congr fun x hx => hother x.1 ?_ ?_
        · exact hnea x (List.mem_append_right _ (List.mem_cons_of_mem _ hx))
        · exact hneb x (List.mem_append_right _ (List.mem_cons_of_mem _ hx))
    · exact Function.update_self _ _ _
    · intro c hc hcb
      refine hother c ?_ hcb
      rintro rfl
      exact hc (List.mem_map_of_mem (List.mem_append_right _ (List.mem_singleton_self _)))

/-- The node is the only one freed. -/
theorem Unlinked.none_iff {p' : Option Nat} (hxs : Chain h p (front ++ (b, w) :: back))
    (hun : Unlinked h h' p' front b back) (c : Nat) : h' c = none ↔ h c = none ∨ c = b := by
  by_cases hc : c = b
  · subst hc
    exact iff_of_true hun.freed (Or.inr rfl)
  rw [or_iff_left hc]
  by_cases hmem : c ∈ front.map Prod.fst
  · obtain ⟨x, hx, rfl⟩ := List.mem_map.1 hmem
    refine iff_of_false ?_ ?_
    · exact hun.chain.ne_none x (List.mem_append_left _ hx)
    · exact hxs.ne_none x (List.mem_append_left _ hx)
  · rw [hun.frame c hmem hc]

/-- It cannot be reached any more. -/
theorem Unlinked.not_reaches {p' : Option Nat} (hxs : Chain h p (front ++ (b, w) :: back))
    (hun : Unlinked h h' p' front b back) : ¬Reaches h' p' b := by
  rw [hun.chain.reaches_iff]
  exact hxs.not_mem

end SList
