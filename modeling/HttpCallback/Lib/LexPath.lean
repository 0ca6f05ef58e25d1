import Mathlib.Data.List.Infix

/-!
# Lexical resolution of paths

A path is a list of moves: stay, go up, go down to a name. `resolve` plays them on a stack of names
that starts empty, and a path is under a base when the names of the base are a prefix of what it
resolves to.

A walk that starts in the base can leave it and come back, so the depth alone does not tell where it
ends. `Pos` counts how many names of the base the stack still shares and how many it has beyond
them, and `resolve_under_iff` shows that these two numbers are enough.
-/

namespace LexPath

variable {α : Type*}

inductive Move (α : Type*)
  | stay
  | up
  | down (name : α)
  deriving Repr, DecidableEq

/-- A move on the stack of names; the root is its own parent. -/
def Move.apply (l : List α) : Move α → List α
  | .stay => l
  | .up => l.dropLast
  | .down a => l ++ [a]

/-- Where the moves lead from `l`. -/
def resolveFrom (l : List α) (ms : List (Move α)) : List α := ms.foldl Move.apply l

def resolve (ms : List (Move α)) : List α := resolveFrom [] ms

theorem resolveFrom_append (l : List α) (ms ns : List (Move α)) :
    resolveFrom l (ms ++ ns) = resolveFrom (resolveFrom l ms) ns := List.foldl_append

theorem resolveFrom_down (l names : List α) : resolveFrom l (names.map .down) = l ++ names := by
  induction names generalizing l with
  | nil => simp [resolveFrom]
  | cons a as ih =>
    have h := ih (l ++ [a])
    unfold resolveFrom at h ⊢
    simpa [Move.apply] using h

/-! ## Where a walk stands -/

/-- The number of names shared with the base, and the number of names beyond them. -/
structure Pos where
  shared : Nat
  extra : Nat
  deriving Repr, DecidableEq

/-- The stack `l` stands at `p`: it is `p.shared` names of the base and `p.extra` others, of which
the first is not the base's next name. -/
structure At (base : List α) (p : Pos) (l : List α) : Prop where
  le : p.shared ≤ base.length
  split : ∃ own, l = base.take p.shared ++ own ∧ own.length = p.extra ∧
    ∀ a as, own = a :: as → base[p.shared]? ≠ some a

variable {base l : List α} {p : Pos}

theorem at_take {k : Nat} (h : k ≤ base.length) : At base ⟨k, 0⟩ (base.take k) :=
  ⟨h, [], (List.append_nil _).symm, rfl, nofun⟩

/-- The walk ends under the base when it shares all its names. -/
theorem At.under_iff (h : At base p l) : base <+: l ↔ p.shared = base.length := by
  obtain ⟨hle, own, rfl, -, hhead⟩ := h
  constructor
  · intro hp
    by_contra hne
    have hlt : p.shared < base.length := Nat.lt_of_le_of_ne hle hne
    obtain ⟨t, ht⟩ := hp
    have hcut : base.take p.shared ++ (base.drop p.shared ++ t) = base.take p.shared ++ own := by
      rw [← List.append_assoc, List.take_append_drop, ht]
    have hext := List.append_cancel_left hcut
    rw [List.drop_eq_getElem_cons hlt] at hext
    exact hhead _ _ hext.symm (List.getElem?_eq_getElem hlt)
  · intro heq
    rw [heq, List.take_length]
    exact List.prefix_append _ _

variable [DecidableEq α]

def Pos.move (base : List α) (p : Pos) : Move α → Pos
  | .stay => p
  | .up => if p.extra = 0 then ⟨p.shared - 1, 0⟩ else ⟨p.shared, p.extra - 1⟩
  | .down a =>
    if p.extra = 0 ∧ base[p.shared]? = some a then ⟨p.shared + 1, 0⟩ else ⟨p.shared, p.extra + 1⟩

/-- The position after the moves `ms`. -/
def Pos.walk (base : List α) (p : Pos) (ms : List (Move α)) : Pos := ms.foldl (Pos.move base) p

theorem At.up (h : At base p l) : At base (p.move base .up) (Move.apply l .up) := by
  obtain ⟨hle, own, rfl, hlen, hhead⟩ := h
  by_cases h0 : p.extra = 0
  · have hm : p.move base .up = ⟨p.shared - 1, 0⟩ := if_pos h0
    rw [hm]
    have hnil : own = [] := List.eq_nil_of_length_eq_zero (hlen.trans h0)
    subst hnil
    refine ⟨Nat.le_trans (Nat.sub_le _ _) hle, [], ?_, rfl, nofun⟩
    have hk : min ((base.take p.shared).length - 1) p.shared = p.shared - 1 := by
      rw [List.length_take]
      omega
    unfold Move.apply
    rw [List.append_nil, List.append_nil, List.dropLast_eq_take, List.take_take, hk]
  · have hm : p.move base .up = ⟨p.shared, p.extra - 1⟩ := if_neg h0
    rw [hm]
    obtain ⟨x, xs, rfl⟩ := List.exists_cons_of_length_pos (l := own) (by omega)
    refine ⟨hle, (x :: xs).dropLast, ?_, ?_, ?_⟩
    · exact List.dropLast_append_of_ne_nil (List.cons_ne_nil _ _)
    · rw [List.length_dropLast, hlen]
    · intro a as heq
      cases xs with
      | nil => cases heq
      | cons y ys =>
        cases heq
        exact hhead _ _ rfl

theorem At.down (h : At base p l) (a : α) :
    At base (p.move base (.down a)) (Move.apply l (.down a)) := by
  obtain ⟨hle, own, rfl, hlen, hhead⟩ := h
  by_cases hc : p.extra = 0 ∧ base[p.shared]? = some a
  · -- the base's next name
    have hm : p.move base (.down a) = ⟨p.shared + 1, 0⟩ := if_pos hc
    rw [hm]
    have hnil : own = [] := List.eq_nil_of_length_eq_zero (hlen.trans hc.1)
    subst hnil
    obtain ⟨hlt, ha⟩ := List.getElem?_eq_some_iff.1 hc.2
    refine ⟨hlt, [], ?_, rfl, nofun⟩
    rw [List.append_nil, List.append_nil, ← ha]
    exact List.take_concat_get' _ _ hlt
  · have hm : p.move base (.down a) = ⟨p.shared, p.extra + 1⟩ := if_neg hc
    rw [hm]
    refine ⟨hle, own ++ [a], List.append_assoc _ _ _, ?_, ?_⟩
    · rw [List.length_append, hlen]
      rfl
    · intro b bs heq
      cases own with
      | nil =>
        cases heq
        exact fun hb => hc ⟨hlen.symm, hb⟩
      | cons x xs =>
        cases heq
        exact hhead _ _ rfl

theorem At.move (h : At base p l) (m : Move α) : At base (p.move base m) (Move.apply l m) := by
  cases m with
  | stay => exact h
  | up => exact h.up
  | down a => exact h.down a

/-- A walk stands where its position says. -/
theorem At.walk (ms : List (Move α)) : ∀ {p : Pos} {l : List α}, At base p l →
    At base (p.walk base ms) (resolveFrom l ms) := by
  induction ms with
  | nil => intro p l h; exact h
  | cons m ms ih => intro p l h; exact ih (h.move m)

/-- **A path that starts with the first `k` names of the base resolves to a place under it exactly
when the walk behind them ends with all names shared.** -/
theorem resolve_under_iff {k : Nat} (hk : k ≤ base.length) (ms : List (Move α)) :
    base <+: resolve ((base.take k).map .down ++ ms) ↔
      (Pos.walk base ⟨k, 0⟩ ms).shared = base.length := by
  have h := At.walk ms (at_take hk)
  rw [resolve, resolveFrom_append, resolveFrom_down, List.nil_append]
  exact h.under_iff

end LexPath
