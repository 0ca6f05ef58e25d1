import Mathlib.Data.List.Infix

/-!
# Delivery in pieces

A message is offered piece by piece, and of each piece some front part is taken. What has been
delivered is a front part of the message as long as nothing is taken behind a piece that was cut
short; if something is, it has to read like what was cut off.

The two are told apart by the places in the message that have been delivered: nothing was taken
behind a cut exactly when each byte delivered is the one at its own place (`unbroken_iff`), and what
was delivered is a front part exactly when each reads like that one (`delivered_prefix_iff_places`).
-/

namespace Delivery

variable {α : Type*}

/-- A piece of the message and the part of it that was taken. -/
structure Piece (α : Type*) where
  offered : List α
  taken : List α
  front : taken <+: offered

def message (ps : List (Piece α)) : List α := ps.flatMap (·.offered)

def delivered (ps : List (Piece α)) : List α := ps.flatMap (·.taken)

/-- What was cut off a piece. -/
def Piece.missing (p : Piece α) : List α := p.offered.drop p.taken.length

theorem Piece.taken_append_missing (p : Piece α) : p.taken ++ p.missing = p.offered := by
  obtain ⟨t, ht⟩ := p.front
  unfold Piece.missing
  rw [← ht, List.drop_left]

/-- Behind the first piece cut short, what is delivered reads like what is missing. -/
def Seamless : List (Piece α) → Prop
  | [] => True
  | p :: ps =>
    (p.missing = [] → Seamless ps) ∧ (p.missing ≠ [] → delivered ps <+: p.missing ++ message ps)

/-- **What is delivered is a front part of the message exactly when the delivery is seamless.** -/
theorem delivered_prefix_iff (ps : List (Piece α)) :
    delivered ps <+: message ps ↔ Seamless ps := by
  induction ps with
  | nil => simp [delivered, message, Seamless]
  | cons p ps ih =>
    have hm : message (p :: ps) = p.taken ++ (p.missing ++ message ps) := by
      rw [← List.append_assoc, p.taken_append_missing]
      rfl
    have hd : delivered (p :: ps) = p.taken ++ delivered ps := rfl
    rw [hm, hd, List.prefix_append_right_inj]
    unfold Seamless
    by_cases h : p.missing = []
    · simp [h, ih]
    · simp [h]

/-- Nothing is taken behind the first piece cut short. -/
def Unbroken : List (Piece α) → Prop
  | [] => True
  | p :: ps => (p.missing = [] → Unbroken ps) ∧ (p.missing ≠ [] → delivered ps = [])

/-! ## Places -/

/-- The places in the message of what is delivered. -/
def places : List (Piece α) → List Nat
  | [] => []
  | p :: ps => List.range p.taken.length ++ (places ps).map (p.offered.length + ·)

theorem length_places (ps : List (Piece α)) : (places ps).length = (delivered ps).length := by
  induction ps with
  | nil => rfl
  | cons p ps ih =>
    have hd : delivered (p :: ps) = p.taken ++ delivered ps := rfl
    rw [places, hd, List.length_append, List.length_append, List.length_range, List.length_map, ih]

/-- The `i`-th thing delivered is of the piece in front, or of a later one. -/
theorem getElem?_places_cons {p : Piece α} {ps : List (Piece α)} {i j : Nat}
    (h : (places (p :: ps))[i]? = some j) :
    (i < p.taken.length ∧ j = i) ∨
      ∃ i' j', i = p.taken.length + i' ∧ j = p.offered.length + j' ∧
        (places ps)[i']? = some j' := by
  unfold places at h
  by_cases hi : i < p.taken.length
  · rw [List.getElem?_append_left (by rwa [List.length_range]), List.getElem?_range hi,
      Option.some.injEq] at h
    exact Or.inl ⟨hi, h.symm⟩
  · rw [List.getElem?_append_right (by rw [List.length_range]; omega), List.length_range,
      List.getElem?_map, Option.map_eq_some_iff] at h
    obtain ⟨j', hj', rfl⟩ := h
    exact Or.inr ⟨_, j', by omega, rfl, hj'⟩

theorem getElem?_places_behind {p : Piece α} {ps : List (Piece α)} {i j : Nat}
    (h : (places ps)[i]? = some j) :
    (places (p :: ps))[p.taken.length + i]? = some (p.offered.length + j) := by
  unfold places
  rw [List.getElem?_append_right (by rw [List.length_range]; omega), List.length_range,
    Nat.add_sub_cancel_left, List.getElem?_map, h, Option.map_some]

/-- What is delivered stands at its place. -/
theorem getElem?_delivered {ps : List (Piece α)} : ∀ {i j : Nat},
    (places ps)[i]? = some j → (delivered ps)[i]? = (message ps)[j]? := by
  induction ps with
  | nil => nofun
  | cons p ps ih =>
    intro i j h
    have hd : delivered (p :: ps) = p.taken ++ delivered ps := rfl
    have hm : message (p :: ps) = p.offered ++ message ps := rfl
    rcases getElem?_places_cons h with ⟨hi, rfl⟩ | ⟨i', j', rfl, rfl, h'⟩
    · rw [hd, hm, List.getElem?_append_left hi,
        List.getElem?_append_left (hi.trans_le p.front.length_le),
        List.getElem?_eq_getElem hi, List.prefix_iff_getElem?.1 p.front _ hi]
    · rw [hd, hm, List.getElem?_append_right (Nat.le_add_right _ _),
        List.getElem?_append_right (Nat.le_add_right _ _), Nat.add_sub_cancel_left,
        Nat.add_sub_cancel_left]
      exact ih h'

theorem Piece.taken_length_lt {p : Piece α} (h : p.missing ≠ []) :
    p.taken.length < p.offered.length := by
  by_contra hge
  exact h (List.drop_eq_nil_of_le (Nat.le_of_not_lt hge))

theorem Piece.taken_length_eq {p : Piece α} (h : p.missing = []) :
    p.taken.length = p.offered.length :=
  p.front.length_le.antisymm (List.drop_eq_nil_iff.1 h)

/-- **Nothing is taken behind a cut exactly when everything delivered is at its own place.** -/
theorem unbroken_iff (ps : List (Piece α)) :
    Unbroken ps ↔ ∀ i j : Nat, (places ps)[i]? = some j → j = i := by
  induction ps with
  | nil => exact iff_of_true trivial nofun
  | cons p ps ih =>
    unfold Unbroken
    by_cases hcut : p.missing = []
    · have hlen := p.taken_length_eq hcut
      simp only [hcut, ne_eq, not_true_eq_false, false_implies, and_true, true_implies, ih]
      constructor
      · intro h i j hj
        rcases getElem?_places_cons hj with ⟨-, rfl⟩ | ⟨i', j', rfl, rfl, h'⟩
        · rfl
        · rw [hlen, h i' j' h']
      · intro h i j hj
        have heq := h _ _ (getElem?_places_behind (p := p) hj)
        omega
    · have hlt := p.taken_length_lt hcut
      simp only [hcut, ne_eq, false_implies, true_and, not_false_eq_true, true_implies]
      constructor
      · intro hnil i j hj
        rcases getElem?_places_cons hj with ⟨-, rfl⟩ | ⟨i', j', rfl, rfl, h'⟩
        · rfl
        · have hlen := length_places ps
          rw [hnil, List.length_nil, List.length_eq_zero_iff] at hlen
          rw [hlen] at h'
          cases h'
      · intro h
        -- the first thing taken behind the cut is not at its place
        by_contra hne
        have hpos := List.length_pos_iff.2 hne
        rw [← length_places] at hpos
        have heq := h _ _ (getElem?_places_behind (p := p) (List.getElem?_eq_getElem hpos))
        omega

/-- **What is delivered is a front part exactly when all of it reads like its own place.** -/
theorem delivered_prefix_iff_places (ps : List (Piece α)) :
    delivered ps <+: message ps ↔
      ∀ i j : Nat, (places ps)[i]? = some j → (message ps)[j]? = (message ps)[i]? := by
  rw [List.prefix_iff_getElem?]
  constructor
  · intro h i j hj
    have hi : i < (delivered ps).length := by
      rw [← length_places]
      exact (List.getElem?_eq_some_iff.1 hj).1
    rw [h i hi, ← getElem?_delivered hj, List.getElem?_eq_getElem hi]
  · intro h i hi
    have hi' : i < (places ps).length := by rwa [length_places]
    have hj := List.getElem?_eq_getElem hi'
    rw [← h i _ hj, ← getElem?_delivered hj, List.getElem?_eq_getElem hi]

end Delivery
