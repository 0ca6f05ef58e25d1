import Mathlib.Data.Finset.Card
import Mathlib.Data.List.Count
import Mathlib.Data.Finset.Erase

/-!
# One channel and several receivers

What the receivers of one channel have taken is a list of messages, each with the receiver that took
it, in the order of the taking. The share of a receiver is what it has taken. A message is held at
no more places of the shares than it has been taken times (`card_le_count`), so messages that are
pairwise different are held at one place each (`place_unique`).
-/

namespace Fanout

variable {ι α : Type*} [DecidableEq ι] {w w' : ι} {j j' : Nat} {a : α}

/-- The messages that the receiver `w` has taken, in their order. -/
def share (w : ι) (taken : List (ι × α)) : List α := (taken.filter (·.1 = w)).map Prod.snd

theorem share_concat (w : ι) (taken : List (ι × α)) (x : ι × α) :
    share w (taken ++ [x]) = share w taken ++ if x.1 = w then [x.2] else [] := by
  unfold share
  rw [List.filter_append, List.map_append]
  by_cases hx : x.1 = w
  · simp [hx]
  · simp [hx]

theorem share_concat_self (w : ι) (taken : List (ι × α)) (a : α) :
    share w (taken ++ [(w, a)]) = share w taken ++ [a] := by
  rw [share_concat, if_pos rfl]

theorem share_concat_ne (h : w' ≠ w) (taken : List (ι × α)) (a : α) :
    share w (taken ++ [(w', a)]) = share w taken := by
  rw [share_concat, if_neg h, List.append_nil]

theorem mem_of_share {taken : List (ι × α)} (h : (share w taken)[j]? = some a) :
    a ∈ taken.map Prod.snd := by
  obtain ⟨x, hx, rfl⟩ := List.mem_map.1 (List.mem_of_getElem? h)
  exact List.mem_map_of_mem (List.mem_of_mem_filter hx)

/-- What a receiver has taken is at a place of its share. -/
theorem exists_place {taken : List (ι × α)} {x : ι × α} (h : x ∈ taken) :
    ∃ j : Nat, (share x.1 taken)[j]? = some x.2 := by
  refine List.mem_iff_getElem?.1 (List.mem_map.2 ⟨x, ?_, rfl⟩)
  exact List.mem_filter.2 ⟨h, decide_eq_true rfl⟩

/-- A place of the shares behind one more taking is an old one, or the new one. -/
theorem share_concat_place {taken : List (ι × α)} {v : ι} {b : α}
    (h : (share w (taken ++ [(v, b)]))[j]? = some a) :
    (share w taken)[j]? = some a ∨ (w = v ∧ j = (share v taken).length ∧ a = b) := by
  by_cases hw : v = w
  · subst hw
    rw [share_concat_self] at h
    rcases Nat.lt_trichotomy j (share v taken).length with hj | hj | hj
    · rw [List.getElem?_append_left hj] at h
      exact Or.inl h
    · subst hj
      rw [List.getElem?_concat_length, Option.some.injEq] at h
      exact Or.inr ⟨rfl, rfl, h.symm⟩
    · rw [List.getElem?_eq_none (by rw [List.length_append, List.length_singleton]; omega)] at h
      cases h
  · rw [share_concat_ne hw] at h
    exact Or.inl h

/-- **A message is at no more places of the shares than it has been taken times.** -/
theorem card_le_count [DecidableEq α] (taken : List (ι × α)) (places : Finset (ι × Nat))
    (h : ∀ x ∈ places, (share x.1 taken)[x.2]? = some a) :
    places.card ≤ (taken.map Prod.snd).count a := by
  induction taken using List.reverseRecOn generalizing places with
  | nil =>
    refine Nat.le_of_eq (Finset.card_eq_zero.2 (Finset.eq_empty_of_forall_notMem fun x hx => ?_))
    cases h x hx
  | append_singleton taken y ih =>
    obtain ⟨v, b⟩ := y
    have hold := ih (places.erase (v, (share v taken).length)) fun x hx => by
      rcases share_concat_place (h x (Finset.mem_of_mem_erase hx)) with hx' | ⟨hv, hj, -⟩
      · exact hx'
      · exact absurd (Prod.ext hv hj) (Finset.ne_of_mem_erase hx)
    rw [List.map_append, List.count_append]
    by_cases hmem : (v, (share v taken).length) ∈ places
    · have hb : a = b := by
        rcases share_concat_place (h _ hmem) with hx | ⟨-, -, hb⟩
        · have hlt := (List.getElem?_eq_some_iff.1 hx).1
          exact absurd hlt (Nat.lt_irrefl _)
        · exact hb
      rw [← Finset.card_erase_add_one hmem, hb]
      rw [hb] at hold
      simpa using hold
    · rw [Finset.erase_eq_of_notMem hmem] at hold
      exact Nat.le_add_right_of_le hold

/-- Messages that are pairwise different are at one place each. -/
theorem place_unique {taken : List (ι × α)} (hnodup : (taken.map Prod.snd).Nodup)
    (h : (share w taken)[j]? = some a) (h' : (share w' taken)[j']? = some a) :
    w = w' ∧ j = j' := by
  classical
  have hcard := card_le_count (a := a) taken {(w, j), (w', j')} (by
    intro x hx
    rcases Finset.mem_insert.1 hx with rfl | hx
    · exact h
    · rw [Finset.mem_singleton.1 hx]
      exact h')
  have hone := List.nodup_iff_count_le_one.1 hnodup a
  by_contra hne
  have htwo : Finset.card {(w, j), (w', j')} = 2 :=
    Finset.card_pair fun heq => hne (Prod.ext_iff.1 heq)
  omega

end Fanout
