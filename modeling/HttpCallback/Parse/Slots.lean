import HttpCallback.Parse.Canonical

/-!
# The slots of the header array

`nhead[i].header` and `nhead[i].value` are meant to be the name and the value of one header, but the
loop increments `i` behind each of the two copies. Every header takes up two slots, the name in the
first of them and the value in the second, so the array is as it is meant to be only when there are
no headers at all (`analasy_slots_iff`).
-/

namespace HttpCallback

open CString

/-- The string that the last store to `d` has left there. -/
def lastStore (d : Dest) : List (Dest × Bytes) → Option Bytes
  | [] => none
  | c :: cs => (lastStore d cs).or (if c.1 = d then some c.2 else none)

/-- What `nhead[i]` holds in the field `f`, if it has been written. -/
def HttpRequest.slot (req : HttpRequest) (i : Nat) (f : Field) : Option Bytes :=
  lastStore (.nhead i f) req.nhead

/-- The `k`-th header is stored in slot `k`, and no slot behind the headers is written. -/
structure HttpRequest.Slotted (req : HttpRequest) (hs : List (Bytes × Bytes)) : Prop where
  stored : ∀ k (hk : k < hs.length),
    req.slot k .header = some hs[k].1 ∧ req.slot k .value = some hs[k].2
  untouched : ∀ i f, hs.length ≤ i → req.slot i f = none

theorem lastStore_cons_of_ne {d : Dest} {c : Dest × Bytes} (h : c.1 ≠ d)
    (cs : List (Dest × Bytes)) : lastStore d (c :: cs) = lastStore d cs := by
  rw [lastStore, if_neg h, Option.or_none]

/-- The stores of the lines start at their own slot. -/
theorem lastStore_headStores_lt (hs : List (Bytes × Bytes)) : ∀ {i j : Nat} (f : Field), j < i →
    lastStore (.nhead j f) (headStores i hs) = none := by
  induction hs with
  | nil => exact fun _ _ => rfl
  | cons h hs ih =>
    intro i j f hlt
    have hne₁ : Dest.nhead i .header ≠ .nhead j f := by
      rw [Ne, Dest.nhead.injEq]
      omega
    have hne₂ : Dest.nhead (i + 1) .value ≠ .nhead j f := by
      rw [Ne, Dest.nhead.injEq]
      omega
    rw [headStores, lastStore_cons_of_ne hne₁, lastStore_cons_of_ne hne₂]
    exact ih f (Nat.lt_add_right 2 hlt)

/-- Names are found in the slots with an even distance from the first, values in the others. -/
theorem lastStore_headStores (hs : List (Bytes × Bytes)) : ∀ i j : Nat,
    lastStore (.nhead (i + j) .header) (headStores i hs) =
        (if j % 2 = 0 then hs[j / 2]?.map (·.1) else none) ∧
      lastStore (.nhead (i + j) .value) (headStores i hs) =
        (if j % 2 = 1 then hs[j / 2]?.map (·.2) else none) := by
  induction hs with
  | nil =>
    intro i j
    constructor
    · split <;> rfl
    · split <;> rfl
  | cons h hs ih =>
    intro i j
    rcases j with - | - | j
    · have hnext := fun f => @lastStore_headStores_lt hs (i + 2) i f (by omega)
      simp [headStores, lastStore, hnext]
    · have hnext := fun f => @lastStore_headStores_lt hs (i + 2) (i + 1) f (by omega)
      simp [headStores, lastStore, hnext]
    · obtain ⟨hheader, hvalue⟩ := ih (i + 2) j
      have hidx : i + 2 + j = i + (j + 2) := by omega
      have hmod : (j + 2) % 2 = j % 2 := Nat.add_mod_right j 2
      have hdiv : (j + 2) / 2 = j / 2 + 1 := Nat.add_div_right j (by decide)
      have hne : ∀ f, Dest.nhead i .header ≠ .nhead (i + (j + 2)) f ∧
          Dest.nhead (i + 1) .value ≠ .nhead (i + (j + 2)) f := by
        intro f
        rw [Ne, Ne, Dest.nhead.injEq, Dest.nhead.injEq]
        omega
      rw [hidx] at hheader hvalue
      rw [hmod, hdiv, List.getElem?_cons_succ, headStores]
      constructor
      · rw [lastStore_cons_of_ne (hne _).1, lastStore_cons_of_ne (hne _).2]
        exact hheader
      · rw [lastStore_cons_of_ne (hne _).1, lastStore_cons_of_ne (hne _).2]
        exact hvalue

/-- The parser on a request line and canonical header lines: it returns, and the `k`-th header lies
in the slots `2 * k` and `2 * k + 1`. -/
theorem analasy_headers {line m u v : Bytes} (hl : RequestLine line m u v)
    {hs : List (Bytes × Bytes)} (hh : ∀ h ∈ hs, CanonicalHeader h) {t : Bytes} (ht : NulFree t) :
    ∃ req, (analasy (line ++ cr :: lf :: (hs.flatMap headerLine ++ cr :: lf :: t))).out =
        .ret (some req) ∧
      ∀ j, req.slot j .header = (if j % 2 = 0 then hs[j / 2]?.map (·.1) else none) ∧
        req.slot j .value = (if j % 2 = 1 then hs[j / 2]?.map (·.2) else none) := by
  have hnul := nulFree_text (hl.avoids.not (by simp)) (nulFree_headers hh) ht
  obtain ⟨cs, hcs, -, -⟩ := analasyTokens_headers hl hh t
  refine ⟨⟨m, u, v, headStores 0 hs⟩, ?_, fun j => ?_⟩
  · rw [(analasy_refines hnul).2, hcs]
  · have hstores := lastStore_headStores hs 0 j
    rw [Nat.zero_add] at hstores
    exact hstores

/-- **The header array is as meant exactly when it is empty.** For every request line with three
words, every list of canonical header lines and every tail: the parser returns a request, and the
`k`-th header lies in slot `k` with no slot behind the headers written if and only if there is no
header line. -/
theorem analasy_slots_iff {line m u v : Bytes} (hl : RequestLine line m u v)
    {hs : List (Bytes × Bytes)} (hh : ∀ h ∈ hs, CanonicalHeader h) {t : Bytes} (ht : NulFree t) :
    ∃ req, (analasy (line ++ cr :: lf :: (hs.flatMap headerLine ++ cr :: lf :: t))).out =
        .ret (some req) ∧ (req.Slotted hs ↔ hs = []) := by
  obtain ⟨req, hret, hslot⟩ := analasy_headers hl hh ht
  refine ⟨req, hret, ?_, ?_⟩
  · intro h
    by_contra hne
    -- the first value is not in the first slot
    have hvalue := (h.stored 0 (List.length_pos_iff.2 hne)).2
    rw [(hslot 0).2] at hvalue
    cases hvalue
  · rintro rfl
    refine ⟨fun k hk => absurd hk (Nat.not_lt_zero k), fun i f _ => ?_⟩
    cases f with
    | header =>
      rw [(hslot i).1]
      split <;> rfl
    | value =>
      rw [(hslot i).2]
      split <;> rfl

/-- `G / H` without headers. -/
theorem analasy_slots_iff_get :
    ∃ req, (analasy [71, 32, 47, 32, 72, 13, 10, 13, 10]).out = .ret (some req) ∧
      req.Slotted [] := by
  obtain ⟨req, hret, hiff⟩ :=
    analasy_slots_iff requestLine_sample (List.forall_mem_nil CanonicalHeader) nulFree_nil
  exact ⟨req, hret, hiff.2 rfl⟩

/-- One header: its value is found in slot 1. -/
theorem analasy_slots_two :
    ¬∀ (m u v : Bytes) (hs : List (Bytes × Bytes)) (t : Bytes) (req : HttpRequest),
      Canonical m u v hs t → (analasy (requestText m u v hs t)).out = .ret (some req) →
      req.Slotted hs := by
  intro h
  have hc : Canonical [71] [47] [72] [([97], [98])] [] := by
    refine ⟨by decide, by decide, by decide, by decide, by decide, by decide, ?_, by decide⟩
    intro x hx
    rw [List.mem_singleton.1 hx]
    exact ⟨by decide, by decide, by decide⟩
  have hs := h _ _ _ _ _ ⟨[71], [47], [72], [(.nhead 0 .header, [97]), (.nhead 1 .value, [98])]⟩ hc
    (by decide)
  exact absurd (hs.stored 0 (by decide)).2 (by decide)

end HttpCallback
