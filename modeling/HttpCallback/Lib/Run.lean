import Mathlib.Data.List.Basic
import Mathlib.Logic.Basic

/-!
# Runs of a step function

A system is a partial step function on states, driven by a list of inputs. An invariant is carried
along a run by what one step does to it. `All` says that every step of a run meets a condition on
the state before it and its input; `dichotomy` is the rule for a condition that is exact: while the
steps meet it the run stays good, and the first one that does not makes it bad for ever.
-/

namespace Run

variable {σ α : Type*} (step : σ → α → Option σ)

/-- The state after the inputs, if every step is possible. -/
def exec (s : σ) : List α → Option σ
  | [] => some s
  | a :: as =>
    match step s a with
    | none => none
    | some s => exec s as

/-- Every step of the run meets `H`. -/
def All (H : σ → α → Prop) (s : σ) : List α → Prop
  | [] => True
  | a :: as => H s a ∧ ∀ s', step s a = some s' → All H s' as

variable {step}

/-- A condition that can be tested in a state can be tested along a run. -/
instance decidableAll {H : σ → α → Prop} [∀ s a, Decidable (H s a)] :
    ∀ (s : σ) (as : List α), Decidable (All step H s as)
  | _, [] => isTrue trivial
  | s, a :: as =>
    match h : step s a with
    | none =>
      decidable_of_iff (H s a) ⟨fun hs => ⟨hs, fun _ ht => nomatch h.symm.trans ht⟩, And.left⟩
    | some t =>
      have : Decidable (All step H t as) := decidableAll t as
      decidable_of_iff (H s a ∧ All step H t as) (and_congr_right fun _ =>
        ⟨fun hs _ ht => Option.some.inj (h.symm.trans ht) ▸ hs, fun hs => hs t h⟩)

theorem exec_cons {s s' : σ} {a : α} {as : List α} (h : exec step s (a :: as) = some s') :
    ∃ t, step s a = some t ∧ exec step t as = some s' := by
  unfold exec at h
  cases ht : step s a with
  | none => rw [ht] at h; cases h
  | some t => rw [ht] at h; exact ⟨t, rfl, h⟩

/-- The last step of a run. -/
theorem exec_concat {s s' t : σ} {as : List α} {a : α} (h : exec step s as = some t)
    (h' : exec step s (as ++ [a]) = some s') : step t a = some s' := by
  induction as generalizing s with
  | nil =>
    cases h
    obtain ⟨u, hu, hrest⟩ := exec_cons h'
    cases hrest
    exact hu
  | cons b as ih =>
    obtain ⟨u, hu, hrest⟩ := exec_cons h
    obtain ⟨v, hv, hrest'⟩ := exec_cons h'
    rw [hu, Option.some.injEq] at hv
    subst hv
    exact ih hrest hrest'

theorem exec_append {s t u : σ} {as bs : List α} (h : exec step s as = some t)
    (h' : exec step t bs = some u) : exec step s (as ++ bs) = some u := by
  induction as generalizing s with
  | nil =>
    cases h
    exact h'
  | cons a as ih =>
    obtain ⟨v, hv, hrest⟩ := exec_cons h
    rw [List.cons_append, exec, hv]
    exact ih hrest

/-- One more step. -/
theorem exec_snoc {s t u : σ} {as : List α} {a : α} (h : exec step s as = some t)
    (ha : step t a = some u) : exec step s (as ++ [a]) = some u :=
  exec_append h (by rw [exec, ha]; rfl)

theorem All.append {H : σ → α → Prop} {s : σ} {as bs : List α} (hall : All step H s as)
    (h : ∀ t, exec step s as = some t → All step H t bs) : All step H s (as ++ bs) := by
  induction as generalizing s with
  | nil => exact h s rfl
  | cons a as ih =>
    refine ⟨hall.1, fun u hu => ih (hall.2 u hu) fun t ht => h t ?_⟩
    rw [exec, hu]
    exact ht

theorem All.mono {H K : σ → α → Prop} (h : ∀ s a, H s a → K s a) {as : List α} :
    ∀ {s : σ}, All step H s as → All step K s as := by
  induction as with
  | nil => exact fun _ => trivial
  | cons a as ih => exact fun hall => ⟨h _ _ hall.1, fun t ht => ih (hall.2 t ht)⟩

/-- Inputs that meet `H` in every state. -/
theorem all_of_forall {H : σ → α → Prop} {as : List α} (h : ∀ a ∈ as, ∀ s, H s a) (s : σ) :
    All step H s as := by
  induction as generalizing s with
  | nil => trivial
  | cons a as ih =>
    exact ⟨h a List.mem_cons_self s, fun t _ => ih (fun b hb => h b (List.mem_cons_of_mem a hb)) t⟩

theorem All.last {H : σ → α → Prop} {s t : σ} {as : List α} {a : α}
    (hall : All step H s (as ++ [a])) (h : exec step s as = some t) : H t a := by
  induction as generalizing s with
  | nil =>
    cases h
    exact hall.1
  | cons b as ih =>
    obtain ⟨u, hu, hrest⟩ := exec_cons h
    exact ih (hall.2 u hu) hrest

/-- An invariant of the step is one of the run. -/
theorem inv {I : σ → Prop} (hstep : ∀ s a s', I s → step s a = some s' → I s') (as : List α) :
    ∀ {s s' : σ}, I s → exec step s as = some s' → I s' := by
  induction as with
  | nil =>
    intro s s' hs h
    cases h
    exact hs
  | cons a as ih =>
    intro s s' hs h
    obtain ⟨t, ht, hrest⟩ := exec_cons h
    exact ih (hstep s a t hs ht) hrest

/-- What a step keeps exactly when its input meets `H`, a run keeps exactly when all its inputs
do. -/
theorem keeps_iff {P : σ → Prop} {H : α → Prop}
    (hstep : ∀ s a s', step s a = some s' → (P s' ↔ P s ∧ H a)) (as : List α) :
    ∀ {s s' : σ}, exec step s as = some s' → (P s' ↔ P s ∧ ∀ a ∈ as, H a) := by
  induction as with
  | nil =>
    intro s s' h
    cases h
    exact (and_iff_left nofun).symm
  | cons a as ih =>
    intro s s' h
    obtain ⟨t, ht, hrest⟩ := exec_cons h
    rw [ih hrest, hstep s a t ht, List.forall_mem_cons, and_assoc]

/-- An invariant of the steps that meet `H` is one of the runs all of whose steps do. -/
theorem inv_of_all {I : σ → Prop} {H : σ → α → Prop}
    (hstep : ∀ s a s', I s → H s a → step s a = some s' → I s') (as : List α) :
    ∀ {s s' : σ}, I s → All step H s as → exec step s as = some s' → I s' := by
  induction as with
  | nil =>
    intro s s' hs _ h
    cases h
    exact hs
  | cons a as ih =>
    intro s s' hs hall h
    obtain ⟨t, ht, hrest⟩ := exec_cons h
    exact ih (hstep s a t hs hall.1 ht) (hall.2 t ht) hrest

theorem exec_total (h : ∀ s a, ∃ t, step s a = some t) (as : List α) :
    ∀ s, ∃ t, exec step s as = some t := by
  induction as with
  | nil => exact fun s => ⟨s, rfl⟩
  | cons a as ih =>
    intro s
    obtain ⟨t, ht⟩ := h s a
    obtain ⟨u, hu⟩ := ih t
    exact ⟨u, by rw [exec, ht]; exact hu⟩

/-- If `H` says exactly when a step keeps `P`, then `P` holds all along a run exactly when all its
steps meet `H`. -/
theorem always_iff {P : σ → Prop} {H : σ → α → Prop}
    (hstep : ∀ s a s', P s → step s a = some s' → (P s' ↔ H s a)) (as : List α) : ∀ {s u : σ},
    P s → exec step s as = some u →
    ((∀ bs t, bs <+: as → exec step s bs = some t → P t) ↔ All step H s as) := by
  induction as with
  | nil =>
    intro s u hs _
    refine ⟨fun _ => trivial, fun _ bs t hbs ht => ?_⟩
    rw [List.prefix_nil.1 hbs] at ht
    cases ht
    exact hs
  | cons a as ih =>
    intro s u hs h
    obtain ⟨s', hs', hrest⟩ := exec_cons h
    have hcons : ∀ bs, exec step s (a :: bs) = exec step s' bs := by
      intro bs
      rw [exec, hs']
    constructor
    · intro hall
      have hP : P s' := hall [a] s' ⟨as, rfl⟩ (by rw [hcons]; rfl)
      refine ⟨(hstep s a s' hs hs').1 hP, fun t ht => ?_⟩
      rw [hs', Option.some.injEq] at ht
      subst ht
      refine (ih hP hrest).1 fun bs t hbs ht => hall (a :: bs) t ?_ ((hcons bs).trans ht)
      exact (List.prefix_cons_inj a).2 hbs
    · intro hall bs t hbs ht
      cases bs with
      | nil =>
        cases ht
        exact hs
      | cons b bs =>
        obtain ⟨rfl, hbs'⟩ := List.cons_prefix_cons.1 hbs
        rw [hcons] at ht
        have hP : P s' := (hstep s b s' hs hs').2 hall.1
        exact (ih hP hrest).2 (hall.2 s' hs') bs t hbs' ht

/-- If from the invariant a step that meets `H` is possible and keeps it, a run all of whose steps
meet `H` is possible and keeps it. -/
theorem progress {I : σ → Prop} {H : σ → α → Prop}
    (hstep : ∀ s a, I s → H s a → ∃ s', step s a = some s' ∧ I s') (as : List α) :
    ∀ {s : σ}, I s → All step H s as → ∃ s', exec step s as = some s' ∧ I s' := by
  induction as with
  | nil => exact fun hs _ => ⟨_, rfl, hs⟩
  | cons a as ih =>
    intro s hs hall
    obtain ⟨t, ht, hI⟩ := hstep s a hs hall.1
    obtain ⟨u, hu, hI'⟩ := ih hI (hall.2 t ht)
    exact ⟨u, by rw [exec, ht]; exact hu, hI'⟩

/-- Two conditions that agree wherever the invariant holds hold of the same runs. -/
theorem all_congr {I : σ → Prop} {H K : σ → α → Prop}
    (hstep : ∀ s a s', I s → step s a = some s' → I s') (h : ∀ s a, I s → (H s a ↔ K s a))
    (as : List α) : ∀ {s : σ}, I s → (All step H s as ↔ All step K s as) := by
  induction as with
  | nil => exact fun _ => Iff.rfl
  | cons a as ih =>
    intro s hs
    unfold All
    rw [h s a hs]
    refine and_congr_right fun _ => forall_congr' fun s' => ?_
    exact imp_congr_right fun hstep' => ih (hstep s a s' hs hstep')

/-- While its steps meet `H` a run is good; once one does not it is bad. -/
theorem dichotomy {Good Bad : σ → Prop} {H : σ → α → Prop}
    (hgood : ∀ s a s', Good s → H s a → step s a = some s' → Good s')
    (hcross : ∀ s a s', Good s → ¬H s a → step s a = some s' → Bad s')
    (hbad : ∀ s a s', Bad s → step s a = some s' → Bad s') (as : List α) :
    ∀ {s s' : σ}, Good s → exec step s as = some s' →
      (All step H s as ∧ Good s') ∨ (¬All step H s as ∧ Bad s') := by
  induction as with
  | nil =>
    intro s s' hs h
    cases h
    exact Or.inl ⟨trivial, hs⟩
  | cons a as ih =>
    intro s s' hs h
    obtain ⟨t, ht, hrest⟩ := exec_cons h
    by_cases hH : H s a
    · rcases ih (hgood s a t hs hH ht) hrest with ⟨hall, hend⟩ | ⟨hall, hend⟩
      · refine Or.inl ⟨⟨hH, fun t' ht' => ?_⟩, hend⟩
        rw [ht, Option.some.injEq] at ht'
        exact ht' ▸ hall
      · exact Or.inr ⟨fun h' => hall (h'.2 t ht), hend⟩
    · exact Or.inr ⟨fun h' => hH h'.1, inv hbad as (hcross s a t hs hH ht) hrest⟩

end Run
