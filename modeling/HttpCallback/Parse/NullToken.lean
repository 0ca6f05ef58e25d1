import HttpCallback.Parse.Basic

/-!
# Inputs on which the parser meets a NULL token

None of the five `strtok` calls of `analasy` is checked. `Parsable` is a grammar of the texts on
which all of them find a token: a request line with three tokens, each ended by a delimiter, and a
header block in which every round finds a name and a value until a token whose second and third byte
are CRLF. `analasy_returns_iff` shows that these texts, and those without CRLFCRLF, are exactly the
ones on which the parser returns.
-/

namespace HttpCallback

open CString

/-- The texts on which the header loop reaches its `break`. In `line` the gap is what `strtok` skips
in front of the value: it is empty on a well-formed line, and takes in the line end when the value
is missing. -/
inductive HeaderBlock : Bytes → Prop
  | blank {lead : Bytes} {c : UInt8} {t : Bytes} (hl : ∀ b ∈ lead, isColon b = true)
      (hc : isColon c = false) : HeaderBlock (lead ++ c :: (crlf ++ t))
  | line {lead name gap val rest : Bytes} {x : UInt8} (hl : ∀ b ∈ lead, isColon b = true)
      (hne : name ≠ []) (hn : ∀ b ∈ name, isColon b = false) (hgo : ¬crlf <+: name.tail)
      (hg : ∀ b ∈ gap, isEol b = true) (hve : val ≠ []) (hv : ∀ b ∈ val, isEol b = false)
      (hx : isEol x = true) (hr : HeaderBlock rest) :
      HeaderBlock (lead ++ (name ++ colon :: (gap ++ (val ++ x :: rest))))

/-- The texts on which `analasy` finds the method, the url, the version and a `HeaderBlock`. -/
inductive Parsable : Bytes → Prop
  | mk {lead m gap u skip v rest : Bytes} {x : UInt8} (hl : ∀ b ∈ lead, isSp b = true)
      (hme : m ≠ []) (hm : ∀ b ∈ m, isSp b = false) (hg : ∀ b ∈ gap, isSp b = true)
      (hue : u ≠ []) (hu : ∀ b ∈ u, isSp b = false) (hs : ∀ b ∈ skip, isEol b = true)
      (hve : v ≠ []) (hv : ∀ b ∈ v, isEol b = false) (hx : isEol x = true)
      (hr : HeaderBlock rest) :
      Parsable (lead ++ (m ++ sp :: (gap ++ (u ++ sp :: (skip ++ (v ++ x :: rest))))))

theorem isSp_eq {b : UInt8} (h : isSp b = true) : b = sp := beq_iff_eq.1 h

theorem isColon_eq {b : UInt8} (h : isColon b = true) : b = colon := beq_iff_eq.1 h

/-! ## The header loop -/

theorem headerTokens_fuel (fuel : Nat) : ∀ {r : Bytes} (i : Nat), r.length < fuel →
    (headerTokens fuel r i).2 ≠ .outOfFuel := by
  induction fuel with
  | zero => intro r i h; exact absurd h (Nat.not_lt_zero _)
  | succ fuel ih =>
    intro r i h
    unfold headerTokens
    cases hn : nextToken isColon r with
    | none =>
      intro hout
      cases hout
    | some nt =>
      obtain ⟨name, r₁⟩ := nt
      have h₁ := nextToken_length hn
      simp only
      split
      · intro hout
        cases hout
      · cases hn₂ : nextToken isEol r₁ with
        | none =>
          intro hout
          cases hout
        | some nt =>
          obtain ⟨val, r₂⟩ := nt
          have h₂ := nextToken_length hn₂
          exact ih (i + 2) (by omega)

theorem headerBlock_ne_nil {r : Bytes} (h : HeaderBlock r) : r ≠ [] := by
  cases h <;> simp

/-- A token that is a byte and a CRLF, whatever ended it. -/
theorem exists_of_nextToken_blank {r name rest : Bytes}
    (hn : nextToken isColon r = some (name, rest)) (hstop : crlf <+: name.tail) :
    ∃ lead c t, (∀ b ∈ lead, isColon b = true) ∧ isColon c = false ∧
      r = lead ++ c :: (crlf ++ t) := by
  obtain ⟨lead, hl, hne, hnm, hr⟩ := nextToken_some hn
  obtain ⟨c, cs, rfl⟩ := List.exists_cons_of_ne_nil hne
  obtain ⟨w, hw⟩ := hstop
  rw [List.tail_cons] at hw
  subst hw
  have hc := hnm c List.mem_cons_self
  rcases hr with ⟨x, -, rfl⟩ | ⟨rfl, -⟩
  · exact ⟨lead, c, w ++ x :: rest, hl, hc, by simp⟩
  · exact ⟨lead, c, w, hl, hc, rfl⟩

/-- The loop stops at a CRLF only. -/
theorem crlf_prefix_of_stop (fuel : Nat) : ∀ {r : Bytes} {i : Nat} {s : Bytes},
    (headerTokens fuel r i).2 = .stop s → crlf <+: s := by
  induction fuel with
  | zero =>
    intro r i s h
    cases h
  | succ fuel ih =>
    intro r i s h
    unfold headerTokens at h
    cases hn : nextToken isColon r with
    | none =>
      rw [hn] at h
      cases h
    | some nt =>
      obtain ⟨name, r₁⟩ := nt
      rw [hn] at h
      simp only at h
      split at h
      · rename_i hstop
        cases h
        exact (strncmpEq_crlf_two _).1 hstop
      · cases hn₂ : nextToken isEol r₁ with
        | none =>
          rw [hn₂] at h
          cases h
        | some nt =>
          rw [hn₂] at h
          exact ih h

/-- A loop that stops has read a header block. -/
theorem headerBlock_of_stop (fuel : Nat) : ∀ {r : Bytes} {i : Nat} {s : Bytes},
    (headerTokens fuel r i).2 = .stop s → HeaderBlock r := by
  induction fuel with
  | zero => intro r i s h; cases h
  | succ fuel ih =>
    intro r i s h
    unfold headerTokens at h
    cases hn : nextToken isColon r with
    | none => rw [hn] at h; cases h
    | some nt =>
      obtain ⟨name, r₁⟩ := nt
      rw [hn] at h
      simp only at h
      split at h
      · rename_i hstop
        obtain ⟨lead, c, t, hl, hc, rfl⟩ :=
          exists_of_nextToken_blank hn ((strncmpEq_crlf_two _).1 hstop)
        exact .blank hl hc
      · rename_i hgo
        rw [strncmpEq_crlf_two] at hgo
        obtain ⟨lead, hl, hne, hnm, hr⟩ := nextToken_some hn
        cases hn₂ : nextToken isEol r₁ with
        | none => rw [hn₂] at h; cases h
        | some nt =>
          obtain ⟨val, r₂⟩ := nt
          rw [hn₂] at h
          simp only at h
          have hblock := ih h
          obtain ⟨gap, hg, hve, hv, hr₂⟩ := nextToken_some hn₂
          rcases hr₂ with ⟨y, hy, rfl⟩ | ⟨-, rfl⟩
          · rcases hr with ⟨x, hx, rfl⟩ | ⟨-, h0⟩
            · rw [isColon_eq hx]
              exact .line hl hne hnm hgo hg hve hv hy hblock
            · exact absurd h0 (by simp)
          · exact absurd rfl (headerBlock_ne_nil hblock)

/-- On a header block the loop stops. -/
theorem headerTokens_of_headerBlock {r : Bytes} (h : HeaderBlock r) : ∀ (fuel i : Nat),
    r.length < fuel → ∃ s, (headerTokens fuel r i).2 = .stop s := by
  induction h with
  | @blank lead c t hl hc =>
    intro fuel i hf
    obtain ⟨fuel, rfl⟩ := Nat.exists_eq_succ_of_ne_zero (Nat.ne_of_gt (Nat.zero_lt_of_lt hf))
    have hn := nextToken_blank hl hc t
    have hp : crlf <+: crlf ++ t.takeWhile (!isColon ·) := List.prefix_append _ _
    have hs := (strncmpEq_crlf_two _).2 hp
    refine ⟨crlf ++ t.takeWhile (!isColon ·), ?_⟩
    simp only [headerTokens, hn, List.tail_cons, hs, if_true]
  | @line lead name gap val rest x hl hne hnm hgo hg hve hv hx hr ih =>
    intro fuel i hf
    obtain ⟨fuel, rfl⟩ := Nat.exists_eq_succ_of_ne_zero (Nat.ne_of_gt (Nat.zero_lt_of_lt hf))
    have hn : nextToken isColon (lead ++ (name ++ colon :: (gap ++ (val ++ x :: rest)))) =
        some (name, gap ++ (val ++ x :: rest)) := nextToken_cut hl hne hnm rfl
    have hn₂ : nextToken isEol (gap ++ (val ++ x :: rest)) = some (val, rest) :=
      nextToken_cut hg hve hv hx
    have hgo' : strncmpEq name.tail crlf 2 = false := by
      rw [Bool.eq_false_iff, Ne, strncmpEq_crlf_two]
      exact hgo
    simp only [List.length_append, List.length_cons] at hf
    obtain ⟨s, hs⟩ := ih fuel (i + 2) (by omega)
    refine ⟨s, ?_⟩
    simp only [headerTokens, hn, hgo', hn₂, hs, Bool.false_eq_true, if_false]

/-! ## The parser -/

/-- The parser never runs out of fuel: it returns, or it meets a NULL token. -/
theorem analasy_fuel {s : Bytes} (h : NulFree s) : (analasy s).out ≠ .outOfFuel := by
  rw [(analasy_refines h).2]
  unfold analasyTokens
  split
  · nofun
  cases hn : nextToken isSp s with
  | none => nofun
  | some nt =>
    obtain ⟨m, r₁⟩ := nt
    have h₁ := nextToken_length hn
    simp only
    cases hn₂ : nextToken isSp r₁ with
    | none => nofun
    | some nt =>
      obtain ⟨u, r₂⟩ := nt
      have h₂ := nextToken_length hn₂
      simp only
      cases hn₃ : nextToken isEol r₂ with
      | none => nofun
      | some nt =>
        obtain ⟨v, r₃⟩ := nt
        have h₃ := nextToken_length hn₃
        have hf := @headerTokens_fuel (s.length + 1) r₃ 0 (by omega)
        simp only
        revert hf
        cases (headerTokens (s.length + 1) r₃ 0).2 with
        | stop w => intro _; simp [finish]
        | nullToken => intro _; simp [finish]
        | outOfFuel => exact fun hf => absurd rfl hf

/-- What a returning parse behind the CRLFCRLF test has read. -/
theorem parsable_of_ret {s : Bytes} {req : Option HttpRequest}
    (hc : strstr s (crlf ++ crlf) = true) (h : (analasyTokens s).out = .ret req) : Parsable s := by
  unfold analasyTokens at h
  rw [if_neg (by simp [hc])] at h
  cases hn : nextToken isSp s with
  | none => rw [hn] at h; cases h
  | some nt =>
    obtain ⟨m, r₁⟩ := nt
    rw [hn] at h
    simp only at h
    cases hn₂ : nextToken isSp r₁ with
    | none => rw [hn₂] at h; cases h
    | some nt =>
      obtain ⟨u, r₂⟩ := nt
      rw [hn₂] at h
      simp only at h
      cases hn₃ : nextToken isEol r₂ with
      | none => rw [hn₃] at h; cases h
      | some nt =>
        obtain ⟨v, r₃⟩ := nt
        rw [hn₃] at h
        simp only at h
        cases hout : (headerTokens (s.length + 1) r₃ 0).2 with
        | nullToken => rw [hout] at h; cases h
        | outOfFuel => rw [hout] at h; cases h
        | stop w =>
          have hblock := headerBlock_of_stop _ hout
          obtain ⟨lead, hl, hme, hm, hr₁⟩ := nextToken_some hn
          obtain ⟨gap, hg, hue, hu, hr₂⟩ := nextToken_some hn₂
          obtain ⟨skip, hs, hve, hv, hr₃⟩ := nextToken_some hn₃
          -- each token is followed by another, so none was ended by the end of the text
          rcases hr₃ with ⟨x, hx, rfl⟩ | ⟨-, rfl⟩
          · rcases hr₂ with ⟨y, hy, rfl⟩ | ⟨-, h0⟩
            · rcases hr₁ with ⟨z, hz, rfl⟩ | ⟨-, h0⟩
              · rw [isSp_eq hz, isSp_eq hy]
                exact .mk hl hme hm hg hue hu hs hve hv hx hblock
              · exact absurd h0 (by simp)
            · exact absurd h0 (by simp)
          · exact absurd rfl (headerBlock_ne_nil hblock)

theorem ret_of_parsable {s : Bytes} (h : Parsable s) : ∃ req, (analasyTokens s).out = .ret req := by
  unfold analasyTokens
  split
  · exact ⟨none, rfl⟩
  obtain ⟨hl, hme, hm, hg, hue, hu, hs, hve, hv, hx, hr⟩ := h
  rename_i lead m gap u skip v rest x hc
  generalize hr₂ : skip ++ (v ++ x :: rest) = r₂
  generalize hr₁ : gap ++ (u ++ sp :: r₂) = r₁
  have hn : nextToken isSp (lead ++ (m ++ sp :: r₁)) = some (m, r₁) := nextToken_cut hl hme hm rfl
  have hn₂ : nextToken isSp r₁ = some (u, r₂) := by
    rw [← hr₁]
    exact nextToken_cut hg hue hu rfl
  have hn₃ : nextToken isEol r₂ = some (v, rest) := by
    rw [← hr₂]
    exact nextToken_cut hs hve hv hx
  have hlt : rest.length < (lead ++ (m ++ sp :: r₁)).length + 1 := by
    rw [← hr₁, ← hr₂]
    simp only [List.length_append, List.length_cons]
    omega
  obtain ⟨w, hw⟩ := headerTokens_of_headerBlock hr _ 0 hlt
  simp only [hn, hn₂, hn₃, hw, finish]
  exact ⟨_, rfl⟩

/-- **Exactly the parsable texts are parsed.** `analasy` returns, without a NULL token, on the texts
that have no CRLFCRLF and on the parsable ones, and on no other. -/
theorem analasy_returns_iff (s : Bytes) (h : NulFree s) :
    (∃ req, (analasy s).out = .ret req) ↔ ¬crlf ++ crlf <:+: s ∨ Parsable s := by
  rw [(analasy_refines h).2, ← strstr_iff]
  constructor
  · rintro ⟨req, hret⟩
    by_cases hc : strstr s (crlf ++ crlf) = true
    · exact Or.inr (parsable_of_ret hc hret)
    · exact Or.inl hc
  · rintro (hc | hp)
    · refine ⟨none, ?_⟩
      unfold analasyTokens
      rw [if_pos (Bool.eq_false_iff.2 hc)]
    · exact ret_of_parsable hp

theorem analasy_returns_iff_get :
    NulFree [71, 32, 47, 32, 72, 13, 10, 13, 10] ∧
      ((∃ req, (analasy [71, 32, 47, 32, 72, 13, 10, 13, 10]).out = .ret req) ↔
        ¬crlf ++ crlf <:+: [71, 32, 47, 32, 72, 13, 10, 13, 10] ∨
          Parsable [71, 32, 47, 32, 72, 13, 10, 13, 10]) :=
  ⟨by decide, analasy_returns_iff _ (by decide)⟩

/-- The bare blank line `CRLF CRLF` has no url. -/
theorem analasy_bare_crlfcrlf :
    ¬∀ s : Bytes, NulFree s → s.length ≤ 4095 → ∃ req, (analasy s).out = .ret req := by
  intro h
  obtain ⟨req, hret⟩ := h [13, 10, 13, 10] (by decide) (by decide)
  have hnull : (analasy [13, 10, 13, 10]).out = .nullToken := by decide
  rw [hnull] at hret
  cases hret

end HttpCallback
