import HttpCallback.Parse.NullToken

/-!
# What the parser copies fits

`analasy` checks neither an index nor a length. What bounds both is the text: every copy takes a
token of at least one byte off it, so the slots used are fewer than its bytes, and no string is
longer than it. The strings are read from the input as it was: `strtok` overwrites only delimiters
in front of what is still to be read.
-/

namespace HttpCallback

open CString

/-- A copy from inside the input `s`. For a header or a value it is the token at `p` without its
first byte. -/
structure Copy.Inside (s : Bytes) (c : Copy) : Prop where
  input : c.text <+: s.drop c.src
  last : c.src + c.text.length ≤ s.length
  slot : ∀ i f, c.dest = .nhead i f → i < s.length
  skipped : ∀ i f, c.dest = .nhead i f → ∃ p b, c.src = p + 1 ∧ b :: c.text <+: s.drop p

section Inside

variable {s r tok : Bytes} {t t' : Tok} {p i : Nat} {f : Field}

/-- A call of `strtok` returns NULL, or takes a token off the rest. -/
theorem Standing.strtok (h : Standing s t r) (d : UInt8 → Bool) :
    (∃ t', strtok d t = (none, t')) ∨
    ∃ p t' tok rest, strtok d t = (some p, t') ∧ TokenAt s t' p tok ∧ Standing s t' rest ∧
      rest.length < r.length := by
  cases hn : nextToken d r with
  | none => exact Or.inl (strtok_none h.pending hn)
  | some nt =>
    obtain ⟨tok, rest⟩ := nt
    obtain ⟨p, t', hs, htok, ht'⟩ := h.next hn
    exact Or.inr ⟨p, t', tok, rest, hs, htok, ht', nextToken_length hn⟩

theorem TokenAt.last (h : TokenAt s t p tok) : p + tok.length ≤ s.length := by
  have hle := h.input.length_le
  have hpos := List.length_pos_iff.2 h.ne
  rw [List.length_drop] at hle
  omega

/-- A token copied to the method, the url or the version. -/
theorem TokenAt.copy (h : TokenAt s t p tok) {dest : Dest} (hdest : ∀ i f, dest ≠ .nhead i f) :
    (⟨dest, p, cstrAt t.mem p⟩ : Copy).Inside s := by
  rw [h.stored]
  exact ⟨h.input, h.last, fun i f heq => absurd heq (hdest i f),
    fun i f heq => absurd heq (hdest i f)⟩

/-- A token copied to a slot, without its first byte. -/
theorem TokenAt.copy_slot (h : TokenAt s t p tok) (hi : i < s.length) :
    (⟨.nhead i f, p + 1, cstrAt t.mem (p + 1)⟩ : Copy).Inside s := by
  obtain ⟨b, tail, rfl⟩ := List.exists_cons_of_ne_nil h.ne
  have hlast := h.last
  rw [List.length_cons] at hlast
  rw [cstrAt_succ h.stored h.ne]
  refine ⟨?_, ?_, ?_, fun _ _ _ => ⟨p, b, rfl, h.input⟩⟩
  · obtain ⟨back, hback⟩ := h.input
    exact ⟨back, by rw [← List.drop_drop, ← hback]; rfl⟩
  · simp only [List.tail_cons]
    omega
  · rintro j g heq
    cases heq
    exact hi

/-- The loop: as each token takes a byte off the rest, slot and rest together stay below the
length of the input. -/
theorem headerLoop_inside (fuel : Nat) : ∀ {t : Tok} {r : Bytes} (i : Nat), Standing s t r →
    i + r.length ≤ s.length → ∀ c ∈ (headerLoop fuel t i).1, c.Inside s := by
  induction fuel with
  | zero => exact fun _ _ _ => List.forall_mem_nil _
  | succ fuel ih =>
    intro t r i ht hi
    unfold headerLoop
    rcases ht.strtok isColon with ⟨t₁, hs₁⟩ | ⟨p₁, t₁, name, r₁, hs₁, hname, ht₁, hlt₁⟩
    · rw [hs₁]
      exact List.forall_mem_nil _
    simp only [hs₁]
    split
    · exact List.forall_mem_nil _
    have hheader : (⟨.nhead i .header, p₁ + 1, cstrAt t₁.mem (p₁ + 1)⟩ : Copy).Inside s :=
      hname.copy_slot (by omega)
    rcases ht₁.strtok isEol with ⟨t₂, hs₂⟩ | ⟨p₂, t₂, val, r₂, hs₂, hval, ht₂, hlt₂⟩
    · rw [hs₂]
      exact List.forall_mem_singleton.2 hheader
    simp only [hs₂]
    have hvalue : (⟨.nhead (i + 1) .value, p₂ + 1, cstrAt t₂.mem (p₂ + 1)⟩ : Copy).Inside s :=
      hval.copy_slot (by omega)
    refine List.forall_mem_cons.2 ⟨hheader, List.forall_mem_cons.2 ⟨hvalue, ?_⟩⟩
    exact ih (i + 2) ht₂ (by omega)

/-- Every copy of a call is from inside the input, whatever the input is. -/
theorem analasy_copies_inside (h : NulFree s) : ∀ c ∈ (analasy s).copies, c.Inside s := by
  have ht := Standing.start h
  unfold analasy
  split
  · exact List.forall_mem_nil _
  revert ht
  generalize (⟨s ++ [0], 0⟩ : Tok) = t
  intro ht
  rcases ht.strtok isSp with ⟨t₁, hs₁⟩ | ⟨p₁, t₁, m, r₁, hs₁, hm, ht₁, hlt₁⟩
  · rw [hs₁]
    exact List.forall_mem_nil _
  have hmethod : (⟨.method, p₁, cstrAt t₁.mem p₁⟩ : Copy).Inside s :=
    hm.copy fun _ _ => Dest.noConfusion
  simp only [hs₁]
  rcases ht₁.strtok isSp with ⟨t₂, hs₂⟩ | ⟨p₂, t₂, u, r₂, hs₂, hu, ht₂, hlt₂⟩
  · rw [hs₂]
    exact List.forall_mem_singleton.2 hmethod
  have hurl : (⟨.url, p₂, cstrAt t₂.mem p₂⟩ : Copy).Inside s :=
    hu.copy fun _ _ => Dest.noConfusion
  simp only [hs₂]
  rcases ht₂.strtok isEol with ⟨t₃, hs₃⟩ | ⟨p₃, t₃, v, r₃, hs₃, hv, ht₃, hlt₃⟩
  · rw [hs₃]
    exact List.forall_mem_cons.2 ⟨hmethod, List.forall_mem_singleton.2 hurl⟩
  have hversion : (⟨.version, p₃, cstrAt t₃.mem p₃⟩ : Copy).Inside s :=
    hv.copy fun _ _ => Dest.noConfusion
  simp only [hs₃]
  refine List.forall_mem_cons.2 ⟨hmethod, List.forall_mem_cons.2 ⟨hurl, List.forall_mem_cons.2
    ⟨hversion, ?_⟩⟩⟩
  exact headerLoop_inside _ 0 ht₃ (by omega)

end Inside

/-- **`analasy` stays inside its arrays on every input of at most 4095 bytes**, well formed or not.
The call returns or meets a NULL token, and until then every slot of `nhead` that it uses is below
`BUFSIZE`, and every string that it copies is one of at most 4095 bytes that the input holds at the
index it is read from, for a header or a value together with the byte in front that is skipped. -/
theorem analasy_inside (s : Bytes) (hs : NulFree s) (hlen : s.length ≤ 4095) :
    (analasy s).out ≠ .outOfFuel ∧
    ∀ c ∈ (analasy s).copies, (∀ i f, c.dest = .nhead i f → i < bufsize) ∧
      c.text.length ≤ 4095 ∧ c.Inside s := by
  refine ⟨analasy_fuel hs, fun c hc => ?_⟩
  have hinside := analasy_copies_inside hs c hc
  refine ⟨fun i f hdest => ?_, ?_, hinside⟩
  · have hslot := hinside.slot i f hdest
    rw [bufsize]
    omega
  · have hlast := hinside.last
    omega

/-- A header without a value takes the bytes behind the blank line, and then there is no token. -/
theorem analasy_inside_broken :
    (analasy [71, 32, 47, 32, 72, 13, 10, 97, 58, 13, 10, 13, 10, 120, 58, 121, 13, 10]).out ≠
      .outOfFuel ∧
    ∀ c ∈ (analasy
        [71, 32, 47, 32, 72, 13, 10, 97, 58, 13, 10, 13, 10, 120, 58, 121, 13, 10]).copies,
      (∀ i f, c.dest = .nhead i f → i < bufsize) ∧ c.text.length ≤ 4095 ∧
        c.Inside [71, 32, 47, 32, 72, 13, 10, 97, 58, 13, 10, 13, 10, 120, 58, 121, 13, 10] :=
  analasy_inside [71, 32, 47, 32, 72, 13, 10, 97, 58, 13, 10, 13, 10, 120, 58, 121, 13, 10]
    (by simp [NulFree]) (by simp)

end HttpCallback
