import HttpCallback.Parse.Readline

/-!
# Where a line reader leaves its cursor

What `readline_buf` reads, how far it moves `*buf` and how much it stores, for any text. The call is
as it should be only at a line end that leaves room in `usr`: without one it steps over the NUL, at
an LF in front of a CR it moves over the leading spaces and no further, and on a text of spaces it
reads behind the NUL. Stopped at the bound it has stored more than `maxlen`, unless the lengths do
not fit an `int`.
-/

namespace HttpCallback

open CString

/-- What a call should do on the string of `len` bytes at `buf`: read no byte behind its NUL, move
`*buf` forward and not over the NUL, and store at most `maxlen` bytes. -/
structure Readline.Advances (r : Readline) (buf len maxlen : Nat) : Prop where
  seen : r.seen ≤ buf + len
  forward : buf < r.buf
  inside : r.buf ≤ buf + len
  stored : r.usr.length ≤ maxlen

def Advances (mem : Bytes) (buf maxlen : Nat) : Prop :=
  ∃ r, readlineBuf mem buf maxlen = some r ∧ r.Advances buf (cstrAt mem buf).length maxlen

/-- An LF behind a CR or in front of one. -/
def LineEndAt (s : Bytes) (j : Nat) : Prop :=
  s[j]? = some lf ∧ (s[j - 1]? = some cr ∨ s[j + 1]? = some cr)

instance (s : Bytes) (j : Nat) : Decidable (LineEndAt s j) :=
  inferInstanceAs (Decidable (_ ∧ (_ ∨ _)))

section Call

variable {mem s rest : Bytes} {buf maxlen : Nat}

theorem byteAt_text (h : mem.drop buf = s ++ 0 :: rest) {j : Nat} (hj : j ≤ s.length) :
    byteAt mem (buf + j) = s[j]?.getD 0 := by
  rw [byteAt_of_drop h]
  rcases Nat.eq_or_lt_of_le hj with rfl | hlt
  · rw [List.getElem?_append_right le_rfl, Nat.sub_self, List.getElem?_eq_none le_rfl]
    rfl
  · rw [List.getElem?_append_left hlt]

/-- Inside the text the byte is `b` exactly when the text has it there. -/
theorem byteAt_eq_iff (h : mem.drop buf = s ++ 0 :: rest) {j : Nat} (hj : j ≤ s.length)
    {b : UInt8} (hb : b ≠ 0) : byteAt mem (buf + j) = b ↔ s[j]? = some b := by
  rw [byteAt_text h hj]
  cases hget : s[j]? with
  | none => simp [hb.symm]
  | some c => simp

theorem byteAt_ne_zero (hs : NulFree s) (h : mem.drop buf = s ++ 0 :: rest) {j : Nat}
    (hj : j < s.length) : byteAt mem (buf + j) ≠ 0 := by
  rw [byteAt_text h hj.le, List.getElem?_eq_getElem hj, Option.getD_some]
  exact hs.ne (List.getElem_mem hj)

/-- Inside the text the loop stops at line ends only. -/
theorem ends_iff (hs : NulFree s) (h : mem.drop buf = s ++ 0 :: rest) {j : Nat} (h1 : 1 ≤ j)
    (hj : j < s.length) : Ends mem buf j ↔ LineEndAt s j := by
  have hprev := byteAt_eq_iff h (j := j - 1) (by omega) cr_ne_zero
  have hnext := byteAt_eq_iff h (j := j + 1) (by omega) cr_ne_zero
  rw [← Nat.add_sub_assoc h1] at hprev
  rw [← Nat.add_assoc] at hnext
  unfold Ends LineEndAt
  rw [or_iff_right (byteAt_ne_zero hs h hj), byteAt_eq_iff h hj.le lf_ne_zero, hprev, hnext]

/-- Where a call has to end: at position `e`, counted from the first byte that is not a space, which
is the first line end or where the bound cuts the line. -/
def StopsWell (s : Bytes) (maxlen e : Nat) : Prop :=
  1 ≤ e ∧ e ≤ intMax ∧ e < maxlen ∧ e < (stripped s).length ∧
    (∀ j, 1 ≤ j → j < e → j < loopBound s.length maxlen ∧ ¬LineEndAt (stripped s) j) ∧
    (loopBound s.length maxlen ≤ e ∨
      LineEndAt (stripped s) e ∧
        ((stripped s)[e - 1]? = some cr ∨ (stripped s).length < s.length))

end Call

/-! ## From the exit of the loop -/

section Exit

variable {mem r rest : Bytes} {buf start maxlen bound e seen : Nat} {out : Readline}

/-- A call that is as it should be left its loop inside the text. -/
theorem LineExit.stops (hr : NulFree r) (h : mem.drop start = r ++ 0 :: rest) (he : 1 ≤ e)
    (hexit : LineExit mem start bound (intMax + 1) e seen (some out))
    (hout : out.Advances buf (start + r.length - buf) maxlen) (hbuf : buf ≤ start) :
    e ≤ intMax ∧ e < maxlen ∧ e < r.length ∧
      (bound ≤ e ∨ LineEndAt r e ∧ (r[e - 1]? = some cr ∨ buf < start)) := by
  obtain ⟨hseen, hforward, hinside, hstored⟩ := hout
  cases hexit with
  | bound htop hlen =>
    simp only [List.length_append, length_ahead, List.length_singleton] at hinside hstored
    exact ⟨by omega, by omega, by omega, Or.inl hlen⟩
  | crlf htop hlen hlf hcr =>
    simp only [List.length_append, List.length_take, length_ahead, List.length_cons,
      List.length_nil] at hinside hstored
    have hlt : e < r.length := by omega
    rw [byteAt_eq_iff h hlt.le lf_ne_zero] at hlf
    rw [Nat.add_sub_assoc he, byteAt_eq_iff h (by omega) cr_ne_zero] at hcr
    exact ⟨by omega, by omega, hlt, Or.inr ⟨⟨hlf, Or.inl hcr⟩, Or.inl hcr⟩⟩
  | lfcr htop hlen hlf hprev hcr =>
    simp only [List.length_append, length_ahead, List.length_singleton] at hseen hforward hstored
    have hlt : e < r.length := by omega
    rw [byteAt_eq_iff h hlt.le lf_ne_zero] at hlf
    rw [Nat.add_assoc, byteAt_eq_iff h hlt cr_ne_zero] at hcr
    exact ⟨by omega, by omega, hlt, Or.inr ⟨⟨hlf, Or.inr hcr⟩, Or.inr hforward⟩⟩
  | nul htop hlen hnul =>
    simp only at hinside
    exact absurd hnul (byteAt_ne_zero hr h (by omega))

/-- The loop gets to where it has to stop. -/
theorem LineExit.not_before {res : Option Readline}
    (hexit : LineExit mem start bound (intMax + 1) e seen res) (he : e ≤ intMax)
    (hbound : e < bound) : Ends mem start e := by
  cases hexit with
  | bound _ hlen => omega
  | crlf _ _ hlf hcr => exact Or.inr ⟨hlf, Or.inl hcr⟩
  | lfcr _ _ hlf _ hcr => exact Or.inr ⟨hlf, Or.inr hcr⟩
  | nul _ _ hnul => exact Or.inl hnul
  | overflow htop => omega

/-- A loop left inside the text makes the call as it should be. -/
theorem LineExit.advances {res : Option Readline} (hr : NulFree r)
    (h : mem.drop start = r ++ 0 :: rest) (he : 1 ≤ e)
    (hexit : LineExit mem start bound (intMax + 1) e seen res) (hbuf : buf ≤ start)
    (hseen : seen ≤ start + r.length) (htop : e ≤ intMax) (hmax : e < maxlen) (hlt : e < r.length)
    (hend : bound ≤ e ∨ LineEndAt r e ∧ (r[e - 1]? = some cr ∨ buf < start)) :
    ∃ out, res = some out ∧ out.Advances buf (start + r.length - buf) maxlen := by
  cases hexit with
  | bound _ hlen =>
    refine ⟨_, rfl, ⟨?_, ?_, ?_, ?_⟩⟩ <;>
      simp only [List.length_append, length_ahead, List.length_singleton] <;> omega
  | crlf _ hlen hlf hcr =>
    refine ⟨_, rfl, ⟨?_, ?_, ?_, ?_⟩⟩ <;>
      simp only [List.length_append, List.length_take, length_ahead, List.length_cons,
        List.length_nil] <;> omega
  | lfcr _ hlen hlf hprev hcr =>
    have hspaces : buf < start := by
      rcases hend with hend | ⟨-, hprev' | hspaces⟩
      · omega
      · rw [Nat.add_sub_assoc he, Ne, byteAt_eq_iff h (by omega) cr_ne_zero] at hprev
        exact absurd hprev' hprev
      · exact hspaces
    refine ⟨_, rfl, ⟨?_, ?_, ?_, ?_⟩⟩ <;>
      simp only [List.length_append, length_ahead, List.length_singleton] <;> omega
  | nul _ hlen hnul => exact absurd hnul (byteAt_ne_zero hr h hlt)
  | overflow htop' => omega

end Exit

section Text

variable {mem s rest : Bytes} {buf maxlen : Nat}

theorem advances_iff (hs : NulFree s) (h : mem.drop buf = s ++ 0 :: rest) :
    Advances mem buf maxlen ↔ ∃ e, StopsWell s maxlen e := by
  obtain ⟨hspn, hdrop⟩ := drop_spaces hs h
  have hfree : NulFree (stripped s) := hs.sublist (List.dropWhile_sublist isSp)
  obtain ⟨e, seen, he, hpass, hlow, hhigh, hexit⟩ := readlineBuf_exit mem buf maxlen
  rw [cstrAt_of_drop hs h] at hpass hlow hhigh hexit
  have hbuf : buf ≤ buf + strspn mem buf isSp := Nat.le_add_right _ _
  have hlen : s.length = buf + strspn mem buf isSp + (stripped s).length - buf := by omega
  have hspaces : buf < buf + strspn mem buf isSp ↔ (stripped s).length < s.length := by omega
  have hends := fun {j} (h1 : 1 ≤ j) (hj : j < (stripped s).length) =>
    ends_iff hfree hdrop h1 hj
  unfold Advances
  rw [cstrAt_of_drop hs h]
  constructor
  · rintro ⟨r, hr, hadv⟩
    rw [hr] at hexit
    rw [hlen] at hadv
    obtain ⟨htop, hmax, hlt, hend⟩ := hexit.stops hfree hdrop he hadv hbuf
    rw [hspaces] at hend
    refine ⟨e, he, htop, hmax, hlt, fun j h1 hj => ⟨(hpass j h1 hj).1, ?_⟩, hend⟩
    exact mt (hends h1 (by omega)).2 (hpass j h1 hj).2
  · rintro ⟨e', he', htop', hmax, hlt, hpass', hend⟩
    have hee : e' = e := by
      rcases Nat.lt_trichotomy e' e with hlt' | heq | hgt
      · obtain ⟨hbound, hno⟩ := hpass e' he' hlt'
        rcases hend with hend | ⟨hend, -⟩
        · omega
        · exact absurd ((hends he' hlt).2 hend) hno
      · exact heq
      · obtain ⟨hbound, hno⟩ := hpass' e he hgt
        have hend' := hexit.not_before (by omega) hbound
        exact absurd ((hends he (by omega)).1 hend') hno
    subst hee
    rw [← hspaces] at hend
    rw [hlen]
    exact hexit.advances hfree hdrop he hbuf (by omega) htop' hmax hlt hend

/-- Calls that all are as they should be use the text up. -/
theorem readlineCalls_consume (hs : NulFree s) (h : mem.drop buf = s ++ 0 :: rest)
    (hall : ∀ n rs buf', readlineCalls mem maxlen n buf = some (rs, buf') →
      buf' < buf + s.length → Advances mem buf' maxlen) :
    ∃ n ≤ s.length, ∃ rs, readlineCalls mem maxlen n buf = some (rs, buf + s.length) := by
  induction hlen : s.length using Nat.strongRecOn generalizing buf s with
  | ind len ih =>
    rcases Nat.eq_zero_or_pos len with hzero | hpos
    · exact ⟨0, Nat.zero_le _, [], by rw [hzero]; rfl⟩
    obtain ⟨r, hr, hadv⟩ := hall 0 [] buf rfl (by omega)
    rw [cstrAt_of_drop hs h] at hadv
    -- the text that the call leaves
    obtain ⟨k, hk⟩ := Nat.exists_eq_add_of_lt hadv.forward
    have hinside := hadv.inside
    have hdrop : mem.drop r.buf = s.drop (k + 1) ++ 0 :: rest := by
      rw [hk, Nat.add_assoc, ← List.drop_drop, h, List.drop_append_of_le_length (by omega)]
    have hrest : buf + s.length = r.buf + (s.drop (k + 1)).length := by
      rw [List.length_drop]
      omega
    have hcalls : ∀ n rs buf', readlineCalls mem maxlen n r.buf = some (rs, buf') →
        readlineCalls mem maxlen (n + 1) buf = some (r :: rs, buf') := by
      intro n rs buf' hn
      rw [readlineCalls, hr, Option.bind_eq_bind, Option.bind_some, hn]
      rfl
    obtain ⟨n, hn, rs, hrs⟩ := ih (s.drop (k + 1)).length (by rw [List.length_drop]; omega)
      (hs.sublist (List.drop_sublist _ _)) hdrop
      (fun n rs buf' hn hlt => hall (n + 1) (r :: rs) buf' (hcalls n rs buf' hn) (by omega)) rfl
    rw [← hrest, hlen] at hrs
    rw [List.length_drop] at hn
    exact ⟨n + 1, by omega, r :: rs, hcalls n rs _ hrs⟩

/-- **`readline_buf` keeps to its text only at a line end that `usr` has room for.** For every text
without NUL, wherever it stands in memory, and every `maxlen`: the call reads nothing behind the
NUL, moves `*buf` forward and not over the NUL, and stores at most `maxlen` bytes, if and only if,
behind the leading spaces, the loop comes to a position `e` in the text, with `e < maxlen`, that is
the first line end, an LF behind a CR or, when there were leading spaces, in front of one; or where
a bound that does not fit an `int` cuts the line. And calls that all do so use the text up. -/
theorem readlineBuf_advances_iff (pre s rest : Bytes) (maxlen : Nat) (hs : NulFree s) :
    (Advances (pre ++ (s ++ 0 :: rest)) pre.length maxlen ↔
      ∃ e, 1 ≤ e ∧ e ≤ intMax ∧ e < maxlen ∧ e < (stripped s).length ∧
        (∀ j, 1 ≤ j → j < e → j < loopBound s.length maxlen ∧ ¬LineEndAt (stripped s) j) ∧
        (loopBound s.length maxlen ≤ e ∨
          LineEndAt (stripped s) e ∧
            ((stripped s)[e - 1]? = some cr ∨ (stripped s).length < s.length))) ∧
    ((∀ n rs buf, readlineCalls (pre ++ (s ++ 0 :: rest)) maxlen n pre.length = some (rs, buf) →
        buf < pre.length + s.length → Advances (pre ++ (s ++ 0 :: rest)) buf maxlen) →
      ∃ n ≤ s.length, ∃ rs, readlineCalls (pre ++ (s ++ 0 :: rest)) maxlen n pre.length =
        some (rs, pre.length + s.length)) := by
  have hdrop : (pre ++ (s ++ 0 :: rest)).drop pre.length = s ++ 0 :: rest := List.drop_left
  exact ⟨advances_iff hs hdrop, readlineCalls_consume hs hdrop⟩

/-- " a", CRLF, "b". -/
theorem readlineBuf_advances_line :
    Advances ([] ++ ([32, 97, 13, 10, 98] ++ 0 :: [])) 0 3 :=
  (readlineBuf_advances_iff [] [32, 97, 13, 10, 98] [] 3 (by simp [NulFree])).1.2
    ⟨2, by decide, by decide, by decide, by decide, by
      intro j h1 hj
      have hone : j = 1 := by omega
      subst hone
      exact ⟨by decide, by decide⟩, Or.inr ⟨by decide, Or.inl (by decide)⟩⟩

/-- A last line without an end: `*buf` is moved over the NUL. -/
theorem readlineBuf_oversteps : ¬∀ (s : Bytes) (maxlen : Nat), s ≠ [] → NulFree s → 1 ≤ maxlen →
    Advances (s ++ 0 :: []) 0 maxlen := by
  intro h
  have hfree : NulFree [71, 69, 84] := by simp [NulFree]
  obtain ⟨e, he, -, -, hlt, -, hend⟩ := (advances_iff hfree rfl).1
    (h [71, 69, 84] 1024 (List.cons_ne_nil _ _) hfree (by decide))
  have hbound : loopBound 3 1024 = 1024 := by decide
  have hlen : (stripped [71, 69, 84]).length = 3 := by decide
  rw [hlen] at hlt
  rcases hend with hend | ⟨⟨hlf, -⟩, -⟩
  · rw [List.length_cons, List.length_cons, List.length_cons, List.length_nil, hbound] at hend
    omega
  · have hmem : lf ∈ stripped [71, 69, 84] := List.mem_of_getElem? hlf
    exact absurd hmem (by decide)

end Text

end HttpCallback
