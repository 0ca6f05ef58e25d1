import Mathlib.Data.List.TakeWhile

/-!
# NUL-terminated strings and the tokens cut out of them

Two layers. The lower one is C memory: a string is what a block of bytes holds from an index up to
the first NUL, and `strtok` walks such a block with a saved index and overwrites the delimiter that
ends a token. The upper one is about lists alone: `nextToken` drops leading delimiters, cuts a token
and drops the delimiter behind it. `strtok_spec` connects the two: as long as the saved index stands
in front of `r` and the terminator (`Pending`), a call of `strtok` is a `nextToken` of `r`.
-/

namespace CString

/-! ## Tokens of a list -/

section Tokens

variable {α : Type*} (d : α → Bool)

/-- The first token of `s` under the delimiters `d`, with what is left behind the delimiter that
ended it; `none` when `s` holds nothing but delimiters. -/
def nextToken (s : List α) : Option (List α × List α) :=
  match s.dropWhile d with
  | [] => none
  | c :: cs => some ((c :: cs).takeWhile (!d ·), ((c :: cs).dropWhile (!d ·)).tail)

variable {d}

theorem takeWhile_append_stop {tok s : List α} (h : ∀ b ∈ tok, d b = true)
    (hs : ∀ x r, s = x :: r → d x = false) : (tok ++ s).takeWhile d = tok := by
  rw [List.takeWhile_append_of_pos h]
  cases s with
  | nil => simp
  | cons x r => simp [hs x r rfl]

theorem dropWhile_append_stop {tok s : List α} (h : ∀ b ∈ tok, d b = true)
    (hs : ∀ x r, s = x :: r → d x = false) : (tok ++ s).dropWhile d = s := by
  rw [List.dropWhile_append_of_pos h]
  cases s with
  | nil => rfl
  | cons x r => simp [hs x r rfl]

/-- No token: the string is empty or holds delimiters only. -/
theorem nextToken_eq_none {s : List α} : nextToken d s = none ↔ ∀ b ∈ s, d b = true := by
  unfold nextToken
  rw [← List.dropWhile_eq_nil_iff]
  cases h : s.dropWhile d <;> simp

/-- A token that a delimiter ends. -/
theorem nextToken_cut {lead tok rest : List α} {x : α} (hl : ∀ b ∈ lead, d b = true)
    (hne : tok ≠ []) (ht : ∀ b ∈ tok, d b = false) (hx : d x = true) :
    nextToken d (lead ++ (tok ++ x :: rest)) = some (tok, rest) := by
  obtain ⟨c, cs, rfl⟩ := List.exists_cons_of_ne_nil hne
  have hc : d c = false := ht c List.mem_cons_self
  have hdrop : (lead ++ (c :: cs ++ x :: rest)).dropWhile d = c :: (cs ++ x :: rest) := by
    rw [List.dropWhile_append_of_pos hl]
    simp [hc]
  have hstop : ∀ y r, x :: rest = y :: r → (!d y) = false := by
    rintro y r h
    cases h
    simp [hx]
  have htok : ∀ b ∈ c :: cs, (!d b) = true := fun b hb => by simp [ht b hb]
  unfold nextToken
  rw [hdrop]
  simp only [← List.cons_append]
  rw [takeWhile_append_stop htok hstop, dropWhile_append_stop htok hstop]
  rfl

/-- A token at the start of the string. -/
theorem nextToken_cut_nil {tok rest : List α} {x : α} (hne : tok ≠ [])
    (ht : ∀ b ∈ tok, d b = false) (hx : d x = true) :
    nextToken d (tok ++ x :: rest) = some (tok, rest) := by
  rw [← List.nil_append (tok ++ x :: rest)]
  exact nextToken_cut (fun _ hb => absurd hb List.not_mem_nil) hne ht hx

/-- A string without delimiters is a token. -/
theorem nextToken_whole {s : List α} (hne : s ≠ []) (hs : ∀ b ∈ s, d b = false) :
    nextToken d s = some (s, []) := by
  obtain ⟨c, cs, rfl⟩ := List.exists_cons_of_ne_nil hne
  have hdrop : (c :: cs).dropWhile d = c :: cs := by
    rw [List.dropWhile_cons_of_neg (by simp [hs c List.mem_cons_self])]
  have hall : ∀ b ∈ c :: cs, (!d b) = true := fun b hb => by simp [hs b hb]
  unfold nextToken
  rw [hdrop]
  simp only
  rw [List.takeWhile_eq_self_iff.2 hall, List.dropWhile_eq_nil_iff.2 hall]
  rfl

/-- What a token tells about the string it was cut from. -/
theorem nextToken_some {s tok rest : List α} (h : nextToken d s = some (tok, rest)) :
    ∃ lead, (∀ b ∈ lead, d b = true) ∧ tok ≠ [] ∧ (∀ b ∈ tok, d b = false) ∧
      ((∃ x, d x = true ∧ s = lead ++ (tok ++ x :: rest)) ∨ (s = lead ++ tok ∧ rest = [])) := by
  unfold nextToken at h
  have hs : s = s.takeWhile d ++ s.dropWhile d := List.takeWhile_append_dropWhile.symm
  cases hd : s.dropWhile d with
  | nil => rw [hd] at h; cases h
  | cons c cs =>
    rw [hd] at h hs
    simp only [Option.some.injEq, Prod.mk.injEq] at h
    obtain ⟨htok, hrest⟩ := h
    have hc : d c = false := by
      have := List.head_dropWhile_not d (l := s) (by rw [hd]; exact List.cons_ne_nil _ _)
      simpa [hd] using this
    have hcut : c :: cs = tok ++ (c :: cs).dropWhile (!d ·) := by
      rw [← htok, List.takeWhile_append_dropWhile]
    refine ⟨s.takeWhile d, fun b hb => List.mem_takeWhile_imp hb, ?_, ?_, ?_⟩
    · rw [← htok, List.takeWhile_cons_of_pos (by simp [hc])]
      exact List.cons_ne_nil _ _
    · intro b hb
      rw [← htok] at hb
      simpa using List.mem_takeWhile_imp hb
    · cases he : (c :: cs).dropWhile (!d ·) with
      | nil =>
        rw [he, List.append_nil] at hcut
        rw [he] at hrest
        exact Or.inr ⟨hs.trans (by rw [hcut]), hrest.symm⟩
      | cons x r =>
        have hx : d x = true := by
          have := List.head_dropWhile_not (!d ·) (l := c :: cs) (by
            rw [he]
            exact List.cons_ne_nil _ _)
          simpa [he] using this
        rw [he] at hcut hrest
        refine Or.inl ⟨x, hx, ?_⟩
        rw [← hrest, List.tail_cons, ← hcut]
        exact hs

/-- What is left behind a token is the end of the string. -/
theorem nextToken_suffix {s tok rest : List α} (h : nextToken d s = some (tok, rest)) :
    rest <:+ s := by
  obtain ⟨lead, -, -, -, ⟨x, -, rfl⟩ | ⟨rfl, rfl⟩⟩ := nextToken_some h
  · exact ⟨lead ++ (tok ++ [x]), by simp⟩
  · exact List.nil_suffix

/-- A token stands behind the leading delimiters. -/
theorem nextToken_prefix {s tok rest : List α} (h : nextToken d s = some (tok, rest)) :
    tok <+: s.drop (s.takeWhile d).length := by
  have hdrop : s.drop (s.takeWhile d).length = s.dropWhile d := by
    calc s.drop (s.takeWhile d).length
        = (s.takeWhile d ++ s.dropWhile d).drop (s.takeWhile d).length := by
          rw [List.takeWhile_append_dropWhile]
      _ = s.dropWhile d := List.drop_left
  rw [hdrop]
  unfold nextToken at h
  split at h
  · cases h
  · rename_i heq
    cases h
    rw [heq]
    exact List.takeWhile_prefix _

/-- Cutting a token consumes at least its own symbols. -/
theorem nextToken_length {s tok rest : List α} (h : nextToken d s = some (tok, rest)) :
    rest.length < s.length := by
  obtain ⟨lead, -, hne, -, ⟨x, -, rfl⟩ | ⟨rfl, rfl⟩⟩ := nextToken_some h
  · simp only [List.length_append, List.length_cons]
    omega
  · have := List.length_pos_iff.2 hne
    simp only [List.length_append, List.length_nil]
    omega

end Tokens

/-! ## Strings in memory -/

abbrev Bytes := List UInt8

/-- No terminator inside: the content of a C string. -/
def NulFree (s : Bytes) : Prop := (0 : UInt8) ∉ s

instance (s : Bytes) : Decidable (NulFree s) := inferInstanceAs (Decidable ((0 : UInt8) ∉ s))

theorem NulFree.ne {s : Bytes} (h : NulFree s) {b : UInt8} (hb : b ∈ s) : b ≠ 0 :=
  fun e => h (e ▸ hb)

@[simp] theorem nulFree_nil : NulFree [] := List.not_mem_nil

theorem nulFree_append {s t : Bytes} : NulFree (s ++ t) ↔ NulFree s ∧ NulFree t := by
  simp [NulFree]

theorem nulFree_cons {b : UInt8} {s : Bytes} : NulFree (b :: s) ↔ b ≠ 0 ∧ NulFree s := by
  simp [NulFree, eq_comm]

theorem NulFree.sublist {s t : Bytes} (h : NulFree t) (hs : s.Sublist t) : NulFree s :=
  fun h0 => h (hs.subset h0)

/-- The bytes in front of the first NUL. -/
def cstr (m : Bytes) : Bytes := m.takeWhile (· != 0)

/-- The string stored at index `i` of `m`. -/
def cstrAt (m : Bytes) (i : Nat) : Bytes := cstr (m.drop i)

/-- The byte at index `i` of `m`. -/
def byteAt (m : Bytes) (i : Nat) : UInt8 := (m.drop i).headD 0

theorem nulFree_cstr (m : Bytes) : NulFree (cstr m) := by
  intro h
  have := List.mem_takeWhile_imp h
  simp at this

theorem cstr_append_nul {s t : Bytes} (h : NulFree s) : cstr (s ++ 0 :: t) = s := by
  refine takeWhile_append_stop (fun b hb => by simp [h.ne hb]) ?_
  rintro x r hx
  cases hx
  rfl

theorem cstr_eq_self {s : Bytes} (h : NulFree s) : cstr s = s :=
  List.takeWhile_eq_self_iff.2 fun b hb => by simp [h.ne hb]

/-- The string is the whole block or ends at a NUL in it. -/
theorem cstr_split (m : Bytes) : cstr m = m ∨ ∃ t, m = cstr m ++ 0 :: t := by
  induction m with
  | nil => exact Or.inl rfl
  | cons b m ih =>
    by_cases hb : b = 0
    · subst hb
      exact Or.inr ⟨m, rfl⟩
    · have hc : cstr (b :: m) = b :: cstr m := List.takeWhile_cons_of_pos (by simp [hb])
      rw [hc]
      rcases ih with h | ⟨t, ht⟩
      · exact Or.inl (by rw [h])
      · exact Or.inr ⟨t, congrArg (b :: ·) ht⟩

/-- `strspn`, from index `i` of `m`. -/
def strspn (m : Bytes) (i : Nat) (d : UInt8 → Bool) : Nat := ((cstrAt m i).takeWhile d).length

/-- `strcspn`, from index `i` of `m`. -/
def strcspn (m : Bytes) (i : Nat) (d : UInt8 → Bool) : Nat :=
  ((cstrAt m i).takeWhile (!d ·)).length

/-- `strncmp(a, b, n) == 0`: the terminators take part in the comparison. -/
def strncmpEq (a b : Bytes) (n : Nat) : Bool := (a ++ [0]).take n == (b ++ [0]).take n

/-- `strstr(s, pat) != NULL`. -/
def strstr (s pat : Bytes) : Bool :=
  match s with
  | [] => pat.isEmpty
  | b :: r => pat.isPrefixOf (b :: r) || strstr r pat

theorem strstr_iff {s pat : Bytes} : strstr s pat = true ↔ pat <:+: s := by
  induction s with
  | nil => simp [strstr]
  | cons b r ih => simp [strstr, ih, List.infix_cons_iff]

/-- The block `strtok` works on and its static save pointer. -/
structure Tok where
  mem : Bytes
  save : Nat
  deriving Repr, DecidableEq

/-- `strtok(NULL, d)`; a first call `strtok(buf, d)` is one with the save pointer at the start of
the buffer. The result is the index of the token. -/
def strtok (d : UInt8 → Bool) (t : Tok) : Option Nat × Tok :=
  let s := t.save + strspn t.mem t.save d
  if byteAt t.mem s = 0 then (none, { t with save := s })
  else
    let e := s + strcspn t.mem s d
    if byteAt t.mem e = 0 then (some s, { t with save := e })
    else (some s, { mem := t.mem.set e 0, save := e + 1 })

/-- The save pointer of `t` stands in front of the string `r`, which ends the block. -/
structure Pending (t : Tok) (r : Bytes) : Prop where
  drop : t.mem.drop t.save = r ++ [0]
  nulFree : NulFree r

theorem Pending.start {s : Bytes} (h : NulFree s) : Pending ⟨s ++ [0], 0⟩ s := ⟨rfl, h⟩

theorem Pending.cstrAt {t : Tok} {r : Bytes} (h : Pending t r) : cstrAt t.mem t.save = r := by
  unfold CString.cstrAt
  rw [h.drop, cstr_append_nul h.nulFree]

theorem Pending.length {t : Tok} {r : Bytes} (h : Pending t r) :
    t.save + r.length + 1 = t.mem.length := by
  have hl := congrArg List.length h.drop
  simp only [List.length_drop, List.length_append, List.length_cons, List.length_nil] at hl
  omega

theorem drop_add_of_drop_eq {m lead s : Bytes} {i : Nat} (h : m.drop i = lead ++ s) :
    m.drop (i + lead.length) = s := by
  rw [← List.drop_drop, h, List.drop_left]

theorem strspn_eq {m lead s : Bytes} {i : Nat} {d : UInt8 → Bool} (h : cstrAt m i = lead ++ s)
    (hl : ∀ b ∈ lead, d b = true) (hs : ∀ x r, s = x :: r → d x = false) :
    strspn m i d = lead.length := by
  rw [strspn, h, takeWhile_append_stop hl hs]

theorem strspn_replicate {m s : Bytes} {i n : Nat} {b : UInt8} {d : UInt8 → Bool}
    (h : cstrAt m i = List.replicate n b ++ s) (hb : d b = true)
    (hs : ∀ x r, s = x :: r → d x = false) : strspn m i d = n := by
  have hall : ∀ x ∈ List.replicate n b, d x = true := fun x hx => by
    rw [List.eq_of_mem_replicate hx, hb]
  rw [strspn_eq h hall hs, List.length_replicate]

theorem strcspn_eq {m tok s : Bytes} {i : Nat} {d : UInt8 → Bool} (h : cstrAt m i = tok ++ s)
    (ht : ∀ b ∈ tok, d b = false) (hs : ∀ x r, s = x :: r → d x = true) :
    strcspn m i d = tok.length := by
  refine (congrArg List.length ?_)
  rw [h, takeWhile_append_stop (d := (!d ·)) (fun b hb => by simp [ht b hb])]
  exact fun x r hx => by simp [hs x r hx]

/-- The index that `strtok` returns is the one behind the leading delimiters. -/
theorem strtok_index {t t' : Tok} {r : Bytes} {d : UInt8 → Bool} {p : Nat} (h : Pending t r)
    (hs : strtok d t = (some p, t')) : p = t.save + (r.takeWhile d).length := by
  have hspn : strspn t.mem t.save d = (r.takeWhile d).length := by rw [strspn, h.cstrAt]
  unfold strtok at hs
  rw [hspn] at hs
  simp only at hs
  split at hs
  · cases hs
  · split at hs
    · cases hs
      rfl
    · cases hs
      rfl

/-- Without a token `strtok` returns NULL. -/
theorem strtok_none {t : Tok} {r : Bytes} {d : UInt8 → Bool} (h : Pending t r)
    (hn : nextToken d r = none) : ∃ t', strtok d t = (none, t') := by
  have hall := nextToken_eq_none.1 hn
  have hspn : strspn t.mem t.save d = r.length :=
    strspn_eq (s := []) (by rw [h.cstrAt, List.append_nil]) hall nofun
  have hb : byteAt t.mem (t.save + r.length) = 0 := by
    rw [byteAt, drop_add_of_drop_eq h.drop]
    rfl
  refine ⟨{ t with save := t.save + r.length }, ?_⟩
  unfold strtok
  simp only [hspn, if_pos hb]

/-- **A call of `strtok` is a `nextToken`** of the string at the save pointer. The token is left
NUL-terminated at the index returned, between the old save pointer and the new one. -/
theorem strtok_spec {t : Tok} {r tok rest : Bytes} {d : UInt8 → Bool} (h : Pending t r)
    (hn : nextToken d r = some (tok, rest)) :
    ∃ p t', strtok d t = (some p, t') ∧ cstrAt t'.mem p = tok ∧ Pending t' rest ∧
      t.save ≤ p ∧ p + tok.length ≤ t'.save ∧ t'.mem.length = t.mem.length := by
  obtain ⟨lead, hl, hne, ht, hr⟩ := nextToken_some hn
  obtain ⟨c, cs, rfl⟩ := List.exists_cons_of_ne_nil hne
  have hc : d c = false := ht c List.mem_cons_self
  -- both endings leave `lead`, the token and some `tl` in front of the terminator
  obtain ⟨tl, hrt, htl⟩ : ∃ tl, r = lead ++ (c :: cs ++ tl) ∧
      ((∃ x, d x = true ∧ tl = x :: rest) ∨ (tl = [] ∧ rest = [])) := by
    rcases hr with ⟨x, hx, rfl⟩ | ⟨rfl, rfl⟩
    · exact ⟨x :: rest, rfl, Or.inl ⟨x, hx, rfl⟩⟩
    · exact ⟨[], by simp, Or.inr ⟨rfl, rfl⟩⟩
  have hnf := h.nulFree
  rw [hrt, nulFree_append, nulFree_append] at hnf
  have hspn : strspn t.mem t.save d = lead.length := by
    apply strspn_eq (by rw [h.cstrAt, hrt]) hl
    rintro y q hy
    cases hy
    exact hc
  have hs : t.mem.drop (t.save + lead.length) = c :: cs ++ (tl ++ [0]) :=
    drop_add_of_drop_eq (by rw [h.drop, hrt]; simp)
  have hb : byteAt t.mem (t.save + lead.length) ≠ 0 := by
    rw [byteAt, hs]
    exact hnf.2.1.ne List.mem_cons_self
  have hcs : cstrAt t.mem (t.save + lead.length) = c :: cs ++ tl := by
    rw [cstrAt, hs, ← List.append_assoc, cstr_append_nul]
    exact nulFree_append.2 hnf.2
  have hcspn : strcspn t.mem (t.save + lead.length) d = (c :: cs).length := by
    apply strcspn_eq hcs ht
    rintro y q rfl
    rcases htl with ⟨x, hx, e⟩ | ⟨e, -⟩
    · cases e
      exact hx
    · cases e
  have he : t.mem.drop (t.save + lead.length + (c :: cs).length) = tl ++ [0] :=
    drop_add_of_drop_eq hs
  have hlt := h.length
  rw [hrt] at hlt
  simp only [List.length_append] at hlt
  rcases htl with ⟨x, hx, rfl⟩ | ⟨rfl, rfl⟩
  · -- a delimiter ends the token and is overwritten
    have hbe : byteAt t.mem (t.save + lead.length + (c :: cs).length) ≠ 0 := by
      rw [byteAt, he]
      exact hnf.2.2.ne List.mem_cons_self
    refine ⟨t.save + lead.length, ⟨t.mem.set (t.save + lead.length + (c :: cs).length) 0,
      t.save + lead.length + (c :: cs).length + 1⟩, ?_, ?_, ⟨?_, ?_⟩, by omega, ?_, by simp⟩
    · simp only [strtok, hspn, hcspn, if_neg hb, if_neg hbe]
    · have hset : (t.mem.set (t.save + lead.length + (c :: cs).length) 0).drop
          (t.save + lead.length) = c :: cs ++ 0 :: (rest ++ [0]) := by
        rw [List.drop_set, if_neg (by omega), hs, Nat.add_sub_cancel_left]
        rw [List.set_append_right _ _ (Nat.le_refl _), Nat.sub_self]
        rfl
      rw [cstrAt, hset, cstr_append_nul hnf.2.1]
    · simp only
      rw [List.drop_set, if_pos (by omega), ← List.drop_drop, he]
      rfl
    · exact (nulFree_cons.1 hnf.2.2).2
    · simp only
      omega
  · -- the terminator ends the token
    have hbe : byteAt t.mem (t.save + lead.length + (c :: cs).length) = 0 := by
      rw [byteAt, he]
      rfl
    refine ⟨t.save + lead.length, ⟨t.mem, t.save + lead.length + (c :: cs).length⟩, ?_, ?_,
      ⟨he, nulFree_nil⟩, by omega, Nat.le_refl _, rfl⟩
    · simp only [strtok, hspn, hcspn, if_neg hb, if_pos hbe]
    · rw [hcs, List.append_nil]

end CString
