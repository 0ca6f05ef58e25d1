import Mathlib.Data.List.Infix

/-!
# Header blocks

A message is a block of lines, each ended by CR LF, an empty line, and a body. `decode` reads one
line after the other up to the first empty one. Blocks of lines that are not empty and hold no CR LF
and messages with an empty line correspond (`decode_encode`, `encode_decode`), so that a line is
read for what it is if no line end can get into it. A message cut short in its block has no empty
line (`decode_prefix`, `decode_ne_none`).
-/

namespace Headers

abbrev Bytes := List UInt8

def eol : Bytes := [13, 10]

/-- The lines, the empty one, and the body. -/
def encode (lines : List Bytes) (body : Bytes) : Bytes :=
  lines.flatMap (· ++ eol) ++ (eol ++ body)

/-- The line up to the first CR LF, and what stands behind that. -/
def line : Bytes → Option (Bytes × Bytes)
  | [] => none
  | 13 :: 10 :: t => some ([], t)
  | b :: t => (line t).map fun (l, t) => (b :: l, t)

/-- With `n` at least the number of lines, the block and the body behind it. -/
def lines : Nat → Bytes → Option (List Bytes × Bytes)
  | 0, _ => none
  | n + 1, t =>
    (line t).bind fun (l, t) =>
      if l = [] then some ([], t) else (lines n t).map fun (ls, body) => (l :: ls, body)

def decode (t : Bytes) : Option (List Bytes × Bytes) := lines t.length t

/-- A line that is not empty and in which no other ends. -/
def IsLine (l : Bytes) : Prop := l ≠ [] ∧ ¬eol <:+: l

variable {l t body : Bytes} {ls : List Bytes}

theorem isLine_of_not_mem (hne : l ≠ []) (h : (10 : UInt8) ∉ l) : IsLine l :=
  ⟨hne, fun hin => h (hin.subset (by decide))⟩

/-! ## One line -/

theorem line_append (h : ¬eol <:+: l) (t : Bytes) : line (l ++ (eol ++ t)) = some (l, t) := by
  induction l with
  | nil => rfl
  | cons b l ih =>
    have hrest : ¬eol <:+: l := fun hl => h (List.infix_cons hl)
    have hnot : ∀ r, b = 13 → l ++ (eol ++ t) ≠ 10 :: r := by
      rintro r rfl heq
      cases l with
      | nil => cases heq
      | cons c l =>
        cases heq
        exact h ⟨[], l, rfl⟩
    rw [List.cons_append, line, ih hrest]
    · rfl
    · exact fun r hb => hnot r hb

theorem append_line (h : line t = some (l, body)) : l ++ (eol ++ body) = t ∧ ¬eol <:+: l := by
  induction t using line.induct generalizing l with
  | case1 => cases h
  | case2 t =>
    cases h
    exact ⟨rfl, by decide⟩
  | case3 b t hnot ih =>
    rw [line] at h
    · obtain ⟨⟨m, body'⟩, hm, heq⟩ := Option.map_eq_some_iff.1 h
      cases heq
      obtain ⟨happ, hfree⟩ := ih hm
      refine ⟨congrArg (b :: ·) happ, fun hin => ?_⟩
      rcases List.infix_cons_iff.1 hin with ⟨r, hr⟩ | hin
      · -- the line would have ended here
        cases hr
        exact hnot _ rfl happ.symm
      · exact hfree hin
    · exact hnot

/-! ## A block -/

theorem encode_cons (l : Bytes) (ls : List Bytes) (body : Bytes) :
    encode (l :: ls) body = l ++ (eol ++ encode ls body) := by
  simp [encode]

theorem lines_encode (h : ∀ l ∈ ls, IsLine l) (body : Bytes) {n : Nat} (hn : ls.length < n) :
    lines n (encode ls body) = some (ls, body) := by
  induction ls generalizing n with
  | nil =>
    obtain ⟨k, rfl⟩ := Nat.exists_eq_succ_of_ne_zero (Nat.ne_of_gt hn)
    rfl
  | cons l ls ih =>
    obtain ⟨k, rfl⟩ := Nat.exists_eq_succ_of_ne_zero (Nat.ne_of_gt (Nat.zero_lt_of_lt hn))
    obtain ⟨⟨hne, hfree⟩, hrest⟩ := List.forall_mem_cons.1 h
    rw [encode_cons, lines, line_append hfree, Option.bind_some]
    simp only [if_neg hne]
    rw [ih hrest (Nat.lt_of_succ_lt_succ hn)]
    rfl

theorem length_lt_encode (ls : List Bytes) (body : Bytes) :
    ls.length < (encode ls body).length := by
  induction ls with
  | nil => simp [encode, eol]
  | cons l ls ih =>
    rw [encode_cons]
    simp only [List.length_append, List.length_cons, eol, List.length_nil]
    omega

/-- **A block is read back.** -/
theorem decode_encode (h : ∀ l ∈ ls, IsLine l) (body : Bytes) :
    decode (encode ls body) = some (ls, body) :=
  lines_encode h body (length_lt_encode ls body)

theorem encode_lines {n : Nat} (h : lines n t = some (ls, body)) :
    encode ls body = t ∧ ∀ l ∈ ls, IsLine l := by
  induction n generalizing t ls with
  | zero => cases h
  | succ n ih =>
    rw [lines] at h
    obtain ⟨⟨l, r⟩, hline, h⟩ := Option.bind_eq_some_iff.1 h
    obtain ⟨happ, hfree⟩ := append_line hline
    simp only at h
    split at h
    · rename_i hnil
      cases h
      subst hnil
      exact ⟨happ, List.forall_mem_nil _⟩
    · rename_i hne
      obtain ⟨⟨ms, b⟩, hms, heq⟩ := Option.map_eq_some_iff.1 h
      cases heq
      obtain ⟨hrest, hlines⟩ := ih hms
      refine ⟨?_, List.forall_mem_cons.2 ⟨⟨hne, hfree⟩, hlines⟩⟩
      rw [encode_cons, hrest, happ]

/-- **What is read is a block.** -/
theorem encode_decode (h : decode t = some (ls, body)) :
    encode ls body = t ∧ ∀ l ∈ ls, IsLine l := encode_lines h

theorem encode_append (ls : List Bytes) (body r : Bytes) :
    encode ls body ++ r = encode ls (body ++ r) := by
  simp [encode]

/-- **A message cut short** has no block, or the whole one and a front part of the body. -/
theorem decode_prefix (h : ∀ l ∈ ls, IsLine l) (ht : t <+: encode ls body) :
    decode t = none ∨ ∃ b, b <+: body ∧ t = encode ls b ∧ decode t = some (ls, b) := by
  cases hdecode : decode t with
  | none => exact Or.inl rfl
  | some m =>
    obtain ⟨ms, b⟩ := m
    obtain ⟨hencode, hlines⟩ := encode_decode hdecode
    obtain ⟨r, hr⟩ := ht
    have hwhole := decode_encode hlines (b ++ r)
    rw [← encode_append, hencode, hr, decode_encode h, Option.some.injEq, Prod.mk.injEq] at hwhole
    obtain ⟨rfl, rfl⟩ := hwhole
    exact Or.inr ⟨b, List.prefix_append b r, hencode.symm, rfl⟩

/-- The first line of a text with a line end, which may come before that end. -/
theorem line_first (a r : Bytes) : ∃ l t, line (a ++ (eol ++ r)) = some (l, t) ∧
    (l = a ∧ t = r ∨ ∃ c, a = l ++ (eol ++ c) ∧ t = c ++ (eol ++ r)) := by
  induction a with
  | nil => exact ⟨[], r, rfl, Or.inl ⟨rfl, rfl⟩⟩
  | cons x a ih =>
    by_cases hend : ∃ c, x = 13 ∧ a = 10 :: c
    · obtain ⟨c, rfl, rfl⟩ := hend
      exact ⟨[], c ++ (eol ++ r), rfl, Or.inr ⟨c, rfl, rfl⟩⟩
    · have hnot : ∀ d, x = 13 → a ++ (eol ++ r) ≠ 10 :: d := by
        rintro d rfl heq
        cases a with
        | nil => cases heq
        | cons y a =>
          cases heq
          exact hend ⟨a, rfl, rfl⟩
      obtain ⟨l, t, hline, hways⟩ := ih
      refine ⟨x :: l, t, ?_, ?_⟩
      · rw [List.cons_append, line, hline]
        · rfl
        · exact fun d hx => hnot d hx
      · rcases hways with ⟨rfl, ht⟩ | ⟨c, rfl, ht⟩
        · exact Or.inl ⟨rfl, ht⟩
        · exact Or.inr ⟨c, rfl, ht⟩

theorem lines_ne_none {n : Nat} (hn : t.length ≤ n) (h : eol ++ eol <:+: t) : lines n t ≠ none := by
  induction n generalizing t with
  | zero =>
    obtain rfl := List.eq_nil_of_length_eq_zero (Nat.le_zero.1 hn)
    cases List.infix_nil.1 h
  | succ n ih =>
    obtain ⟨a, b, rfl⟩ := h
    rw [List.append_assoc, List.append_assoc] at hn ⊢
    obtain ⟨l, t, hline, hways⟩ := line_first a (eol ++ b)
    rw [lines, hline, Option.bind_some]
    simp only
    split
    · exact Option.some_ne_none _
    · rw [Ne, Option.map_eq_none_iff]
      rcases hways with ⟨rfl, rfl⟩ | ⟨c, rfl, rfl⟩
      · cases n with
        | zero =>
          simp only [List.length_append, eol, List.length_cons] at hn
          omega
        | succ n => exact Option.some_ne_none _
      · refine ih ?_ ⟨c, b, by simp⟩
        simp only [List.length_append] at hn ⊢
        simp only [eol, List.length_cons, List.length_nil] at hn ⊢
        omega

/-- A message with a line end behind another has a block. -/
theorem decode_ne_none (h : eol ++ eol <:+: t) : decode t ≠ none := lines_ne_none le_rfl h

end Headers
