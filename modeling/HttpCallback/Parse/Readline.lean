import HttpCallback.Ints
import HttpCallback.Parse.Basic

/-!
# Reading a line

`readline_buf` cuts the next line out of a text in memory. A line ends at an LF behind a CR; an LF
in front of a CR ends it too, and then the call returns 0 and does not move on. The bound of the
loop is the larger of two lengths kept in `int`s, which is how a text of 2^31 bytes goes wrong. The
ways out of the loop are the cases of `LineExit`.
-/

namespace HttpCallback

open CString

/-- What a call of `readline_buf` leaves: the value returned, `*buf` as an index of the block, the
bytes stored in `usr` from its start on, and the highest index of the block that was read. -/
structure Readline where
  ret : Int
  buf : Nat
  usr : Bytes
  seen : Nat
  deriving Repr, DecidableEq

/-- The loop of `readline_buf`, with the number of values left to the counter; none when the counter
overflows. The byte behind `*buf + i` is read when there is an LF at `*buf + i`, no CR in front. -/
def readlineBufLoop (mem : Bytes) (buf maxlen : Nat) :
    Nat → Nat → Bytes → Nat → Option Readline
  | 0, _, _, _ => none
  | n + 1, i, usr, seen =>
    if i < maxlen then
      if byteAt mem (buf + i) = lf ∧ byteAt mem (buf + i - 1) = cr then
        some ⟨i, buf + (i + 1), usr.take (i - 1) ++ [0, 0], max seen (buf + i)⟩
      else if byteAt mem (buf + i) = lf ∧ byteAt mem (buf + i + 1) = cr then
        some ⟨0, buf, usr ++ [0], max seen (buf + i + 1)⟩
      else if byteAt mem (buf + i) = 0 then
        some ⟨i, buf + (i + 1), usr ++ [0], max seen (buf + i)⟩
      else
        readlineBufLoop mem buf maxlen n (i + 1) (usr ++ [byteAt mem (buf + i)])
          (max seen (buf + i + if byteAt mem (buf + i) = lf then 1 else 0))
    else some ⟨i, buf + (i + 1), usr ++ [0], seen⟩

/-- The bound of the loop, `maxlen = len2 > len1 ? len2 : len1`. -/
def loopBound (len maxlen : Nat) : Nat :=
  let len1 := toInt len
  let len2 := toInt maxlen
  toSize (if len1 < len2 then len2 else len1)

/-- `readline_buf`, for arguments that are not null. `strlen` reads up to the NUL. -/
def readlineBuf (mem : Bytes) (buf maxlen : Nat) : Option Readline :=
  let len1 := (cstrAt mem buf).length
  let start := buf + strspn mem buf isSp
  readlineBufLoop mem start (loopBound len1 maxlen) intMax 1 [byteAt mem start] (buf + len1)

/-- `n` calls, one after another, and `*buf` behind them. -/
def readlineCalls (mem : Bytes) (maxlen : Nat) : Nat → Nat → Option (List Readline × Nat)
  | 0, buf => some ([], buf)
  | n + 1, buf => do
    let r ← readlineBuf mem buf maxlen
    let (rs, buf) ← readlineCalls mem maxlen n r.buf
    return (r :: rs, buf)

/-! ## Where the loop ends -/

section Loop

variable (mem : Bytes) (buf : Nat)

/-- The first `i` bytes from `*buf` on. -/
def ahead (i : Nat) : Bytes := (List.range i).map fun j => byteAt mem (buf + j)

/-- The loop does not get past this position. -/
def Ends (i : Nat) : Prop :=
  byteAt mem (buf + i) = 0 ∨
    byteAt mem (buf + i) = lf ∧
      (byteAt mem (buf + i - 1) = cr ∨ byteAt mem (buf + i + 1) = cr)

/-- How the loop ends at position `e`, having read as far as `s`; `top` is where its counter
overflows. -/
inductive LineExit (maxlen top e s : Nat) : Option Readline → Prop
  | bound (htop : e < top) (hlen : maxlen ≤ e) :
    LineExit maxlen top e s (some ⟨e, buf + (e + 1), ahead mem buf e ++ [0], s⟩)
  | crlf (htop : e < top) (hlen : e < maxlen) (hlf : byteAt mem (buf + e) = lf)
      (hcr : byteAt mem (buf + e - 1) = cr) :
    LineExit maxlen top e s
      (some ⟨e, buf + (e + 1), (ahead mem buf e).take (e - 1) ++ [0, 0], max s (buf + e)⟩)
  | lfcr (htop : e < top) (hlen : e < maxlen) (hlf : byteAt mem (buf + e) = lf)
      (hprev : byteAt mem (buf + e - 1) ≠ cr) (hcr : byteAt mem (buf + e + 1) = cr) :
    LineExit maxlen top e s (some ⟨0, buf, ahead mem buf e ++ [0], max s (buf + e + 1)⟩)
  | nul (htop : e < top) (hlen : e < maxlen) (hnul : byteAt mem (buf + e) = 0) :
    LineExit maxlen top e s (some ⟨e, buf + (e + 1), ahead mem buf e ++ [0], max s (buf + e)⟩)
  | overflow (htop : e = top) : LineExit maxlen top e s none

variable {mem buf} {maxlen : Nat}

theorem ahead_succ (i : Nat) :
    ahead mem buf (i + 1) = ahead mem buf i ++ [byteAt mem (buf + i)] := by
  rw [ahead, List.range_succ, List.map_append]
  rfl

@[simp] theorem length_ahead (i : Nat) : (ahead mem buf i).length = i := by
  rw [ahead, List.length_map, List.length_range]

/-- The ways through the loop. -/
theorem readlineBufLoop_exit (mem : Bytes) (buf maxlen n i seen : Nat) :
    ∃ e s, i ≤ e ∧ (∀ j, i ≤ j → j < e → j < maxlen ∧ ¬Ends mem buf j) ∧ seen ≤ s ∧
      s ≤ max seen (buf + e) ∧
      LineExit mem buf maxlen (i + n) e s
        (readlineBufLoop mem buf maxlen n i (ahead mem buf i) seen) := by
  induction n generalizing i seen with
  | zero =>
    exact ⟨i, seen, le_rfl, fun j _ _ => by omega, le_rfl, Nat.le_max_left _ _, .overflow rfl⟩
  | succ n ih =>
    have hhere : ∀ j, i ≤ j → j < i → j < maxlen ∧ ¬Ends mem buf j := fun j _ _ => by omega
    unfold readlineBufLoop
    by_cases hlen : i < maxlen
    · rw [if_pos hlen]
      by_cases hcrlf : byteAt mem (buf + i) = lf ∧ byteAt mem (buf + i - 1) = cr
      · rw [if_pos hcrlf]
        exact ⟨i, seen, le_rfl, hhere, le_rfl, Nat.le_max_left _ _,
          .crlf (by omega) hlen hcrlf.1 hcrlf.2⟩
      rw [if_neg hcrlf]
      by_cases hlfcr : byteAt mem (buf + i) = lf ∧ byteAt mem (buf + i + 1) = cr
      · rw [if_pos hlfcr]
        exact ⟨i, seen, le_rfl, hhere, le_rfl, Nat.le_max_left _ _,
          .lfcr (by omega) hlen hlfcr.1 (fun h => hcrlf ⟨hlfcr.1, h⟩) hlfcr.2⟩
      rw [if_neg hlfcr]
      by_cases hnul : byteAt mem (buf + i) = 0
      · rw [if_pos hnul]
        exact ⟨i, seen, le_rfl, hhere, le_rfl, Nat.le_max_left _ _, .nul (by omega) hlen hnul⟩
      rw [if_neg hnul, ← ahead_succ]
      have hpass : ¬Ends mem buf i := by
        rintro (h | ⟨h, hprev | hnext⟩)
        · exact hnul h
        · exact hcrlf ⟨h, hprev⟩
        · exact hlfcr ⟨h, hnext⟩
      obtain ⟨e, s, hie, hpassed, hseen, hs, hexit⟩ := ih (i + 1)
        (max seen (buf + i + if byteAt mem (buf + i) = lf then 1 else 0))
      refine ⟨e, s, by omega, ?_, le_trans (Nat.le_max_left _ _) hseen, ?_, ?_⟩
      · intro j hij hje
        rcases Nat.eq_or_lt_of_le hij with rfl | hlt
        · exact ⟨hlen, hpass⟩
        · exact hpassed j hlt hje
      · split at hs <;> omega
      · rwa [show i + (n + 1) = i + 1 + n by omega]
    · rw [if_neg hlen]
      exact ⟨i, seen, le_rfl, hhere, le_rfl, Nat.le_max_left _ _, .bound (by omega) (by omega)⟩

/-- The ways through a call. -/
theorem readlineBuf_exit (mem : Bytes) (buf maxlen : Nat) :
    ∃ e s, 1 ≤ e ∧
      (∀ j, 1 ≤ j → j < e → j < loopBound (cstrAt mem buf).length maxlen ∧
        ¬Ends mem (buf + strspn mem buf isSp) j) ∧
      buf + (cstrAt mem buf).length ≤ s ∧
      s ≤ max (buf + (cstrAt mem buf).length) (buf + strspn mem buf isSp + e) ∧
      LineExit mem (buf + strspn mem buf isSp) (loopBound (cstrAt mem buf).length maxlen)
        (intMax + 1) e s (readlineBuf mem buf maxlen) := by
  have h := readlineBufLoop_exit mem (buf + strspn mem buf isSp)
    (loopBound (cstrAt mem buf).length maxlen) intMax 1 (buf + (cstrAt mem buf).length)
  rwa [Nat.add_comm 1 intMax] at h

end Loop

/-- The bound is at least each of the two lengths that fits an `int`. -/
theorem le_loopBound {len : Nat} (h : len ≤ intMax) (maxlen : Nat) :
    len ≤ loopBound len maxlen := by
  unfold loopBound
  rw [toInt_of_le (by omega) (Int.ofNat_le.2 h)]
  simp only
  split
  · rename_i hlt
    have hle := toInt_le maxlen
    obtain ⟨m, hm⟩ := Int.eq_ofNat_of_zero_le (show 0 ≤ toInt maxlen by omega)
    rw [hm] at hlt hle ⊢
    rw [toSize_of_le (by omega)]
    omega
  · exact (toSize_of_le h).ge

/-! ## Lines with their CRLF -/

/-- What is stored of a line. -/
def stripped (l : Bytes) : Bytes := l.dropWhile isSp

/-- The lines as they stand in the text. -/
def linesText (lines : List Bytes) : Bytes := lines.flatMap (· ++ crlf)

/-- A line without CR, LF or NUL. -/
def PlainLine (l : Bytes) : Prop := ∀ b ∈ l, b ≠ cr ∧ b ≠ lf ∧ b ≠ 0

section Line

variable {mem l s rest : Bytes} {buf maxlen : Nat}

theorem byteAt_of_drop {m t : Bytes} {i : Nat} (h : m.drop i = t) (j : Nat) :
    byteAt m (i + j) = t[j]?.getD 0 := by
  rw [byteAt, ← List.drop_drop, h, List.headD_eq_head?_getD, List.head?_drop]

theorem ahead_of_drop {t : Bytes} (h : mem.drop buf = t) {i : Nat} (hi : i ≤ t.length) :
    ahead mem buf i = t.take i := by
  refine List.ext_getElem (by simp [hi]) fun j hj _ => ?_
  have hji : j < i := by rwa [length_ahead] at hj
  simp only [ahead, List.getElem_map, List.getElem_range, List.getElem_take, byteAt_of_drop h]
  rw [List.getElem?_eq_getElem (by omega), Option.getD_some]

theorem PlainLine.nulFree (h : PlainLine l) : NulFree l := fun hmem => (h 0 hmem).2.2 rfl

theorem PlainLine.stripped (h : PlainLine l) : PlainLine (stripped l) :=
  fun b hb => h b ((List.dropWhile_sublist isSp).subset hb)

theorem cstrAt_of_drop (hs : NulFree s) (h : mem.drop buf = s ++ 0 :: rest) :
    cstrAt mem buf = s := by
  rw [cstrAt, h, cstr_append_nul hs]

/-- Behind the leading spaces of a text. -/
theorem drop_spaces (hs : NulFree s) (h : mem.drop buf = s ++ 0 :: rest) :
    strspn mem buf isSp + (stripped s).length = s.length ∧
      mem.drop (buf + strspn mem buf isSp) = stripped s ++ 0 :: rest := by
  have hsplit : s.takeWhile isSp ++ stripped s = s := List.takeWhile_append_dropWhile
  have hspn : strspn mem buf isSp = (s.takeWhile isSp).length := by
    rw [strspn, cstrAt_of_drop hs h]
  have hlen := congrArg List.length hsplit
  rw [List.length_append] at hlen
  refine ⟨by rw [hspn]; exact hlen, ?_⟩
  rw [hspn]
  apply drop_add_of_drop_eq
  rw [h, ← List.append_assoc, hsplit]

theorem stripped_append_cr (l t : Bytes) : stripped (l ++ cr :: t) = stripped l ++ cr :: t := by
  have hcr : (cr :: t).dropWhile isSp = cr :: t := rfl
  unfold stripped
  rw [List.dropWhile_append, hcr]
  cases l.dropWhile isSp with
  | nil => rfl
  | cons b r => rfl

/-- A text that starts with a line. -/
theorem line_text (hl : PlainLine l) (hs : NulFree s)
    (h : mem.drop buf = l ++ cr :: lf :: (s ++ 0 :: rest)) :
    NulFree (l ++ cr :: lf :: s) ∧ mem.drop buf = l ++ cr :: lf :: s ++ 0 :: rest := by
  refine ⟨nulFree_append.2 ⟨hl.nulFree, ?_⟩, ?_⟩
  · exact nulFree_cons.2 ⟨cr_ne_zero, nulFree_cons.2 ⟨lf_ne_zero, hs⟩⟩
  · rw [h, List.append_assoc]
    rfl

theorem cstrAt_line (hl : PlainLine l) (hs : NulFree s)
    (h : mem.drop buf = l ++ cr :: lf :: (s ++ 0 :: rest)) :
    cstrAt mem buf = l ++ cr :: lf :: s := by
  obtain ⟨hfree, htext⟩ := line_text hl hs h
  exact cstrAt_of_drop hfree htext

/-- Behind the spaces in front of the line. -/
theorem drop_line (hl : PlainLine l) (hs : NulFree s)
    (h : mem.drop buf = l ++ cr :: lf :: (s ++ 0 :: rest)) :
    strspn mem buf isSp + (stripped l).length = l.length ∧
      mem.drop (buf + strspn mem buf isSp) = stripped l ++ cr :: lf :: (s ++ 0 :: rest) := by
  obtain ⟨hfree, htext⟩ := line_text hl hs h
  obtain ⟨hlen, hdrop⟩ := drop_spaces hfree htext
  rw [stripped_append_cr, List.length_append, List.length_append] at hlen
  rw [stripped_append_cr, List.append_assoc] at hdrop
  exact ⟨by omega, hdrop⟩

/-- The bytes of a line, its CR and its LF. -/
theorem line_bytes {r t : Bytes} (hr : PlainLine r) (h : mem.drop buf = r ++ cr :: lf :: t) :
    (∀ j ≤ r.length, byteAt mem (buf + j) ≠ lf ∧ byteAt mem (buf + j) ≠ 0) ∧
      byteAt mem (buf + r.length) = cr ∧ byteAt mem (buf + (r.length + 1)) = lf := by
  have hcr : byteAt mem (buf + r.length) = cr := by
    rw [byteAt_of_drop h, List.getElem?_append_right le_rfl, Nat.sub_self]
    rfl
  refine ⟨?_, hcr, ?_⟩
  · intro j hj
    rcases Nat.eq_or_lt_of_le hj with rfl | hlt
    · rw [hcr]
      exact ⟨by decide, cr_ne_zero⟩
    · rw [byteAt_of_drop h, List.getElem?_append_left hlt, List.getElem?_eq_getElem hlt]
      exact (hr _ (List.getElem_mem hlt)).2
  · rw [byteAt_of_drop h, List.getElem?_append_right (Nat.le_add_right _ _),
      Nat.add_sub_cancel_left]
    rfl

/-- One call on a line: it is read as it should be when its LF is inside the bound and in reach of
the counter, and otherwise not. -/
theorem readlineBuf_line (hl : PlainLine l) (hs : NulFree s)
    (h : mem.drop buf = l ++ cr :: lf :: (s ++ 0 :: rest)) (maxlen : Nat) :
    ((stripped l).length + 1 < loopBound (l ++ cr :: lf :: s).length maxlen ∧
        (stripped l).length + 1 ≤ intMax →
      ∃ r, readlineBuf mem buf maxlen = some r ∧ r.ret = (stripped l).length + 1 ∧
        cstr r.usr = stripped l ∧ r.buf = buf + (l.length + 2)) ∧
    (¬((stripped l).length + 1 < loopBound (l ++ cr :: lf :: s).length maxlen ∧
        (stripped l).length + 1 ≤ intMax) →
      ∀ r, readlineBuf mem buf maxlen = some r → r.ret = (stripped l).length + 1 →
        cstr r.usr ≠ stripped l) := by
  obtain ⟨hspn, hdrop⟩ := drop_line hl hs h
  have hplain := hl.stripped
  obtain ⟨e, seen, he, hpass, -, -, hexit⟩ := readlineBuf_exit mem buf maxlen
  rw [cstrAt_line hl hs h] at hpass hexit
  obtain ⟨hbyte, hcr, hlf⟩ := line_bytes hplain hdrop
  have hele : e ≤ (stripped l).length + 1 := by
    by_contra hgt
    exact (hpass ((stripped l).length + 1) (by omega) (by omega)).2 (Or.inr ⟨hlf, Or.inl hcr⟩)
  have hahead : ∀ i ≤ (stripped l).length + 1,
      ahead mem (buf + strspn mem buf isSp) i = (stripped l ++ [cr]).take i := by
    intro i hi
    rw [ahead_of_drop hdrop (by simp; omega), List.append_cons,
      List.take_append_of_le_length (by simpa using hi)]
  have hend : byteAt mem (buf + strspn mem buf isSp + e) = lf → e = (stripped l).length + 1 := by
    intro hlf'
    by_contra hne
    exact (hbyte e (by omega)).1 hlf'
  generalize readlineBuf mem buf maxlen = out at hexit ⊢
  cases hexit with
  | bound htop hlen =>
    refine ⟨fun hfit => by omega, ?_⟩
    rintro hfit r hr hret
    cases hr
    have hL : e = (stripped l).length + 1 := by
      simp only at hret
      omega
    have hfree : NulFree (stripped l ++ [cr]) :=
      nulFree_append.2 ⟨hplain.nulFree, nulFree_cons.2 ⟨cr_ne_zero, nulFree_nil⟩⟩
    rw [hahead e hele, List.take_of_length_le (by simp [hL]), cstr_append_nul hfree]
    exact fun hc => List.cons_ne_nil _ _ (List.self_eq_append_right.1 hc.symm)
  | crlf htop hlen hlf' hcr' =>
    obtain rfl := hend hlf'
    refine ⟨fun _ => ⟨_, rfl, by simp, ?_, ?_⟩, fun hfit => absurd ⟨hlen, by omega⟩ hfit⟩
    · rw [hahead _ le_rfl, Nat.add_sub_cancel, List.take_take, Nat.min_eq_left (Nat.le_succ _),
        List.take_left, cstr_append_nul hplain.nulFree]
    · simp only
      omega
  | lfcr htop hlen hlf' hprev hcr' =>
    obtain rfl := hend hlf'
    exact absurd hcr hprev
  | nul htop hlen hnul =>
    rcases Nat.eq_or_lt_of_le hele with rfl | hlt
    · rw [hlf] at hnul
      exact absurd hnul lf_ne_zero
    · exact absurd hnul (hbyte e (by omega)).2
  | overflow htop =>
    exact ⟨fun hfit => by omega, fun _ r hr => by cases hr⟩

end Line

section Lines

variable {mem t rest l : Bytes} {lines : List Bytes} {buf maxlen : Nat}

/-- As many calls as there are lines: each stores its line without the leading spaces and returns
the stored length plus 1, and `*buf` is behind the last line. -/
def ReadsLines (mem : Bytes) (buf maxlen : Nat) (lines : List Bytes) : Prop :=
  ∃ rs, readlineCalls mem maxlen lines.length buf = some (rs, buf + (linesText lines).length) ∧
    rs.map (fun r => cstr r.usr) = lines.map stripped ∧
    rs.map (·.ret) = lines.map fun l => ((stripped l).length + 1 : Int)

/-- The LF of each line, counted from its first byte that is not a space, is inside the bound that
the loop has there and in reach of its counter. -/
def LinesFit (maxlen : Nat) (t : Bytes) (lines : List Bytes) : Prop :=
  ∀ front l back, lines = front ++ l :: back →
    (stripped l).length + 1 < loopBound (linesText (l :: back) ++ t).length maxlen ∧
      (stripped l).length + 1 ≤ intMax

theorem linesFit_cons : LinesFit maxlen t (l :: lines) ↔
    ((stripped l).length + 1 < loopBound (linesText (l :: lines) ++ t).length maxlen ∧
      (stripped l).length + 1 ≤ intMax) ∧ LinesFit maxlen t lines := by
  constructor
  · intro h
    exact ⟨h [] l lines rfl, fun front x back hx => h (l :: front) x back (by rw [hx]; rfl)⟩
  · rintro ⟨hl, hlines⟩ front x back hx
    cases front with
    | nil =>
      obtain ⟨rfl, rfl⟩ := List.cons.inj hx
      exact hl
    | cons y front => exact hlines front x back (List.cons.inj hx).2

/-- In a text that an `int` can count every line fits. -/
theorem linesFit_of_length_le (h : (linesText lines ++ t).length ≤ intMax) :
    LinesFit maxlen t lines := by
  rintro front l back rfl
  have hshort : (stripped l).length ≤ l.length := (List.dropWhile_sublist isSp).length_le
  have hback : (linesText (l :: back) ++ t).length =
      l.length + 2 + (linesText back).length + t.length := by
    simp only [linesText, List.flatMap_cons, List.length_append]
    rfl
  have hle : (linesText (l :: back) ++ t).length ≤ intMax := by
    refine le_trans ?_ h
    rw [linesText, linesText, List.flatMap_append, List.append_assoc]
    exact (List.suffix_append _ _).length_le
  have := le_loopBound hle maxlen
  omega

theorem readsLines_cons : ReadsLines mem buf maxlen (l :: lines) ↔
    ∃ r, readlineBuf mem buf maxlen = some r ∧ r.ret = (stripped l).length + 1 ∧
      cstr r.usr = stripped l ∧
      ∃ rs, readlineCalls mem maxlen lines.length r.buf =
          some (rs, buf + (linesText (l :: lines)).length) ∧
        rs.map (fun r => cstr r.usr) = lines.map stripped ∧
        rs.map (·.ret) = lines.map fun l => ((stripped l).length + 1 : Int) := by
  unfold ReadsLines
  rw [List.length_cons, readlineCalls]
  constructor
  · rintro ⟨rs, hcalls, husr, hret⟩
    obtain ⟨r, hr, hcalls⟩ := Option.bind_eq_some_iff.1 hcalls
    obtain ⟨⟨rs', buf'⟩, hrs', hcalls⟩ := Option.bind_eq_some_iff.1 hcalls
    cases hcalls
    obtain ⟨hu, husr⟩ := List.cons.inj husr
    obtain ⟨hr', hret⟩ := List.cons.inj hret
    exact ⟨r, hr, hr', hu, rs', hrs', husr, hret⟩
  · rintro ⟨r, hr, hret, husr, rs, hrs, husrs, hrets⟩
    refine ⟨r :: rs, ?_, ?_, ?_⟩
    · rw [hr, Option.bind_eq_bind, Option.bind_some, hrs]
      rfl
    · rw [List.map_cons, husr, husrs, List.map_cons]
    · rw [List.map_cons, hret, hrets, List.map_cons]

theorem readsLines_iff (hlines : ∀ l ∈ lines, PlainLine l) (ht : NulFree t)
    (h : mem.drop buf = linesText lines ++ (t ++ 0 :: rest)) :
    ReadsLines mem buf maxlen lines ↔ LinesFit maxlen t lines := by
  induction lines generalizing buf with
  | nil =>
    refine iff_of_true ⟨[], rfl, rfl, rfl⟩ ?_
    intro front l back hnil
    exact absurd hnil.symm (List.append_ne_nil_of_right_ne_nil _ (List.cons_ne_nil _ _))
  | cons l lines ih =>
    obtain ⟨hl, hlines⟩ := List.forall_mem_cons.1 hlines
    have hfree : NulFree (linesText lines ++ t) := by
      refine nulFree_append.2 ⟨?_, ht⟩
      intro hmem
      obtain ⟨l', hl', hmem⟩ := List.mem_flatMap.1 hmem
      rcases List.mem_append.1 hmem with hmem | hmem
      · exact (hlines l' hl').nulFree hmem
      · exact absurd hmem (by decide)
    have hdrop : mem.drop buf = l ++ cr :: lf :: (linesText lines ++ t ++ 0 :: rest) := by
      rw [h, linesText, List.flatMap_cons, ← linesText]
      simp [crlf]
    have hnext : mem.drop (buf + (l.length + 2)) = linesText lines ++ (t ++ 0 :: rest) := by
      rw [show l.length + 2 = (l ++ crlf).length by rw [List.length_append]; rfl]
      apply drop_add_of_drop_eq
      rw [h, linesText, List.flatMap_cons, ← linesText, List.append_assoc]
    have htext : linesText (l :: lines) ++ t = l ++ cr :: lf :: (linesText lines ++ t) := by
      rw [linesText, List.flatMap_cons, ← linesText]
      simp [crlf]
    have hlen : buf + (linesText (l :: lines)).length =
        buf + (l.length + 2) + (linesText lines).length := by
      rw [linesText, List.flatMap_cons, List.length_append, List.length_append, ← linesText,
        Nat.add_assoc buf]
      rfl
    obtain ⟨hfit, hunfit⟩ := readlineBuf_line hl hfree hdrop maxlen
    rw [linesFit_cons, htext, readsLines_cons, hlen, ← ih hlines hnext]
    constructor
    · rintro ⟨r, hr, hret, husr, hrest⟩
      by_cases hf : (stripped l).length + 1 <
          loopBound (l ++ cr :: lf :: (linesText lines ++ t)).length maxlen ∧
          (stripped l).length + 1 ≤ intMax
      · obtain ⟨r', hr', -, -, hbuf⟩ := hfit hf
        rw [hr] at hr'
        cases hr'
        rw [hbuf] at hrest
        exact ⟨hf, hrest⟩
      · exact absurd husr (hunfit hf r hr hret)
    · rintro ⟨hf, hrest⟩
      obtain ⟨r, hr, hret, husr, hbuf⟩ := hfit hf
      refine ⟨r, hr, hret, husr, ?_⟩
      rw [hbuf]
      exact hrest

/-- **`readline_buf` reads lines as far as `int`s carry it.** For every list of lines without CR, LF
or NUL, every tail without NUL, whatever stands behind its terminator, and every `maxlen`: the calls
return the lines without their leading spaces, one after another, each with its length plus 1, and
leave `*buf` at the tail, if and only if every line fits; and in a text of at most `INT_MAX` bytes
they do. -/
theorem readlineBuf_lines_iff (lines : List Bytes) (t rest : Bytes) (maxlen : Nat)
    (hlines : ∀ l ∈ lines, PlainLine l) (ht : NulFree t) :
    (ReadsLines (linesText lines ++ (t ++ 0 :: rest)) 0 maxlen lines ↔
      ∀ front l back, lines = front ++ l :: back →
        (stripped l).length + 1 < loopBound (linesText (l :: back) ++ t).length maxlen ∧
          (stripped l).length + 1 ≤ intMax) ∧
    ((linesText lines ++ t).length ≤ intMax →
      ReadsLines (linesText lines ++ (t ++ 0 :: rest)) 0 maxlen lines) := by
  have hiff : ReadsLines (linesText lines ++ (t ++ 0 :: rest)) 0 maxlen lines ↔
      LinesFit maxlen t lines := readsLines_iff hlines ht rfl
  exact ⟨hiff, fun h => hiff.2 (linesFit_of_length_le h)⟩

/-- " ab", an empty line and one of spaces, with a tail. -/
theorem readlineBuf_lines_three :
    ReadsLines (linesText [[32, 97, 98], [], [32, 32]] ++ ([120] ++ 0 :: [])) 0 1
      [[32, 97, 98], [], [32, 32]] :=
  (readlineBuf_lines_iff [[32, 97, 98], [], [32, 32]] [120] [] 1
    (by simp [PlainLine, cr, lf]) (by simp [NulFree])).2 (by decide)

/-- A line of 2^31 bytes is cut behind its first: the length of the text does not fit an `int`. -/
theorem readlineBuf_lines_long : ¬∀ (lines : List Bytes) (t : Bytes) (maxlen : Nat),
    (∀ l ∈ lines, PlainLine l) → NulFree t →
      ReadsLines (linesText lines ++ (t ++ 0 :: [])) 0 maxlen lines := by
  intro h
  have hplain : ∀ n, ∀ l ∈ [List.replicate n 97], PlainLine l := by
    intro n l hl b hb
    rw [List.mem_singleton.1 hl] at hb
    rw [(List.mem_replicate.1 hb).2]
    exact ⟨by decide, by decide, by decide⟩
  have hlen : ∀ n, (linesText [List.replicate n 97] ++ []).length = n + 2 := by
    intro n
    simp [linesText, crlf]
  have hbound : loopBound (2147483648 + 2) 0 = 0 := by decide
  have hread := h [List.replicate 2147483648 97] [] 0 (hplain _) nulFree_nil
  have hfit := ((readsLines_iff (hplain _) nulFree_nil rfl).1 hread [] _ [] rfl).1
  rw [hlen, hbound] at hfit
  exact absurd hfit (Nat.not_lt_zero _)

end Lines

end HttpCallback
