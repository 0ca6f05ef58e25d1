import HttpCallback.Parse.Canonical
import HttpCallback.Parse.NullToken

/-!
# The space behind the colon

The header loop copies the value from its second byte on, in the belief that the first is the space
behind the colon. Where that space is missing the value loses a byte, and an empty value is not even
found: `strtok` passes over the line end and takes the next line, or the bytes behind the blank
line. `analasy_spacing_iff` gives the lists of lines that are cut right all the same.
-/

namespace HttpCallback

open CString

/-- A header line with its value, which may be empty, and with or without a space behind the colon.
-/
structure HeaderText where
  name : Bytes
  spaced : Bool
  value : Bytes
  deriving Repr, DecidableEq

namespace HeaderText

/-- What stands between the colon and the line end. -/
def rest (h : HeaderText) : Bytes := if h.spaced then sp :: h.value else h.value

def line (h : HeaderText) : Bytes := h.name ++ colon :: (h.rest ++ cr :: lf :: [])

/-- The name is one of a canonical header, and the value does not start with a space. -/
structure WellFormed (h : HeaderText) : Prop where
  name_ne : h.name ≠ []
  name : Avoids [colon, cr, lf, 0] h.name
  value : Avoids [cr, lf, 0] h.value
  value_start : h.value.head? ≠ some sp

end HeaderText

/-- The loop stops at once: a byte and a CRLF, behind any number of colons. -/
def StopsAtOnce (r : Bytes) : Prop :=
  ∃ colons c t, (∀ b ∈ colons, isColon b = true) ∧ isColon c = false ∧
    r = colons ++ c :: (crlf ++ t)

/-- The bytes `t` behind the blank line pass for an empty value and another blank line. -/
def MakesUp (t : Bytes) : Prop :=
  ∃ eols b x r, (∀ y ∈ eols, isEol y = true) ∧ isEol b = false ∧ isEol x = true ∧
    t = eols ++ b :: x :: r ∧ StopsAtOnce r

/-- Every line has the space; or the last has neither space nor value, and the bytes behind the
blank line make up for it. -/
def Spaced (t : Bytes) : List HeaderText → Prop
  | [] => True
  | h :: hs => if h.spaced then Spaced t hs else h.value = [] ∧ hs = [] ∧ MakesUp t

/-- What the loop should come to on the lines `hs`: one name and one value for each, and then the
blank line. -/
structure CutsRight (out : List Taken × LoopOut) (hs : List HeaderText) : Prop where
  stop : ∃ s, out.2 = .stop s ∧ crlf <+: s
  names : ((out.1.filter fun c => c.dest.isHeader).map (·.text)) = hs.map (·.name)
  values : ((out.1.filter fun c => c.dest.isValue).map (·.text)) = hs.map (·.value)

/-! ## One line -/

section Line

variable {fuel i : Nat} {h : HeaderText} {hs : List HeaderText} {r : Bytes}

/-- A line is cut right when its value is and the rest of the lines are. -/
theorem cutsRight_cons {val : Bytes} {n₁ n₂ : Nat} {out : List Taken × LoopOut} :
    CutsRight (⟨.nhead i .header, h.name, n₁⟩ :: ⟨.nhead (i + 1) .value, val, n₂⟩ :: out.1, out.2)
        (h :: hs) ↔ val = h.value ∧ CutsRight out hs := by
  constructor
  · rintro ⟨hstop, hnames, hvalues⟩
    simp only [List.filter_cons, Dest.isHeader_header, Dest.isHeader_value, Dest.isValue_header,
      Dest.isValue_value, Bool.false_eq_true, if_true, if_false, List.map_cons, List.cons.injEq]
      at hnames hvalues
    exact ⟨hvalues.1, hstop, hnames.2, hvalues.2⟩
  · rintro ⟨rfl, hstop, hnames, hvalues⟩
    refine ⟨hstop, ?_, ?_⟩
    · simp [List.filter_cons, hnames]
    · simp [List.filter_cons, hvalues]

end Line

/-! ## The bytes behind the blank line -/

theorem nextToken_stopsAtOnce {r : Bytes} :
    StopsAtOnce r ↔ ∃ name rest, nextToken isColon r = some (name, rest) ∧ crlf <+: name.tail := by
  constructor
  · rintro ⟨colons, c, t, hcolons, hc, rfl⟩
    exact ⟨_, _, nextToken_blank hcolons hc t, List.prefix_append _ _⟩
  · rintro ⟨name, rest, hn, hcrlf⟩
    exact exists_of_nextToken_blank hn hcrlf

/-- Without a line to come the loop has to stop at once. -/
theorem cutsRight_nil_iff {fuel i : Nat} {r : Bytes} :
    CutsRight (headerTokens (fuel + 1) r i) [] ↔ StopsAtOnce r := by
  rw [nextToken_stopsAtOnce]
  constructor
  · rintro ⟨⟨s, hstop, -⟩, hnames, -⟩
    unfold headerTokens at hstop hnames
    cases hn : nextToken isColon r with
    | none =>
      rw [hn] at hstop
      cases hstop
    | some nt =>
      obtain ⟨name, rest⟩ := nt
      refine ⟨name, rest, rfl, ?_⟩
      rw [hn] at hnames
      simp only at hnames
      rw [← strncmpEq_crlf_two]
      by_contra hgo
      -- a name that is copied is one too many
      rw [if_neg hgo] at hnames
      cases hval : nextToken isEol rest with
      | none =>
        rw [hval] at hnames
        simp at hnames
      | some nt =>
        rw [hval] at hnames
        simp at hnames
  · rintro ⟨name, rest, hn, hcrlf⟩
    have hgo := (strncmpEq_crlf_two _).2 hcrlf
    have hout : headerTokens (fuel + 1) r i = ([], .stop name.tail) := by
      simp only [headerTokens, hn, hgo, if_true]
    rw [hout]
    exact ⟨⟨name.tail, rfl, hcrlf⟩, rfl, rfl⟩

theorem nextToken_makesUp {t : Bytes} :
    MakesUp t ↔ ∃ b r, nextToken isEol t = some ([b], r) ∧ StopsAtOnce r := by
  constructor
  · rintro ⟨eols, b, x, r, heols, hb, hx, rfl, hr⟩
    refine ⟨b, r, ?_, hr⟩
    refine nextToken_cut heols (List.cons_ne_nil b []) ?_ hx
    intro y hy
    rw [List.mem_singleton.1 hy]
    exact hb
  · rintro ⟨b, r, hn, hr⟩
    obtain ⟨eols, heols, -, hb, ht⟩ := nextToken_some hn
    rcases ht with ⟨x, hx, rfl⟩ | ⟨-, rfl⟩
    · exact ⟨eols, b, x, r, heols, hb b List.mem_cons_self, hx, rfl, hr⟩
    · obtain ⟨colons, c, t, -, -, h0⟩ := hr
      simp at h0

/-! ## The header loop -/

section Loop

variable {t : Bytes} {fuel i : Nat} {h : HeaderText} {hs : List HeaderText}

/-- With the space the value is copied whole. -/
theorem cutsRight_spaced (hw : h.WellFormed) (hsp : h.spaced = true) (rest : Bytes) :
    CutsRight (headerTokens (fuel + 1) (lf :: h.name ++ colon :: (h.rest ++ cr :: rest)) i)
        (h :: hs) ↔ CutsRight (headerTokens fuel rest (i + 2)) hs := by
  have hrest : h.rest = sp :: h.value := if_pos hsp
  have hval : nextToken isEol (h.rest ++ cr :: rest) = some (sp :: h.value, rest) := by
    rw [hrest]
    exact nextToken_value hw.value rest
  rw [headerTokens_line hw.name hval, cutsRight_cons]
  exact and_iff_right rfl

/-- Without it the value loses its first byte. -/
theorem not_cutsRight_unspaced (hw : h.WellFormed) (hsp : h.spaced = false) (hne : h.value ≠ [])
    (rest : Bytes) :
    ¬CutsRight (headerTokens (fuel + 1) (lf :: h.name ++ colon :: (h.rest ++ cr :: rest)) i)
        (h :: hs) := by
  have hrest : h.rest = h.value := if_neg (by simp [hsp])
  have hval : nextToken isEol (h.rest ++ cr :: rest) = some (h.value, rest) := by
    rw [hrest]
    exact nextToken_cut_nil hne (hw.value.isEol (by simp) (by simp)) rfl
  rw [headerTokens_line hw.name hval, cutsRight_cons]
  rintro ⟨heq, -⟩
  have hlen := congrArg List.length heq
  have hpos := List.length_pos_iff.2 hne
  rw [List.length_tail] at hlen
  omega

/-- An empty value takes the next line for its own. -/
theorem not_cutsRight_swallow (hw : h.WellFormed) (hv : h.value = []) {h' : HeaderText}
    (hw' : h'.WellFormed) (rest : Bytes) :
    ¬CutsRight (headerTokens (fuel + 1)
        (lf :: h.name ++ colon :: cr :: lf :: (h'.line ++ rest)) i) (h :: hs) := by
  have hval : nextToken isEol (cr :: lf :: (h'.line ++ rest)) =
      some (h'.name ++ colon :: h'.rest, lf :: rest) := by
    have htext : cr :: lf :: (h'.line ++ rest) =
        [cr, lf] ++ (h'.name ++ colon :: h'.rest ++ cr :: (lf :: rest)) := by
      simp [HeaderText.line]
    rw [htext]
    have heols : ∀ b ∈ [cr, lf], isEol b = true :=
      List.forall_mem_cons.2 ⟨rfl, List.forall_mem_singleton.2 rfl⟩
    refine nextToken_cut heols (by simp) ?_ rfl
    have hval' := hw'.value.isEol (by simp) (by simp)
    intro b hb
    rcases List.mem_append.1 hb with hb | hb
    · exact hw'.name.isEol (by simp) (by simp) b hb
    rcases List.mem_cons.1 hb with rfl | hb
    · rfl
    unfold HeaderText.rest at hb
    split at hb
    · rcases List.mem_cons.1 hb with rfl | hb
      · rfl
      · exact hval' b hb
    · exact hval' b hb
  rw [headerTokens_line hw.name hval, cutsRight_cons, hv,
    List.tail_append_of_ne_nil hw'.name_ne]
  rintro ⟨h0, -⟩
  simp at h0

/-- Behind the last line it takes what stands behind the blank line. -/
theorem cutsRight_last_iff (hw : h.WellFormed) (hv : h.value = []) (hf : 0 < fuel) :
    CutsRight (headerTokens (fuel + 1) (lf :: h.name ++ colon :: cr :: lf :: cr :: lf :: t) i)
        [h] ↔ MakesUp t := by
  have htext : nextToken isEol (cr :: lf :: cr :: lf :: t) = nextToken isEol t := rfl
  obtain ⟨fuel, rfl⟩ := Nat.exists_eq_succ_of_ne_zero (Nat.ne_of_gt hf)
  rw [nextToken_makesUp, ← htext]
  cases hval : nextToken isEol (cr :: lf :: cr :: lf :: t) with
  | none =>
    refine iff_of_false ?_ (by simp)
    rintro ⟨⟨s, hstop, -⟩, -, -⟩
    rw [headerTokens_line_none hw.name hval] at hstop
    cases hstop
  | some nt =>
    obtain ⟨val, rest⟩ := nt
    obtain ⟨-, -, hne, -⟩ := nextToken_some hval
    obtain ⟨b, bs, rfl⟩ := List.exists_cons_of_ne_nil hne
    rw [headerTokens_line hw.name hval, cutsRight_cons, cutsRight_nil_iff, hv, List.tail_cons]
    constructor
    · rintro ⟨rfl, hstop⟩
      exact ⟨b, rest, rfl, hstop⟩
    · rintro ⟨b', rest', heq, hstop⟩
      simp only [Option.some.injEq, Prod.mk.injEq, List.cons.injEq] at heq
      obtain ⟨⟨-, rfl⟩, rfl⟩ := heq
      exact ⟨rfl, hstop⟩

/-- The induction is on the lines; the loop is always in front of the LF that the line before has
left over. -/
theorem cutsRight_iff {hs : List HeaderText} : ∀ {fuel i : Nat}, (∀ h ∈ hs, h.WellFormed) →
    hs.length < fuel →
    (CutsRight (headerTokens fuel (lf :: (hs.flatMap HeaderText.line ++ cr :: lf :: t)) i) hs ↔
      Spaced t hs) := by
  induction hs with
  | nil =>
    intro fuel i _ hf
    obtain ⟨fuel, rfl⟩ := Nat.exists_eq_succ_of_ne_zero (Nat.ne_of_gt hf)
    exact iff_of_true (cutsRight_nil_iff.2 ⟨[], lf, t, nofun, rfl, rfl⟩) trivial
  | cons h hs ih =>
    intro fuel i hw hf
    obtain ⟨fuel, rfl⟩ := Nat.exists_eq_succ_of_ne_zero (Nat.ne_of_gt (Nat.zero_lt_of_lt hf))
    have hf' : hs.length < fuel := Nat.lt_of_succ_lt_succ hf
    have hh := hw h List.mem_cons_self
    have htext : lf :: ((h :: hs).flatMap HeaderText.line ++ cr :: lf :: t) =
        lf :: h.name ++ colon :: (h.rest ++ cr :: lf :: (hs.flatMap HeaderText.line ++
          cr :: lf :: t)) := by
      simp [HeaderText.line]
    rw [htext]
    unfold Spaced
    by_cases hsp : h.spaced = true
    · rw [if_pos hsp, cutsRight_spaced hh hsp]
      exact ih (fun x hx => hw x (List.mem_cons_of_mem h hx)) hf'
    rw [if_neg hsp]
    have hsp' : h.spaced = false := Bool.eq_false_iff.2 hsp
    by_cases hv : h.value = []
    · have hrest : h.rest = [] := by rw [HeaderText.rest, if_neg hsp, hv]
      rw [hrest, List.nil_append]
      cases hs with
      | nil =>
        refine (cutsRight_last_iff hh hv hf').trans ?_
        simp [hv]
      | cons h' hs =>
        refine iff_of_false ?_ (by simp)
        rw [List.flatMap_cons, List.append_assoc]
        exact not_cutsRight_swallow hh hv (hw h' (by simp)) _
    · exact iff_of_false (not_cutsRight_unspaced hh hsp' hv _) fun h0 => hv h0.1

end Loop

/-! ## The request -/

/-- Behind a loop that stops, the test of one byte holds. -/
theorem finish_iff {fuel : Nat} {r : Bytes} {i : Nat} {m u v : Bytes}
    {nhead : List (Dest × Bytes)} :
    (∃ req, finish m u v nhead (headerTokens fuel r i).2 = .ret (some req)) ↔
      ∃ s, (headerTokens fuel r i).2 = .stop s ∧ crlf <+: s := by
  cases hout : (headerTokens fuel r i).2 with
  | stop s =>
    have hs := crlf_prefix_of_stop fuel hout
    simp [finish, strncmpEq_crlf_one s hs, hs]
  | nullToken => simp [finish]
  | outOfFuel => simp [finish]

theorem cutsRight_def {out : List Taken × LoopOut} {hs : List HeaderText} :
    CutsRight out hs ↔ (∃ s, out.2 = .stop s ∧ crlf <+: s) ∧
      ((out.1.filter fun c => c.dest.isHeader).map (·.text)) = hs.map (·.name) ∧
      ((out.1.filter fun c => c.dest.isValue).map (·.text)) = hs.map (·.value) :=
  ⟨fun h => ⟨h.stop, h.names, h.values⟩, fun ⟨h₁, h₂, h₃⟩ => ⟨h₁, h₂, h₃⟩⟩

theorem crlf_suffix_line (h : HeaderText) : crlf <:+ h.line :=
  ⟨h.name ++ colon :: h.rest, by simp [HeaderText.line, crlf]⟩

theorem HeaderText.WellFormed.nulFree_line {h : HeaderText} (hw : h.WellFormed) :
    NulFree h.line := by
  have hn : NulFree h.name := hw.name.not (by simp)
  have hv : NulFree h.rest := by
    have hv' : NulFree h.value := hw.value.not (by simp)
    unfold HeaderText.rest
    split
    · exact nulFree_cons.2 ⟨by decide, hv'⟩
    · exact hv'
  simp only [HeaderText.line, nulFree_append, nulFree_cons, hn, hv, true_and]
  decide

/-- **Every line is cut right exactly when it has its space.** For every request line with three
words, every list of header lines with or without the space and with values that may be empty, and
every tail: the parser returns a request and the strings copied to header and to value fields are
the names and the values, in order, if and only if every line has the space behind its colon, or
only the last has not, its value is empty, and the bytes behind the blank line make up for it. -/
theorem analasy_spacing_iff {line m u v : Bytes} (hl : RequestLine line m u v)
    {hs : List HeaderText} (hw : ∀ h ∈ hs, h.WellFormed) {t : Bytes} (ht : NulFree t) :
    ((∃ req, (analasy (line ++ cr :: lf :: (hs.flatMap HeaderText.line ++ cr :: lf :: t))).out =
          .ret (some req)) ∧
        (analasy (line ++ cr :: lf :: (hs.flatMap HeaderText.line ++ cr :: lf :: t))).texts
          Dest.isHeader = hs.map (·.name) ∧
        (analasy (line ++ cr :: lf :: (hs.flatMap HeaderText.line ++ cr :: lf :: t))).texts
          Dest.isValue = hs.map (·.value)) ↔ Spaced t hs := by
  have hstr := strstr_text line (crlf_suffix_flatMap crlf_suffix_line hs) t
  have hnul : NulFree (line ++ cr :: lf :: (hs.flatMap HeaderText.line ++ cr :: lf :: t)) := by
    refine nulFree_text (hl.avoids.not (by simp)) ?_ ht
    intro h0
    obtain ⟨x, hx, h0⟩ := List.mem_flatMap.1 h0
    exact (hw x hx).nulFree_line h0
  have hle := length_le_flatMap crlf_suffix_line hs
  have hf : hs.length <
      (line ++ cr :: lf :: (hs.flatMap HeaderText.line ++ cr :: lf :: t)).length + 1 := by
    simp only [List.length_append, List.length_cons]
    omega
  obtain ⟨n₁, n₂, -, -, hout⟩ := analasyTokens_line hl hstr
  obtain ⟨hcut, hret⟩ := analasy_refines hnul
  rw [hout] at hcut hret
  rw [← cutsRight_iff (i := 0) hw hf, Analasy.texts_eq, Analasy.texts_eq, Cut.map_eq hcut, hret]
  rw [finish_iff, cutsRight_def, List.filter_map, List.map_map, List.filter_map, List.map_map]
  -- method, url and version are no header fields
  exact Iff.rfl

/-- `A: b` and an empty `B: `, both with their space. -/
theorem analasy_spacing_iff_get :
    (analasy [71, 32, 47, 32, 72, 13, 10, 65, 58, 32, 98, 13, 10, 66, 58, 32, 13, 10, 13, 10]).texts
        Dest.isHeader = [[65], [66]] ∧
      (analasy
          [71, 32, 47, 32, 72, 13, 10, 65, 58, 32, 98, 13, 10, 66, 58, 32, 13, 10, 13, 10]).texts
        Dest.isValue = [[98], []] := by
  have hw : ∀ h ∈ [HeaderText.mk [65] true [98], ⟨[66], true, []⟩], h.WellFormed := by
    rintro h (- | ⟨-, - | ⟨-, ⟨⟩⟩⟩)
    · exact ⟨by decide, by decide, by decide, by decide⟩
    · exact ⟨by decide, by decide, by decide, by decide⟩
  exact ((analasy_spacing_iff requestLine_sample hw nulFree_nil).2 trivial).2

/-- `A:bc` comes out as `c`. -/
theorem analasy_spacing_unspaced :
    ¬∀ (line m u v : Bytes) (hs : List HeaderText) (t : Bytes), RequestLine line m u v →
      (∀ h ∈ hs, h.WellFormed) → NulFree t →
      (analasy (line ++ cr :: lf :: (hs.flatMap HeaderText.line ++ cr :: lf :: t))).texts
        Dest.isValue = hs.map (·.value) := by
  intro h
  have hw : ∀ h ∈ [HeaderText.mk [65] false [98, 99]], h.WellFormed := by
    intro x hx
    rw [List.mem_singleton.1 hx]
    exact ⟨by decide, by decide, by decide, by decide⟩
  exact absurd (h _ _ _ _ _ [] requestLine_sample hw nulFree_nil) (by decide)

end HttpCallback
