import HttpCallback.Parse.Basic

/-!
# Canonical requests

A canonical request is the text `m SP u SP v CRLF (name ':' SP value CRLF)* CRLF t`. The parser
takes it apart into exactly its parts. The invariant of the header loop is the string at the save
pointer: a LF left over from the line before, the lines still to come, the blank line, the tail.
-/

namespace HttpCallback

open CString

/-- No byte of `s` is one of `bad`. -/
def Avoids (bad s : Bytes) : Prop := ∀ b ∈ s, b ∉ bad

instance (bad s : Bytes) : Decidable (Avoids bad s) := List.decidableBAll (· ∉ bad) s

/-- `name ':' SP value CRLF`. -/
def headerLine (h : Bytes × Bytes) : Bytes := h.1 ++ colon :: (sp :: h.2 ++ cr :: lf :: [])

/-- `m SP u SP v CRLF (name ':' SP value CRLF)* CRLF t`. -/
def requestText (m u v : Bytes) (hs : List (Bytes × Bytes)) (t : Bytes) : Bytes :=
  m ++ sp :: (u ++ sp :: (v ++ cr :: lf :: (hs.flatMap headerLine ++ cr :: lf :: t)))

structure CanonicalHeader (h : Bytes × Bytes) : Prop where
  name_ne : h.1 ≠ []
  name : Avoids [colon, cr, lf, 0] h.1
  value : Avoids [cr, lf, 0] h.2

structure Canonical (m u v : Bytes) (hs : List (Bytes × Bytes)) (t : Bytes) : Prop where
  method_ne : m ≠ []
  method : Avoids [sp, cr, lf, 0] m
  url_ne : u ≠ []
  url : Avoids [sp, cr, lf, 0] u
  version_ne : v ≠ []
  version : Avoids [cr, lf, 0] v
  headers : ∀ h ∈ hs, CanonicalHeader h
  tail : NulFree t

theorem Avoids.not {bad s : Bytes} (h : Avoids bad s) {x : UInt8} (hx : x ∈ bad) : x ∉ s :=
  fun hs => h x hs hx

theorem Avoids.isSp {bad s : Bytes} (h : Avoids bad s) (hx : sp ∈ bad) :
    ∀ b ∈ s, isSp b = false := by
  intro b hb
  apply beq_eq_false_iff_ne.2
  rintro rfl
  exact h _ hb hx

theorem Avoids.isColon {bad s : Bytes} (h : Avoids bad s) (hx : colon ∈ bad) :
    ∀ b ∈ s, isColon b = false := by
  intro b hb
  apply beq_eq_false_iff_ne.2
  rintro rfl
  exact h _ hb hx

theorem Avoids.isEol {bad s : Bytes} (h : Avoids bad s) (hc : cr ∈ bad) (hl : lf ∈ bad) :
    ∀ b ∈ s, isEol b = false := by
  intro b hb
  refine Bool.or_eq_false_iff.2 ⟨beq_eq_false_iff_ne.2 ?_, beq_eq_false_iff_ne.2 ?_⟩
  · rintro rfl
    exact h _ hb hc
  · rintro rfl
    exact h _ hb hl

/-! ## The text -/

theorem nulFree_headerLine {h : Bytes × Bytes} (hh : CanonicalHeader h) :
    NulFree (headerLine h) := by
  have hn : NulFree h.1 := hh.name.not (by simp)
  have hv : NulFree h.2 := hh.value.not (by simp)
  simp only [headerLine, nulFree_append, nulFree_cons, hn, hv, true_and]
  decide

/-- The text of a request: its line, the header lines, the blank line, the tail. -/
theorem requestText_eq (m u v : Bytes) (hs : List (Bytes × Bytes)) (t : Bytes) :
    requestText m u v hs t =
      m ++ sp :: (u ++ sp :: v) ++ cr :: lf :: (hs.flatMap headerLine ++ cr :: lf :: t) := by
  simp [requestText]

theorem nulFree_text {line block t : Bytes} (hl : NulFree line) (hb : NulFree block)
    (ht : NulFree t) : NulFree (line ++ cr :: lf :: (block ++ cr :: lf :: t)) := by
  simp only [nulFree_append, nulFree_cons, hl, hb, ht, true_and, and_true]
  decide

theorem nulFree_headers {hs : List (Bytes × Bytes)} (hh : ∀ h ∈ hs, CanonicalHeader h) :
    NulFree (hs.flatMap headerLine) := by
  intro h0
  obtain ⟨x, hx, h0⟩ := List.mem_flatMap.1 h0
  exact nulFree_headerLine (hh x hx) h0

/-- The blank line is the end of a CRLFCRLF: the CRLF in front of it ends the request line or the
last of the lines behind it. -/
theorem strstr_text (line : Bytes) {block : Bytes} (hb : block = [] ∨ crlf <:+ block) (t : Bytes) :
    strstr (line ++ cr :: lf :: (block ++ cr :: lf :: t)) (crlf ++ crlf) = true := by
  rw [strstr_iff]
  rcases hb with rfl | ⟨front, rfl⟩
  · exact ⟨line, t, by simp [crlf]⟩
  · exact ⟨line ++ cr :: lf :: front, t, by simp [crlf]⟩

theorem crlf_suffix_flatMap {α : Type*} {f : α → Bytes} (hf : ∀ a, crlf <:+ f a) (as : List α) :
    as.flatMap f = [] ∨ crlf <:+ as.flatMap f := by
  rcases List.eq_nil_or_concat as with rfl | ⟨as', a, rfl⟩
  · exact Or.inl rfl
  · apply Or.inr
    rw [List.concat_eq_append, List.flatMap_append, List.flatMap_singleton]
    exact (hf a).trans (List.suffix_append _ _)

theorem crlf_suffix_headerLine (h : Bytes × Bytes) : crlf <:+ headerLine h :=
  ⟨h.1 ++ colon :: sp :: h.2, by simp [headerLine, crlf]⟩

theorem length_le_flatMap {α : Type*} {f : α → Bytes} (hf : ∀ a, crlf <:+ f a) (as : List α) :
    as.length ≤ (as.flatMap f).length := by
  induction as with
  | nil => exact Nat.le_refl 0
  | cons a as ih =>
    have htwo : 2 ≤ (f a).length := (hf a).length_le
    rw [List.flatMap_cons, List.length_append, List.length_cons]
    omega

/-! ## The header loop -/

/-- What the loop copies for the lines `hs` from slot `i` on. -/
def headStores : Nat → List (Bytes × Bytes) → List (Dest × Bytes)
  | _, [] => []
  | i, h :: hs => (.nhead i .header, h.1) :: (.nhead (i + 1) .value, h.2) :: headStores (i + 2) hs

theorem headStores_header (hs : List (Bytes × Bytes)) : ∀ i,
    ((headStores i hs).filter fun c => c.1.isHeader).map (·.2) = hs.map (·.1) := by
  induction hs with
  | nil => intro i; rfl
  | cons h hs ih => intro i; simp [headStores, List.filter_cons, ih]

theorem headStores_value (hs : List (Bytes × Bytes)) : ∀ i,
    ((headStores i hs).filter fun c => c.1.isValue).map (·.2) = hs.map (·.2) := by
  induction hs with
  | nil => intro i; rfl
  | cons h hs ih => intro i; simp [headStores, List.filter_cons, ih]

theorem not_crlf_prefix {s : Bytes} (h : cr ∉ s) : strncmpEq s crlf 2 = false := by
  rw [Bool.eq_false_iff, Ne, strncmpEq_crlf_two]
  exact fun hp => h (hp.subset List.mem_cons_self)

/-! ## One line -/

section Line

variable {name value r : Bytes}

/-- The token in front of the colon, with the LF that the line before has left over. -/
theorem nextToken_name (hname : Avoids [colon, cr, lf, 0] name) (r : Bytes) :
    nextToken isColon (lf :: name ++ colon :: r) = some (lf :: name, r) := by
  refine nextToken_cut_nil (List.cons_ne_nil _ _) ?_ rfl
  intro b hb
  rcases List.mem_cons.1 hb with rfl | hb
  · rfl
  · exact hname.isColon (by simp) b hb

/-- The token behind it, with the space that belongs there. -/
theorem nextToken_value (hvalue : Avoids [cr, lf, 0] value) (rest : Bytes) :
    nextToken isEol (sp :: value ++ cr :: rest) = some (sp :: value, rest) := by
  refine nextToken_cut_nil (List.cons_ne_nil _ _) ?_ rfl
  intro b hb
  rcases List.mem_cons.1 hb with rfl | hb
  · rfl
  · exact hvalue.isEol (by simp) (by simp) b hb

/-- A round of the loop that finds a token for the value. -/
theorem headerTokens_line (hname : Avoids [colon, cr, lf, 0] name) {val rest : Bytes}
    (hval : nextToken isEol r = some (val, rest)) (fuel i : Nat) :
    headerTokens (fuel + 1) (lf :: name ++ colon :: r) i =
      (⟨.nhead i .header, name, r.length⟩ :: ⟨.nhead (i + 1) .value, val.tail, rest.length⟩ ::
          (headerTokens fuel rest (i + 2)).1,
        (headerTokens fuel rest (i + 2)).2) := by
  have hgo : strncmpEq name crlf 2 = false := not_crlf_prefix (hname.not (by simp))
  simp only [headerTokens, nextToken_name hname, hval, List.tail_cons, hgo, Bool.false_eq_true,
    if_false]

theorem headerTokens_line_none (hname : Avoids [colon, cr, lf, 0] name)
    (hval : nextToken isEol r = none) (fuel i : Nat) :
    (headerTokens (fuel + 1) (lf :: name ++ colon :: r) i).2 = .nullToken := by
  have hgo : strncmpEq name crlf 2 = false := not_crlf_prefix (hname.not (by simp))
  simp only [headerTokens, nextToken_name hname, hval, List.tail_cons, hgo, Bool.false_eq_true,
    if_false]

/-- The round that finds the blank line. -/
theorem headerTokens_blank (t : Bytes) (fuel i : Nat) :
    ∃ s, headerTokens (fuel + 1) (lf :: cr :: lf :: t) i = ([], .stop s) ∧ crlf <+: s := by
  have hn : nextToken isColon (lf :: cr :: lf :: t) =
      some (lf :: (crlf ++ t.takeWhile (!isColon ·)), (t.dropWhile (!isColon ·)).tail) :=
    nextToken_blank (List.forall_mem_nil _) rfl t
  have hp : crlf <+: crlf ++ t.takeWhile (!isColon ·) := List.prefix_append _ _
  have hs := (strncmpEq_crlf_two _).2 hp
  refine ⟨crlf ++ t.takeWhile (!isColon ·), ?_, hp⟩
  simp only [headerTokens, hn, List.tail_cons, hs, if_true]

end Line

/-- The header loop on canonical lines. -/
theorem headerTokens_canonical {t : Bytes} : ∀ {hs : List (Bytes × Bytes)} (fuel i : Nat),
    (∀ h ∈ hs, CanonicalHeader h) → hs.length < fuel →
    ∃ cs s, headerTokens fuel (lf :: (hs.flatMap headerLine ++ cr :: lf :: t)) i = (cs, .stop s) ∧
      crlf <+: s ∧ (cs.map fun c => (c.dest, c.text)) = headStores i hs ∧
      ∀ c ∈ cs, t.length ≤ c.left := by
  intro hs
  induction hs with
  | nil =>
    intro fuel i _ hf
    obtain ⟨fuel, rfl⟩ := Nat.exists_eq_succ_of_ne_zero (Nat.ne_of_gt hf)
    obtain ⟨s, hs, hp⟩ := headerTokens_blank t fuel i
    exact ⟨[], s, hs, hp, rfl, List.forall_mem_nil _⟩
  | cons h hs ih =>
    intro fuel i hh hf
    obtain ⟨fuel, rfl⟩ := Nat.exists_eq_succ_of_ne_zero (Nat.ne_of_gt (Nat.zero_lt_of_lt hf))
    have hx := hh h List.mem_cons_self
    generalize hrest : lf :: (hs.flatMap headerLine ++ cr :: lf :: t) = rest at ih
    have htext : lf :: ((h :: hs).flatMap headerLine ++ cr :: lf :: t) =
        lf :: h.1 ++ colon :: (sp :: h.2 ++ cr :: rest) := by
      simp [headerLine, ← hrest]
    obtain ⟨cs, s, hcs, hs', hmap, hleft⟩ := ih fuel (i + 2)
      (fun y hy => hh y (List.mem_cons_of_mem _ hy)) (by simpa using hf)
    have hlt : t.length ≤ rest.length := by
      rw [← hrest]
      simp only [List.length_cons, List.length_append]
      omega
    refine ⟨⟨.nhead i .header, h.1, (sp :: h.2 ++ cr :: rest).length⟩ ::
      ⟨.nhead (i + 1) .value, h.2, rest.length⟩ :: cs, s, ?_, hs', ?_, ?_⟩
    · rw [htext, headerTokens_line hx.name (nextToken_value hx.value rest), hcs]
      rfl
    · simp [headStores, hmap]
    · intro c hc
      rcases List.mem_cons.1 hc with rfl | hc
      · simp only [List.length_cons, List.length_append]
        omega
      rcases List.mem_cons.1 hc with rfl | hc
      · exact hlt
      · exact hleft c hc

/-! ## The request -/

/-- A request line with three words. Spaces may stand in front of the method and of the url, and the
version takes in whatever follows the space behind the url. -/
structure RequestLine (line m u v : Bytes) : Prop where
  split : ∃ lead gap, (∀ b ∈ lead, isSp b = true) ∧ (∀ b ∈ gap, isSp b = true) ∧
    line = lead ++ (m ++ sp :: (gap ++ (u ++ sp :: v)))
  method_ne : m ≠ []
  method : ∀ b ∈ m, isSp b = false
  url_ne : u ≠ []
  url : ∀ b ∈ u, isSp b = false
  version_ne : v ≠ []
  avoids : Avoids [cr, lf, 0] line

/-- The three words are cut off, and the header loop starts behind the CR of the line. -/
theorem analasyTokens_line {line m u v r : Bytes} (h : RequestLine line m u v)
    (hstr : strstr (line ++ cr :: r) (crlf ++ crlf) = true) :
    ∃ n₁ n₂, r.length ≤ n₂ ∧ n₂ ≤ n₁ ∧
      analasyTokens (line ++ cr :: r) =
        ⟨⟨.method, m, n₁⟩ :: ⟨.url, u, n₂⟩ :: ⟨.version, v, r.length⟩ ::
            (headerTokens ((line ++ cr :: r).length + 1) r 0).1,
          finish m u v ((headerTokens ((line ++ cr :: r).length + 1) r 0).1.map
              fun c => (c.dest, c.text))
            (headerTokens ((line ++ cr :: r).length + 1) r 0).2⟩ := by
  obtain ⟨lead, gap, hlead, hgap, hline⟩ := h.split
  have hv : ∀ b ∈ v, isEol b = false := by
    refine @Avoids.isEol [cr, lf, 0] v (fun b hb => h.avoids b ?_) (by simp) (by simp)
    rw [hline]
    simp [hb]
  generalize hr₂ : v ++ cr :: r = r₂
  generalize hr₁ : gap ++ (u ++ sp :: r₂) = r₁
  have htext : line ++ cr :: r = lead ++ (m ++ sp :: r₁) := by
    rw [hline, ← hr₁, ← hr₂]
    simp
  have hn₁ : nextToken isSp (lead ++ (m ++ sp :: r₁)) = some (m, r₁) :=
    nextToken_cut hlead h.method_ne h.method rfl
  have hn₂ : nextToken isSp r₁ = some (u, r₂) := by
    rw [← hr₁]
    exact nextToken_cut hgap h.url_ne h.url rfl
  have hn₃ : nextToken isEol r₂ = some (v, r) := by
    rw [← hr₂]
    exact nextToken_cut_nil h.version_ne hv rfl
  refine ⟨r₁.length, r₂.length, ?_, ?_, ?_⟩
  · rw [← hr₂, List.length_append, List.length_cons]
    omega
  · rw [← hr₁]
    simp only [List.length_append, List.length_cons]
    omega
  · rw [htext] at hstr ⊢
    unfold analasyTokens
    rw [if_neg (by simp [hstr])]
    simp only [hn₁, hn₂, hn₃]

theorem Canonical.requestLine {m u v : Bytes} {hs : List (Bytes × Bytes)} {t : Bytes}
    (h : Canonical m u v hs t) : RequestLine (m ++ sp :: (u ++ sp :: v)) m u v := by
  refine ⟨⟨[], [], by simp, by simp, rfl⟩, h.method_ne, h.method.isSp (by simp), h.url_ne,
    h.url.isSp (by simp), h.version_ne, ?_⟩
  intro b hb
  rcases List.mem_append.1 hb with hb | hb
  · exact fun hbad => h.method b hb (List.mem_cons_of_mem _ hbad)
  rcases List.mem_cons.1 hb with rfl | hb
  · decide
  rcases List.mem_append.1 hb with hb | hb
  · exact fun hbad => h.url b hb (List.mem_cons_of_mem _ hbad)
  rcases List.mem_cons.1 hb with rfl | hb
  · decide
  · exact h.version b hb

/-- `G / H`. -/
theorem requestLine_sample : RequestLine [71, 32, 47, 32, 72] [71] [47] [72] := by
  have h : Canonical [71] [47] [72] [] [] :=
    ⟨by decide, by decide, by decide, by decide, by decide, by decide, List.forall_mem_nil _,
      nulFree_nil⟩
  exact h.requestLine

/-- The list parser on a request line and canonical header lines. -/
theorem analasyTokens_headers {line m u v : Bytes} (hl : RequestLine line m u v)
    {hs : List (Bytes × Bytes)} (hh : ∀ h ∈ hs, CanonicalHeader h) (t : Bytes) :
    ∃ cs, analasyTokens (line ++ cr :: lf :: (hs.flatMap headerLine ++ cr :: lf :: t)) =
        ⟨cs, .ret (some ⟨m, u, v, headStores 0 hs⟩)⟩ ∧
      (cs.map fun c => (c.dest, c.text)) =
        (.method, m) :: (.url, u) :: (.version, v) :: headStores 0 hs ∧
      ∀ c ∈ cs, t.length ≤ c.left := by
  have hstr := strstr_text line (crlf_suffix_flatMap crlf_suffix_headerLine hs) t
  have hle := length_le_flatMap crlf_suffix_headerLine hs
  generalize hr : lf :: (hs.flatMap headerLine ++ cr :: lf :: t) = r at hstr ⊢
  have hlen : t.length ≤ r.length := by
    rw [← hr]
    simp only [List.length_cons, List.length_append]
    omega
  have hfuel : hs.length < (line ++ cr :: r).length + 1 := by
    rw [← hr]
    simp only [List.length_cons, List.length_append]
    omega
  obtain ⟨cs, s, hcs, hs', hmap, hleft⟩ :=
    headerTokens_canonical (t := t) ((line ++ cr :: r).length + 1) 0 hh hfuel
  obtain ⟨n₁, n₂, hn₂, hn₁, hout⟩ := analasyTokens_line hl hstr
  rw [hr] at hcs
  simp only [hcs, hmap, finish, strncmpEq_crlf_one s hs', if_true] at hout
  refine ⟨_, hout, by simp only [List.map_cons, hmap], ?_⟩
  intro c hc
  simp only [List.mem_cons] at hc
  rcases hc with rfl | rfl | rfl | hc
  · exact hlen.trans (hn₂.trans hn₁)
  · exact hlen.trans hn₂
  · exact hlen
  · exact hleft c hc

theorem Analasy.texts_eq (a : Analasy) (sel : Dest → Bool) :
    a.texts sel = ((a.copies.map fun c => (c.dest, c.text)).filter fun c => sel c.1).map (·.2) := by
  rw [Analasy.texts, List.filter_map, List.map_map]
  rfl

/-- **A canonical request is taken apart into its parts.** No NULL token is met; the request holds
the method, the url and the version; the strings copied to header and to value fields are the names
and the values, in order; every copy fits its member and ends in front of the tail. -/
theorem analasy_canonical (m u v : Bytes) (hs : List (Bytes × Bytes)) (t : Bytes)
    (h : Canonical m u v hs t) (hlen : (requestText m u v hs t).length ≤ 4095) :
    ∃ req, (analasy (requestText m u v hs t)).out = .ret (some req) ∧
      req.method = m ∧ req.url = u ∧ req.version = v ∧
      (analasy (requestText m u v hs t)).texts Dest.isHeader = hs.map (·.1) ∧
      (analasy (requestText m u v hs t)).texts Dest.isValue = hs.map (·.2) ∧
      ∀ c ∈ (analasy (requestText m u v hs t)).copies, c.text.length < bufsize ∧
        c.src + c.text.length ≤ (requestText m u v hs t).length - t.length := by
  have hnul := nulFree_text (h.requestLine.avoids.not (by simp)) (nulFree_headers h.headers) h.tail
  obtain ⟨cs, hret, hmap, hleft⟩ := analasyTokens_headers h.requestLine h.headers t
  obtain ⟨hcut, hout⟩ := analasy_refines hnul
  rw [← requestText_eq] at hret hcut hout
  rw [hret] at hcut hout
  have hcopies := (Cut.map_eq hcut).trans hmap
  refine ⟨_, hout, rfl, rfl, rfl, ?_, ?_, ?_⟩
  · rw [Analasy.texts_eq, hcopies]
    exact headStores_header hs 0
  · rw [Analasy.texts_eq, hcopies]
    exact headStores_value hs 0
  · intro c hc
    obtain ⟨l, hl, hr⟩ := Cut.exists_of_mem hcut hc
    have := hr.range
    have := hleft l hl
    unfold bufsize
    omega

/-- `GET /a H CRLF Host: x CRLF CRLF b:c`. -/
theorem analasy_canonical_get :
    Canonical [71, 69, 84] [47, 97] [72] [([72, 111, 115, 116], [120])] [98, 58, 99] ∧
      ∃ req, (analasy (requestText [71, 69, 84] [47, 97] [72] [([72, 111, 115, 116], [120])]
        [98, 58, 99])).out = .ret (some req) ∧ req.method = [71, 69, 84] := by
  have h : Canonical [71, 69, 84] [47, 97] [72] [([72, 111, 115, 116], [120])] [98, 58, 99] := by
    refine ⟨by decide, by decide, by decide, by decide, by decide,
      by decide, ?_, by decide⟩
    intro x hx
    rw [List.mem_singleton.1 hx]
    exact ⟨by decide, by decide, by decide⟩
  obtain ⟨req, hout, hm, -⟩ := analasy_canonical _ _ _ _ _ h (by decide)
  exact ⟨h, req, hout, hm⟩

end HttpCallback
