import HttpCallback.Parse.Basic

/-!
# The configuration file

`file_param` takes an address and a port from every line of the file and keeps the last. Of the two
spans that it skips, spaces and then markers, the second overwrites the first: the token starts
behind as many bytes as there are markers, so a line that begins with spaces leaves something of
both in front of the address. A blank line has no second token, and `strcpy` is called with NULL.
-/

namespace HttpCallback

open CString

/-- `BUFSIZE`, as the header of `file_param` defines it. -/
def confBufsize : Nat := 1024

def marker : UInt8 := 64

/-- The delimiter set "@". -/
def isMarker (b : UInt8) : Bool := b == marker

/-- The strings that the calls of `fgets` store: each ends behind an LF, or when `n - 1` bytes are
stored; `info` is what the call under way has stored. -/
def fgetsAll (n : Nat) (info : Bytes) : Bytes → List Bytes
  | [] => if info = [] then [] else [info]
  | b :: file =>
    if b = lf ∨ info.length + 1 = n - 1 then (info ++ [b]) :: fgetsAll n [] file
    else fgetsAll n (info ++ [b]) file

/-- The body of the loop: the strings copied to `ip` and `port`, none when one of the tokens is
NULL. -/
def endpointOf (info : Bytes) : Option (Bytes × Bytes) :=
  let mem := info ++ [0]
  let pos := strspn mem 0 isSp
  let pos := strspn mem pos isMarker
  match strtok isColon ⟨mem, pos⟩ with
  | (none, _) => none
  | (some p, t) =>
    match strtok isMarker t with
    | (none, _) => none
    | (some q, t') => some (cstrAt t.mem p, cstrAt t'.mem q)

/-- The loop of `file_param`, with what the `sock_pair` holds. -/
def fileParamLoop : List Bytes → Bytes × Bytes → Option (Bytes × Bytes)
  | [], pair => some pair
  | info :: infos, _ => (endpointOf info).bind (fileParamLoop infos)

/-- `file_param`, with the file opened. -/
def fileParam (file : Bytes) (pair : Bytes × Bytes) : Option (Bytes × Bytes) :=
  fileParamLoop (fgetsAll confBufsize [] file) pair

/-! ## The lines of a file -/

/-- A line with an endpoint. -/
structure Endpoint where
  spaces : Nat
  markers : Nat
  ip : Bytes
  port : Bytes
  markers_pos : 0 < markers
  ip_ne : ip ≠ []
  ip_plain : ∀ b ∈ ip, b ≠ colon ∧ b ≠ marker ∧ b ≠ lf ∧ b ≠ 0
  port_ne : port ≠ []
  port_plain : ∀ b ∈ port, b ≠ marker ∧ b ≠ lf ∧ b ≠ 0

/-- What stands in front of the address. -/
def Endpoint.lead (e : Endpoint) : Bytes :=
  List.replicate e.spaces sp ++ List.replicate e.markers marker

/-- The line without its LF. -/
def Endpoint.line (e : Endpoint) : Bytes := e.lead ++ (e.ip ++ colon :: (e.port ++ [marker]))

/-- What the offset leaves in front of the address. -/
def Endpoint.stray (e : Endpoint) : Bytes := e.lead.drop e.markers

/-- A line of the file; a blank one may hold spaces. -/
inductive ConfLine
  | blank (spaces : Nat)
  | endpoint (e : Endpoint)

namespace ConfLine

def line : ConfLine → Bytes
  | .blank spaces => List.replicate spaces sp
  | .endpoint e => e.line

def text (l : ConfLine) : Bytes := l.line ++ [lf]

def endpoint? : ConfLine → Option Endpoint
  | .blank _ => none
  | .endpoint e => some e

end ConfLine

def confText (lines : List ConfLine) : Bytes := lines.flatMap ConfLine.text

def lastEndpoint (lines : List ConfLine) : Option Endpoint :=
  (lines.filterMap ConfLine.endpoint?).getLast?

section Lines

variable {l file : Bytes} {n : Nat}

/-- A line that fits is read by one call. -/
theorem fgetsAll_line (hl : lf ∉ l) (hlen : l.length + 1 < n) :
    fgetsAll n [] (l ++ lf :: file) = (l ++ [lf]) :: fgetsAll n [] file := by
  have hrest : ∀ info : Bytes, info.length + l.length + 1 < n →
      fgetsAll n info (l ++ lf :: file) = (info ++ (l ++ [lf])) :: fgetsAll n [] file := by
    clear hlen
    induction l with
    | nil =>
      intro info _
      exact if_pos (Or.inl rfl)
    | cons b l ih =>
      intro info hlen
      rw [List.length_cons] at hlen
      have hb : ¬(b = lf ∨ info.length + 1 = n - 1) := by
        rintro (rfl | hfull)
        · exact hl List.mem_cons_self
        · omega
      rw [List.cons_append, fgetsAll, if_neg hb,
        ih (fun h => hl (List.mem_cons_of_mem b h)) _ (by simp; omega), List.append_assoc]
      rfl
  rw [hrest [] (by simpa using hlen), List.nil_append]

theorem Endpoint.mem_line (e : Endpoint) : ∀ b ∈ e.line, b ≠ lf ∧ b ≠ 0 := by
  have hmarker : marker ≠ lf ∧ marker ≠ 0 := ⟨by decide, by decide⟩
  rw [line, lead]
  refine List.forall_mem_append.2 ⟨?_, ?_⟩
  · refine List.forall_mem_append.2 ⟨?_, ?_⟩
    · exact List.forall_mem_replicate.2 (Or.inr ⟨by decide, by decide⟩)
    · exact List.forall_mem_replicate.2 (Or.inr hmarker)
  refine List.forall_mem_append.2 ⟨?_, ?_⟩
  · exact fun b hb => (e.ip_plain b hb).2.2
  refine List.forall_mem_cons.2 ⟨?_, ?_⟩
  · exact ⟨by decide, by decide⟩
  refine List.forall_mem_append.2 ⟨?_, ?_⟩
  · exact fun b hb => (e.port_plain b hb).2
  · exact List.forall_mem_singleton.2 hmarker

theorem ConfLine.mem_line (l : ConfLine) : ∀ b ∈ l.line, b ≠ lf ∧ b ≠ 0 := by
  cases l with
  | blank spaces => exact List.forall_mem_replicate.2 (Or.inr ⟨by decide, by decide⟩)
  | endpoint e => exact e.mem_line

theorem ConfLine.nulFree_text (l : ConfLine) : NulFree l.text := by
  refine nulFree_append.2 ⟨fun h => (l.mem_line 0 h).2 rfl, ?_⟩
  exact nulFree_cons.2 ⟨lf_ne_zero, nulFree_nil⟩

/-- The calls of `fgets` read line by line. -/
theorem fgetsAll_confText {lines : List ConfLine}
    (h : ∀ l ∈ lines, l.text.length < confBufsize) :
    fgetsAll confBufsize [] (confText lines) = lines.map ConfLine.text := by
  induction lines with
  | nil => rfl
  | cons l lines ih =>
    obtain ⟨hl, hlines⟩ := List.forall_mem_cons.1 h
    rw [ConfLine.text, List.length_append, List.length_singleton] at hl
    rw [confText, List.flatMap_cons, ← confText, ConfLine.text, List.append_assoc,
      List.singleton_append, fgetsAll_line (fun hlf => (l.mem_line lf hlf).1 rfl) hl, ih hlines]
    rfl

/-- The offset into the line: the markers are counted behind the spaces, and then from the start. -/
theorem offset_eq (spaces markers : Nat) {s : Bytes}
    (hs : NulFree (List.replicate spaces sp ++ (List.replicate markers marker ++ s)))
    (hsp : markers = 0 → ∀ x r, s = x :: r → isSp x = false)
    (hmarker : ∀ x r, s = x :: r → isMarker x = false) :
    let mem := List.replicate spaces sp ++ (List.replicate markers marker ++ s) ++ [0]
    strspn mem (strspn mem 0 isSp) isMarker = markers := by
  intro mem
  have hfirst : strspn mem 0 isSp = spaces := by
    refine strspn_replicate (cstr_append_nul hs) rfl fun x r hx => ?_
    cases markers with
    | zero => exact hsp rfl x r hx
    | succ m =>
      cases hx
      rfl
  have hbehind : cstrAt mem spaces = List.replicate markers marker ++ s := by
    have hdrop : mem.drop spaces = List.replicate markers marker ++ s ++ [0] := by
      simp only [mem, List.append_assoc]
      exact List.drop_left' List.length_replicate
    rw [cstrAt, hdrop, cstr_append_nul (nulFree_append.1 hs).2]
  rw [hfirst]
  exact strspn_replicate hbehind rfl hmarker

/-- The body of the loop in terms of tokens. -/
theorem endpointOf_eq {info : Bytes} {pos : Nat} (hs : NulFree info) (hpos : pos ≤ info.length)
    (h : strspn (info ++ [0]) (strspn (info ++ [0]) 0 isSp) isMarker = pos) :
    endpointOf info = (nextToken isColon (info.drop pos)).bind fun ip =>
      (nextToken isMarker ip.2).map fun port => (ip.1, port.1) := by
  have hpending : Pending ⟨info ++ [0], pos⟩ (info.drop pos) :=
    ⟨List.drop_append_of_le_length hpos, hs.sublist (List.drop_sublist _ _)⟩
  unfold endpointOf
  simp only [h]
  cases hip : nextToken isColon (info.drop pos) with
  | none =>
    obtain ⟨t, hnull⟩ := strtok_none hpending hip
    rw [hnull]
    rfl
  | some ip =>
    obtain ⟨p, t, hstrtok, hcopy, hrest, -⟩ := strtok_spec hpending hip
    rw [hstrtok]
    simp only [Option.bind_some]
    cases hport : nextToken isMarker ip.2 with
    | none =>
      obtain ⟨t', hnull⟩ := strtok_none hrest hport
      rw [hnull]
      rfl
    | some port =>
      obtain ⟨q, t', hstrtok', hcopy', -⟩ := strtok_spec hrest hport
      rw [hstrtok', hcopy]
      simp only [hcopy']
      rfl

/-- A blank line: the whole of it is the first token, and there is no second. -/
theorem endpointOf_blank (spaces : Nat) : endpointOf (ConfLine.blank spaces).text = none := by
  have hs := (ConfLine.blank spaces).nulFree_text
  have hne : (ConfLine.blank spaces).text ≠ [] :=
    List.append_ne_nil_of_right_ne_nil _ (List.cons_ne_nil _ _)
  have hplain : ∀ b ∈ (ConfLine.blank spaces).text, isColon b = false := by
    refine List.forall_mem_append.2 ⟨?_, ?_⟩
    · exact List.forall_mem_replicate.2 (Or.inr rfl)
    · exact List.forall_mem_singleton.2 rfl
  have hoffset := offset_eq spaces 0 (s := [lf]) hs
    (fun _ x r hx => by cases hx; rfl) (fun x r hx => by cases hx; rfl)
  have hnone : nextToken isMarker ([] : Bytes) = none := rfl
  rw [endpointOf_eq hs (Nat.zero_le _) hoffset, List.drop_zero, nextToken_whole hne hplain,
    Option.bind_some, hnone, Option.map_none]

theorem Endpoint.length_stray (e : Endpoint) : e.stray.length = e.spaces := by
  simp [stray, lead]

/-- Nothing is left over exactly when the line begins with no space. -/
theorem Endpoint.stray_eq_nil (e : Endpoint) : e.stray = [] ↔ e.spaces = 0 := by
  rw [← List.length_eq_zero_iff, e.length_stray]

theorem Endpoint.mem_stray (e : Endpoint) : ∀ b ∈ e.stray, isColon b = false := by
  have hlead : ∀ b ∈ e.lead, isColon b = false := by
    refine List.forall_mem_append.2 ⟨?_, ?_⟩
    · exact List.forall_mem_replicate.2 (Or.inr rfl)
    · exact List.forall_mem_replicate.2 (Or.inr rfl)
  exact fun b hb => hlead b (List.mem_of_mem_drop hb)

/-- A line with an endpoint: the offset passes as many bytes as there are markers. -/
theorem endpointOf_endpoint (e : Endpoint) :
    endpointOf (ConfLine.endpoint e).text = some (e.stray ++ e.ip, e.port) := by
  have hs := (ConfLine.endpoint e).nulFree_text
  have htext : (ConfLine.endpoint e).text =
      e.lead ++ (e.ip ++ colon :: (e.port ++ [marker, lf])) := by
    simp [ConfLine.text, ConfLine.line, Endpoint.line]
  have hpos : e.markers ≤ e.lead.length := by simp [Endpoint.lead]
  have hhead : ∀ x r, e.ip ++ colon :: (e.port ++ [marker, lf]) = x :: r → x ∈ e.ip := by
    intro x r hx
    obtain ⟨c, cs, hip⟩ := List.exists_cons_of_ne_nil e.ip_ne
    rw [hip] at hx ⊢
    cases hx
    exact List.mem_cons_self
  rw [htext] at hs ⊢
  have hdrop : (e.lead ++ (e.ip ++ colon :: (e.port ++ [marker, lf]))).drop e.markers =
      e.stray ++ e.ip ++ colon :: (e.port ++ marker :: [lf]) := by
    rw [List.drop_append_of_le_length hpos, List.append_assoc]
    rfl
  have hoffset : strspn (e.lead ++ (e.ip ++ colon :: (e.port ++ [marker, lf])) ++ [0])
      (strspn (e.lead ++ (e.ip ++ colon :: (e.port ++ [marker, lf])) ++ [0]) 0 isSp) isMarker =
        e.markers := by
    rw [Endpoint.lead, List.append_assoc (List.replicate e.spaces sp)] at hs ⊢
    refine offset_eq _ _ hs (fun h => absurd h e.markers_pos.ne') fun x r hx => ?_
    exact beq_false_of_ne (e.ip_plain x (hhead x r hx)).2.1
  have hip : ∀ b ∈ e.stray ++ e.ip, isColon b = false := by
    refine List.forall_mem_append.2 ⟨?_, ?_⟩
    · exact e.mem_stray
    · exact fun b hb => beq_false_of_ne (e.ip_plain b hb).1
  have hport : ∀ b ∈ e.port, isMarker b = false := fun b hb =>
    beq_false_of_ne (e.port_plain b hb).1
  rw [endpointOf_eq hs (by simp; omega) hoffset, hdrop,
    nextToken_cut_nil (List.append_ne_nil_of_right_ne_nil _ e.ip_ne) hip rfl, Option.bind_some,
    nextToken_cut_nil e.port_ne hport rfl, Option.map_some]

end Lines

/-! ## The whole file -/

section File

/-- What the loop copies from a line with an endpoint. -/
def Endpoint.copied (e : Endpoint) : Bytes × Bytes := (e.stray ++ e.ip, e.port)

theorem Endpoint.copied_eq (e : Endpoint) : e.copied = (e.ip, e.port) ↔ e.spaces = 0 := by
  rw [← e.stray_eq_nil, copied, Prod.mk.injEq, List.append_left_eq_self]
  exact and_iff_left rfl

theorem endpointOf_text (l : ConfLine) :
    endpointOf l.text = l.endpoint?.map Endpoint.copied := by
  cases l with
  | blank spaces => exact endpointOf_blank spaces
  | endpoint e => exact endpointOf_endpoint e

/-- The loop goes through when every line has an endpoint; what it leaves is then the last one. -/
theorem fileParamLoop_some {lines : List ConfLine} {pair r : Bytes × Bytes} :
    fileParamLoop (lines.map ConfLine.text) pair = some r ↔
      (∀ l ∈ lines, l.endpoint?.isSome) ∧
        ((lastEndpoint lines).map Endpoint.copied).getD pair = r := by
  induction lines generalizing pair with
  | nil =>
    rw [and_iff_right (List.forall_mem_nil _)]
    exact Option.some_inj
  | cons l lines ih =>
    rw [List.map_cons, fileParamLoop, endpointOf_text, List.forall_mem_cons]
    cases l with
    | blank spaces =>
      constructor
      · intro h
        cases h
      · rintro ⟨⟨hsome, -⟩, -⟩
        cases hsome
    | endpoint e =>
      have hlast : lastEndpoint (.endpoint e :: lines) = some ((lastEndpoint lines).getD e) :=
        List.getLast?_cons
      rw [hlast]
      simp only [ConfLine.endpoint?, Option.map_some, Option.bind_some, ih, Option.isSome_some,
        true_and, Option.getD_some]
      rw [Option.getD_map]

/-- **`file_param` leaves the last endpoint** when the file has no blank line and the line with this
endpoint begins with its marker, and only then. -/
theorem fileParam_last_iff (lines : List ConfLine) (pair : Bytes × Bytes) (e : Endpoint)
    (hshort : ∀ l ∈ lines, l.text.length < confBufsize) (hlast : lastEndpoint lines = some e) :
    fileParam (confText lines) pair = some (e.ip, e.port) ↔
      (∀ l ∈ lines, l.endpoint?.isSome) ∧ e.spaces = 0 := by
  rw [fileParam, fgetsAll_confText hshort, fileParamLoop_some, hlast, Option.map_some,
    Option.getD_some, e.copied_eq]

/-- The endpoint that the documentation shows, behind some spaces. -/
def loopback (spaces : Nat) : Endpoint where
  spaces := spaces
  markers := 1
  ip := [49, 50, 55, 46, 48, 46, 48, 46, 49]
  port := [56, 48, 56, 48]
  markers_pos := Nat.one_pos
  ip_ne := List.cons_ne_nil _ _
  ip_plain := by simp [colon, marker, lf]
  port_ne := List.cons_ne_nil _ _
  port_plain := by simp [marker, lf]

/-- Spaces in front of an endpoint that is not the last. -/
theorem fileParam_last_two :
    fileParam (confText [.endpoint (loopback 2), .endpoint (loopback 0)]) ([], []) =
      some ((loopback 0).ip, (loopback 0).port) :=
  (fileParam_last_iff [.endpoint (loopback 2), .endpoint (loopback 0)] ([], []) (loopback 0)
    (by simp [ConfLine.text, ConfLine.line, Endpoint.line, Endpoint.lead, loopback, confBufsize])
    rfl).2 ⟨by simp [ConfLine.endpoint?], rfl⟩

/-- One space in front of the marker: the marker is left in front of the address. -/
theorem fileParam_stray : ¬∀ (lines : List ConfLine) (pair : Bytes × Bytes) (e : Endpoint),
    (∀ l ∈ lines, l.text.length < confBufsize) → lastEndpoint lines = some e →
      fileParam (confText lines) pair = some (e.ip, e.port) := by
  intro h
  have heq := h [.endpoint (loopback 1)] ([], []) (loopback 1)
    (by simp [ConfLine.text, ConfLine.line, Endpoint.line, Endpoint.lead, loopback, confBufsize])
    rfl
  have hcopied : fileParam (confText [.endpoint (loopback 1)]) ([], []) =
      some (marker :: (loopback 1).ip, (loopback 1).port) := by
    decide
  rw [hcopied] at heq
  cases heq

end File

end HttpCallback
