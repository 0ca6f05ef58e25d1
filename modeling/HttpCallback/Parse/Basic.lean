import Mathlib.Data.List.Forall2
import HttpCallback.Lib.CString

/-!
# The request parser

`analasy` as the source runs it: `strtok` over the block that holds the received text, with the
delimiter set changing from call to call, and one `strcpy` per token. The model returns the copies
made, each with the index it starts at, and how the call ends: a dereferenced NULL token ends it as
a crash would, with the copies made so far.

`analasyTokens` is the same parse over lists (`nextToken` in place of `strtok`), and
`analasy_refines` relates the two.
-/

namespace HttpCallback

open CString

/-! ## Data of the parser -/

/-- `BUFSIZE`, as the parser's header redefines it. -/
def bufsize : Nat := 4096

def sp : UInt8 := 32
def cr : UInt8 := 13
def lf : UInt8 := 10
def colon : UInt8 := 58

def crlf : Bytes := [cr, lf]

theorem cr_ne_zero : cr ≠ 0 := by decide

theorem lf_ne_zero : lf ≠ 0 := by decide

-- the delimiter sets " ", ":" and "\r\n"
def isSp (b : UInt8) : Bool := b == sp

def isColon (b : UInt8) : Bool := b == colon

def isEol (b : UInt8) : Bool := b == cr || b == lf

inductive Field
  | header
  | value
  deriving Repr, DecidableEq

/-- A member of `http_request` that `analasy` copies to; `nhead` is an array of `newhead`. -/
inductive Dest
  | method
  | url
  | version
  | nhead (i : Nat) (f : Field)
  deriving Repr, DecidableEq

/-- One `strcpy`: the member written, the index in the parsed block it reads from, the string. -/
structure Copy where
  dest : Dest
  src : Nat
  text : Bytes
  deriving Repr, DecidableEq

/-- The request object. `nhead` lists the stores to the array, in order. -/
structure HttpRequest where
  method : Bytes
  url : Bytes
  version : Bytes
  nhead : List (Dest × Bytes)
  deriving Repr, DecidableEq

/-- How a call of `analasy` ends: it returns a request or NULL, or it copies from or compares at a
NULL `strtok` result. -/
inductive Outcome
  | ret (req : Option HttpRequest)
  | nullToken
  | outOfFuel
  deriving Repr, DecidableEq

/-- How the header loop ends; `stop` is the `break`, with the string at `p + 1`. -/
inductive LoopOut
  | stop (s : Bytes)
  | nullToken
  | outOfFuel
  deriving Repr, DecidableEq

/-- A call of `analasy`: the copies it makes, in order, and its end. -/
structure Analasy where
  copies : List Copy
  out : Outcome
  deriving Repr, DecidableEq

/-- The strings copied to the members that `sel` selects. -/
def Analasy.texts (a : Analasy) (sel : Dest → Bool) : List Bytes :=
  (a.copies.filter fun c => sel c.dest).map (·.text)

def Dest.isHeader : Dest → Bool
  | .nhead _ .header => true
  | _ => false

def Dest.isValue : Dest → Bool
  | .nhead _ .value => true
  | _ => false

@[simp] theorem Dest.isHeader_header (i : Nat) : (Dest.nhead i .header).isHeader = true := rfl
@[simp] theorem Dest.isHeader_value (i : Nat) : (Dest.nhead i .value).isHeader = false := rfl
@[simp] theorem Dest.isValue_header (i : Nat) : (Dest.nhead i .header).isValue = false := rfl
@[simp] theorem Dest.isValue_value (i : Nat) : (Dest.nhead i .value).isValue = true := rfl

theorem strncmpEq_crlf_two (s : Bytes) : strncmpEq s crlf 2 = true ↔ crlf <+: s := by
  rcases s with - | ⟨a, - | ⟨b, r⟩⟩
  · decide
  · simp [strncmpEq, crlf, lf]
  · simp only [strncmpEq, crlf, List.cons_append, List.take_succ_cons, List.take_zero,
      List.nil_append, beq_iff_eq, List.cons.injEq, and_true, List.cons_prefix_cons,
      List.nil_prefix]
    rw [eq_comm, @eq_comm _ b]

theorem strncmpEq_crlf_one (s : Bytes) (h : crlf <+: s) : strncmpEq s crlf 1 = true := by
  obtain ⟨t, rfl⟩ := h
  rfl

/-- The token in front of a blank line: a byte, the CRLF, and what comes up to the next colon. -/
theorem nextToken_blank {lead : Bytes} {c : UInt8} (hl : ∀ b ∈ lead, isColon b = true)
    (hc : isColon c = false) (t : Bytes) :
    nextToken isColon (lead ++ c :: (crlf ++ t)) =
      some (c :: (crlf ++ t.takeWhile (!isColon ·)), (t.dropWhile (!isColon ·)).tail) := by
  have hcr : isColon cr = false := rfl
  have hlf : isColon lf = false := rfl
  unfold nextToken
  rw [List.dropWhile_append_of_pos hl, List.dropWhile_cons_of_neg (by simp [hc])]
  simp [hc, hcr, hlf, crlf]

/-! ## The parser over memory -/

/-- The `while(1)` over the header lines. `i` is the slot index, incremented by each of the two
copies. -/
def headerLoop : Nat → Tok → Nat → List Copy × LoopOut
  | 0, _, _ => ([], .outOfFuel)
  | fuel + 1, t, i =>
    match strtok isColon t with
    | (none, _) => ([], .nullToken)
    | (some p, t) =>
      if strncmpEq (cstrAt t.mem (p + 1)) crlf 2 then ([], .stop (cstrAt t.mem (p + 1)))
      else
        let c₁ : Copy := ⟨.nhead i .header, p + 1, cstrAt t.mem (p + 1)⟩
        match strtok isEol t with
        | (none, _) => ([c₁], .nullToken)
        | (some p, t) =>
          let c₂ : Copy := ⟨.nhead (i + 1) .value, p + 1, cstrAt t.mem (p + 1)⟩
          let out := headerLoop fuel t (i + 2)
          (c₁ :: c₂ :: out.1, out.2)

/-- The end of `analasy`: the test of one byte at `p + 1` behind the loop. -/
def finish (method url version : Bytes) (nhead : List (Dest × Bytes)) : LoopOut → Outcome
  | .stop s => .ret (if strncmpEq s crlf 1 then some ⟨method, url, version, nhead⟩ else none)
  | .nullToken => .nullToken
  | .outOfFuel => .outOfFuel

/-- `analasy` on a block that holds the string `buf`. Each round of the header loop consumes a byte,
so the length of the block is fuel enough (`analasy_fuel`). -/
def analasy (buf : Bytes) : Analasy :=
  if strstr buf (crlf ++ crlf) = false then ⟨[], .ret none⟩
  else
    match strtok isSp ⟨buf ++ [0], 0⟩ with
    | (none, _) => ⟨[], .nullToken⟩
    | (some p, t) =>
      let c₁ : Copy := ⟨.method, p, cstrAt t.mem p⟩
      match strtok isSp t with
      | (none, _) => ⟨[c₁], .nullToken⟩
      | (some p, t) =>
        let c₂ : Copy := ⟨.url, p, cstrAt t.mem p⟩
        match strtok isEol t with
        | (none, _) => ⟨[c₁, c₂], .nullToken⟩
        | (some p, t) =>
          let c₃ : Copy := ⟨.version, p, cstrAt t.mem p⟩
          let out := headerLoop (buf.length + 1) t 0
          ⟨c₁ :: c₂ :: c₃ :: out.1,
            finish c₁.text c₂.text c₃.text (out.1.map fun c => (c.dest, c.text)) out.2⟩

/-- Without a blank line nothing is parsed. -/
theorem analasy_no_blank {s : Bytes} (h : ¬crlf ++ crlf <:+: s) : (analasy s).out = .ret none := by
  rw [← strstr_iff] at h
  unfold analasy
  rw [if_pos (Bool.eq_false_iff.2 h)]

/-! ## The parser over lists -/

/-- A copy of the list parser, with the number of bytes that its token leaves to be parsed. -/
structure Taken where
  dest : Dest
  text : Bytes
  left : Nat
  deriving Repr, DecidableEq

structure AnalasyTokens where
  copies : List Taken
  out : Outcome
  deriving Repr, DecidableEq

def headerTokens : Nat → Bytes → Nat → List Taken × LoopOut
  | 0, _, _ => ([], .outOfFuel)
  | fuel + 1, r, i =>
    match nextToken isColon r with
    | none => ([], .nullToken)
    | some (name, r) =>
      if strncmpEq name.tail crlf 2 then ([], .stop name.tail)
      else
        let c₁ : Taken := ⟨.nhead i .header, name.tail, r.length⟩
        match nextToken isEol r with
        | none => ([c₁], .nullToken)
        | some (val, r) =>
          let c₂ : Taken := ⟨.nhead (i + 1) .value, val.tail, r.length⟩
          let out := headerTokens fuel r (i + 2)
          (c₁ :: c₂ :: out.1, out.2)

def analasyTokens (buf : Bytes) : AnalasyTokens :=
  if strstr buf (crlf ++ crlf) = false then ⟨[], .ret none⟩
  else
    match nextToken isSp buf with
    | none => ⟨[], .nullToken⟩
    | some (m, r) =>
      let c₁ : Taken := ⟨.method, m, r.length⟩
      match nextToken isSp r with
      | none => ⟨[c₁], .nullToken⟩
      | some (u, r) =>
        let c₂ : Taken := ⟨.url, u, r.length⟩
        match nextToken isEol r with
        | none => ⟨[c₁, c₂], .nullToken⟩
        | some (v, r) =>
          let c₃ : Taken := ⟨.version, v, r.length⟩
          let out := headerTokens (buf.length + 1) r 0
          ⟨c₁ :: c₂ :: c₃ :: out.1,
            finish m u v (out.1.map fun c => (c.dest, c.text)) out.2⟩

/-! ## The memory parser computes the list parser -/

/-- A copy out of a block of `n` bytes, seen from the list parser: the same member and string, read
in front of what the token leaves. -/
structure Cut (n : Nat) (c : Copy) (l : Taken) : Prop where
  dest : c.dest = l.dest
  text : c.text = l.text
  range : c.src + c.text.length + l.left ≤ n

theorem Cut.map_eq {n : Nat} {cs : List Copy} {ls : List Taken} (h : List.Forall₂ (Cut n) cs ls) :
    (cs.map fun c => (c.dest, c.text)) = ls.map fun l => (l.dest, l.text) := by
  induction h with
  | nil => rfl
  | cons hc _ ih => simp only [List.map_cons, hc.dest, hc.text, ih]

theorem Cut.exists_of_mem {n : Nat} {cs : List Copy} {ls : List Taken}
    (h : List.Forall₂ (Cut n) cs ls) {c : Copy} (hc : c ∈ cs) : ∃ l ∈ ls, Cut n c l := by
  induction h with
  | nil => cases hc
  | cons hcut _ ih =>
    rcases List.mem_cons.1 hc with rfl | hc
    · exact ⟨_, List.mem_cons_self, hcut⟩
    · obtain ⟨l, hl, hcl⟩ := ih hc
      exact ⟨l, List.mem_cons_of_mem _ hl, hcl⟩

theorem cstrAt_succ {m tok : Bytes} {p : Nat} (h : cstrAt m p = tok) (hne : tok ≠ []) :
    cstrAt m (p + 1) = tok.tail := by
  obtain ⟨c, cs, rfl⟩ := List.exists_cons_of_ne_nil hne
  unfold cstrAt cstr at h ⊢
  rw [← List.drop_drop]
  cases hd : m.drop p with
  | nil => rw [hd] at h; cases h
  | cons b r =>
    rw [hd, List.takeWhile_cons] at h
    split at h
    · cases h
      rfl
    · cases h

theorem nextToken_ne_nil {r tok rest : Bytes} {d : UInt8 → Bool}
    (h : nextToken d r = some (tok, rest)) : tok ≠ [] := by
  obtain ⟨-, -, hne, -⟩ := nextToken_some h
  exact hne

/-- The save pointer stands in front of `r`, the rest of the input `s`. -/
structure Standing (s : Bytes) (t : Tok) (r : Bytes) : Prop where
  pending : Pending t r
  length : t.mem.length = s.length + 1
  suffix : r <:+ s

/-- The token at index `p`, in front of the save pointer: what the block holds there is what the
input held. -/
structure TokenAt (s : Bytes) (t : Tok) (p : Nat) (tok : Bytes) : Prop where
  ne : tok ≠ []
  stored : cstrAt t.mem p = tok
  input : tok <+: s.drop p
  save : p + tok.length ≤ t.save

section Standing

variable {s r tok rest : Bytes} {t : Tok} {d : UInt8 → Bool}

theorem Standing.start (h : NulFree s) : Standing s ⟨s ++ [0], 0⟩ s :=
  ⟨.start h, List.length_append, List.suffix_rfl⟩

/-- The rest is what the input holds from the save pointer on. -/
theorem Standing.drop (h : Standing s t r) : s.drop t.save = r := by
  obtain ⟨lead, rfl⟩ := h.suffix
  have hlen := h.pending.length
  rw [h.length, List.length_append] at hlen
  exact List.drop_left' (by omega)

/-- A call of `strtok` takes the next token off the rest. -/
theorem Standing.next (h : Standing s t r) (hn : nextToken d r = some (tok, rest)) :
    ∃ p t', strtok d t = (some p, t') ∧ TokenAt s t' p tok ∧ Standing s t' rest := by
  obtain ⟨p, t', hs, hstored, hpending, -, hsave, hlen⟩ := strtok_spec h.pending hn
  have hinput : tok <+: s.drop p := by
    rw [strtok_index h.pending hs, ← List.drop_drop, h.drop]
    exact nextToken_prefix hn
  exact ⟨p, t', hs, ⟨nextToken_ne_nil hn, hstored, hinput, hsave⟩,
    ⟨hpending, hlen.trans h.length, (nextToken_suffix hn).trans h.suffix⟩⟩

end Standing

section Refine

variable {s : Bytes} {t' : Tok} {tok rest : Bytes} {p : Nat}

/-- The whole token, as `method`, `url` and `version` are copied. -/
theorem Cut.token (dst : Dest) (ht : Standing s t' rest) (htok : TokenAt s t' p tok) :
    Cut s.length ⟨dst, p, cstrAt t'.mem p⟩ ⟨dst, tok, rest.length⟩ := by
  have := ht.pending.length
  have := ht.length
  have := htok.save
  exact ⟨rfl, htok.stored, by simp only [htok.stored]; omega⟩

/-- The token behind its first byte, as `header` and `value` are copied. -/
theorem Cut.tail (dst : Dest) (ht : Standing s t' rest) (htok : TokenAt s t' p tok) :
    Cut s.length ⟨dst, p + 1, cstrAt t'.mem (p + 1)⟩ ⟨dst, tok.tail, rest.length⟩ := by
  have := ht.pending.length
  have := ht.length
  have := htok.save
  have := List.length_pos_iff.2 htok.ne
  have htail := cstrAt_succ htok.stored htok.ne
  exact ⟨rfl, htail, by
    simp only [htail, List.length_tail]
    omega⟩

theorem headerLoop_refines (fuel : Nat) : ∀ {t : Tok} {r : Bytes} (i : Nat), Standing s t r →
    List.Forall₂ (Cut s.length) (headerLoop fuel t i).1 (headerTokens fuel r i).1 ∧
      (headerLoop fuel t i).2 = (headerTokens fuel r i).2 := by
  induction fuel with
  | zero => intro t r i _; exact ⟨.nil, rfl⟩
  | succ fuel ih =>
    intro t r i ht
    unfold headerLoop headerTokens
    cases hn : nextToken isColon r with
    | none =>
      obtain ⟨t₁, hs⟩ := strtok_none ht.pending hn
      rw [hs]
      exact ⟨.nil, rfl⟩
    | some nt =>
      obtain ⟨name, r₁⟩ := nt
      obtain ⟨p, t₁, hs, hname, ht₁⟩ := ht.next hn
      have htail : cstrAt t₁.mem (p + 1) = name.tail := cstrAt_succ hname.stored hname.ne
      simp only [hs, htail]
      split
      · exact ⟨.nil, rfl⟩
      · have hcut₁ := Cut.tail (.nhead i .header) ht₁ hname
        rw [htail] at hcut₁
        cases hn₂ : nextToken isEol r₁ with
        | none =>
          obtain ⟨t₂, hs₂⟩ := strtok_none ht₁.pending hn₂
          rw [hs₂]
          exact ⟨.cons hcut₁ .nil, rfl⟩
        | some nt =>
          obtain ⟨val, r₂⟩ := nt
          obtain ⟨p₂, t₂, hs₂, hval, ht₂⟩ := ht₁.next hn₂
          simp only [hs₂]
          obtain ⟨hcs, hout⟩ := ih (i + 2) ht₂
          have hcut₂ := Cut.tail (.nhead (i + 1) .value) ht₂ hval
          exact ⟨.cons hcut₁ (.cons hcut₂ hcs), hout⟩

end Refine

/-- **The parser over memory computes the parser over lists**: the same copies out of the block,
each in front of what its token leaves, and the same end. -/
theorem analasy_refines {s : Bytes} (h : NulFree s) :
    List.Forall₂ (Cut s.length) (analasy s).copies (analasyTokens s).copies ∧
      (analasy s).out = (analasyTokens s).out := by
  have ht := Standing.start h
  unfold analasy analasyTokens
  split
  · exact ⟨.nil, rfl⟩
  revert ht
  generalize (⟨s ++ [0], 0⟩ : Tok) = t
  intro ht
  cases hn : nextToken isSp s with
  | none =>
    obtain ⟨t₁, hs⟩ := strtok_none ht.pending hn
    rw [hs]
    exact ⟨.nil, rfl⟩
  | some nt =>
    obtain ⟨m, r₁⟩ := nt
    obtain ⟨p₁, t₁, hs₁, hm, ht₁⟩ := ht.next hn
    have hcut₁ := Cut.token .method ht₁ hm
    simp only [hs₁]
    cases hn₂ : nextToken isSp r₁ with
    | none =>
      obtain ⟨t₂, hs⟩ := strtok_none ht₁.pending hn₂
      rw [hs]
      exact ⟨.cons hcut₁ .nil, rfl⟩
    | some nt =>
      obtain ⟨u, r₂⟩ := nt
      obtain ⟨p₂, t₂, hs₂, hu, ht₂⟩ := ht₁.next hn₂
      have hcut₂ := Cut.token .url ht₂ hu
      simp only [hs₂]
      cases hn₃ : nextToken isEol r₂ with
      | none =>
        obtain ⟨t₃, hs⟩ := strtok_none ht₂.pending hn₃
        rw [hs]
        exact ⟨.cons hcut₁ (.cons hcut₂ .nil), rfl⟩
      | some nt =>
        obtain ⟨v, r₃⟩ := nt
        obtain ⟨p₃, t₃, hs₃, hv, ht₃⟩ := ht₂.next hn₃
        have hcut₃ := Cut.token .version ht₃ hv
        simp only [hs₃]
        obtain ⟨hcs, hout⟩ := headerLoop_refines (s.length + 1) 0 ht₃
        refine ⟨.cons hcut₁ (.cons hcut₂ (.cons hcut₃ hcs)), ?_⟩
        rw [hout, Cut.map_eq hcs, hm.stored, hu.stored, hv.stored]

/-! ## The method and the url of a request -/

/-- A nonempty string without spaces. -/
structure Word (w : Bytes) : Prop where
  ne : w ≠ []
  noSp : ∀ b ∈ w, isSp b = false
  nulFree : NulFree w

theorem Word.of_nextToken {s w rest : Bytes} (h : NulFree s)
    (hn : nextToken isSp s = some (w, rest)) : Word w ∧ NulFree rest := by
  obtain ⟨lead, -, hne, hw, hr⟩ := nextToken_some hn
  rcases hr with ⟨x, -, rfl⟩ | ⟨rfl, rfl⟩
  · obtain ⟨-, hnul⟩ := nulFree_append.1 h
    obtain ⟨hw0, hrest⟩ := nulFree_append.1 hnul
    exact ⟨⟨hne, hw, hw0⟩, (nulFree_cons.1 hrest).2⟩
  · exact ⟨⟨hne, hw, (nulFree_append.1 h).2⟩, nulFree_nil⟩

theorem finish_some {m u v : Bytes} {nh : List (Dest × Bytes)} {out : LoopOut} {req : HttpRequest}
    (h : finish m u v nh out = .ret (some req)) : req = ⟨m, u, v, nh⟩ := by
  unfold finish at h
  split at h
  · split at h
    · cases h
      rfl
    · cases h
  · cases h
  · cases h

/-- The method and the url of every request that the parser returns are words. -/
theorem analasy_words {s : Bytes} {req : HttpRequest} (h : NulFree s)
    (hret : (analasy s).out = .ret (some req)) : Word req.method ∧ Word req.url := by
  rw [(analasy_refines h).2] at hret
  unfold analasyTokens at hret
  split at hret
  · cases hret
  cases hn : nextToken isSp s with
  | none => rw [hn] at hret; cases hret
  | some nt =>
    obtain ⟨m, r₁⟩ := nt
    obtain ⟨hm, hr₁⟩ := Word.of_nextToken h hn
    rw [hn] at hret
    simp only at hret
    cases hn₂ : nextToken isSp r₁ with
    | none => rw [hn₂] at hret; cases hret
    | some nt =>
      obtain ⟨u, r₂⟩ := nt
      obtain ⟨hu, -⟩ := Word.of_nextToken hr₁ hn₂
      rw [hn₂] at hret
      simp only at hret
      cases hn₃ : nextToken isEol r₂ with
      | none => rw [hn₃] at hret; cases hret
      | some nt =>
        rw [hn₃] at hret
        rw [finish_some hret]
        exact ⟨hm, hu⟩

end HttpCallback
