import HttpCallback.Lib.CString

/-!
# Formats

A format is a text with holes, as `printf` is given one. `print` puts strings into the holes and
`scan` reads them back, each up to the first place where the text behind its hole can begin. It
finds what was printed as long as no string holds the byte that ends its hole (`scan_print`).
`decimal` is a number in a hole, and `records` reads texts that are each ended by the same byte.
-/

namespace Format

/-! ## Texts with holes -/

section Items

variable {α : Type*}

inductive Item (α : Type*)
  | lit (s : List α)
  | hole
  deriving Repr, DecidableEq

def Item.text : Item α → List α
  | .lit s => s
  | .hole => []

/-- The text, with the strings in the holes; a hole without a string stays empty. -/
def print : List (Item α) → List (List α) → List α
  | [], _ => []
  | .lit s :: f, vs => s ++ print f vs
  | .hole :: f, [] => print f []
  | .hole :: f, v :: vs => v ++ print f vs

/-- The byte that ends a hole in front of `f`. -/
def stop : List (Item α) → Option α
  | .lit (b :: _) :: _ => some b
  | _ => none

/-- There is a string for each hole, and it goes up to the end of the hole: to the byte that the
next literal begins with, or to the end of the text. -/
def Fits : List (Item α) → List (List α) → Prop
  | [], vs => vs = []
  | .lit _ :: f, vs => Fits f vs
  | .hole :: _, [] => False
  | .hole :: f, v :: vs => (∀ b ∈ v, stop f ≠ some b) ∧ (stop f = none → f = []) ∧ Fits f vs

variable {f : List (Item α)} {vs : List (List α)} {t : List α}

/-- What is printed behind a hole begins with the byte that ends the hole. -/
theorem print_stop (h : stop f = none → f = []) {b : α} {r : List α} (hp : print f vs = b :: r) :
    stop f = some b := by
  cases f with
  | nil => cases hp
  | cons item f =>
    cases item with
    | hole => cases h rfl
    | lit s =>
      cases s with
      | nil => cases h rfl
      | cons c s =>
        cases hp
        rfl

/-- What is printed comes from the format or from a string. -/
theorem mem_print {b : α} (h : b ∈ print f vs) :
    (∃ item ∈ f, b ∈ item.text) ∨ ∃ v ∈ vs, b ∈ v := by
  induction f generalizing vs with
  | nil => cases h
  | cons item f ih =>
    have hlift : ∀ {ws}, (∀ w ∈ ws, w ∈ vs) → b ∈ print f ws →
        (∃ i ∈ item :: f, b ∈ i.text) ∨ ∃ v ∈ vs, b ∈ v := by
      intro ws hws hb
      rcases ih hb with ⟨i, hi, hbi⟩ | ⟨w, hw, hbw⟩
      · exact Or.inl ⟨i, List.mem_cons_of_mem _ hi, hbi⟩
      · exact Or.inr ⟨w, hws w hw, hbw⟩
    cases item with
    | lit s =>
      rcases List.mem_append.1 h with hs | hrest
      · exact Or.inl ⟨.lit s, List.mem_cons_self, hs⟩
      · exact hlift (fun _ hw => hw) hrest
    | hole =>
      cases vs with
      | nil => exact hlift (fun _ hw => hw) h
      | cons v vs =>
        rcases List.mem_append.1 h with hv | hrest
        · exact Or.inr ⟨v, List.mem_cons_self, hv⟩
        · exact hlift (fun _ hw => List.mem_cons_of_mem v hw) hrest

variable [DecidableEq α]

def scan : List (Item α) → List α → Option (List (List α))
  | [], t => if t = [] then some [] else none
  | .lit s :: f, t => if s <+: t then scan f (t.drop s.length) else none
  | .hole :: f, t =>
    (scan f (t.dropWhile (stop f ≠ some ·))).map (t.takeWhile (stop f ≠ some ·) :: ·)

/-- **What was printed is read back.** -/
theorem scan_print (h : Fits f vs) : scan f (print f vs) = some vs := by
  induction f generalizing vs with
  | nil =>
    cases h
    rfl
  | cons item f ih =>
    cases item with
    | lit s =>
      rw [print, scan, if_pos (List.prefix_append s _), List.drop_left, ih h]
    | hole =>
      cases vs with
      | nil => cases h
      | cons v vs =>
        obtain ⟨hv, hend, hrest⟩ := h
        have hin : ∀ b ∈ v, decide (stop f ≠ some b) = true := fun b hb => decide_eq_true (hv b hb)
        have hout : ∀ b r, print f vs = b :: r → decide (stop f ≠ some b) = false := by
          intro b r hp
          simp [print_stop hend hp]
        rw [print, scan, CString.takeWhile_append_stop hin hout,
          CString.dropWhile_append_stop hin hout, ih hrest]
        rfl

/-! ## Records -/

/-- The texts that are ended by `e`, with `acc` read of the first; none if the last is not ended. -/
def recordsFrom (e : α) : List α → List α → Option (List (List α))
  | acc, [] => if acc = [] then some [] else none
  | acc, b :: t =>
    if b = e then (recordsFrom e [] t).map (acc :: ·) else recordsFrom e (acc ++ [b]) t

def records (e : α) (t : List α) : Option (List (List α)) := recordsFrom e [] t

theorem recordsFrom_append {e : α} {r : List α} (h : e ∉ r) (acc t : List α) :
    recordsFrom e acc (r ++ e :: t) = (recordsFrom e [] t).map ((acc ++ r) :: ·) := by
  induction r generalizing acc with
  | nil => rw [List.nil_append, recordsFrom, if_pos rfl, List.append_nil]
  | cons b r ih =>
    rw [List.mem_cons, not_or] at h
    rw [List.cons_append, recordsFrom, if_neg (Ne.symm h.1), ih h.2, List.append_assoc]
    rfl

theorem records_flatMap {e : α} {rs : List (List α)} (h : ∀ r ∈ rs, e ∉ r) :
    records e (rs.flatMap (· ++ [e])) = some rs := by
  induction rs with
  | nil => rfl
  | cons r rs ih =>
    obtain ⟨hr, hrest⟩ := List.forall_mem_cons.1 h
    rw [records] at ih ⊢
    rw [List.flatMap_cons, List.append_assoc, List.singleton_append, recordsFrom_append hr,
      ih hrest]
    rfl

end Items

/-! ## Numbers -/

/-- `%d` of a number that is not negative. -/
def decimal (n : Nat) : List UInt8 := (Nat.toDigits 10 n).map fun c => UInt8.ofNat c.toNat

def isDigit (b : UInt8) : Bool := 48 ≤ b && b ≤ 57

def readDecimal (s : List UInt8) : Option Nat :=
  if !s.isEmpty && s.all isDigit then some (s.foldl (fun n b => 10 * n + (b.toNat - 48)) 0)
  else none

theorem char_range {c : Char} (h : c.isDigit = true) : 48 ≤ c.toNat ∧ c.toNat ≤ 57 := by
  rw [Char.isDigit, Bool.and_eq_true, decide_eq_true_iff, decide_eq_true_iff] at h
  exact ⟨UInt32.le_iff_toNat_le.1 h.1, UInt32.le_iff_toNat_le.1 h.2⟩

theorem toNat_ofNat_char {c : Char} (h : c.isDigit = true) :
    (UInt8.ofNat c.toNat).toNat = c.toNat := by
  have hrange := char_range h
  rw [UInt8.toNat_ofNat', Nat.mod_eq_of_lt (by omega)]

theorem isDigit_of_mem_decimal {n : Nat} {b : UInt8} (h : b ∈ decimal n) : isDigit b = true := by
  obtain ⟨c, hc, rfl⟩ := List.mem_map.1 h
  have hdigit := Nat.isDigit_of_mem_toDigits (by decide) (by decide) hc
  have hrange := char_range hdigit
  rw [isDigit, Bool.and_eq_true, decide_eq_true_iff, decide_eq_true_iff, UInt8.le_iff_toNat_le,
    UInt8.le_iff_toNat_le, toNat_ofNat_char hdigit]
  exact hrange

theorem decimal_ne_nil (n : Nat) : decimal n ≠ [] := by
  simp [decimal]

theorem readDecimal_decimal (n : Nat) : readDecimal (decimal n) = some n := by
  have hfold : ∀ (cs : List Char) (m : Nat), (∀ c ∈ cs, c.isDigit = true) →
      (cs.map fun c => UInt8.ofNat c.toNat).foldl (fun n b => 10 * n + (b.toNat - 48)) m =
        Nat.ofDigitChars 10 cs m := by
    intro cs
    induction cs with
    | nil => exact fun _ _ => rfl
    | cons c cs ih =>
      intro m hcs
      rw [List.map_cons, List.foldl_cons, ih _ fun x hx => hcs x (List.mem_cons_of_mem c hx),
        toNat_ofNat_char (hcs c List.mem_cons_self)]
      rfl
  have hdigits : ∀ c ∈ Nat.toDigits 10 n, c.isDigit = true :=
    fun c hc => Nat.isDigit_of_mem_toDigits (by decide) (by decide) hc
  have hnumber : (!(decimal n).isEmpty && (decimal n).all isDigit) = true := by
    rw [Bool.and_eq_true, Bool.not_eq_true', List.isEmpty_eq_false_iff, List.all_eq_true]
    exact ⟨decimal_ne_nil n, fun b hb => isDigit_of_mem_decimal hb⟩
  rw [readDecimal, if_pos hnumber, decimal, hfold _ _ hdigits, Nat.ofDigitChars_ten_toDigits]

theorem decimal_inj {m n : Nat} (h : decimal m = decimal n) : m = n := by
  have hread := congrArg readDecimal h
  rwa [readDecimal_decimal, readDecimal_decimal, Option.some.injEq] at hread

end Format
