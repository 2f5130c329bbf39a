import DogeIndexer.Compressor.Inscription
import DogeIndexer.Lib.Digits
import Mathlib.Data.Rat.Cast.Order
import Mathlib.Tactic.FieldSimp
import Mathlib.Tactic.Ring

/-!
# Amounts of DRC-20 messages

`parse_decimal` checks, splits, pads and parses text where it means arithmetic.  The compressor and the reducers
have one copy of it each, word for word the same.

* `IsDecimal` — the texts that are amounts, with their digits before and after the dot.
* `IsDecimal.parsed` — such a text is parsed, to its digits' value.
* `parseDecimal_ok` — the parser does not panic, and what it accepts is such a text.
* `parseDecimal_utf8` — on the bytes of a message it finds the same as on its text.
* `decimals_exact` — it accepts exactly the amounts, at exactly their value.
-/

set_option autoImplicit false

namespace DogeIndexer.Compressor.Amount

open Digits

/-! ## The parser -/

/-- `NUMBERS_AND_DOT`. -/
def numbersAndDot : List Char := ['0', '1', '2', '3', '4', '5', '6', '7', '8', '9', '.']

/-- `10u128.pow(dec)`. -/
def pow10 (checks : Bool) (dec : Nat) : Option U128 :=
  if checks && decide (2 ^ 128 ≤ 10 ^ dec) then none else some (Fin.ofNat (2 ^ 128) (10 ^ dec))

/-- `u128::checked_mul`. -/
def checkedMul (a b : U128) : Option U128 :=
  if h : a.val * b.val < 2 ^ 128 then some ⟨a.val * b.val, h⟩ else none

/-- The amount of an integer part and a decimal part, the latter padded with zeros.  Past the first check of
`parse_decimal` all characters are one byte long. -/
def withDecimalPart (integer : U64) (decimalPart : List Char) (dec : Nat) : Except Err (Option U128) :=
  if decimalPart.length > dec then .ok none
  else
    let decimalPart := decimalPart ++ List.replicate (dec - decimalPart.length) '0'
    if decimalPart.length ≠ dec then .error .panic
    else (orPanic (parseUInt (2 ^ 128) (Nat.toDigits 10 integer.val ++ decimalPart))).map some

/-- The amount of an integer part alone. -/
def withoutDecimalPart (checks : Bool) (integer : U64) (dec : Nat) : Except Err (Option U128) := do
  let pow ← orPanic (pow10 checks dec)
  (orPanic (checkedMul (Fin.castLE (by decide) integer) pow)).map some

/-- `parse_decimal`. -/
def parseDecimal (checks : Bool) (m : String) (dec : Byte) : Except Err (Option U128) :=
  if m.toList.any (fun c => !numbersAndDot.contains c) then .ok none
  else if m.toList.head? = some '.' ∨ m.toList.getLast? = some '.' then .ok none
  else
    let parts := m.toList.splitOn '.'
    if parts.length > 2 then .ok none
    else do
      let integerPart ← orPanic parts[0]?
      match parseUInt (2 ^ 64) integerPart with
      | none => return none
      | some integer =>
        if parts.length = 2 then
          let decimalPart ← orPanic parts[1]?
          withDecimalPart integer decimalPart dec.val
        else withoutDecimalPart checks integer dec.val

/-! ## Amounts -/

/-- A text with the digits `integer`, and `frac` behind a dot when there are any, up to `dec`. -/
structure IsDecimal (s : List Char) (dec : Nat) (integer frac : List Char) : Prop where
  text : s = integer ++ (if frac = [] then [] else '.' :: frac)
  nonempty : integer ≠ []
  integer_digits : AreDigits integer
  frac_digits : AreDigits frac
  fits : value integer < 2 ^ 64
  length_le : frac.length ≤ dec

/-- The number such a text denotes. -/
def decimalValue (integer frac : List Char) : ℚ := value integer + value frac / 10 ^ frac.length

/-- The same number in units of `10 ^ -dec`. -/
def scaled (integer frac : List Char) (dec : Nat) : Nat :=
  value integer * 10 ^ dec + value frac * 10 ^ (dec - frac.length)

theorem decimalValue_mul {integer frac : List Char} {dec : Nat} (h : frac.length ≤ dec) :
    decimalValue integer frac * 10 ^ dec = (scaled integer frac dec : ℚ) := by
  obtain ⟨k, rfl⟩ := Nat.exists_eq_add_of_le h
  unfold decimalValue scaled
  rw [Nat.add_sub_cancel_left]
  push_cast
  rw [pow_add]
  field_simp

/-! ## What the parser accepts -/

theorem contains_iff (c : Char) : numbersAndDot.contains c = true ↔ c.isDigit = true ∨ c = '.' := by
  constructor
  · intro h
    have hall : numbersAndDot.all (fun d => d.isDigit || d == '.') = true := by decide
    simpa using List.all_eq_true.mp hall c (List.contains_iff_mem.mp h)
  · rintro (h | rfl)
    · have hall : ∀ k < 10, numbersAndDot.contains (Char.ofNat (48 + k)) = true := by decide
      have hc := Char.isDigit_iff_toNat.mp h
      have h0 : '0'.toNat = 48 := rfl
      have h9 : '9'.toNat = 57 := rfl
      have := hall (c.toNat - 48) (by omega)
      rwa [show 48 + (c.toNat - 48) = c.toNat by omega, Char.ofNat_toNat] at this
    · decide

theorem any_eq_false_iff (m : List Char) :
    m.any (fun c => !numbersAndDot.contains c) = false ↔ ∀ c ∈ m, c.isDigit = true ∨ c = '.' := by
  simp only [List.any_eq_false, Bool.not_eq_true', Bool.not_eq_false, contains_iff]

theorem dot_notMem {l : List Char} (h : AreDigits l) : '.' ∉ l :=
  fun hmem => absurd (h '.' hmem) (by decide)

theorem areDigits_of_notMem {l : List Char} (h : ∀ c ∈ l, c.isDigit = true ∨ c = '.') (hdot : '.' ∉ l) :
    AreDigits l := by
  intro c hc
  rcases h c hc with hd | rfl
  · exact hd
  · exact absurd hc hdot

/-- An integer part alone is scaled by a multiplication that does not overflow. -/
theorem withoutDecimalPart_eq (checks : Bool) (integer : U64) {dec : Nat} (hdec : dec ≤ 18) :
    ∃ v : U128, withoutDecimalPart checks integer dec = .ok (some v) ∧ v.val = integer.val * 10 ^ dec := by
  have hpow : 10 ^ dec ≤ 10 ^ 18 := Nat.pow_le_pow_right (by decide) hdec
  have hlt : 10 ^ dec < 2 ^ 128 := Nat.lt_of_le_of_lt hpow (by decide)
  have hmul : integer.val * 10 ^ dec < 2 ^ 128 :=
    Nat.lt_of_le_of_lt (Nat.mul_le_mul integer.isLt.le hpow) (by decide)
  have hpow10 : pow10 checks dec = some ⟨10 ^ dec, hlt⟩ := by
    unfold pow10
    rw [if_neg (by simp only [Bool.and_eq_true, decide_eq_true_eq]; omega)]
    exact congrArg some (Fin.ext (Nat.mod_eq_of_lt hlt))
  refine ⟨⟨integer.val * 10 ^ dec, hmul⟩, ?_, rfl⟩
  unfold withoutDecimalPart
  rw [hpow10]
  have hchecked : checkedMul (Fin.castLE (by decide) integer) ⟨10 ^ dec, hlt⟩ = some ⟨integer.val * 10 ^ dec, hmul⟩ :=
    dif_pos hmul
  show (orPanic (checkedMul (Fin.castLE (by decide) integer) ⟨10 ^ dec, hlt⟩)).map some = _
  rw [hchecked]
  rfl

/-- Padded digits behind an integer part are parsed to the scaled amount. -/
theorem withDecimalPart_eq (integer : U64) {frac : List Char} {dec : Nat} (hdec : dec ≤ 18)
    (hfrac : AreDigits frac) (hlen : frac.length ≤ dec) :
    ∃ v : U128, withDecimalPart integer frac dec = .ok (some v) ∧
      v.val = integer.val * 10 ^ dec + value frac * 10 ^ (dec - frac.length) := by
  let padded := frac ++ List.replicate (dec - frac.length) '0'
  have hpadded : padded.length = dec := by simp [padded]; omega
  have hdigits : AreDigits (Nat.toDigits 10 integer.val ++ padded) :=
    areDigits_append (areDigits_toDigits _) (areDigits_append hfrac (areDigits_replicate_zero _))
  have hvalue : value (Nat.toDigits 10 integer.val ++ padded) =
      integer.val * 10 ^ dec + value frac * 10 ^ (dec - frac.length) := by
    rw [value_append, hpadded, value_toDigits]
    simp only [padded]
    rw [value_append, value_replicate_zero, List.length_replicate, Nat.add_zero]
  have hlt : value (Nat.toDigits 10 integer.val ++ padded) < 2 ^ 128 := by
    have hpad : value padded < 10 ^ dec := by
      rw [← hpadded]
      exact value_lt (areDigits_append hfrac (areDigits_replicate_zero _))
    rw [value_append, hpadded, value_toDigits]
    calc integer.val * 10 ^ dec + value padded
        < (integer.val + 1) * 10 ^ dec := by rw [Nat.add_one_mul]; omega
      _ ≤ 2 ^ 64 * 10 ^ 18 := Nat.mul_le_mul integer.isLt (Nat.pow_le_pow_right (by decide) hdec)
      _ < 2 ^ 128 := by decide
  refine ⟨⟨_, hlt⟩, ?_, hvalue⟩
  have hne : Nat.toDigits 10 integer.val ++ padded ≠ [] := by simp [Nat.toDigits_ne_nil]
  unfold withDecimalPart
  rw [if_neg (by omega)]
  show (if padded.length ≠ dec then Except.error Err.panic
    else (orPanic (parseUInt (2 ^ 128) (Nat.toDigits 10 integer.val ++ padded))).map some) = _
  rw [if_neg (by omega), parseUInt_of_lt hdigits hne hlt]
  rfl

/-- A text that passes the checks on its characters. -/
structure Checked (m : List Char) : Prop where
  chars : ∀ c ∈ m, c.isDigit = true ∨ c = '.'
  head : m.head? ≠ some '.'
  last : m.getLast? ≠ some '.'

/-- A text that fails them is rejected. -/
theorem parseDecimal_unchecked {m : String} (h : ¬ Checked m.toList) (checks : Bool) (dec : Byte) :
    parseDecimal checks m dec = .ok none := by
  unfold parseDecimal
  split
  · rfl
  · rename_i hany
    split
    · rfl
    · rename_i hdots
      have hchars := (any_eq_false_iff m.toList).mp (Bool.eq_false_iff.mpr hany)
      exact absurd ⟨hchars, fun hh => hdots (.inl hh), fun hl => hdots (.inr hl)⟩ h

theorem parseDecimal_checked {m : String} (h : Checked m.toList) (checks : Bool) (dec : Byte) :
    parseDecimal checks m dec =
      if (m.toList.splitOn '.').length > 2 then .ok none
      else orPanic (m.toList.splitOn '.')[0]? >>= fun integerPart =>
        match parseUInt (2 ^ 64) integerPart with
        | none => .ok none
        | some integer =>
          if (m.toList.splitOn '.').length = 2 then
            orPanic (m.toList.splitOn '.')[1]? >>= fun decimalPart => withDecimalPart integer decimalPart dec.val
          else withoutDecimalPart checks integer dec.val := by
  unfold parseDecimal
  rw [if_neg (by rw [(any_eq_false_iff _).mpr h.chars]; decide), if_neg (not_or.mpr ⟨h.head, h.last⟩)]
  rfl

/-- One part is the integer part. -/
theorem parseDecimal_one {m : String} (h : Checked m.toList) (hdot : '.' ∉ m.toList) (checks : Bool) (dec : Byte) :
    parseDecimal checks m dec =
      match parseUInt (2 ^ 64) m.toList with
      | none => .ok none
      | some integer => withoutDecimalPart checks integer dec.val := by
  rw [parseDecimal_checked h, List.splitOn_eq_singleton hdot]
  rfl

/-- Two parts are the integer part and the decimal part. -/
theorem parseDecimal_two {m : String} (h : Checked m.toList) {a b : List Char}
    (hsplit : m.toList.splitOn '.' = [a, b]) (checks : Bool) (dec : Byte) :
    parseDecimal checks m dec =
      match parseUInt (2 ^ 64) a with
      | none => .ok none
      | some integer => withDecimalPart integer b dec.val := by
  rw [parseDecimal_checked h, hsplit]
  rfl

theorem IsDecimal.checked {m integer frac : List Char} {dec : Nat} (h : IsDecimal m dec integer frac) : Checked m := by
  have hdot := dot_notMem h.integer_digits
  have hmem : ∀ c ∈ m, c ∈ integer ∨ c = '.' ∨ c ∈ frac := by
    intro c hc
    rw [h.text] at hc
    split at hc
    · exact .inl (by simpa using hc)
    · simpa using hc
  refine ⟨?_, ?_, ?_⟩
  · intro c hc
    rcases hmem c hc with hi | rfl | hf
    · exact .inl (h.integer_digits c hi)
    · exact .inr rfl
    · exact .inl (h.frac_digits c hf)
  · rw [h.text, List.head?_append_of_ne_nil _ h.nonempty]
    exact fun hc => hdot (List.mem_of_mem_head? hc)
  · rw [h.text]
    split
    · rw [List.append_nil]
      exact fun hc => hdot (List.mem_of_mem_getLast? hc)
    · rename_i hne
      rw [List.getLast?_append_of_ne_nil _ (by simp), List.getLast?_cons_of_ne_nil hne]
      exact fun hc => dot_notMem h.frac_digits (List.mem_of_mem_getLast? hc)

/-- **An amount is parsed** to its value in the smallest unit. -/
theorem IsDecimal.parsed {m : String} {dec : Byte} {integer frac : List Char}
    (h : IsDecimal m.toList dec.val integer frac) (checks : Bool) (hdec : dec.val ≤ 18) :
    ∃ v : U128, parseDecimal checks m dec = .ok (some v) ∧ v.val = scaled integer frac dec.val := by
  have hint := parseUInt_of_lt h.integer_digits h.nonempty h.fits
  have hdot := dot_notMem h.integer_digits
  by_cases hfrac : frac = []
  · have htext : m.toList = integer := by rw [h.text, if_pos hfrac, List.append_nil]
    obtain ⟨v, hv, hval⟩ := withoutDecimalPart_eq checks ⟨value integer, h.fits⟩ hdec
    refine ⟨v, ?_, ?_⟩
    · rw [parseDecimal_one h.checked (by rwa [htext]), htext, hint]
      exact hv
    · rw [hval]
      simp [scaled, hfrac]
  · have hsplit : m.toList.splitOn '.' = [integer, frac] := by
      rw [h.text, if_neg hfrac, List.splitOn_append_cons_self_of_not_mem hdot,
        List.splitOn_eq_singleton (dot_notMem h.frac_digits)]
    obtain ⟨v, hv, hval⟩ := withDecimalPart_eq ⟨value integer, h.fits⟩ hdec h.frac_digits h.length_le
    refine ⟨v, ?_, hval⟩
    rw [parseDecimal_two h.checked hsplit, hint]
    exact hv

/-- **The parser answers every text**, and it accepts amounts only. -/
theorem parseDecimal_ok (checks : Bool) (m : String) (dec : Byte) :
    parseDecimal checks m dec = .ok none ∨ ∃ integer frac, IsDecimal m.toList dec.val integer frac := by
  by_cases hm : Checked m.toList
  · rcases splitOn_cases '.' m.toList with ⟨hdot, -⟩ | ⟨a, b, htext, ha, hb, hsplit⟩ | ⟨-, hlong⟩
    · have hdigits := areDigits_of_notMem hm.chars hdot
      rw [parseDecimal_one hm hdot, parseUInt_digits hdigits]
      split
      · exact .inl rfl
      · rename_i hsome
        obtain ⟨hne, hlt⟩ : m.toList ≠ [] ∧ value m.toList < 2 ^ 64 := by
          by_contra hc
          rw [dif_neg hc] at hsome
          cases hsome
        exact .inr ⟨m.toList, [], by simp, hne, hdigits, by simp [AreDigits], hlt, by simp⟩
    · have hchars : ∀ c, c ∈ a ∨ c ∈ b → c.isDigit = true ∨ c = '.' := by
        intro c hc
        refine hm.chars c ?_
        rw [htext]
        simp only [List.mem_append, List.mem_cons]
        tauto
      have hda := areDigits_of_notMem (fun c hc => hchars c (.inl hc)) ha
      have hdb := areDigits_of_notMem (fun c hc => hchars c (.inr hc)) hb
      have hbne : b ≠ [] := by
        rintro rfl
        exact hm.last (by rw [htext]; simp)
      rw [parseDecimal_two hm hsplit, parseUInt_digits hda]
      split
      · exact .inl rfl
      · rename_i integer hsome
        obtain ⟨hne, hlt⟩ : a ≠ [] ∧ value a < 2 ^ 64 := by
          by_contra hc
          rw [dif_neg hc] at hsome
          cases hsome
        by_cases hlen : b.length > dec.val
        · exact .inl (if_pos hlen)
        · exact .inr ⟨a, b, by rw [if_neg hbne]; exact htext, hne, hda, hdb, hlt, by omega⟩
    · rw [parseDecimal_checked hm, if_pos hlong]
      exact .inl rfl
  · exact .inl (parseDecimal_unchecked hm checks dec)

/-! ## The parser on bytes

Messages carry their text as UTF-8, and `BRC20.parseDecimal` reads the bytes. -/

/-- UTF-8 of a text. -/
def utf8 (m : List Char) : Bytes :=
  m.flatMap fun c => (String.utf8EncodeChar c).map fun b => Fin.ofNat 256 b.toNat

/-- An ASCII character is its byte. -/
theorem utf8EncodeChar_ascii {c : Char} (h : c.toNat < 128) :
    ((String.utf8EncodeChar c).map fun b => (Fin.ofNat 256 b.toNat : Byte)) = [Fin.ofNat 256 c.toNat] := by
  have hle : c.val.toNat ≤ 127 := Nat.le_of_lt_succ h
  unfold String.utf8EncodeChar
  simp only [hle, if_true, List.map_cons, List.map_nil]
  refine congrArg (fun x => [x]) (Fin.ext ?_)
  show (c.toNat % 256) % 256 = c.toNat % 256
  rw [Nat.mod_mod]

/-- Any other character starts with a byte above them. -/
theorem utf8EncodeChar_head {c : Char} (h : ¬ c.toNat < 128) :
    ∃ b ∈ (String.utf8EncodeChar c).map (fun b => (Fin.ofNat 256 b.toNat : Byte)), 128 ≤ b.val := by
  have hc : ¬ c.val.toNat ≤ 127 := fun hle => h (Nat.lt_succ_of_le hle)
  have hval : c.val.toNat < 0x110000 := by
    have := c.valid
    simp only [UInt32.isValidChar, Nat.isValidChar] at this
    omega
  unfold String.utf8EncodeChar
  simp only [hc, if_false]
  split
  · refine ⟨_, List.mem_cons_self, ?_⟩
    simp
    omega
  · split
    · refine ⟨_, List.mem_cons_self, ?_⟩
      simp
      omega
    · refine ⟨_, List.mem_cons_self, ?_⟩
      simp
      omega

theorem toNat_of_numeric {c : Char} (h : c.isDigit = true ∨ c = '.') :
    c = '.' ∧ c.toNat = 46 ∨ 48 ≤ c.toNat ∧ c.toNat ≤ 57 := by
  rcases h with h | rfl
  · exact .inr (Char.isDigit_iff_toNat.mp h)
  · exact .inl ⟨rfl, rfl⟩

theorem utf8_ascii {m : List Char} (h : ∀ c ∈ m, c.isDigit = true ∨ c = '.') : utf8 m = ascii m := by
  induction m with
  | nil => rfl
  | cons c m ih =>
    have hc := toNat_of_numeric (h c List.mem_cons_self)
    have htail := ih fun d hd => h d (List.mem_cons_of_mem _ hd)
    show (String.utf8EncodeChar c).map _ ++ utf8 m = _
    rw [utf8EncodeChar_ascii (by omega), htail]
    rfl

/-- A character outside ASCII has no digit and no dot among its bytes. -/
theorem numeric_of_bytes {c : Char}
    (h : ∀ b ∈ (String.utf8EncodeChar c).map (fun b => (Fin.ofNat 256 b.toNat : Byte)),
      BRC20.isDigit b = true ∨ b = 46) : c.isDigit = true ∨ c = '.' := by
  by_cases hc : c.toNat < 128
  · rw [utf8EncodeChar_ascii hc] at h
    have hval : (Fin.ofNat 256 c.toNat).val = c.toNat := Nat.mod_eq_of_lt (by omega)
    rcases h _ List.mem_cons_self with hd | hd
    · simp only [BRC20.isDigit, hval, Bool.and_eq_true, decide_eq_true_eq] at hd
      exact .inl (Char.isDigit_iff_toNat.mpr hd)
    · have : c.toNat = 46 := by rw [← hval, hd]; rfl
      exact .inr (by rw [← Char.ofNat_toNat c, this])
  · obtain ⟨b, hb, hge⟩ := utf8EncodeChar_head hc
    rcases h b hb with hd | rfl
    · simp only [BRC20.isDigit, Bool.and_eq_true, decide_eq_true_eq] at hd
      omega
    · exact absurd hge (by decide)

theorem ascii_val {c : Char} (h : c.isDigit = true ∨ c = '.') : (Fin.ofNat 256 c.toNat).val = c.toNat := by
  have := toNat_of_numeric h
  exact Nat.mod_eq_of_lt (by omega)

theorem ascii_eq_dot_iff {c : Char} (h : c.isDigit = true ∨ c = '.') :
    (Fin.ofNat 256 c.toNat : Byte) = 46 ↔ c = '.' := by
  constructor
  · intro heq
    have h46 : c.toNat = 46 := by rw [← ascii_val h, heq]; rfl
    rw [← Char.ofNat_toNat c, h46]
  · rintro rfl
    rfl

/-- A dot at an end of the text is a dot at that end of its bytes. -/
theorem map_eq_some_dot_iff {o : Option Char} (h : ∀ c ∈ o, c.isDigit = true ∨ c = '.') :
    o.map (fun c => (Fin.ofNat 256 c.toNat : Byte)) = some 46 ↔ o = some '.' := by
  cases o with
  | none => simp
  | some c => rw [Option.map_some, Option.some_inj, Option.some_inj, ascii_eq_dot_iff (h c rfl)]

theorem digitsVal_ascii {l : List Char} (h : AreDigits l) : BRC20.digitsVal (ascii l) = value l := by
  unfold BRC20.digitsVal ascii value
  rw [Nat.ofDigitChars_eq_foldl, List.foldl_map]
  refine List.foldl_ext _ _ 0 ?_
  intro acc c hc
  rw [ascii_val (.inl (h c hc)), Nat.mul_comm]
  rfl

theorem splitOn_ascii {m : List Char} (h : ∀ c ∈ m, c.isDigit = true ∨ c = '.') :
    (ascii m).splitOn 46 = (m.splitOn '.').map ascii := by
  induction m with
  | nil => rfl
  | cons c m ih =>
    have hc := h c List.mem_cons_self
    have htail := ih fun d hd => h d (List.mem_cons_of_mem _ hd)
    show (Fin.ofNat 256 c.toNat :: ascii m).splitOn 46 = _
    rw [List.splitOn_cons_eq_if_modifyHead, List.splitOn_cons_eq_if_modifyHead, htail]
    by_cases hdot : c = '.'
    · simp [hdot, ascii]
    · simp only [beq_iff_eq, ascii_eq_dot_iff hc, if_neg hdot]
      cases m.splitOn '.' with
      | nil => rfl
      | cons => rfl

theorem parseUnsigned_ascii {l : List Char} (h : AreDigits l) (n : Nat) :
    BRC20.parseUnsigned n (ascii l) = (parseUInt n l).map Fin.val := by
  unfold BRC20.parseUnsigned
  rw [digitsVal_ascii h, parseUInt_digits h]
  by_cases hne : l = []
  · simp [hne, ascii]
  · have hascii : (ascii l).isEmpty = false := by simp [ascii, hne]
    rw [hascii, if_neg (by decide)]
    by_cases hlt : value l < n
    · rw [if_pos hlt, dif_pos ⟨hne, hlt⟩]
      rfl
    · rw [if_neg hlt, dif_neg fun hc => hlt hc.2]
      rfl

/-- The checks on the bytes are those on the characters. -/
theorem bytes_any_iff (m : List Char) :
    ((utf8 m).any fun b => !(BRC20.isDigit b || b = 46)) = false ↔ ∀ c ∈ m, c.isDigit = true ∨ c = '.' := by
  constructor
  · intro h c hc
    refine numeric_of_bytes fun b hb => ?_
    have := List.any_eq_false.mp h b (List.mem_flatMap.mpr ⟨c, hc, hb⟩)
    rwa [Bool.not_eq_true, Bool.not_eq_false', Bool.or_eq_true, decide_eq_true_eq] at this
  · intro h
    rw [utf8_ascii h, List.any_eq_false]
    intro b hb
    obtain ⟨c, hc, rfl⟩ := List.mem_map.mp hb
    have hval := ascii_val (h c hc)
    rcases h c hc with hd | rfl
    · have := Char.isDigit_iff_toNat.mp hd
      have hbyte : BRC20.isDigit (Fin.ofNat 256 c.toNat) = true := by
        unfold BRC20.isDigit
        rw [hval, Bool.and_eq_true, decide_eq_true_eq, decide_eq_true_eq]
        exact this
      rw [hbyte]
      simp
    · decide

/-- **On the bytes of a text the parser finds the same amount.** -/
theorem parseDecimal_utf8 (checks : Bool) (m : String) (dec : Byte) (hdec : dec.val ≤ 18) :
    parseDecimal checks m dec = .ok (BRC20.parseDecimal (utf8 m.toList) dec.val) := by
  by_cases hchars : ∀ c ∈ m.toList, c.isDigit = true ∨ c = '.'
  · have hdots : ((ascii m.toList).head? = some 46 ∨ (ascii m.toList).getLast? = some 46) ↔
        (m.toList.head? = some '.' ∨ m.toList.getLast? = some '.') := by
      unfold ascii
      rw [List.head?_map, List.getLast?_map,
        map_eq_some_dot_iff fun c hc => hchars c (List.mem_of_mem_head? hc),
        map_eq_some_dot_iff fun c hc => hchars c (List.mem_of_mem_getLast? hc)]
    unfold BRC20.parseDecimal
    rw [(bytes_any_iff m.toList).mpr hchars, if_neg (by decide), utf8_ascii hchars]
    by_cases hm : m.toList.head? = some '.' ∨ m.toList.getLast? = some '.'
    · rw [if_pos (hdots.mpr hm), parseDecimal_unchecked fun h => hm.elim h.head h.last]
    · have hchecked : Checked m.toList := ⟨hchars, fun h => hm (.inl h), fun h => hm (.inr h)⟩
      rw [if_neg (mt hdots.mp hm), splitOn_ascii hchars]
      rcases splitOn_cases '.' m.toList with ⟨hdot, hone⟩ | ⟨a, b, htext, ha, hb, htwo⟩ | ⟨-, hlong⟩
      · have hdigits := areDigits_of_notMem hchars hdot
        rw [parseDecimal_one hchecked hdot, hone]
        simp only [List.map_cons, List.map_nil]
        rw [parseUnsigned_ascii hdigits]
        cases parseUInt (2 ^ 64) m.toList with
        | none => rfl
        | some integer =>
          obtain ⟨v, hv, hval⟩ := withoutDecimalPart_eq checks integer hdec
          refine hv.trans (congrArg (fun x => Except.ok (some x)) (Fin.ext ?_))
          show v.val = integer.val * 10 ^ dec.val % 2 ^ 128
          rw [← hval, Nat.mod_eq_of_lt v.isLt]
      · have hmem : ∀ c, c ∈ a ∨ c ∈ b → c ∈ m.toList := by
          intro c hc
          rw [htext]
          simp only [List.mem_append, List.mem_cons]
          tauto
        have hda := areDigits_of_notMem (fun c hc => hchars c (hmem c (.inl hc))) ha
        have hdb := areDigits_of_notMem (fun c hc => hchars c (hmem c (.inr hc))) hb
        have hlen : (ascii b).length = b.length := List.length_map _
        rw [parseDecimal_two hchecked htwo, htwo]
        simp only [List.map_cons, List.map_nil]
        rw [parseUnsigned_ascii hda, hlen, digitsVal_ascii hdb]
        cases parseUInt (2 ^ 64) a with
        | none => rfl
        | some integer =>
          show _ = Except.ok (if b.length > dec.val then none else _)
          by_cases hlong : b.length > dec.val
          · rw [if_pos hlong]
            exact if_pos hlong
          · obtain ⟨v, hv, hval⟩ := withDecimalPart_eq integer hdec hdb (by omega)
            rw [if_neg hlong]
            refine hv.trans (congrArg (fun x => Except.ok (some x)) (Fin.ext ?_))
            show v.val = (integer.val * 10 ^ dec.val + value b * 10 ^ (dec.val - b.length)) % 2 ^ 128
            rw [← hval, Nat.mod_eq_of_lt v.isLt]
      · rw [parseDecimal_checked hchecked, if_pos hlong]
        match hparts : m.toList.splitOn '.', hlong with
        | _ :: _ :: _ :: _, _ => rfl
  · rw [parseDecimal_unchecked fun h => hchars h.chars]
    have hany := mt (bytes_any_iff m.toList).mp hchars
    unfold BRC20.parseDecimal
    rw [if_pos (Bool.eq_true_of_not_eq_false hany)]

/-! ## Exactness -/

/-- **Amounts are parsed exactly**: with at most 18 decimals the parser returns on every text, and it returns a
value precisely for digits that fit in a `u64`, with up to `dec` digits behind a dot; the value is then the number
written, times `10 ^ dec`.  On the bytes of the text it finds the same. -/
theorem decimals_exact (checks : Bool) (s : String) (dec : Byte) (hdec : dec.val ≤ 18) :
    ∃ out, parseDecimal checks s dec = .ok out ∧ BRC20.parseDecimal (utf8 s.toList) dec.val = out ∧
      ∀ v, out = some v ↔ ∃ integer frac, IsDecimal s.toList dec.val integer frac ∧
        (v.val : ℚ) = decimalValue integer frac * 10 ^ dec.val := by
  refine ⟨_, parseDecimal_utf8 checks s dec hdec, rfl, ?_⟩
  have hbytes := parseDecimal_utf8 checks s dec hdec
  generalize BRC20.parseDecimal (utf8 s.toList) dec.val = out at hbytes
  rcases parseDecimal_ok checks s dec with hnone | ⟨integer, frac, h⟩
  · rw [hnone] at hbytes
    cases hbytes
    refine fun v => ⟨fun hv => (Option.some_ne_none v hv.symm).elim, ?_⟩
    rintro ⟨integer, frac, h, -⟩
    obtain ⟨w, hw, -⟩ := h.parsed checks hdec
    rw [hnone] at hw
    cases hw
  · obtain ⟨w, hw, hval⟩ := h.parsed checks hdec
    rw [hw] at hbytes
    cases hbytes
    refine fun v => ⟨?_, ?_⟩
    · rintro hv
      cases hv
      exact ⟨integer, frac, h, by rw [decimalValue_mul h.length_le, hval]⟩
    · rintro ⟨integer', frac', h', hv⟩
      obtain ⟨w', hw', hval'⟩ := h'.parsed checks hdec
      rw [hw] at hw'
      cases hw'
      rw [decimalValue_mul h'.length_le, ← hval'] at hv
      exact congrArg some (Fin.ext (by exact_mod_cast hv.symm))

/-- A fraction with as many digits as there are decimals. -/
theorem decimals_exact_fraction :
    ∃ out, parseDecimal true "1.50" 2 = .ok out ∧ BRC20.parseDecimal (utf8 "1.50".toList) 2 = out ∧
      ∀ v, out = some v ↔ ∃ integer frac, IsDecimal "1.50".toList 2 integer frac ∧
        (v.val : ℚ) = decimalValue integer frac * 10 ^ 2 :=
  decimals_exact true "1.50" 2 (by decide)

end DogeIndexer.Compressor.Amount
