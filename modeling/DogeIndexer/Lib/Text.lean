import DogeIndexer.Lib.Machine

/-!
# Hexadecimal and lower case

Bytes as hexadecimal text, of which the round trip and the digits are known, and the lower case of a text as
`str::to_lowercase` makes it: character by character, but for the capital sigma, whose lower case depends on what
surrounds it.

* `Hex` — a coding of bytes as digits; `Hex.lower` — the one with digits in lower case.
* `lowercase_idempotent`, `mem_of_mem_lowercase` — a text in lower case stays as it is; a separator in it was there
  before.
-/

set_option autoImplicit false

namespace DogeIndexer

/-! ## Hexadecimal -/

/-- A coding of bytes as text: what is encoded is read back, and every character of it is a letter or a digit. -/
structure Hex where
  encode : List Byte → List Char
  decode : List Char → Option (List Byte)
  decode_encode : ∀ bytes, decode (encode bytes) = some bytes
  alphanum : ∀ bytes, ∀ c ∈ encode bytes, c.isAlphanum = true

namespace Hex

def DIGITS : List Char := "0123456789abcdef".toList

def digitChar (d : Fin 16) : Char := DIGITS.get (d.cast (by decide))

/-- The value of a digit, in either case. -/
def digitValue (c : Char) : Option (Fin 16) :=
  if '0' ≤ c ∧ c ≤ '9' then some (Fin.ofNat 16 (c.toNat - '0'.toNat))
  else if 'a' ≤ c ∧ c ≤ 'f' then some (Fin.ofNat 16 (c.toNat - 'a'.toNat + 10))
  else if 'A' ≤ c ∧ c ≤ 'F' then some (Fin.ofNat 16 (c.toNat - 'A'.toNat + 10))
  else none

def highDigit (b : Byte) : Fin 16 := ⟨b.val / 16, Nat.div_lt_of_lt_mul b.isLt⟩

def lowDigit (b : Byte) : Fin 16 := ⟨b.val % 16, Nat.mod_lt _ (by decide)⟩

/-- The digits of bytes. -/
def digits (bytes : List Byte) : List Char := bytes.flatMap fun b => [digitChar (highDigit b), digitChar (lowDigit b)]

/-- The bytes of digits, in either case. -/
def ofDigits : List Char → Option (List Byte)
  | [] => some []
  | [_] => none
  | a :: b :: rest => do
    let high ← digitValue a
    let low ← digitValue b
    let bytes ← ofDigits rest
    return Fin.ofNat 256 (high.val * 16 + low.val) :: bytes

theorem digitValue_digitChar : ∀ d : Fin 16, digitValue (digitChar d) = some d := by
  decide

/-- **Bytes are read back from their text.** -/
theorem ofDigits_digits (bytes : List Byte) : ofDigits (digits bytes) = some bytes := by
  induction bytes with
  | nil => rfl
  | cons b bytes ih =>
    have hbyte : Fin.ofNat 256 ((highDigit b).val * 16 + (lowDigit b).val) = b := by
      refine Fin.ext ?_
      show (b.val / 16 * 16 + b.val % 16) % 256 = b.val
      rw [Nat.mul_comm, Nat.div_add_mod, Nat.mod_eq_of_lt b.isLt]
    show ofDigits (digitChar (highDigit b) :: digitChar (lowDigit b) :: digits bytes) = _
    rw [ofDigits, digitValue_digitChar, digitValue_digitChar, ih]
    exact congrArg (fun x => some (x :: bytes)) hbyte

/-- The text of bytes consists of digits. -/
theorem digit_of_mem_digits {bytes : List Byte} {c : Char} (h : c ∈ digits bytes) : ∃ d, c = digitChar d := by
  obtain ⟨b, -, hc⟩ := List.mem_flatMap.mp h
  rcases List.mem_cons.mp hc with rfl | hc
  · exact ⟨_, rfl⟩
  · exact ⟨_, List.mem_singleton.mp hc⟩

/-- The coding with digits in lower case. -/
def lower : Hex where
  encode := digits
  decode := ofDigits
  decode_encode := ofDigits_digits
  alphanum bytes c h := by
    have hall : ∀ d, (digitChar d).isAlphanum = true := by decide
    obtain ⟨d, rfl⟩ := digit_of_mem_digits h
    exact hall d

end Hex

/-! ## Lower case -/

/-- The lower case mapping of Unicode, with the context rule of the capital sigma.  The laws are those of the mapping:
what it maps to is in lower case, the small sigmas are, and nothing else becomes an ASCII character that is not a
letter. -/
structure CaseMapping where
  /-- The lower case of each character but the capital sigma. -/
  toLower : Char → List Char
  /-- Whether a capital sigma between two texts ends a word. -/
  isFinal : List Char → List Char → Bool
  stable : ∀ c, c ≠ 'Σ' → ∀ d ∈ toLower c, d ≠ 'Σ' ∧ toLower d = [d]
  uncased : ∀ c, c ≠ 'Σ' → ∀ d ∈ toLower c, d.toNat < 128 → d.isAlpha = false → d = c
  finalSigma : toLower 'ς' = ['ς']
  smallSigma : toLower 'σ' = ['σ']

namespace CaseMapping

/-- `str::to_lowercase` of what comes behind a text. -/
def lowercaseFrom (m : CaseMapping) : List Char → List Char → List Char
  | _, [] => []
  | before, c :: after =>
    (if c = 'Σ' then [if m.isFinal before after then 'ς' else 'σ'] else m.toLower c) ++
      m.lowercaseFrom (before ++ [c]) after

/-- `str::to_lowercase`. -/
def lowercase (m : CaseMapping) (s : List Char) : List Char := m.lowercaseFrom [] s

/-- A text of characters in lower case stays as it is. -/
theorem lowercaseFrom_of_lower (m : CaseMapping) (before : List Char) {s : List Char}
    (h : ∀ d ∈ s, d ≠ 'Σ' ∧ m.toLower d = [d]) : m.lowercaseFrom before s = s := by
  induction s generalizing before with
  | nil => rfl
  | cons c s ih =>
    obtain ⟨⟨hsigma, hlower⟩, hrest⟩ := List.forall_mem_cons.mp h
    rw [lowercaseFrom, if_neg hsigma, hlower, ih (before ++ [c]) hrest, List.singleton_append]

/-- What comes out is a sigma or what a character of the text maps to. -/
theorem mem_lowercaseFrom (m : CaseMapping) {before s : List Char} {d : Char} (h : d ∈ m.lowercaseFrom before s) :
    d = 'ς' ∨ d = 'σ' ∨ ∃ c ∈ s, c ≠ 'Σ' ∧ d ∈ m.toLower c := by
  induction s generalizing before with
  | nil => exact (List.not_mem_nil h).elim
  | cons c s ih =>
    rw [lowercaseFrom, List.mem_append] at h
    rcases h with h | h
    · by_cases hsigma : c = 'Σ'
      · rw [if_pos hsigma, List.mem_singleton] at h
        split at h
        · exact .inl h
        · exact .inr (.inl h)
      · rw [if_neg hsigma] at h
        exact .inr (.inr ⟨c, List.mem_cons_self, hsigma, h⟩)
    · rcases ih h with h | h | ⟨c', hc', h⟩
      · exact .inl h
      · exact .inr (.inl h)
      · exact .inr (.inr ⟨c', List.mem_cons_of_mem c hc', h⟩)

/-- **A text in lower case stays as it is.** -/
theorem lowercase_idempotent (m : CaseMapping) (s : List Char) : m.lowercase (m.lowercase s) = m.lowercase s := by
  refine m.lowercaseFrom_of_lower [] fun d hd => ?_
  rcases m.mem_lowercaseFrom hd with rfl | rfl | ⟨c, -, hc, hd⟩
  · exact ⟨by decide, m.finalSigma⟩
  · exact ⟨by decide, m.smallSigma⟩
  · exact m.stable c hc d hd

/-- **An ASCII character that is not a letter is in the lower case of a text only if it is in the text.** -/
theorem mem_of_mem_lowercase (m : CaseMapping) {s : List Char} {d : Char} (h : d ∈ m.lowercase s) (hd : d.toNat < 128)
    (hletter : d.isAlpha = false) : d ∈ s := by
  rcases m.mem_lowercaseFrom h with rfl | rfl | ⟨c, hc, hsigma, h⟩
  · exact absurd hd (by decide)
  · exact absurd hd (by decide)
  · rw [m.uncased c hsigma d h hd hletter]
    exact hc

theorem toLower_of_not_upper {c : Char} (h : ¬ (c.val ≥ 'A'.val ∧ c.val ≤ 'Z'.val)) : c.toLower = c := dif_neg h

/-- A character stays as it is or becomes a small letter. -/
theorem toLower_cases (c : Char) : c.toLower = c ∨ (97 ≤ c.toLower.val.toNat ∧ c.toLower.val.toNat ≤ 122) := by
  have hA : 'A'.val.toNat = 65 := rfl
  have hZ : 'Z'.val.toNat = 90 := rfl
  have hshift : ('a'.val - 'A'.val).toNat = 32 := rfl
  by_cases h : c.val ≥ 'A'.val ∧ c.val ≤ 'Z'.val
  · have hlow := UInt32.le_iff_toNat_le.mp h.1
    have hhigh := UInt32.le_iff_toNat_le.mp h.2
    have hval : c.toLower.val.toNat = c.val.toNat + 32 := by
      unfold Char.toLower
      rw [dif_pos h, UInt32.toNat_add, hshift, Nat.mod_eq_of_lt (by omega)]
    exact .inr (by omega)
  · exact .inl (toLower_of_not_upper h)

theorem toLower_toLower (c : Char) : c.toLower.toLower = c.toLower := by
  rcases toLower_cases c with h | h
  · rw [h, h]
  · refine toLower_of_not_upper fun hupper => ?_
    have hZ : 'Z'.val.toNat = 90 := rfl
    have hhigh := UInt32.le_iff_toNat_le.mp hupper.2
    omega

/-- The mapping that changes the letters of ASCII only. -/
def ascii : CaseMapping where
  toLower := fun c => [c.toLower]
  isFinal := fun _ _ => false
  stable := by
    intro c hc d hd
    rw [List.mem_singleton] at hd
    subst hd
    refine ⟨fun hsigma => ?_, by rw [toLower_toLower]⟩
    rcases toLower_cases c with h | h
    · exact hc (h ▸ hsigma)
    · rw [hsigma] at h
      exact absurd h (by decide)
  uncased := by
    intro c hc d hd _ hletter
    rw [List.mem_singleton] at hd
    subst hd
    rcases toLower_cases c with h | ⟨hlow, hhigh⟩
    · exact h
    · have hlower : c.toLower.isAlpha = true := by
        unfold Char.isAlpha Char.isLower
        rw [Bool.or_eq_true]
        right
        rw [Bool.and_eq_true, decide_eq_true_iff, decide_eq_true_iff]
        exact ⟨UInt32.le_iff_toNat_le.mpr hlow, UInt32.le_iff_toNat_le.mpr hhigh⟩
      rw [hlower] at hletter
      cases hletter
  finalSigma := by decide
  smallSigma := by decide

end CaseMapping

end DogeIndexer
