import DogeIndexer.Compressor.Dunestone
import DogeIndexer.Lib.Bijective
import DogeIndexer.Lib.Effect
import DogeIndexer.Lib.Interpolation

/-!
# Dunes

Model of `storage/runes/dunes/dune.rs`: the shortest name that may be etched at a height, and names as text.  The
letters of a name are the digits of its number in bijective base 26, less one; the parser takes the one off before
each letter but the first with an addition that is not checked.

* `minimumAtHeight_eq` — the shortest name is interpolated between the steps.
* `minimumAtHeight_checked` — no index is out of range and no operation overflows.
* `minimum_only_shortens` — the shortest name never gets longer.
* `display_eq` — what is displayed is the word of the number.
* `fromStrFrom_cases` — what the parser makes of a text: its number, an error, or the addition at the largest number.
* `dune_names_iff` — which texts are read back, in a build with overflow checks and in one without.
-/

set_option autoImplicit false

namespace DogeIndexer.Compressor

open Bijective Interpolation

/-! ## The shortest name -/

/-- `Self::STEPS[i]`. -/
def Dune.stepAtIndex (i : Fin (2 ^ 32)) : Option U128 := (Dune.STEPS[i.val]?).map (Fin.ofNat (2 ^ 128))

/-- `Dune::minimum_at_height` once names get shorter, `progress` blocks from the first height on; `none` where an index
is out of range or a result does not fit its integer type. -/
def Dune.checkedMinimumAfter (halving : HalvingInterval) (progress : Fin (2 ^ 32)) : Option U128 := do
  let length := Machine.saturatingSub 12 (progress / Fin.ofNat (2 ^ 32) halving.interval)
  let lower ← Dune.stepAtIndex (← Machine.sub true length 1)
  let upper ← Dune.stepAtIndex length
  let remainder : U128 := Fin.ofNat (2 ^ 128) (progress % Fin.ofNat (2 ^ 32) halving.interval).val
  let product ← Machine.mul true (← Machine.sub true upper lower) remainder
  Machine.sub true upper (product / Fin.ofNat (2 ^ 128) halving.interval)

/-- `Dune::minimum_at_height` in its integer types. -/
def Dune.checkedMinimumAtHeight (halving : HalvingInterval) (chain : Chain) (height : Fin (2 ^ 32)) : Option U128 := do
  let offset := Machine.saturatingAdd height 1
  let start : Fin (2 ^ 32) := Fin.ofNat (2 ^ 32) chain.firstDuneHeight
  let stop ← Machine.add true start (Fin.ofNat (2 ^ 32) halving.tenfold)
  if offset < start then Dune.stepAtIndex 12
  else if offset ≥ stop then some 0
  else Dune.checkedMinimumAfter halving (Machine.saturatingSub offset start)

/-- The steps between which the shortest name falls, from twelve letters down. -/
def nameStep (k : Nat) : Nat := Dune.STEPS.getD (12 - k) 0

theorem nameStep_succ_le (k : Nat) : nameStep (k + 1) ≤ nameStep k := by
  have hsteps : ∀ k < 12, nameStep (k + 1) ≤ nameStep k := by decide
  by_cases h : k < 12
  · exact hsteps k h
  · unfold nameStep
    rw [show 12 - (k + 1) = 0 by omega, show 12 - k = 0 by omega]

theorem nameStep_antitone : Antitone nameStep := antitone_nat_of_succ_le nameStep_succ_le

/-- Twelve intervals are ten halvings. -/
theorem HalvingInterval.twelve_intervals (halving : HalvingInterval) : 12 * halving.interval = halving.tenfold := by
  obtain ⟨n, hn⟩ := halving.six_dvd
  unfold HalvingInterval.interval HalvingInterval.tenfold
  omega

theorem HalvingInterval.interval_pos (halving : HalvingInterval) : 0 < halving.interval := by
  have htwelve := halving.twelve_intervals
  have hpositive := halving.positive
  unfold HalvingInterval.tenfold at htwelve
  omega

theorem HalvingInterval.interval_lt (halving : HalvingInterval) : halving.interval < 2 ^ 31 := by
  have htwelve := halving.twelve_intervals
  have hfits := halving.fits
  unfold HalvingInterval.tenfold at htwelve
  omega

variable (halving : HalvingInterval)

/-- After all the intervals the step is zero. -/
theorem nameStep_late {x : Nat} (h : halving.tenfold ≤ x) : nameStep (x / halving.interval) = 0 := by
  have hlate : 12 ≤ x / halving.interval := by
    rw [Nat.le_div_iff_mul_le halving.interval_pos, halving.twelve_intervals]
    exact h
  unfold nameStep
  rw [show 12 - x / halving.interval = 0 by omega]
  rfl

/-- **The shortest name is interpolated between the steps**, before the first height and after the last as well. -/
theorem minimumAtHeight_eq (chain : Chain) (height : Nat) :
    Dune.minimumAtHeight halving chain height =
      interpolate nameStep halving.interval (min (height + 1) (2 ^ 32 - 1) - chain.firstDuneHeight) := by
  unfold Dune.minimumAtHeight
  generalize min (height + 1) (2 ^ 32 - 1) = offset
  simp only
  split
  · rename_i hbefore
    rw [show offset - chain.firstDuneHeight = 0 by omega, interpolate_zero]
    rfl
  · split
    · rename_i hafter
      exact (interpolate_of_zero (nameStep_late halving (by omega))).symm
    · rfl

theorem stepAtIndex_eq {i : Fin (2 ^ 32)} {k : Nat} (hi : i.val = 12 - k) :
    ∃ d, Dune.stepAtIndex i = some d ∧ d.val = nameStep k := by
  have hfits : ∀ j < 13, ∃ v, Dune.STEPS[j]? = some v ∧ v < 2 ^ 128 ∧ Dune.STEPS.getD j 0 = v := by
    intro j hj
    have hall : ∀ j < 13, (Dune.STEPS[j]?.isSome ∧ Dune.STEPS.getD j 0 < 2 ^ 128) := by decide
    obtain ⟨hsome, hlt⟩ := hall j hj
    obtain ⟨v, hv⟩ := Option.isSome_iff_exists.mp hsome
    have hget : Dune.STEPS.getD j 0 = v := by
      rw [List.getD_eq_getElem?_getD, hv]
      rfl
    exact ⟨v, hv, hget ▸ hlt, hget⟩
  obtain ⟨v, hv, hlt, hget⟩ := hfits (12 - k) (by omega)
  unfold Dune.stepAtIndex nameStep
  rw [hi, hv, hget]
  exact ⟨_, rfl, Nat.mod_eq_of_lt hlt⟩

/-- Between the first height and the end the length is at least one, the steps descend and the product fits. -/
theorem checkedMinimumAfter_eq {progress : Fin (2 ^ 32)} (h : progress.val < halving.tenfold) :
    (Dune.checkedMinimumAfter halving progress).map Fin.val =
      some (interpolate nameStep halving.interval progress.val) := by
  have hlt := halving.interval_lt
  have hinterval : (Fin.ofNat (2 ^ 32) halving.interval).val = halving.interval := Nat.mod_eq_of_lt (by omega)
  have hq : progress.val / halving.interval < 12 := by
    rw [← halving.twelve_intervals, Nat.mul_comm] at h
    exact Nat.div_lt_of_lt_mul h
  have hr : progress.val % halving.interval < halving.interval := Nat.mod_lt _ halving.interval_pos
  unfold Dune.checkedMinimumAfter interpolate
  generalize hlen : Machine.saturatingSub 12 (progress / Fin.ofNat (2 ^ 32) halving.interval) = length
  have hlength : length.val = 12 - progress.val / halving.interval := by
    rw [← hlen]
    show 12 - (progress / Fin.ofNat (2 ^ 32) halving.interval).val = _
    rw [Fin.div_val, hinterval]
  have hone : (1 : Fin (2 ^ 32)).val = 1 := rfl
  obtain ⟨lower, hlower, hlowerVal⟩ := @stepAtIndex_eq ⟨length.val - 1, by omega⟩ (progress.val / halving.interval + 1)
    (by show length.val - 1 = _; omega)
  obtain ⟨upper, hupper, hupperVal⟩ := stepAtIndex_eq hlength
  have hdown : lower.val ≤ upper.val := by
    rw [hlowerVal, hupperVal]
    exact nameStep_succ_le _
  have htop : upper.val ≤ nameStep 0 := by
    rw [hupperVal]
    exact nameStep_antitone (Nat.zero_le _)
  have hremainder : (Fin.ofNat (2 ^ 128) (progress % Fin.ofNat (2 ^ 32) halving.interval).val).val =
      progress.val % halving.interval := by
    rw [Fin.mod_val, hinterval]
    exact Nat.mod_eq_of_lt (by omega)
  have hproduct : (upper.val - lower.val) * (progress.val % halving.interval) < 2 ^ 128 :=
    calc (upper.val - lower.val) * (progress.val % halving.interval)
        ≤ nameStep 0 * 2 ^ 31 := Nat.mul_le_mul (by omega) (by omega)
      _ < 2 ^ 128 := by decide
  have hfall := fall_le nameStep halving.interval_pos progress.val
  rw [← hlowerVal, ← hupperVal] at hfall
  have hwide : (Fin.ofNat (2 ^ 128) halving.interval).val = halving.interval := Nat.mod_eq_of_lt (by omega)
  simp only [Option.bind_eq_bind]
  rw [Machine.sub_of_le true (by rw [hone]; omega), Option.bind_some]
  simp only [hone]
  rw [hlower, Option.bind_some, hupper, Option.bind_some, Machine.sub_of_le true hdown, Option.bind_some,
    Machine.mul_of_lt true (by rw [hremainder]; exact hproduct), Option.bind_some]
  rw [Machine.sub_of_le true (by rw [Fin.div_val, hwide]; simp only [hremainder]; omega), Option.map_some]
  simp only [Fin.div_val, hwide, hremainder, hlowerVal, hupperVal]

/-- **The code computes the shortest name without a panic**: its indexes are in range, its differences do not
underflow and its products fit. -/
theorem minimumAtHeight_checked (chain : Chain) (height : Fin (2 ^ 32)) :
    (Dune.checkedMinimumAtHeight halving chain height).map Fin.val =
      some (Dune.minimumAtHeight halving chain height.val) := by
  have hstart : (Fin.ofNat (2 ^ 32) chain.firstDuneHeight).val = chain.firstDuneHeight := by
    cases chain <;> rfl
  have hbound : chain.firstDuneHeight ≤ 5084000 := by
    cases chain <;> decide
  have hfits : halving.tenfold < 2 ^ 31 := halving.fits
  have htotal : (Fin.ofNat (2 ^ 32) halving.tenfold).val = halving.tenfold := Nat.mod_eq_of_lt (by omega)
  have hoffset : (Machine.saturatingAdd height 1).val = min (height.val + 1) (2 ^ 32 - 1) := by
    have hlt := height.isLt
    have hone : (1 : Fin (2 ^ 32)).val = 1 := rfl
    unfold Machine.saturatingAdd
    split
    · rename_i hfits
      rw [hone] at hfits
      simp only [hone]
      omega
    · rename_i hfull
      rw [hone] at hfull
      show (2 ^ 32 - 1) % 2 ^ 32 = _
      omega
  rw [minimumAtHeight_eq, ← hoffset]
  unfold Dune.checkedMinimumAtHeight
  generalize Machine.saturatingAdd height 1 = offset
  dsimp only
  rw [Machine.add_of_lt true (by rw [hstart, htotal]; omega), Option.bind_eq_bind, Option.bind_some]
  split
  · rename_i hbefore
    rw [Fin.lt_def, hstart] at hbefore
    obtain ⟨d, hd, hval⟩ := @stepAtIndex_eq 12 0 rfl
    rw [hd, Option.map_some, hval, show offset.val - chain.firstDuneHeight = 0 by omega, interpolate_zero]
  · rename_i hafter
    rw [Fin.lt_def, hstart] at hafter
    split
    · rename_i hend
      rw [ge_iff_le, Fin.le_def] at hend
      simp only [hstart, htotal] at hend
      rw [interpolate_of_zero (nameStep_late halving (by omega))]
      rfl
    · rename_i hbetween
      rw [ge_iff_le, Fin.le_def] at hbetween
      simp only [hstart, htotal] at hbetween
      have hprogress : (Machine.saturatingSub offset (Fin.ofNat (2 ^ 32) chain.firstDuneHeight)).val =
          offset.val - chain.firstDuneHeight := by
        show offset.val - (Fin.ofNat (2 ^ 32) chain.firstDuneHeight).val = _
        rw [hstart]
      rw [checkedMinimumAfter_eq halving (by rw [hprogress]; omega), hprogress]

/-- **The shortest name that may be etched never gets longer**, on any chain: its number never rises with the height,
it is that of thirteen letters up to the first height and zero from the end on, and the code finds it without a
panic. -/
theorem minimum_only_shortens (halving : HalvingInterval) (chain : Chain) :
    (∀ h₁ h₂ : Fin (2 ^ 32), h₁ ≤ h₂ →
      Dune.minimumAtHeight halving chain h₂.val ≤ Dune.minimumAtHeight halving chain h₁.val) ∧
      (∀ h : Fin (2 ^ 32),
        (Dune.checkedMinimumAtHeight halving chain h).map Fin.val = some (Dune.minimumAtHeight halving chain h.val)) ∧
      (∀ h : Fin (2 ^ 32), h.val < chain.firstDuneHeight →
        Dune.minimumAtHeight halving chain h.val = Dune.STEPS.getD 12 0) ∧
      ∀ h : Fin (2 ^ 32), chain.firstDuneHeight + halving.tenfold ≤ h.val + 1 →
        Dune.minimumAtHeight halving chain h.val = 0 := by
  refine ⟨fun h₁ h₂ hle => ?_, minimumAtHeight_checked halving chain, fun h hbefore => ?_, fun h hafter => ?_⟩
  · rw [minimumAtHeight_eq, minimumAtHeight_eq]
    have hval : h₁.val ≤ h₂.val := hle
    exact interpolate_antitone nameStep_antitone halving.interval_pos (by omega)
  · rw [minimumAtHeight_eq, show min (h.val + 1) (2 ^ 32 - 1) - chain.firstDuneHeight = 0 by omega, interpolate_zero]
    rfl
  · have hlt := h.isLt
    have hfits : halving.tenfold < 2 ^ 31 := halving.fits
    have hbound : chain.firstDuneHeight ≤ 5084000 := by
      cases chain <;> decide
    rw [minimumAtHeight_eq, interpolate_of_zero (nameStep_late halving (by omega))]

/-! ## Names as text -/

/-- What makes `from_str` of `Dune` and of `SpacedDune` fail. -/
inductive NameError where
  /-- An overflow in a build with checks, or a failed conversion that is unwrapped. -/
  | panic
  /-- `out of range`. -/
  | outOfRange
  /-- `invalid character in dune name: {c}`. -/
  | invalidDuneCharacter (c : Char)
  | leadingSpacer
  | doubleSpacer
  /-- `invalid character`. -/
  | invalidCharacter
  | trailingSpacer
  deriving DecidableEq

def ALPHABET : List Char := "ABCDEFGHIJKLMNOPQRSTUVWXYZ".toList

def letter (d : Fin 26) : Char := ALPHABET.get (d.cast (by decide))

/-- The letters pushed by the loop of `Display for Dune`, the last letter of the name first. -/
def symbol : Nat → List Char
  | 0 => []
  | n + 1 => letter (Fin.ofNat 26 n) :: symbol (n / 26)
  termination_by n => n
  decreasing_by exact Nat.lt_succ_of_le (Nat.div_le_self n 26)

/-- The name of `u128::max_value()`. -/
def MAX_NAME : List Char := "BCGDENLQRQWDSLRUGSNLBTMFIJAV".toList

/-- `Display for Dune`. -/
def Dune.display (dune : U128) : List Char :=
  if dune.val = 2 ^ 128 - 1 then MAX_NAME else (symbol (dune.val + 1)).reverse

/-- `x += 1` before each character but the first. -/
def Dune.bump (checks : Bool) (i : Nat) (x : U128) : Except NameError U128 :=
  if i > 0 then
    match Machine.add checks x 1 with
    | some x => .ok x
    | none => .error .panic
  else .ok x

def orOutOfRange : Option U128 → Except NameError U128
  | some x => .ok x
  | none => .error .outOfRange

/-- One character of `from_str`. -/
def Dune.push (checks : Bool) (i : Nat) (x : U128) (c : Char) : Except NameError U128 := do
  let x ← Dune.bump checks i x
  let x ← orOutOfRange (Machine.checkedMul x 26)
  if 'A' ≤ c ∧ c ≤ 'Z' then orOutOfRange (Machine.checkedAdd x (Fin.ofNat (2 ^ 128) (c.toNat - 'A'.toNat)))
  else .error (.invalidDuneCharacter c)

/-- The loop of `from_str`, from character `i` on. -/
def Dune.fromStrFrom (checks : Bool) : Nat → U128 → List Char → Except NameError U128
  | _, x, [] => .ok x
  | i, x, c :: cs => do
    let x ← Dune.push checks i x c
    Dune.fromStrFrom checks (i + 1) x cs

/-- `FromStr for Dune`. -/
def Dune.fromStr (checks : Bool) (s : List Char) : Except NameError U128 := Dune.fromStrFrom checks 0 0 s

/-! ### Letters and words -/

/-- The text of a word. -/
def spelled (l : List (Fin 26)) : List Char := l.map letter

theorem letter_toNat : ∀ d : Fin 26, (letter d).toNat = 'A'.toNat + d.val := by
  decide

theorem letter_injective {d e : Fin 26} (h : letter d = letter e) : d = e := by
  have hnat := congrArg Char.toNat h
  rw [letter_toNat, letter_toNat] at hnat
  exact Fin.ext (Nat.add_left_cancel hnat)

theorem spelled_injective {l l' : List (Fin 26)} (h : spelled l = spelled l') : l = l' :=
  List.map_injective_iff.mpr (fun _ _ => letter_injective) h

/-- The characters `'A'..='Z'` are the letters. -/
theorem isLetter_iff (c : Char) : ('A' ≤ c ∧ c ≤ 'Z') ↔ ∃ d, letter d = c := by
  have hle : ∀ a b : Char, a ≤ b ↔ a.toNat ≤ b.toNat := fun a b => UInt32.le_iff_toNat_le
  have hA : 'A'.toNat = 65 := rfl
  have hZ : 'Z'.toNat = 90 := rfl
  rw [hle, hle, hA, hZ]
  constructor
  · rintro ⟨hlow, hhigh⟩
    refine ⟨⟨c.toNat - 65, by omega⟩, ?_⟩
    have hnat : (letter ⟨c.toNat - 65, by omega⟩).toNat = c.toNat := by
      rw [letter_toNat, hA]
      show 65 + (c.toNat - 65) = c.toNat
      omega
    exact Char.toNat_inj.mp hnat
  · rintro ⟨d, rfl⟩
    rw [letter_toNat, hA]
    omega

theorem symbol_reverse (n : Nat) : (symbol n).reverse = spelled (word 26 n) := by
  induction n using Nat.strong_induction_on with
  | _ n ih =>
    cases n with
    | zero =>
      rw [symbol, word_zero]
      rfl
    | succ n =>
      rw [symbol, word_succ, List.reverse_cons, ih (n / 26) (Nat.lt_succ_of_le (Nat.div_le_self n 26))]
      unfold spelled
      rw [List.map_append, List.map_singleton]

/-- The word of the name of the largest number. -/
def maxWord : List (Fin 26) :=
  [1, 2, 6, 3, 4, 13, 11, 16, 17, 16, 22, 3, 18, 11, 17, 20, 6, 18, 13, 11, 1, 19, 12, 5, 8, 9, 0, 21]

theorem spelled_maxWord : spelled maxWord = MAX_NAME := by
  decide

theorem value_maxWord : value maxWord = 2 ^ 128 := by
  decide

/-- **What is displayed is the word of the number**, that of the largest one as well. -/
theorem display_eq (dune : U128) : Dune.display dune = spelled (word 26 (dune.val + 1)) := by
  unfold Dune.display
  split
  · rename_i hmax
    rw [hmax, show 2 ^ 128 - 1 + 1 = 2 ^ 128 from rfl, ← value_maxWord, word_value, spelled_maxWord]
  · exact symbol_reverse _

/-! ### The parser -/

section

variable {checks : Bool} {p : List (Fin 26)} {i j : Nat} {x : U128} {c : Char} {cs : List Char}

/-- The parser after the word `p`: its number is one less, nothing is taken off the empty word. -/
def AfterWord (p : List (Fin 26)) (i : Nat) (x : U128) : Prop :=
  i = p.length ∧ x.val + (if i > 0 then 1 else 0) = value p

theorem AfterWord.nil : AfterWord [] 0 0 := ⟨rfl, rfl⟩

/-- Before the next letter the one is put back on, unless the number is the largest. -/
theorem bump_eq (h : AfterWord p i x) (hmax : value p ≠ 2 ^ 128) :
    ∃ y, Dune.bump checks i x = .ok y ∧ y.val = value p := by
  obtain ⟨-, hval⟩ := h
  unfold Dune.bump
  by_cases hi : i > 0
  · rw [if_pos hi] at hval ⊢
    have hone : (1 : U128).val = 1 := rfl
    have hlt := x.isLt
    rw [Machine.add_of_lt checks (by rw [hone]; omega)]
    exact ⟨_, rfl, hval⟩
  · rw [if_neg hi] at hval ⊢
    exact ⟨x, rfl, hval⟩

theorem orOutOfRange_mul {y : U128} (h : y.val * 26 < 2 ^ 128) :
    orOutOfRange (Machine.checkedMul y 26) = .ok ⟨y.val * 26, h⟩ := by
  unfold Machine.checkedMul
  exact congrArg orOutOfRange (dif_pos h)

theorem orOutOfRange_mul_error {y : U128} (h : ¬ y.val * 26 < 2 ^ 128) :
    orOutOfRange (Machine.checkedMul y 26) = .error .outOfRange := by
  unfold Machine.checkedMul
  exact congrArg orOutOfRange (dif_neg h)

/-- A letter is read as long as the value stays in range. -/
theorem push_letter (checks : Bool) (h : AfterWord p i x) (hmax : value p ≠ 2 ^ 128) (d : Fin 26) :
    (value (p ++ [d]) ≤ 2 ^ 128 ∧ ∃ y, Dune.push checks i x (letter d) = .ok y ∧ AfterWord (p ++ [d]) (i + 1) y) ∨
      (¬ value (p ++ [d]) ≤ 2 ^ 128 ∧ Dune.push checks i x (letter d) = .error .outOfRange) := by
  obtain ⟨y, hbump, hy⟩ := @bump_eq checks _ _ _ h hmax
  have hletter : 'A' ≤ letter d ∧ letter d ≤ 'Z' := (isLetter_iff _).mpr ⟨d, rfl⟩
  have hdigit : (Fin.ofNat (2 ^ 128) ((letter d).toNat - 'A'.toNat)).val = d.val := by
    rw [letter_toNat, Nat.add_sub_cancel_left]
    exact Nat.mod_eq_of_lt (Nat.lt_trans d.isLt (by decide))
  have hvalue := value_append_singleton p d
  rw [← hy] at hvalue
  unfold Dune.push
  rw [hbump, Fallible.ok_bind]
  by_cases hmul : y.val * 26 < 2 ^ 128
  · rw [orOutOfRange_mul hmul, Fallible.ok_bind, if_pos hletter]
    unfold Machine.checkedAdd
    by_cases hadd : y.val * 26 + d.val < 2 ^ 128
    · refine .inl ⟨by omega, ⟨y.val * 26 + d.val, hadd⟩, ?_, ?_, ?_⟩
      · simp only [hdigit]
        rw [dif_pos hadd]
        rfl
      · rw [h.1, List.length_append, List.length_singleton]
      · rw [if_pos (Nat.succ_pos i), hvalue]
    · refine .inr ⟨by omega, ?_⟩
      simp only [hdigit]
      rw [dif_neg hadd]
      rfl
  · exact .inr ⟨by omega, by rw [orOutOfRange_mul_error hmul]; rfl⟩

/-- Another character is an error. -/
theorem push_other (checks : Bool) (h : AfterWord p i x) (hmax : value p ≠ 2 ^ 128) (hc : ¬ ∃ d, letter d = c) :
    ∃ e, e ≠ NameError.panic ∧ Dune.push checks i x c = .error e := by
  obtain ⟨y, hbump, -⟩ := @bump_eq checks _ _ _ h hmax
  unfold Dune.push
  rw [hbump, Fallible.ok_bind]
  by_cases hmul : y.val * 26 < 2 ^ 128
  · rw [orOutOfRange_mul hmul, Fallible.ok_bind, if_neg (mt (isLetter_iff c).mp hc)]
    exact ⟨.invalidDuneCharacter c, by simp, rfl⟩
  · rw [orOutOfRange_mul_error hmul]
    exact ⟨.outOfRange, by simp, rfl⟩

/-- **What the parser makes of a text** behind a word: the number of a name in range; an error; or it comes to the
largest number with more characters to read. -/
theorem fromStrFrom_cases (checks : Bool) (h : AfterWord p i x) (cs : List Char) :
    (∃ l y, cs = spelled l ∧ value (p ++ l) ≤ 2 ^ 128 ∧ Dune.fromStrFrom checks i x cs = .ok y ∧
        AfterWord (p ++ l) (i + l.length) y) ∨
      (∃ e, e ≠ NameError.panic ∧ Dune.fromStrFrom checks i x cs = .error e ∧
        ∀ l, cs = spelled l → ¬ value (p ++ l) ≤ 2 ^ 128) ∨
      ∃ l t y, cs = spelled l ++ t ∧ t ≠ [] ∧ value (p ++ l) = 2 ^ 128 ∧ AfterWord (p ++ l) (i + l.length) y ∧
        Dune.fromStrFrom checks i x cs = Dune.fromStrFrom checks (i + l.length) y t := by
  induction cs generalizing p i x with
  | nil =>
    refine .inl ⟨[], x, rfl, ?_, rfl, by simpa using h⟩
    have hlt := x.isLt
    have hval := h.2
    rw [List.append_nil]
    split at hval <;> omega
  | cons c cs ih =>
    by_cases hmax : value p = 2 ^ 128
    · exact .inr (.inr ⟨[], c :: cs, x, rfl, by simp, by simpa using hmax, by simpa using h, rfl⟩)
    · by_cases hc : ∃ d, letter d = c
      · obtain ⟨d, rfl⟩ := hc
        rcases push_letter checks h hmax d with ⟨hle, y, hpush, hafter⟩ | ⟨hgt, hpush⟩
        · have hstep : Dune.fromStrFrom checks i x (letter d :: cs) = Dune.fromStrFrom checks (i + 1) y cs := by
            rw [Dune.fromStrFrom, hpush, Fallible.ok_bind]
          have hword : ∀ l : List (Fin 26), p ++ d :: l = p ++ [d] ++ l := fun l => by simp
          have hlen : ∀ l : List (Fin 26), i + (d :: l).length = i + 1 + l.length := fun l => by
            rw [List.length_cons]
            omega
          rcases ih hafter with ⟨l, z, hcs, hl, hok, hz⟩ | ⟨e, he, herr, hout⟩ | ⟨l, t, z, hcs, ht, hl, hz, hrest⟩
          · refine .inl ⟨d :: l, z, by rw [hcs]; rfl, ?_, by rw [hstep, hok], ?_⟩
            · rwa [hword]
            · rwa [hword, hlen]
          · refine .inr (.inl ⟨e, he, by rw [hstep, herr], fun l hl => ?_⟩)
            cases l with
            | nil => cases hl
            | cons d' l =>
              obtain ⟨hd, hl⟩ := List.cons.inj hl
              rw [← letter_injective hd, hword]
              exact hout l hl
          · refine .inr (.inr ⟨d :: l, t, z, by rw [hcs]; rfl, ht, ?_, ?_, ?_⟩)
            · rwa [hword]
            · rwa [hword, hlen]
            · rw [hstep, hrest, hlen]
        · refine .inr (.inl ⟨.outOfRange, by simp, by rw [Dune.fromStrFrom, hpush]; rfl, fun l hl hle => ?_⟩)
          cases l with
          | nil => cases hl
          | cons d' l =>
            obtain ⟨hd, -⟩ := List.cons.inj hl
            rw [← letter_injective hd] at hle
            by_cases hnil : l = []
            · exact hgt (hnil ▸ hle)
            · have hlonger := value_lt_append (p ++ [d]) hnil
              rw [List.append_assoc, List.singleton_append] at hlonger
              omega
      · obtain ⟨e, he, hpush⟩ := push_other checks h hmax hc
        refine .inr (.inl ⟨e, he, by rw [Dune.fromStrFrom, hpush]; rfl, fun l hl _ => ?_⟩)
        cases l with
        | nil => cases hl
        | cons d l => exact hc ⟨d, (List.cons.inj hl).1.symm⟩

/-- **A word in range is read letter by letter**, whatever follows it. -/
theorem fromStrFrom_append (checks : Bool) (h : AfterWord p i x) {l : List (Fin 26)} (hl : value (p ++ l) ≤ 2 ^ 128) :
    ∃ y, AfterWord (p ++ l) (i + l.length) y ∧
      ∀ t, Dune.fromStrFrom checks i x (spelled l ++ t) = Dune.fromStrFrom checks (i + l.length) y t := by
  induction l generalizing p i x with
  | nil => exact ⟨x, by simpa using h, fun t => rfl⟩
  | cons d l ih =>
    have hword : p ++ d :: l = p ++ [d] ++ l := by simp
    have hlen : i + (d :: l).length = i + 1 + l.length := by
      rw [List.length_cons]
      omega
    have hlonger := value_lt_append p (List.cons_ne_nil d l)
    have hfirst : value (p ++ [d]) ≤ value (p ++ d :: l) := by
      rw [hword]
      by_cases hnil : l = []
      · rw [hnil, List.append_nil]
      · exact Nat.le_of_lt (value_lt_append _ hnil)
    rcases push_letter checks h (by omega) d with ⟨-, y, hpush, hafter⟩ | ⟨hgt, -⟩
    · obtain ⟨z, hz, hrest⟩ := ih hafter (by rwa [← hword])
      refine ⟨z, by rwa [hword, hlen], fun t => ?_⟩
      show Dune.fromStrFrom checks i x (letter d :: (spelled l ++ t)) = _
      rw [Dune.fromStrFrom, hpush, Fallible.ok_bind, hrest, hlen]
    · omega

/-- Behind the first character the index no longer matters. -/
theorem fromStrFrom_pos (checks : Bool) (hi : 0 < i) (hj : 0 < j) (x : U128) (cs : List Char) :
    Dune.fromStrFrom checks i x cs = Dune.fromStrFrom checks j x cs := by
  induction cs generalizing i j x with
  | nil => rfl
  | cons c cs ih =>
    have hpush : Dune.push checks i x c = Dune.push checks j x c := by
      unfold Dune.push Dune.bump
      rw [if_pos hi, if_pos hj]
    rw [Dune.fromStrFrom, Dune.fromStrFrom, hpush]
    exact congrArg _ (funext fun y => ih (Nat.succ_pos i) (Nat.succ_pos j) y)

/-- After the largest name the number is the largest. -/
theorem AfterWord.max (h : AfterWord p i x) (hmax : value p = 2 ^ 128) : i > 0 ∧ x.val + 1 = 2 ^ 128 := by
  obtain ⟨-, hval⟩ := h
  have hlt := x.isLt
  by_cases hi : i > 0
  · rw [if_pos hi] at hval
    exact ⟨hi, by omega⟩
  · rw [if_neg hi] at hval
    omega

/-- **At the largest number the addition overflows**: with checks it panics. -/
theorem fromStrFrom_max_checked (h : AfterWord p i x) (hmax : value p = 2 ^ 128) (hcs : cs ≠ []) :
    Dune.fromStrFrom true i x cs = .error .panic := by
  obtain ⟨hpos, hval⟩ := h.max hmax
  cases cs with
  | nil => exact absurd rfl hcs
  | cons c cs =>
    have hbump : Dune.bump true i x = .error .panic := by
      have hone : (1 : U128).val = 1 := rfl
      unfold Dune.bump Machine.add
      rw [if_pos hpos, if_pos (by simp only [hone, Bool.true_and, decide_eq_true_eq]; omega)]
    rw [Dune.fromStrFrom, Dune.push, hbump]
    rfl

/-- **Without checks it wraps to zero**, and what follows is read as a name of its own. -/
theorem fromStrFrom_max_wrapped (h : AfterWord p i x) (hmax : value p = 2 ^ 128) (hcs : cs ≠ []) :
    Dune.fromStrFrom false i x cs = Dune.fromStr false cs := by
  obtain ⟨hpos, hval⟩ := h.max hmax
  cases cs with
  | nil => exact absurd rfl hcs
  | cons c cs =>
    have hbump : Dune.bump false i x = Dune.bump false 0 0 := by
      unfold Dune.bump Machine.add
      rw [if_pos hpos, if_neg (Nat.lt_irrefl 0)]
      refine congrArg Except.ok (Fin.ext ?_)
      have hone : (1 : U128).val = 1 := rfl
      rw [Fin.val_add, hone, hval, Fin.val_zero, Nat.mod_self]
    unfold Dune.fromStr
    rw [Dune.fromStrFrom, Dune.fromStrFrom, Dune.push, hbump]
    exact congrArg _ (funext fun y => fromStrFrom_pos false (Nat.succ_pos i) (Nat.succ_pos 0) y cs)

/-- A word in range is read as its number. -/
theorem fromStr_spelled (checks : Bool) {l : List (Fin 26)} (hne : l ≠ []) (hl : value l ≤ 2 ^ 128) :
    ∃ y, Dune.fromStr checks (spelled l) = .ok y ∧ y.val + 1 = value l := by
  obtain ⟨y, ⟨hlen, hval⟩, hrest⟩ := @fromStrFrom_append [] 0 0 checks AfterWord.nil l hl
  have hread := hrest []
  rw [List.append_nil] at hread
  rw [if_pos (by rw [hlen]; exact List.length_pos_iff.mpr hne)] at hval
  exact ⟨y, hread, hval⟩

theorem display_of_value {y : U128} {l : List (Fin 26)} (h : y.val + 1 = value l) : Dune.display y = spelled l := by
  rw [display_eq, h, word_value]

/-- **The displayed name of a number is read back.** -/
theorem fromStr_display (checks : Bool) (n : U128) : Dune.fromStr checks (Dune.display n) = .ok n := by
  have hvalue := value_word 26 (n.val + 1)
  have hne : word 26 (n.val + 1) ≠ [] := by
    intro hnil
    rw [hnil, value_nil] at hvalue
    omega
  obtain ⟨y, hread, hy⟩ := fromStr_spelled checks hne (by have hlt := n.isLt; omega)
  rw [display_eq, hread]
  exact congrArg Except.ok (Fin.ext (by omega))

/-- Copies of the largest name. -/
def maxNames (k : Nat) : List Char := (List.replicate k MAX_NAME).flatten

theorem maxNames_succ (k : Nat) : maxNames (k + 1) = MAX_NAME ++ maxNames k := rfl

/-- Without checks copies of the largest name in front change nothing. -/
theorem fromStr_maxNames {t : List Char} (ht : t ≠ []) (k : Nat) :
    Dune.fromStr false (maxNames k ++ t) = Dune.fromStr false t := by
  induction k with
  | zero => rfl
  | succ k ih =>
    obtain ⟨y, hafter, hrest⟩ := @fromStrFrom_append [] 0 0 false AfterWord.nil maxWord
      (by rw [List.nil_append, value_maxWord])
    rw [List.nil_append] at hafter
    rw [maxNames_succ, List.append_assoc, ← spelled_maxWord, Dune.fromStr, hrest,
      fromStrFrom_max_wrapped hafter value_maxWord (by simp [ht]), ih]

/-- **What the parser makes of a whole text**: a name in range; an error; or the largest name and more. -/
theorem fromStr_cases (checks : Bool) {s : List Char} (hs : s ≠ []) :
    (∃ l y, l ≠ [] ∧ s = spelled l ∧ value l ≤ 2 ^ 128 ∧ Dune.fromStr checks s = .ok y ∧ y.val + 1 = value l) ∨
      (∃ e, e ≠ NameError.panic ∧ Dune.fromStr checks s = .error e) ∨
      ∃ t, t ≠ [] ∧ s = MAX_NAME ++ t := by
  rcases fromStrFrom_cases checks AfterWord.nil s with ⟨l, y, hsl, hl, hok, -, hval⟩ | ⟨e, he, herr, -⟩ |
    ⟨l, t, y, hsl, ht, hl, -, -⟩
  · have hne : l ≠ [] := by
      rintro rfl
      exact hs hsl
    rw [if_pos (by have := List.length_pos_iff.mpr hne; omega)] at hval
    exact .inl ⟨l, y, hne, hsl, hl, hok, hval⟩
  · exact .inr (.inl ⟨e, he, herr⟩)
  · rw [List.nil_append, ← value_maxWord] at hl
    exact .inr (.inr ⟨t, ht, by rw [hsl, value_injective hl, spelled_maxWord]⟩)

/-- With checks the largest name and more is a panic. -/
theorem fromStr_overrun {t : List Char} (ht : t ≠ []) : Dune.fromStr true (MAX_NAME ++ t) = .error .panic := by
  obtain ⟨y, hafter, hrest⟩ := @fromStrFrom_append [] 0 0 true AfterWord.nil maxWord
    (by rw [List.nil_append, value_maxWord])
  rw [List.nil_append] at hafter
  rw [← spelled_maxWord, Dune.fromStr, hrest, fromStrFrom_max_checked hafter value_maxWord ht]

/-- **Without checks** a text is read when it is a name in range behind copies of the largest one; nothing panics. -/
theorem fromStr_unchecked (n : Nat) {s : List Char} (hlen : s.length ≤ n) (hs : s ≠ []) :
    (∃ k l y, l ≠ [] ∧ s = maxNames k ++ spelled l ∧ value l ≤ 2 ^ 128 ∧ Dune.fromStr false s = .ok y ∧
        y.val + 1 = value l) ∨
      ∃ e, e ≠ NameError.panic ∧ Dune.fromStr false s = .error e := by
  induction n generalizing s with
  | zero => exact absurd (List.length_eq_zero_iff.mp (Nat.le_zero.mp hlen)) hs
  | succ n ih =>
    rcases fromStr_cases false hs with ⟨l, y, hne, hsl, hl, hok, hval⟩ | herr | ⟨t, ht, rfl⟩
    · exact .inl ⟨0, l, y, hne, hsl, hl, hok, hval⟩
    · exact .inr herr
    · have hread := fromStr_maxNames ht 1
      rw [maxNames_succ, show maxNames 0 = [] from rfl, List.append_nil] at hread
      have hshort : t.length ≤ n := by
        have h28 : MAX_NAME.length = 28 := rfl
        rw [List.length_append] at hlen
        omega
      rcases ih hshort ht with ⟨k, l, y, hne, rfl, hl, hok, hval⟩ | ⟨e, he, herr⟩
      · exact .inl ⟨k + 1, l, y, hne, by rw [maxNames_succ, List.append_assoc], hl, by rw [hread, hok], hval⟩
      · exact .inr ⟨e, he, by rw [hread, herr]⟩

end

/-! ### Which texts are names -/

/-- The text is handled as a name: no panic, what is accepted is displayed as the text, a number out of range is
rejected. -/
structure Dune.Faithful (checks : Bool) (s : List Char) : Prop where
  noPanic : Dune.fromStr checks s ≠ .error .panic
  displayed : ∀ y, Dune.fromStr checks s = .ok y → Dune.display y = s
  rejected : ∀ l, s = spelled l → 2 ^ 128 < value l → ∃ e, Dune.fromStr checks s = .error e

/-- The text goes on behind the largest name: with anything in a build with checks; without, with a name in range,
behind one copy or more. -/
def Dune.Overruns : Bool → List Char → Prop
  | true, s => ∃ t, t ≠ [] ∧ s = MAX_NAME ++ t
  | false, s => ∃ k l, 0 < k ∧ l ≠ [] ∧ value l ≤ 2 ^ 128 ∧ s = maxNames k ++ spelled l

theorem not_faithful_nil (checks : Bool) : ¬ Dune.Faithful checks [] := by
  intro h
  have hdisplay := h.displayed 0 rfl
  rw [display_eq] at hdisplay
  have hword := value_word 26 ((0 : U128).val + 1)
  rw [show word 26 ((0 : U128).val + 1) = [] from List.map_eq_nil_iff.mp hdisplay] at hword
  exact absurd hword (by decide)

theorem not_faithful_of_overruns {checks : Bool} {s : List Char} (h : Dune.Overruns checks s) :
    ¬ Dune.Faithful checks s := by
  intro hfaithful
  cases checks with
  | true =>
    obtain ⟨t, ht, rfl⟩ := h
    exact hfaithful.noPanic (fromStr_overrun ht)
  | false =>
    obtain ⟨k, l, hk, hne, hl, rfl⟩ := h
    obtain ⟨y, hread, hval⟩ := fromStr_spelled false hne hl
    have hspelled : spelled l ≠ [] := fun hnil => hne (List.map_eq_nil_iff.mp hnil)
    rw [← fromStr_maxNames hspelled k] at hread
    have hdisplay := hfaithful.displayed y hread
    rw [display_of_value hval] at hdisplay
    -- the name alone is shorter than the text
    have hlen := congrArg List.length hdisplay
    obtain ⟨k, rfl⟩ : ∃ j, k = j + 1 := ⟨k - 1, by omega⟩
    have h28 : MAX_NAME.length = 28 := rfl
    rw [maxNames_succ, List.append_assoc, List.length_append, List.length_append] at hlen
    omega

/-- **Names and numbers.**  Every number is read back from its name; a text is handled as a name exactly when it is not
empty and does not go on behind the largest name. -/
theorem dune_names_iff (checks : Bool) :
    (∀ n, Dune.fromStr checks (Dune.display n) = .ok n) ∧
      ∀ s, Dune.Faithful checks s ↔ s ≠ [] ∧ ¬ Dune.Overruns checks s := by
  refine ⟨fromStr_display checks, fun s => ⟨fun h => ⟨?_, fun hover => not_faithful_of_overruns hover h⟩, ?_⟩⟩
  · rintro rfl
    exact not_faithful_nil checks h
  · rintro ⟨hs, hover⟩
    have hname : (∃ l y, s = spelled l ∧ value l ≤ 2 ^ 128 ∧ Dune.fromStr checks s = .ok y ∧ y.val + 1 = value l) ∨
        ∃ e, e ≠ NameError.panic ∧ Dune.fromStr checks s = .error e := by
      cases checks with
      | true =>
        rcases fromStr_cases true hs with ⟨l, y, -, hsl, hl, hok, hval⟩ | herr | ht
        · exact .inl ⟨l, y, hsl, hl, hok, hval⟩
        · exact .inr herr
        · exact absurd ht hover
      | false =>
        rcases fromStr_unchecked s.length (le_refl _) hs with ⟨k, l, y, hne, hsl, hl, hok, hval⟩ | herr
        · by_cases hk : 0 < k
          · exact absurd ⟨k, l, hk, hne, hl, hsl⟩ hover
          · rw [Nat.eq_zero_of_not_pos hk] at hsl
            exact .inl ⟨l, y, hsl, hl, hok, hval⟩
        · exact .inr herr
    rcases hname with ⟨l, y, hsl, hl, hok, hval⟩ | ⟨e, he, herr⟩
    · refine ⟨?_, fun z hz => ?_, fun l' hl' hgt => ?_⟩
      · rw [hok]
        simp
      · rw [hok] at hz
        cases hz
        rw [display_of_value hval, hsl]
      · rw [hsl] at hl'
        rw [← spelled_injective hl'] at hgt
        omega
    · refine ⟨?_, fun z hz => ?_, fun _ _ _ => ⟨e, herr⟩⟩
      · rw [herr]
        simpa using he
      · rw [herr] at hz
        cases hz

/-- The empty text is read as the number of `A`; behind the largest name a letter panics, or is read alone. -/
theorem dune_names_fail :
    (Dune.fromStr true [] = .ok 0 ∧ ¬ Dune.Faithful true []) ∧
      Dune.fromStr true (MAX_NAME ++ ['B']) = .error .panic ∧
      Dune.fromStr false (MAX_NAME ++ ['B']) = .ok 1 ∧ ¬ Dune.Faithful false (MAX_NAME ++ ['B']) := by
  have hwrapped : Dune.fromStr false (maxNames 1 ++ ['B']) = .ok 1 := fromStr_maxNames (by simp) 1
  refine ⟨⟨rfl, not_faithful_nil true⟩, fromStr_overrun (by simp), hwrapped, ?_⟩
  exact not_faithful_of_overruns ⟨1, [1], by decide, by simp, by decide, rfl⟩

end DogeIndexer.Compressor
