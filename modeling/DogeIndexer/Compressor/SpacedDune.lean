import DogeIndexer.Compressor.Dune
import Mathlib.Data.Nat.Size

/-!
# Spaced dunes

Model of `storage/runes/dunes/spaced_dune.rs`: a name with bullets between its letters, as a number and a set of
positions in 32 bits.  The parser sets a bit for each spacer when it comes to it, before it knows how many letters
there are.

* `scan_cases` — what the parser makes of the characters.
* `display_eq_spell` — what is displayed, as letters with flags.
* `spaced_dunes_iff` — exactly which texts are handled as spaced names.
-/

set_option autoImplicit false

namespace DogeIndexer.Compressor

open Bijective

structure SpacedDune where
  dune : U128
  spacers : BitVec 32
  deriving DecidableEq

namespace SpacedDune

/-- `1 << k` of a `u32`: a shift by 32 or more panics with overflow checks, without them it is by the last five bits. -/
def flag (checks : Bool) (k : Nat) : Except NameError (BitVec 32) :=
  if checks ∧ k ≥ 32 then .error .panic else .ok (1#32 <<< (k % 32))

/-- One character of the loop of `from_str`. -/
def scanChar (checks : Bool) (state : List Char × BitVec 32) (c : Char) : Except NameError (List Char × BitVec 32) :=
  if 'A' ≤ c ∧ c ≤ 'Z' then .ok (state.1 ++ [c], state.2)
  else if c = '.' ∨ c = '•' then
    if state.1.length < 1 then .error .leadingSpacer
    else do
      let flag ← flag checks (state.1.length - 1)
      if state.2 &&& flag ≠ 0 then .error .doubleSpacer else .ok (state.1, state.2 ||| flag)
  else .error .invalidCharacter

/-- The loop of `from_str`, from a name and spacers on. -/
def scan (checks : Bool) : List Char × BitVec 32 → List Char → Except NameError (List Char × BitVec 32)
  | state, [] => .ok state
  | state, c :: cs => do
    let state ← scanChar checks state c
    scan checks state cs

/-- `u32::leading_zeros`. -/
def leadingZeros (x : BitVec 32) : Nat := 32 - x.toNat.size

/-- `FromStr for SpacedDune`; the length of the name is converted to a `u32`. -/
def fromStr (checks : Bool) (s : List Char) : Except NameError SpacedDune := do
  let (dune, spacers) ← scan checks ([], 0) s
  if dune.length ≥ 2 ^ 32 then .error .panic
  else if 32 - leadingZeros spacers ≥ dune.length then .error .trailingSpacer
  else do
    let dune ← Dune.fromStr checks dune
    return ⟨dune, spacers⟩

/-- `Display for SpacedDune`. -/
def display (d : SpacedDune) : List Char :=
  let dune := Dune.display d.dune
  dune.zipIdx.flatMap fun (c, i) => c :: if i < dune.length - 1 ∧ d.spacers &&& (1#32 <<< i) ≠ 0 then ['•'] else []

end SpacedDune

/-! ## Names with flags -/

/-- The text of letters with flags for the spacers behind them. -/
def spell (w : List (Fin 26 × Bool)) : List Char :=
  w.flatMap fun x => letter x.1 :: if x.2 then ['•'] else []

/-- A text with bullets for dots. -/
def bulleted (s : List Char) : List Char := s.map fun c => if c = '.' then '•' else c

/-! ### Bits -/

theorem shifted_bit {k : Nat} (hk : k < 32) (i : Nat) : (1#32 <<< k).getLsbD i = decide (i = k) := by
  rw [BitVec.getLsbD_shiftLeft, BitVec.getLsbD_one]
  by_cases hik : i = k
  · subst hik
    simp [hk]
  · simp [hik]
    omega

/-- A spacer is set where its bit is. -/
theorem flag_set_iff {x : BitVec 32} {k : Nat} (hk : k < 32) : x &&& (1#32 <<< k) ≠ 0 ↔ x.getLsbD k = true := by
  constructor
  · intro h
    by_contra hbit
    refine h (BitVec.eq_of_getLsbD_eq fun i _ => ?_)
    rw [BitVec.getLsbD_and, shifted_bit hk]
    by_cases hik : i = k
    · rw [hik, Bool.eq_false_iff.mpr hbit]
      simp
    · simp [hik]
  · intro h hzero
    have hbit := congrArg (fun y => y.getLsbD k) hzero
    simp only [BitVec.getLsbD_and, shifted_bit hk, h] at hbit
    simp at hbit

/-- Setting a spacer. -/
theorem or_flag_bit {x : BitVec 32} {k : Nat} (hk : k < 32) (i : Nat) :
    (x ||| (1#32 <<< k)).getLsbD i = (x.getLsbD i || decide (i = k)) := by
  rw [BitVec.getLsbD_or, shifted_bit hk]

/-- As many bits are needed as the largest spacer asks for. -/
theorem bits_lt_iff (x : BitVec 32) (n : Nat) : x.toNat < 2 ^ n ↔ ∀ i, n ≤ i → x.getLsbD i = false := by
  constructor
  · intro h i hi
    exact Nat.testBit_lt_two_pow (Nat.lt_of_lt_of_le h (Nat.pow_le_pow_right (by decide) hi))
  · intro h
    exact Nat.lt_pow_two_of_testBit _ fun i hi => h i hi

theorem not_leadingZeros (x : BitVec 32) : 32 - SpacedDune.leadingZeros x = x.toNat.size := by
  have hsize : x.toNat.size ≤ 32 := Nat.size_le.mpr x.isLt
  unfold SpacedDune.leadingZeros
  omega

/-- Another flag behind a list of them. -/
theorem getD_append_flag (l : List Bool) (b : Bool) (i : Nat) :
    (l ++ [b]).getD i false = (l.getD i false || (decide (i = l.length) && b)) := by
  simp only [List.getD_eq_getElem?_getD]
  rcases Nat.lt_trichotomy i l.length with hlt | rfl | hgt
  · rw [List.getElem?_append_left hlt]
    simp [Nat.ne_of_lt hlt]
  · simp
  · rw [List.getElem?_eq_none (by simp; omega), List.getElem?_eq_none (by omega)]
    simp [Nat.ne_of_gt hgt]

/-! ## The loop over the characters -/

section

variable {w : List (Fin 26 × Bool)} {s : List Char}

theorem spell_append (w w' : List (Fin 26 × Bool)) : spell (w ++ w') = spell w ++ spell w' := List.flatMap_append

theorem spell_letter (w : List (Fin 26 × Bool)) (d : Fin 26) : spell (w ++ [(d, false)]) = spell w ++ [letter d] := by
  rw [spell_append]
  rfl

theorem spell_spacer (w : List (Fin 26 × Bool)) (d : Fin 26) :
    spell (w ++ [(d, true)]) = spell w ++ [letter d] ++ ['•'] := by
  rw [spell_append, List.append_assoc]
  rfl

/-- The name and the spacers that were collected from letters with flags. -/
structure Scanned (w : List (Fin 26 × Bool)) (state : List Char × BitVec 32) : Prop where
  name : state.1 = spelled (w.map Prod.fst)
  bits : ∀ i, state.2.getLsbD i = (w.map Prod.snd).getD i false

theorem Scanned.nil : Scanned [] ([], 0) := ⟨rfl, fun i => by simp⟩

theorem Scanned.length {state : List Char × BitVec 32} (h : Scanned w state) : state.1.length = w.length := by
  rw [h.name, spelled, List.length_map, List.length_map]

/-- A letter is added without a spacer. -/
theorem Scanned.letter {state : List Char × BitVec 32} (h : Scanned w state) (d : Fin 26) :
    ∃ state', (∀ checks, SpacedDune.scanChar checks state (letter d) = .ok state') ∧
      Scanned (w ++ [(d, false)]) state' := by
  have hletter : 'A' ≤ Compressor.letter d ∧ Compressor.letter d ≤ 'Z' := (isLetter_iff _).mpr ⟨d, rfl⟩
  refine ⟨(state.1 ++ [Compressor.letter d], state.2), fun checks => if_pos hletter, ?_, fun i => ?_⟩
  · rw [h.name]
    simp [spelled]
  · rw [List.map_append, List.map_singleton, getD_append_flag, Bool.and_false, Bool.or_false]
    exact h.bits i

/-- A spacer behind letters. -/
theorem scanChar_spacer (checks : Bool) {state : List Char × BitVec 32} {n : Nat} (hlen : state.1.length = n + 1) :
    SpacedDune.scanChar checks state '•' =
      SpacedDune.flag checks n >>= fun flag =>
        if state.2 &&& flag ≠ 0 then .error .doubleSpacer else .ok (state.1, state.2 ||| flag) := by
  have hno : ¬ ('A' ≤ '•' ∧ '•' ≤ 'Z') := by decide
  unfold SpacedDune.scanChar
  rw [if_neg hno, if_pos (.inr rfl), if_neg (by omega), hlen, Nat.add_sub_cancel]

/-- A spacer is taken for one only behind a letter: its bit is set, unless the shift goes out of range or the spacer is
the second. -/
theorem Scanned.spacer {state : List Char × BitVec 32} {d : Fin 26} {b : Bool} (h : Scanned (w ++ [(d, b)]) state) :
    (32 ≤ w.length ∧ SpacedDune.scanChar true state '•' = .error .panic) ∨
      (w.length < 32 ∧ b = true ∧ ∀ checks, SpacedDune.scanChar checks state '•' = .error .doubleSpacer) ∨
      (w.length < 32 ∧ b = false ∧
        ∃ state', (∀ checks, SpacedDune.scanChar checks state '•' = .ok state') ∧ Scanned (w ++ [(d, true)]) state') := by
  have hlen : state.1.length = w.length + 1 := by
    rw [h.length, List.length_append, List.length_singleton]
  have hflags : (w.map Prod.snd).length = w.length := List.length_map _
  rcases Nat.lt_or_ge w.length 32 with hlt | hge
  · have hlast : state.2.getLsbD w.length = b := by
      rw [h.bits, List.map_append, List.map_singleton, getD_append_flag, hflags, List.getD_eq_getElem?_getD,
        List.getElem?_eq_none (by omega)]
      simp
    have hread : ∀ checks, SpacedDune.scanChar checks state '•' =
        if state.2 &&& (1#32 <<< w.length) ≠ 0 then .error .doubleSpacer
        else .ok (state.1, state.2 ||| (1#32 <<< w.length)) := by
      intro checks
      have hflag : SpacedDune.flag checks w.length = .ok (1#32 <<< w.length) := by
        unfold SpacedDune.flag
        rw [if_neg (by omega), Nat.mod_eq_of_lt hlt]
      rw [scanChar_spacer checks hlen, hflag, Fallible.ok_bind]
    cases b with
    | true =>
      refine .inr (.inl ⟨hlt, rfl, fun checks => ?_⟩)
      rw [hread, if_pos ((flag_set_iff hlt).mpr hlast)]
    | false =>
      have hunset : ¬ (state.2 &&& (1#32 <<< w.length) ≠ 0) := by
        rw [flag_set_iff hlt, hlast]
        simp
      refine .inr (.inr ⟨hlt, rfl, _, fun checks => (hread checks).trans (if_neg hunset), ?_, fun i => ?_⟩)
      · show state.1 = _
        rw [h.name, List.map_append, List.map_append]
        rfl
      · rw [or_flag_bit hlt, h.bits, List.map_append, List.map_append, List.map_singleton, List.map_singleton,
          getD_append_flag, getD_append_flag, hflags]
        simp
  · refine .inl ⟨hge, ?_⟩
    have hflag : SpacedDune.flag true w.length = .error .panic := if_pos ⟨rfl, hge⟩
    rw [scanChar_spacer true hlen, hflag]
    rfl

theorem scan_append (checks : Bool) (state : List Char × BitVec 32) (s t : List Char) :
    SpacedDune.scan checks state (s ++ t) =
      SpacedDune.scan checks state s >>= fun state => SpacedDune.scan checks state t := by
  induction s generalizing state with
  | nil => rfl
  | cons c s ih =>
    rw [List.cons_append, SpacedDune.scan, SpacedDune.scan]
    cases SpacedDune.scanChar checks state c with
    | ok state' => exact ih state'
    | error e => rfl

theorem scan_singleton (checks : Bool) (state : List Char × BitVec 32) (c : Char) :
    SpacedDune.scan checks state [c] = SpacedDune.scanChar checks state c := by
  rw [SpacedDune.scan]
  exact bind_pure _

/-- A dot is read as a bullet. -/
theorem scanChar_dot (checks : Bool) (state : List Char × BitVec 32) :
    SpacedDune.scanChar checks state '.' = SpacedDune.scanChar checks state '•' := by
  have hdot : ¬ ('A' ≤ '.' ∧ '.' ≤ 'Z') := by decide
  have hbullet : ¬ ('A' ≤ '•' ∧ '•' ≤ 'Z') := by decide
  unfold SpacedDune.scanChar
  rw [if_neg hdot, if_neg hbullet]
  exact (if_pos (.inl rfl)).trans (if_pos (.inr rfl)).symm

theorem scan_bulleted (checks : Bool) (state : List Char × BitVec 32) (s : List Char) :
    SpacedDune.scan checks state (bulleted s) = SpacedDune.scan checks state s := by
  induction s generalizing state with
  | nil => rfl
  | cons c s ih =>
    have hchar : SpacedDune.scanChar checks state (if c = '.' then '•' else c) = SpacedDune.scanChar checks state c := by
      split
      · rename_i hc
        rw [hc, scanChar_dot]
      · rfl
    show SpacedDune.scan checks state ((if c = '.' then '•' else c) :: bulleted s) = _
    rw [SpacedDune.scan, SpacedDune.scan, hchar]
    exact congrArg _ (funext ih)

/-- **Letters with flags are collected**, in any build, unless a flag is out of the range of the shifts. -/
theorem scan_spell (w : List (Fin 26 × Bool)) :
    (∃ state, (∀ checks, SpacedDune.scan checks ([], 0) (spell w) = .ok state) ∧ Scanned w state) ∨
      ((∃ i, 32 ≤ i ∧ (w.map Prod.snd).getD i false = true) ∧
        SpacedDune.scan true ([], 0) (spell w) = .error .panic) := by
  induction w using List.reverseRecOn with
  | nil => exact .inl ⟨([], 0), fun _ => rfl, Scanned.nil⟩
  | append_singleton w x ih =>
    obtain ⟨d, b⟩ := x
    rcases ih with ⟨state, hscan, hstate⟩ | ⟨⟨i, hi, hflag⟩, hpanic⟩
    · obtain ⟨lettered, hletter, hlettered⟩ := hstate.letter d
      have hread : ∀ checks, SpacedDune.scan checks ([], 0) (spell w ++ [letter d]) = .ok lettered := by
        intro checks
        rw [scan_append, hscan checks, Fallible.ok_bind, scan_singleton, hletter]
      cases b with
      | false => exact .inl ⟨lettered, fun checks => by rw [spell_letter, hread], hlettered⟩
      | true =>
        have hspaced : ∀ checks, SpacedDune.scan checks ([], 0) (spell (w ++ [(d, true)])) =
            SpacedDune.scanChar checks lettered '•' := by
          intro checks
          rw [spell_spacer, scan_append, hread, Fallible.ok_bind, scan_singleton]
        rcases hlettered.spacer with ⟨hge, hpanic⟩ | ⟨-, hb, -⟩ | ⟨-, -, state', hok, hstate'⟩
        · refine .inr ⟨⟨w.length, hge, ?_⟩, by rw [hspaced, hpanic]⟩
          rw [List.map_append, List.map_singleton, getD_append_flag, List.length_map]
          simp
        · cases hb
        · exact .inl ⟨state', fun checks => by rw [hspaced, hok], hstate'⟩
    · refine .inr ⟨⟨i, hi, ?_⟩, ?_⟩
      · rw [List.map_append, List.map_singleton, getD_append_flag, hflag, Bool.true_or]
      · rw [spell_append, scan_append, hpanic]
        rfl

theorem bulleted_cons (c : Char) (s : List Char) :
    bulleted (c :: s) = (if c = '.' then '•' else c) :: bulleted s := rfl

theorem letter_ne_dot (d : Fin 26) : letter d ≠ '.' := by
  intro h
  exact absurd ((isLetter_iff '.').mpr ⟨d, h⟩) (by decide)

/-- What the loop comes to on a text, in any build: letters with flags; an error; or a spacer behind more than 32
letters. -/
def Scans (text : List Char) (run : Bool → Except NameError (List Char × BitVec 32)) : Prop :=
  (∃ w state, text = spell w ∧ (∀ checks, run checks = .ok state) ∧ Scanned w state) ∨
    (∃ e, e ≠ NameError.panic ∧ ∀ checks, run checks = .error e) ∨
    ∃ w t, text = spell w ++ '•' :: t ∧ 32 < w.length

/-- **What the loop makes of the characters** behind letters with flags. -/
theorem scan_cases {state : List Char × BitVec 32} (h : Scanned w state) (s : List Char) :
    Scans (spell w ++ bulleted s) fun checks => SpacedDune.scan checks state s := by
  induction s generalizing w state with
  | nil => exact .inl ⟨w, state, by rw [bulleted, List.map_nil, List.append_nil], fun _ => rfl, h⟩
  | cons c s ih =>
    have hstep : ∀ checks {state' : List Char × BitVec 32}, SpacedDune.scanChar checks state c = .ok state' →
        SpacedDune.scan checks state (c :: s) = SpacedDune.scan checks state' s := by
      intro checks state' hchar
      rw [SpacedDune.scan, hchar, Fallible.ok_bind]
    have hfail : ∀ {e : NameError}, e ≠ .panic → (∀ checks, SpacedDune.scanChar checks state c = .error e) →
        ∃ e, e ≠ NameError.panic ∧ ∀ checks, SpacedDune.scan checks state (c :: s) = .error e := by
      intro e he hchar
      refine ⟨e, he, fun checks => ?_⟩
      rw [SpacedDune.scan, hchar, Fallible.error_bind]
    have hread : ∀ {w' : List (Fin 26 × Bool)} {state' : List Char × BitVec 32}, Scanned w' state' →
        (∀ checks, SpacedDune.scanChar checks state c = .ok state') →
        spell w ++ bulleted (c :: s) = spell w' ++ bulleted s →
        Scans (spell w ++ bulleted (c :: s)) fun checks => SpacedDune.scan checks state (c :: s) := by
      intro w' state' hstate' hchar htext
      rw [htext]
      simp only [fun checks => hstep checks (hchar checks)]
      exact ih hstate'
    by_cases hc : ∃ d, letter d = c
    · obtain ⟨d, rfl⟩ := hc
      obtain ⟨state', hletter, hstate'⟩ := h.letter d
      have htext : spell w ++ bulleted (letter d :: s) = spell (w ++ [(d, false)]) ++ bulleted s := by
        rw [bulleted_cons, if_neg (letter_ne_dot d), spell_letter, List.append_assoc, List.singleton_append]
      exact hread hstate' hletter htext
    · by_cases hspacer : c = '.' ∨ c = '•'
      · -- both spellings of a spacer are read alike
        have hbullet : ∀ checks, SpacedDune.scanChar checks state c = SpacedDune.scanChar checks state '•' := by
          intro checks
          rcases hspacer with rfl | rfl
          · exact scanChar_dot checks state
          · rfl
        have htext : spell w ++ bulleted (c :: s) = spell w ++ '•' :: bulleted s := by
          rw [bulleted_cons]
          rcases hspacer with rfl | rfl
          · rw [if_pos rfl]
          · rw [if_neg (by decide)]
        rcases List.eq_nil_or_concat w with rfl | ⟨w, ⟨d, b⟩, rfl⟩
        · have hno : ¬ ('A' ≤ '•' ∧ '•' ≤ 'Z') := by decide
          have hempty : state.1.length < 1 := by
            rw [h.length]
            exact Nat.zero_lt_one
          refine .inr (.inl (hfail (e := .leadingSpacer) (by simp) fun checks => ?_))
          rw [hbullet]
          unfold SpacedDune.scanChar
          rw [if_neg hno, if_pos (.inr rfl), if_pos hempty]
        · rw [List.concat_eq_append] at h htext hread ⊢
          rcases h.spacer with ⟨hge, -⟩ | ⟨-, -, herr⟩ | ⟨-, rfl, state', hok, hstate'⟩
          · refine .inr (.inr ⟨w ++ [(d, b)], bulleted s, htext, ?_⟩)
            rw [List.length_append, List.length_singleton]
            omega
          · exact .inr (.inl (hfail (e := .doubleSpacer) (by simp) fun checks => by rw [hbullet, herr]))
          · have hflagged : spell (w ++ [(d, false)]) ++ '•' :: bulleted s =
                spell (w ++ [(d, true)]) ++ bulleted s := by
              rw [spell_letter, spell_spacer, List.append_assoc _ ['•'], List.singleton_append]
            exact hread hstate' (fun checks => by rw [hbullet, hok]) (htext.trans hflagged)
      · refine .inr (.inl (hfail (e := .invalidCharacter) (by simp) fun checks => ?_))
        unfold SpacedDune.scanChar
        rw [if_neg (mt (isLetter_iff c).mp hc), if_neg hspacer]

/-- A spacer behind more than 32 letters panics with overflow checks. -/
theorem scan_late {w : List (Fin 26 × Bool)} {t : List Char} (hlen : 32 < w.length) :
    SpacedDune.scan true ([], 0) (spell w ++ '•' :: t) = .error .panic := by
  rw [scan_append]
  rcases scan_spell w with ⟨state, hscan, hstate⟩ | ⟨-, hpanic⟩
  · rcases List.eq_nil_or_concat w with rfl | ⟨w, ⟨d, b⟩, rfl⟩
    · exact absurd hlen (by simp)
    · rw [List.concat_eq_append] at hlen hscan hstate ⊢
      rw [List.length_append, List.length_singleton] at hlen
      rw [hscan, Fallible.ok_bind, SpacedDune.scan]
      rcases hstate.spacer with ⟨-, hpanic⟩ | ⟨hlt, -⟩ | ⟨hlt, -⟩
      · rw [hpanic]
        rfl
      · omega
      · omega
  · rw [hpanic]
    rfl

/-! ## Reading back what is displayed -/

/-- Letters with the flags of the spacers between them. -/
def flagged (l : List (Fin 26)) (spacers : BitVec 32) : List (Fin 26 × Bool) :=
  l.zipIdx.map fun x => (x.1, decide (x.2 < l.length - 1) && spacers.getLsbD x.2)

theorem length_flagged (l : List (Fin 26)) (spacers : BitVec 32) : (flagged l spacers).length = l.length := by
  unfold flagged
  rw [List.length_map, List.length_zipIdx]

theorem letters_flagged (l : List (Fin 26)) (spacers : BitVec 32) : (flagged l spacers).map Prod.fst = l := by
  unfold flagged
  rw [List.map_map]
  exact List.zipIdx_map_fst 0 l

theorem flags_flagged (l : List (Fin 26)) (spacers : BitVec 32) (i : Nat) :
    ((flagged l spacers).map Prod.snd).getD i false = (decide (i < l.length - 1) && spacers.getLsbD i) := by
  unfold flagged
  rw [List.map_map, List.getD_eq_getElem?_getD, List.getElem?_map, List.getElem?_zipIdx]
  rcases Nat.lt_or_ge i l.length with hlt | hge
  · rw [List.getElem?_eq_getElem hlt]
    simp
  · rw [List.getElem?_eq_none hge]
    have hlast : ¬ i < l.length - 1 := by omega
    simp [hlast]

/-- A name has at most 28 letters. -/
theorem length_word_le (n : U128) : (word 26 (n.val + 1)).length ≤ 28 := by
  by_contra hlong
  have hpow := pow_le_value (word 26 (n.val + 1))
  rw [value_word] at hpow
  have h29 : 26 ^ 29 ≤ 26 ^ (word 26 (n.val + 1)).length := Nat.pow_le_pow_right (by decide) (by omega)
  have hlt := n.isLt
  have hbound : (2 ^ 128 + 1) * 26 < 26 ^ 29 := by decide
  omega

/-- **What is displayed** is the letters of the name with the flags of the spacers. -/
theorem display_eq_spell (d : SpacedDune) :
    SpacedDune.display d = spell (flagged (word 26 (d.dune.val + 1)) d.spacers) := by
  have hshort := length_word_le d.dune
  unfold SpacedDune.display spell flagged
  simp only [display_eq, spelled]
  generalize word 26 (d.dune.val + 1) = l at hshort ⊢
  rw [List.zipIdx_map, List.flatMap_map, List.flatMap_map, List.length_map]
  refine List.flatMap_congr fun x _ => ?_
  obtain ⟨c, i⟩ := x
  show letter c :: (if i < l.length - 1 ∧ d.spacers &&& (1#32 <<< i) ≠ 0 then ['•'] else []) =
    letter c :: (if (decide (i < l.length - 1) && d.spacers.getLsbD i) = true then ['•'] else [])
  by_cases hi : i < l.length - 1
  · have hset : d.spacers &&& (1#32 <<< i) ≠ 0 ↔ d.spacers.getLsbD i = true := flag_set_iff (by omega)
    exact congrArg _ (if_congr (by rw [hset]; simp [hi]) rfl rfl)
  · simp [hi]

/-- Letters with flags, none behind the last one, are those of their spacers. -/
theorem flagged_of_scanned {d : Fin 26} {state : List Char × BitVec 32} (h : Scanned (w ++ [(d, false)]) state) :
    flagged ((w ++ [(d, false)]).map Prod.fst) state.2 = w ++ [(d, false)] := by
  have hlen : ((w ++ [(d, false)]).map Prod.fst).length = w.length + 1 := by
    rw [List.length_map, List.length_append, List.length_singleton]
  have hflags : (flagged ((w ++ [(d, false)]).map Prod.fst) state.2).map Prod.snd =
      (w ++ [(d, false)]).map Prod.snd := by
    refine List.ext_getElem (by rw [List.length_map, length_flagged, List.length_map, List.length_map]) ?_
    intro i hi hi'
    have hleft := flags_flagged ((w ++ [(d, false)]).map Prod.fst) state.2 i
    rw [List.getD_eq_getElem?_getD, List.getElem?_eq_getElem hi, Option.getD_some, hlen, Nat.add_sub_cancel] at hleft
    have hright := h.bits i
    rw [List.getD_eq_getElem?_getD, List.getElem?_eq_getElem hi', Option.getD_some] at hright
    rw [hleft, ← hright]
    by_cases hlt : i < w.length
    · simp [hlt]
    · have hnone : state.2.getLsbD i = false := by
        rw [h.bits, List.map_append, List.map_singleton, getD_append_flag, List.getD_eq_getElem?_getD,
          List.getElem?_eq_none (by rw [List.length_map]; omega)]
        simp
      rw [hnone, Bool.and_false]
  exact (List.zip_of_prod (letters_flagged _ _) hflags).trans (List.zip_of_prod rfl rfl).symm

/-- **The check for a trailing spacer** looks at the flag of the last letter. -/
theorem trailing_iff {d : Fin 26} {b : Bool} {state : List Char × BitVec 32} (h : Scanned (w ++ [(d, b)]) state) :
    32 - SpacedDune.leadingZeros state.2 ≥ state.1.length ↔ b = true := by
  have hlen : state.1.length = w.length + 1 := by
    rw [h.length, List.length_append, List.length_singleton]
  have hbits : ∀ i, w.length ≤ i → state.2.getLsbD i = (decide (i = w.length) && b) := by
    intro i hi
    rw [h.bits, List.map_append, List.map_singleton, getD_append_flag, List.length_map, List.getD_eq_getElem?_getD,
      List.getElem?_eq_none (by rw [List.length_map]; exact hi)]
    simp
  rw [not_leadingZeros, hlen, ge_iff_le, Nat.succ_le_iff, Nat.lt_size, ← Nat.not_lt, bits_lt_iff]
  constructor
  · intro hsome
    by_contra hb
    refine hsome fun i hi => ?_
    rw [hbits i hi, Bool.eq_false_iff.mpr hb, Bool.and_false]
  · rintro rfl hnone
    have hlast := hnone w.length (le_refl _)
    rw [hbits _ (le_refl _)] at hlast
    simp at hlast


/-! ## Which texts are spaced names -/

/-- `from_str` behind its loop. -/
theorem fromStr_of_scan {checks : Bool} {state : List Char × BitVec 32} {d : Fin 26} {b : Bool}
    (h : Scanned (w ++ [(d, b)]) state) (hscan : SpacedDune.scan checks ([], 0) s = .ok state) :
    SpacedDune.fromStr checks s =
      if (w ++ [(d, b)]).length ≥ 2 ^ 32 then .error .panic
      else if b = true then .error .trailingSpacer
      else Dune.fromStr checks (spelled ((w ++ [(d, b)]).map Prod.fst)) >>= fun dune => .ok ⟨dune, state.2⟩ := by
  unfold SpacedDune.fromStr
  rw [hscan, Fallible.ok_bind]
  show (if state.1.length ≥ 2 ^ 32 then _ else if 32 - SpacedDune.leadingZeros state.2 ≥ state.1.length then _
    else _) = _
  rw [h.length, ← h.name]
  split
  · rfl
  · have htrailing := trailing_iff h
    rw [h.length] at htrailing
    exact if_congr htrailing rfl rfl

/-- **What is displayed is read back**, when there is no spacer behind the last letter or later. -/
theorem fromStr_spaced_display (checks : Bool) (d : SpacedDune)
    (h : d.spacers.toNat < 2 ^ ((Dune.display d.dune).length - 1)) :
    SpacedDune.fromStr checks (SpacedDune.display d) = .ok d := by
  have hname := display_eq d.dune
  have hshort := length_word_le d.dune
  rw [hname, spelled, List.length_map, bits_lt_iff] at h
  rw [display_eq_spell]
  generalize hl : word 26 (d.dune.val + 1) = l at h hname hshort
  have hne : l ≠ [] := by
    intro hnil
    have hvalue := value_word 26 (d.dune.val + 1)
    rw [hl, hnil, value_nil] at hvalue
    omega
  have hflags := flags_flagged l d.spacers
  rcases scan_spell (flagged l d.spacers) with ⟨state, hscan, hstate⟩ | ⟨⟨i, hi, hflag⟩, -⟩
  · have hspacers : state.2 = d.spacers := by
      refine BitVec.eq_of_getLsbD_eq fun i _ => ?_
      rw [hstate.bits, hflags]
      by_cases hi : i < l.length - 1
      · simp [hi]
      · simp [hi, h i (by omega)]
    have hletters := letters_flagged l d.spacers
    have hlength := length_flagged l d.spacers
    rcases List.eq_nil_or_concat (flagged l d.spacers) with hnil | ⟨w, ⟨c, b⟩, hw⟩
    · rw [hnil] at hlength
      exact absurd (List.length_eq_zero_iff.mp hlength.symm) hne
    · rw [List.concat_eq_append] at hw
      rw [hw] at hstate hscan hletters hlength hflags ⊢
      have hlast : b = false := by
        have hflag := hflags w.length
        rw [List.length_append, List.length_singleton] at hlength
        rw [← hlength, Nat.add_sub_cancel, List.map_append, List.map_singleton, getD_append_flag, List.length_map] at hflag
        rw [decide_eq_true rfl, Bool.true_and, decide_eq_false (Nat.lt_irrefl _), Bool.false_and] at hflag
        exact (Bool.or_eq_false_iff.mp hflag).2
      rw [fromStr_of_scan hstate (hscan checks), if_neg (by rw [hlength]; omega), hlast, if_neg (by decide),
        ← hlast, hletters, ← hname, fromStr_display, Fallible.ok_bind, hspacers]
  · rw [hflags] at hflag
    have := of_decide_eq_true (Bool.and_eq_true_iff.mp hflag).1
    omega

/-- The text is handled as a spaced name: with overflow checks nothing panics, so that no shift is by 32 or more, and
what is accepted is displayed as the text with bullets for dots. -/
structure SpacedDune.Faithful (s : List Char) : Prop where
  noPanic : SpacedDune.fromStr true s ≠ .error .panic
  displayed : ∀ checks d, SpacedDune.fromStr checks s = .ok d → SpacedDune.display d = bulleted s

/-- No spacer comes behind more than 32 letters, and a text of letters with single spacers between them has fewer than
`2 ^ 32` letters, which do not go on behind the largest name. -/
structure SpacedDune.Readable (s : List Char) : Prop where
  shifts : ∀ w t, bulleted s = spell w ++ '•' :: t → w.length ≤ 32
  counted : ∀ w, bulleted s = spell w → w.length < 2 ^ 32
  named : ∀ w d, bulleted s = spell (w ++ [(d, false)]) →
    ¬ Dune.Overruns true (spelled ((w ++ [(d, false)]).map Prod.fst))

/-- **A readable text** is accepted and displayed as it is, or rejected, in any build. -/
theorem fromStr_readable (h : SpacedDune.Readable s) (checks : Bool) :
    (∃ d, SpacedDune.fromStr checks s = .ok d ∧ SpacedDune.display d = bulleted s) ∨
      ∃ e, e ≠ NameError.panic ∧ SpacedDune.fromStr checks s = .error e := by
  rcases scan_cases Scanned.nil s with ⟨w, state, htext, hscan, hstate⟩ | ⟨e, he, hscan⟩ | ⟨w, t, htext, hlate⟩
  · replace hscan : SpacedDune.scan checks ([], 0) s = .ok state := hscan checks
    rcases List.eq_nil_or_concat w with rfl | ⟨w, ⟨c, b⟩, rfl⟩
    · refine .inr ⟨.trailingSpacer, by simp, ?_⟩
      have hempty : state.1.length = 0 := hstate.length
      unfold SpacedDune.fromStr
      rw [hscan, Fallible.ok_bind]
      show (if state.1.length ≥ 2 ^ 32 then _ else if 32 - SpacedDune.leadingZeros state.2 ≥ state.1.length then _
        else _) = _
      rw [hempty, if_neg (by decide), if_pos (Nat.zero_le _)]
    · rw [List.concat_eq_append] at htext hstate
      have hcounted := h.counted _ htext
      rw [fromStr_of_scan hstate hscan, if_neg (by omega)]
      cases b with
      | true => exact .inr ⟨.trailingSpacer, by simp, if_pos rfl⟩
      | false =>
        have hover := h.named w c htext
        have hdisplay := flagged_of_scanned hstate
        rw [if_neg (by decide)]
        generalize hl : (w ++ [(c, false)]).map Prod.fst = l at hover hdisplay
        have hne : l ≠ [] := by
          rintro rfl
          simp at hl
        have hspelled : spelled l ≠ [] := fun hnil => hne (List.map_eq_nil_iff.mp hnil)
        rcases fromStr_cases checks hspelled with ⟨l', y, -, hl', -, hok, hval⟩ | ⟨e, he, herr⟩ | hmax
        · refine .inl ⟨⟨y, state.2⟩, by rw [hok, Fallible.ok_bind], ?_⟩
          rw [display_eq_spell, hval, word_value, ← spelled_injective hl', hdisplay]
          exact htext.symm
        · exact .inr ⟨e, he, by rw [herr, Fallible.error_bind]⟩
        · exact absurd hmax hover
  · replace hscan : SpacedDune.scan checks ([], 0) s = .error e := hscan checks
    exact .inr ⟨e, he, by rw [SpacedDune.fromStr, hscan, Fallible.error_bind]⟩
  · have := h.shifts w t htext
    omega

/-- **A text that does not panic is readable.** -/
theorem readable_of_noPanic (h : SpacedDune.fromStr true s ≠ .error .panic) : SpacedDune.Readable s := by
  have hscanned : ∀ t, SpacedDune.scan true ([], 0) t = .error .panic → bulleted s ≠ t := by
    rintro t hpanic rfl
    rw [scan_bulleted] at hpanic
    refine h ?_
    rw [SpacedDune.fromStr, hpanic, Fallible.error_bind]
  have hspelled : ∀ w, bulleted s = spell w →
      ∃ state, SpacedDune.scan true ([], 0) s = .ok state ∧ Scanned w state := by
    intro w htext
    rcases scan_spell w with ⟨state, hscan, hstate⟩ | ⟨-, hpanic⟩
    · exact ⟨state, by rw [← scan_bulleted, htext, hscan], hstate⟩
    · exact absurd htext (hscanned _ hpanic)
  have hcounted : ∀ w, bulleted s = spell w → w.length < 2 ^ 32 := by
    intro w htext
    obtain ⟨state, hscan, hstate⟩ := hspelled w htext
    rcases List.eq_nil_or_concat w with rfl | ⟨w, ⟨c, b⟩, rfl⟩
    · exact Nat.two_pow_pos 32
    · rw [List.concat_eq_append] at hstate ⊢
      by_contra hlong
      exact h (by rw [fromStr_of_scan hstate hscan, if_pos (by omega)])
  refine ⟨fun w t htext => ?_, hcounted, fun w d htext hover => ?_⟩
  · by_contra hlate
    exact hscanned _ (scan_late (by omega)) htext
  · obtain ⟨state, hscan, hstate⟩ := hspelled _ htext
    have hlt := hcounted _ htext
    obtain ⟨t, ht, hname⟩ := hover
    refine h ?_
    rw [fromStr_of_scan hstate hscan, if_neg (by omega), if_neg (by decide), hname, fromStr_overrun ht,
      Fallible.error_bind]

end

/-- **Spaced names.**  What is displayed is read back, for spacers between the letters; a text is handled as a spaced
name exactly when it is readable; and of readable texts only those that agree but for dots and bullets are the same. -/
theorem spaced_dunes_iff (checks : Bool) :
    (∀ d : SpacedDune, d.spacers.toNat < 2 ^ ((Dune.display d.dune).length - 1) →
        SpacedDune.fromStr checks (SpacedDune.display d) = .ok d) ∧
      (∀ s, SpacedDune.Faithful s ↔ SpacedDune.Readable s) ∧
      ∀ s t d, SpacedDune.Readable s → SpacedDune.Readable t → SpacedDune.fromStr checks s = .ok d →
        SpacedDune.fromStr checks t = .ok d → bulleted s = bulleted t := by
  have hdisplayed : ∀ s checks d, SpacedDune.Readable s → SpacedDune.fromStr checks s = .ok d →
      SpacedDune.display d = bulleted s := by
    intro s checks d hs hread
    rcases fromStr_readable hs checks with ⟨d', hok, hdisplay⟩ | ⟨e, -, herr⟩
    · rw [hread] at hok
      cases hok
      exact hdisplay
    · rw [hread] at herr
      cases herr
  refine ⟨fromStr_spaced_display checks, fun s => ⟨fun h => readable_of_noPanic h.noPanic, fun h => ⟨fun hpanic => ?_,
    fun checks d hread => hdisplayed s checks d h hread⟩⟩, fun s t d hs ht hread hread' => ?_⟩
  · rcases fromStr_readable h true with ⟨d, hok, -⟩ | ⟨e, he, herr⟩
    · rw [hpanic] at hok
      cases hok
    · rw [hpanic] at herr
      cases herr
      exact he rfl
  · rw [← hdisplayed s checks d hs hread, ← hdisplayed t checks d ht hread']

/-- A spacer behind 33 letters is a shift by 32; without checks the largest name and one more letter is the same spaced
name as the letter. -/
theorem spaced_dunes_fail :
    SpacedDune.fromStr true (List.replicate 33 'A' ++ ['•', 'A']) = .error .panic ∧
      SpacedDune.fromStr false (MAX_NAME ++ ['B']) = .ok ⟨1, 0⟩ ∧ SpacedDune.fromStr false ['B'] = .ok ⟨1, 0⟩ ∧
      bulleted (MAX_NAME ++ ['B']) ≠ bulleted ['B'] := by
  have htext : List.replicate 33 'A' ++ ['•', 'A'] = spell (List.replicate 33 (0, false)) ++ '•' :: ['A'] := by decide
  refine ⟨?_, rfl, rfl, by decide⟩
  rw [htext, SpacedDune.fromStr, scan_late (by decide), Fallible.error_bind]

end DogeIndexer.Compressor
