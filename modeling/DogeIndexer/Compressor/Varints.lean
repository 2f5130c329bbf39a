import DogeIndexer.Compressor.Dunestone

/-!
# Varints of dunestones

A value is written in base 128 from the back of a buffer of 19 bytes.  Every carry is one less than the
quotient, so that each value has one encoding, and the decoder adds the ones back.

* `encodeToVec_ok` — the encoder stays inside its buffer, and what it writes decodes to the value.
* `decodeFrom_length` — the decoder reads at least one byte, and none that is not there.
* `integersLoop` — the loop of `integers` ends on every payload.
* `varints_round_trip` — a list of values, written one after another, is read back.
-/

set_option autoImplicit false

namespace DogeIndexer.Compressor

namespace Varint

/-! ## The encoder -/

/-- The loop of `varint::encode_to_vec` at index `i` of the buffer; without a result when the index would
underflow. -/
def encodeFrom (n : U128) (out : Bytes) : Nat → Option (Bytes × Nat)
  | 0 =>
    let out := out.set 0 (Fin.ofNat 256 (n.val % 128 + 128))
    if n.val < 128 then some (out, 0) else none
  | i + 1 =>
    let byte := if i + 1 < 18 then n.val % 128 + 128 else n.val % 128
    let out := out.set (i + 1) (Fin.ofNat 256 byte)
    if n.val < 128 then some (out, i + 1) else encodeFrom (n / 128 - 1) out i

/-- `varint::encode_to_vec`. -/
def encodeToVec (n : U128) (v : Bytes) : Option Bytes :=
  (encodeFrom n (List.replicate 19 0) 18).map fun (out, i) => v ++ out.drop i

/-- What the bytes up to index `i` can hold. -/
def capacity : Nat → Nat
  | 0 => 128
  | i + 1 => 128 * capacity i + 128

theorem carry_val {n : U128} (h : ¬ n.val < 128) : (n / 128 - 1).val = n.val / 128 - 1 := by
  have hdiv : (n / 128).val = n.val / 128 := rfl
  rw [Fin.coe_sub_iff_le.mpr (Fin.le_def.mpr (by rw [hdiv]; show 1 ≤ _; omega)), hdiv]
  rfl

theorem carry_lt {n : U128} {i : Nat} (h : ¬ n.val < 128) (hn : n.val < capacity (i + 1)) :
    (n / 128 - 1).val < capacity i := by
  rw [carry_val h]
  unfold capacity at hn
  omega

/-! ## The decoder -/

/-- A byte with more to follow. -/
theorem decodeFrom_continued {n m : U128} {d : Nat} (hd : d < 128) (hm : m.val = n.val * 128 + (d + 1)) (k : Nat)
    (r : Bytes) : decodeFrom n k (Fin.ofNat 256 (d + 128) :: r) = decodeFrom m (k + 1) r := by
  have hlt := m.isLt
  have hbyte : (Fin.ofNat 256 (d + 128)).val = d + 128 := Nat.mod_eq_of_lt (by omega)
  have hmul : n.val * (128 : U128).val < 2 ^ 128 := by
    show n.val * 128 < 2 ^ 128
    omega
  rw [decodeFrom]
  simp only [hbyte]
  rw [if_neg (by omega)]
  refine congrArg (fun x => decodeFrom x (k + 1) r) ?_
  unfold Machine.saturatingMul
  rw [dif_pos hmul]
  have hone : (Fin.ofNat (2 ^ 128) (d + 128 - 127)).val = d + 1 := by
    rw [show d + 128 - 127 = d + 1 by omega]
    exact Nat.mod_eq_of_lt (by omega)
  have hadd : n.val * (128 : U128).val + (Fin.ofNat (2 ^ 128) (d + 128 - 127)).val < 2 ^ 128 := by
    rw [hone]
    show n.val * 128 + (d + 1) < 2 ^ 128
    omega
  unfold Machine.saturatingAdd
  rw [dif_pos hadd]
  refine Fin.ext ?_
  simp only [hone, hm]
  rfl

/-- The last byte of a value. -/
theorem decodeFrom_last {n m : U128} {d : Nat} (hd : d < 128) (hm : m.val = n.val * 128 + d) (k : Nat) (r : Bytes) :
    decodeFrom n k (Fin.ofNat 256 d :: r) = (m, k + 1) := by
  have hlt := m.isLt
  have hbyte : (Fin.ofNat 256 d).val = d := Nat.mod_eq_of_lt (by omega)
  have hmul : n.val * (128 : U128).val < 2 ^ 128 := by
    show n.val * 128 < 2 ^ 128
    omega
  have hdigit : (Fin.ofNat (2 ^ 128) d).val = d := Nat.mod_eq_of_lt (by omega)
  rw [decodeFrom]
  simp only [hbyte]
  rw [if_pos hd]
  unfold Machine.saturatingMul
  rw [dif_pos hmul]
  have hadd : n.val * (128 : U128).val + (Fin.ofNat (2 ^ 128) d).val < 2 ^ 128 := by
    rw [hdigit]
    show n.val * 128 + d < 2 ^ 128
    omega
  unfold Machine.saturatingAdd
  rw [dif_pos hadd]
  refine Prod.ext (Fin.ext ?_) rfl
  simp only [hdigit, hm]
  rfl

/-- The decoder reads at least one byte of what is there, and no more than there is. -/
theorem decodeFrom_length {b : Byte} {bytes : Bytes} (n : U128) (k : Nat) :
    k + 1 ≤ (decodeFrom n k (b :: bytes)).2 ∧ (decodeFrom n k (b :: bytes)).2 ≤ k + (b :: bytes).length := by
  induction bytes generalizing b n k with
  | nil =>
    unfold decodeFrom
    simp only
    split
    · exact ⟨Nat.le_refl _, Nat.le_refl _⟩
    · exact ⟨Nat.le_refl _, Nat.le_refl _⟩
  | cons c bytes ih =>
    unfold decodeFrom
    simp only
    rw [List.length_cons]
    split
    · exact ⟨Nat.le_refl _, by simp only; omega⟩
    · have hrest := ih (b := c) (Machine.saturatingAdd (Machine.saturatingMul n 128) (Fin.ofNat (2 ^ 128) (b.val - 127)))
        (k + 1)
      omega

theorem decode_length {bytes : Bytes} (h : bytes ≠ []) : 1 ≤ (decode bytes).2 ∧ (decode bytes).2 ≤ bytes.length := by
  obtain ⟨b, rest, rfl⟩ := List.exists_cons_of_ne_nil h
  have hlength : 0 + 1 ≤ (decodeFrom 0 0 (b :: rest)).2 ∧ (decodeFrom 0 0 (b :: rest)).2 ≤ 0 + (b :: rest).length :=
    decodeFrom_length 0 0
  unfold decode
  omega

/-! ## The buffer -/

/-- What is written below index `i` decodes to the value, one more because more follows. -/
theorem encodeFrom_below {n : U128} {out : Bytes} {i : Nat} (hi : i < 18) (hout : i < out.length)
    (hn : n.val < capacity i) (hone : n.val + 1 < 2 ^ 128) :
    ∃ out' j, encodeFrom n out i = some (out', j) ∧ ∃ digits, out'.drop j = digits ++ out.drop (i + 1) ∧
      ∀ r, decodeFrom 0 0 (digits ++ r) = decodeFrom ⟨n.val + 1, hone⟩ digits.length r := by
  induction i generalizing n out with
  | zero =>
    have hlt : n.val < 128 := hn
    refine ⟨_, 0, by rw [encodeFrom, if_pos hlt], [Fin.ofNat 256 (n.val % 128 + 128)], ?_, fun r => ?_⟩
    · rw [List.drop_zero, List.set_eq_take_append_cons_drop, if_pos hout]
      rfl
    · refine decodeFrom_continued (Nat.mod_lt _ (by decide)) ?_ 0 r
      simp only [Fin.val_zero]
      omega
  | succ i ih =>
    rw [encodeFrom, if_pos hi]
    have hset : (out.set (i + 1) (Fin.ofNat 256 (n.val % 128 + 128))).drop (i + 1) =
        Fin.ofNat 256 (n.val % 128 + 128) :: out.drop (i + 1 + 1) := by
      rw [List.drop_eq_getElem_cons (by rw [List.length_set]; exact hout), List.getElem_set_self,
        List.drop_set_of_lt (by omega)]
    by_cases hlt : n.val < 128
    · rw [if_pos hlt]
      refine ⟨_, _, rfl, [Fin.ofNat 256 (n.val % 128 + 128)], hset, fun r => ?_⟩
      refine decodeFrom_continued (Nat.mod_lt _ (by decide)) ?_ 0 r
      simp only [Fin.val_zero]
      omega
    · rw [if_neg hlt]
      have hcarry := carry_val hlt
      have hlength : i < (out.set (i + 1) (Fin.ofNat 256 (n.val % 128 + 128))).length := by
        rw [List.length_set]
        omega
      obtain ⟨out', j, henc, digits, hdigits, hdec⟩ := ih (by omega) hlength (carry_lt hlt hn) (by omega)
      refine ⟨out', j, henc, digits ++ [Fin.ofNat 256 (n.val % 128 + 128)], ?_, fun r => ?_⟩
      · rw [hdigits, hset, List.append_assoc]
        rfl
      · rw [List.append_assoc, hdec, List.length_append, List.length_singleton]
        refine decodeFrom_continued (Nat.mod_lt _ (by decide)) ?_ _ r
        simp only [hcarry]
        omega

/-- **The encoder stays inside its buffer**, and the decoder reads back what it writes. -/
theorem encodeToVec_ok (n : U128) (v : Bytes) :
    ∃ bytes, bytes ≠ [] ∧ encodeToVec n v = some (v ++ bytes) ∧
      ∀ r, decode (bytes ++ r) = (n, bytes.length) := by
  have hn := n.isLt
  unfold encodeToVec
  have hfirst : ¬ 17 + 1 < 18 := by decide
  rw [encodeFrom, if_neg hfirst]
  have hset : ((List.replicate 19 (0 : Byte)).set (17 + 1) (Fin.ofNat 256 (n.val % 128))).drop (17 + 1) =
      [Fin.ofNat 256 (n.val % 128)] := by
    rfl
  by_cases hlt : n.val < 128
  · rw [if_pos hlt, Option.map_some]
    refine ⟨[Fin.ofNat 256 (n.val % 128)], by simp, congrArg (fun l => some (v ++ l)) hset, fun r => ?_⟩
    refine decodeFrom_last (Nat.mod_lt _ (by decide)) ?_ 0 r
    simp only [Fin.val_zero]
    omega
  · rw [if_neg hlt]
    have hcarry := carry_val hlt
    have hcapacity : (n / 128 - 1).val < capacity 17 := by
      refine carry_lt hlt (Nat.lt_of_lt_of_le hn ?_)
      decide
    have hlength : 17 < ((List.replicate 19 (0 : Byte)).set (17 + 1) (Fin.ofNat 256 (n.val % 128))).length := by
      simp
    obtain ⟨out', j, henc, digits, hdigits, hdec⟩ := encodeFrom_below (by decide) hlength hcapacity
      (Nat.lt_of_le_of_lt (Nat.succ_le_succ (Nat.le_of_eq hcarry)) (by omega))
    rw [henc, Option.map_some]
    refine ⟨digits ++ [Fin.ofNat 256 (n.val % 128)], by simp, ?_, fun r => ?_⟩
    · simp only [hdigits, hset]
    · unfold decode
      rw [List.append_assoc, hdec, List.length_append, List.length_singleton]
      refine decodeFrom_last (Nat.mod_lt _ (by decide)) ?_ _ r
      simp only [hcarry]
      omega

end Varint

namespace Dunestone

/-! ## The loop over a payload -/

/-- The `while` loop of `integers` at a position: it ends when the payload does. -/
inductive IntegersLoop (payload : Bytes) : Nat → List U128 → Prop
  | done {i : Nat} (h : payload.length ≤ i) : IntegersLoop payload i []
  | next {i : Nat} {rest : List U128} (h : i < payload.length)
      (loop : IntegersLoop payload (i + (Varint.decode (payload.drop i)).2) rest) :
      IntegersLoop payload i ((Varint.decode (payload.drop i)).1 :: rest)

theorem integersLoop_from (payload : Bytes) {fuel i : Nat} (h : payload.length ≤ i + fuel) :
    IntegersLoop payload i (integersFrom fuel (payload.drop i)) := by
  induction fuel generalizing i with
  | zero => exact .done h
  | succ fuel ih =>
    rw [integersFrom]
    by_cases hi : i < payload.length
    · have hne : payload.drop i ≠ [] := by simpa using hi
      obtain ⟨hone, -⟩ := Varint.decode_length hne
      rw [if_neg (by simpa using hi)]
      simp only [List.drop_drop]
      exact .next hi (ih (by omega))
    · rw [if_pos (by simpa using hi)]
      exact .done (by omega)

/-- **The loop ends on every payload**, with the integers. -/
theorem integersLoop (payload : Bytes) : IntegersLoop payload 0 (integers payload) := by
  have hloop := integersLoop_from payload (show payload.length ≤ 0 + payload.length by omega)
  rwa [List.drop_zero] at hloop

theorem integersFrom_cons {bytes : Bytes} {n : U128} (hne : bytes ≠ [])
    (hdec : ∀ r, Varint.decode (bytes ++ r) = (n, bytes.length)) (fuel : Nat) (r : Bytes) :
    integersFrom (fuel + 1) (bytes ++ r) = n :: integersFrom fuel r := by
  rw [integersFrom, if_neg (by simp [hne]), hdec]
  simp only [List.drop_left]

/-- Values written one after another. -/
def encodeAll (xs : List U128) : Option Bytes := xs.foldlM (fun v n => Varint.encodeToVec n v) []

theorem encodeAll_from (xs : List U128) (v : Bytes) :
    ∃ bytes, xs.foldlM (fun v n => Varint.encodeToVec n v) v = some (v ++ bytes) ∧
      ∀ fuel, bytes.length ≤ fuel → integersFrom fuel bytes = xs := by
  induction xs generalizing v with
  | nil =>
    refine ⟨[], by simp, fun fuel _ => ?_⟩
    cases fuel <;> rfl
  | cons n xs ih =>
    obtain ⟨first, hne, henc, hdec⟩ := Varint.encodeToVec_ok n v
    obtain ⟨rest, hrest, hints⟩ := ih (v ++ first)
    refine ⟨first ++ rest, ?_, fun fuel hfuel => ?_⟩
    · rw [List.foldlM_cons, henc]
      simp only [Option.bind_eq_bind, Option.bind_some]
      rw [hrest, List.append_assoc]
    · have hpos := List.length_pos_iff.mpr hne
      rw [List.length_append] at hfuel
      obtain ⟨fuel, rfl⟩ : ∃ k, fuel = k + 1 := ⟨fuel - 1, by omega⟩
      rw [integersFrom_cons hne hdec, hints fuel (by omega)]

/-- **Varints round trip**: the encoder stays inside its buffer and what it writes, value after value, is read back;
the loop of the reader ends on every payload, because the decoder reads at least one byte and none that is not
there. -/
theorem varints_round_trip :
    (∀ xs : List U128, ∃ payload, encodeAll xs = some payload ∧ integers payload = xs) ∧
      (∀ n v, Varint.encodeToVec n v ≠ none) ∧
      (∀ payload, IntegersLoop payload 0 (integers payload)) ∧
      ∀ bytes, bytes ≠ [] → 1 ≤ (Varint.decode bytes).2 ∧ (Varint.decode bytes).2 ≤ bytes.length := by
  refine ⟨fun xs => ?_, fun n v h => ?_, integersLoop, fun bytes => Varint.decode_length⟩
  · obtain ⟨bytes, henc, hints⟩ := encodeAll_from xs []
    exact ⟨bytes, henc, hints bytes.length (Nat.le_refl _)⟩
  · obtain ⟨bytes, -, henc, -⟩ := Varint.encodeToVec_ok n v
    rw [h] at henc
    cases henc

end Dunestone

end DogeIndexer.Compressor
