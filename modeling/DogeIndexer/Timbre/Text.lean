import DogeIndexer.Timbre.Schema

/-!
# Text

The impls of `Encode` and `Decode` for `String` and `char`, which no type of the schema uses.  The encoder of a
string writes its length as a `usize`, the decoder reads a `u32` and from then on sees only the four bytes it took
it from; a character is cut to one byte.

* `decodeString_eq` — what comes back for a string, whatever it is.
* `text_round_trip_iff` — exactly which strings and characters come back.
-/

set_option autoImplicit false

namespace DogeIndexer.Timbre

/-! ## The codec -/

/-- `str::as_bytes`. -/
def asBytes (s : String) : Bytes := (s.toList.flatMap String.utf8EncodeChar).map UInt8.toFin

/-- `String::from_utf8`. -/
def fromUtf8 (bytes : Bytes) : Option String := String.fromUTF8? (bytes.map UInt8.ofFin).toByteArray

/-- The length as a `usize`, then the bytes. -/
def encodeString (s : String) : Bytes := encodeUInt 8 (asBytes s).length ++ asBytes s

/-- `*self as u8`. -/
def encodeChar (c : Char) : Bytes := [Fin.ofNat 256 c.toNat]

def decodeString (bytes : Bytes) : Outcome (String × Bytes) :=
  if bytes.length < 4 then .panic
  else do
    let (len, bytes) ← decodeUInt 4 (bytes.take 4)
    match splitAtChecked len.val bytes with
    | none => .panic
    | some (strBytes, bytes) =>
      match fromUtf8 strBytes with
      | none => .err .invalidUtf8
      | some s => .ok (s, bytes)

def decodeChar : Bytes → Outcome (Char × Bytes)
  | [] => .err (.malformedInput "Insufficient bytes for char decoding")
  | b :: bytes => .ok (Char.ofNat b.val, bytes)

/-! ## What comes back -/

/-- The bytes of a text are its encoding. -/
theorem fromUtf8_asBytes (s : String) : fromUtf8 (asBytes s) = some s := by
  have hbytes : ((s.toList.flatMap String.utf8EncodeChar).map UInt8.toFin).map UInt8.ofFin =
      s.toList.flatMap String.utf8EncodeChar := by
    rw [List.map_map]
    exact List.map_id' _
  have harray : (s.toList.flatMap String.utf8EncodeChar).toByteArray = s.toByteArray := by
    rw [← String.utf8Encode_toList]
    rfl
  unfold fromUtf8 asBytes String.fromUTF8?
  rw [hbytes, harray, dif_pos s.isValidUTF8]
  rfl

theorem fromUtf8_nil : fromUtf8 [] = some "" := by
  show String.fromUTF8? ByteArray.empty = some ""
  unfold String.fromUTF8?
  rw [dif_pos ByteArray.isValidUTF8_empty]
  rfl

/-- **The decoder of strings sees four bytes**: it returns the empty string and nothing behind it, or it panics. -/
theorem decodeString_eq {bytes : Bytes} (h : 4 ≤ bytes.length) :
    decodeString bytes = if Machine.ofBE (bytes.take 4) = 0 then .ok ("", []) else .panic := by
  have hlen : (bytes.take 4).length = 4 := List.length_take_of_le h
  have hlt : Machine.ofBE (bytes.take 4) < 256 ^ 4 := by
    have := Machine.ofBE_lt (bytes.take 4)
    rwa [hlen] at this
  have hprefix : decodeUInt 4 (bytes.take 4) = .ok (⟨Machine.ofBE (bytes.take 4), hlt⟩, []) := by
    unfold decodeUInt splitAtChecked
    rw [if_pos (by omega), Option.map_some, List.take_of_length_le (by omega), List.drop_of_length_le (by omega)]
    exact congrArg (fun x => Outcome.ok (x, [])) (Fin.ext (Nat.mod_eq_of_lt hlt))
  unfold decodeString
  rw [if_neg (by omega), hprefix, Outcome.ok_bind]
  show (match splitAtChecked (Machine.ofBE (bytes.take 4)) [] with
    | none => Outcome.panic
    | some (strBytes, bytes) =>
      match fromUtf8 strBytes with
      | none => .err .invalidUtf8
      | some s => .ok (s, bytes)) = _
  by_cases hzero : Machine.ofBE (bytes.take 4) = 0
  · rw [if_pos hzero, hzero]
    show (match fromUtf8 [] with
      | none => Outcome.err .invalidUtf8
      | some s => .ok (s, [])) = _
    rw [fromUtf8_nil]
  · rw [if_neg hzero]
    have hnone : splitAtChecked (Machine.ofBE (bytes.take 4)) [] = none := by
      unfold splitAtChecked
      rw [if_neg (by simpa using hzero)]
    rw [hnone]

/-- A length below `2 ^ 32` has zeros in its first half. -/
theorem take_encodeString {s : String} (h : (asBytes s).length < 256 ^ 4) (r : Bytes) :
    (encodeString s ++ r).take 4 = Machine.toBE 4 0 := by
  unfold encodeString encodeUInt
  rw [show 8 = 4 + 4 from rfl, Machine.toBE_add, Nat.div_eq_of_lt h, List.append_assoc, List.append_assoc,
    List.take_left' (Machine.length_toBE 4 0)]

theorem length_encodeString (s : String) (r : Bytes) : 4 ≤ (encodeString s ++ r).length := by
  unfold encodeString encodeUInt
  rw [List.length_append, List.length_append, Machine.length_toBE]
  omega

/-- The character a byte stands for is the one it was cut from, if nothing was cut off. -/
theorem ofNat_mod_eq_iff (c : Char) : Char.ofNat (c.toNat % 256) = c ↔ c.toNat < 256 := by
  have hvalid : (c.toNat % 256).isValidChar := .inl (by omega)
  constructor
  · intro h
    have hback : (Char.ofNat (c.toNat % 256)).toNat = c.toNat % 256 := by
      unfold Char.ofNat
      rw [dif_pos hvalid]
      rfl
    rw [h] at hback
    omega
  · intro h
    rw [Nat.mod_eq_of_lt h, Char.ofNat_toNat]

/-- **Exactly which texts come back**: of strings only the empty one, with nothing behind it, and the characters of
one byte. -/
theorem text_round_trip_iff (s : String) (c : Char) (r : Bytes) :
    (decodeString (encodeString s ++ r) = .ok (s, r) ↔ s = "" ∧ r = []) ∧
      (decodeChar (encodeChar c ++ r) = .ok (c, r) ↔ c.toNat < 256) := by
  refine ⟨?_, ?_⟩
  · rw [decodeString_eq (length_encodeString s r)]
    constructor
    · intro h
      split at h
      · injection h with h
        injection h with hs hr
        exact ⟨hs.symm, hr.symm⟩
      · cases h
    · rintro ⟨rfl, rfl⟩
      rw [take_encodeString (by decide), Machine.ofBE_toBE 4 0 (by decide), if_pos rfl]
  · show Outcome.ok (Char.ofNat (c.toNat % 256), r) = .ok (c, r) ↔ _
    rw [← ofNat_mod_eq_iff c]
    constructor
    · intro h
      injection h with h
      exact (Prod.mk.inj h).1
    · intro h
      rw [h]

/-- A string of one character comes back empty, with what followed it lost, and a character beyond one byte comes
back as another. -/
theorem text_lost :
    decodeString (encodeString "a" ++ [7]) = .ok ("", []) ∧ decodeChar (encodeChar 'Ł' ++ []) = .ok ('A', []) ∧
      ¬ ∀ (s : String) (c : Char) (r : Bytes),
        decodeString (encodeString s ++ r) = .ok (s, r) ∧ decodeChar (encodeChar c ++ r) = .ok (c, r) := by
  have hstring : decodeString (encodeString "a" ++ [7]) = .ok ("", []) := by
    rw [decodeString_eq (length_encodeString _ _), take_encodeString (by decide),
      Machine.ofBE_toBE 4 0 (by decide), if_pos rfl]
  refine ⟨hstring, by decide, fun h => ?_⟩
  have := (h "a" 'a' [7]).1
  rw [hstring] at this
  exact absurd this (by decide)

end DogeIndexer.Timbre
