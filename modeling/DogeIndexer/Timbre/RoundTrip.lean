import DogeIndexer.Timbre.Reducers

/-!
# Decoding what was encoded

Every decoder reads back what its encoder wrote and leaves the bytes behind it.

* `decodeUInt_append`, `decodeVarUInt_append`, `decodeMany_append`, `decodeEntries_append` — the parts.
* `Ty.decode_encode` — every type, by induction over its declaration.
* `schema_round_trip` — the stored types.
-/

set_option autoImplicit false

namespace DogeIndexer.Timbre

/-! ## The parts -/

theorem splitAtChecked_append {n : Nat} {l : Bytes} (h : l.length = n) (r : Bytes) :
    splitAtChecked n (l ++ r) = some (l, r) := by
  unfold splitAtChecked
  rw [if_pos (by simp [h]), ← h, List.take_left, List.drop_left]

theorem decodeUInt_append (w : Nat) (v : Fin (256 ^ w)) (r : Bytes) :
    decodeUInt w (encodeUInt w v.val ++ r) = .ok (v, r) := by
  unfold decodeUInt encodeUInt
  rw [splitAtChecked_append (Machine.length_toBE w v.val), Option.map_some, Machine.ofBE_toBE w v.val v.isLt]
  simp [Outcome.okOr]

theorem decodeUInt_length {w n : Nat} (h : n < 256 ^ w) (r : Bytes) :
    decodeUInt w (encodeUInt w n ++ r) = .ok (⟨n, h⟩, r) :=
  decodeUInt_append w ⟨n, h⟩ r

/-- The encoding of a `VarUInt` is what is left of its bytes without the leading zeros, after its length. -/
theorem encodeVarUIntFrom_eq (l : Bytes) : ∃ k body, l = List.replicate k 0 ++ body ∧
    encodeVarUIntFrom l = Fin.ofNat 256 body.length :: body := by
  induction l with
  | nil => exact ⟨0, [], rfl, rfl⟩
  | cons b l ih =>
    unfold encodeVarUIntFrom
    by_cases hb : b = 0
    · obtain ⟨k, body, hl, henc⟩ := ih
      refine ⟨k + 1, body, ?_, ?_⟩
      · rw [List.replicate_succ, List.cons_append, ← hl, hb]
      · rw [if_neg (not_not.mpr hb), henc]
    · exact ⟨0, b :: l, rfl, by rw [if_pos hb, List.length_cons]⟩

theorem decodeVarUInt_append (v : Fin (256 ^ 16)) (r : Bytes) :
    decodeVarUInt (encodeVarUInt v.val ++ r) = .ok (v, r) := by
  obtain ⟨k, body, hl, henc⟩ := encodeVarUIntFrom_eq (Machine.toBE 16 v.val)
  have hlen : k + body.length = 16 := by
    have := congrArg List.length hl
    simpa using this.symm
  have hval : (Fin.ofNat 256 body.length).val = body.length := Nat.mod_eq_of_lt (by omega)
  have hk : 16 - body.length = k := by omega
  unfold encodeVarUInt
  rw [henc, List.cons_append, decodeVarUInt, if_neg (by omega), hval, splitAtChecked_append rfl, Option.map_some, hk,
    ← hl, Machine.ofBE_toBE 16 v.val v.isLt]
  simp [Outcome.okOr]

theorem decodeBool_append (b : Bool) (r : Bytes) : decodeBool (encodeBool b ++ r) = .ok (b, r) := by
  cases b <;> rfl

theorem decodeArray_append {n : Nat} (l : { l : Bytes // l.length = n }) (r : Bytes) :
    decodeArray n (l.val ++ r) = .ok (l, r) := by
  obtain ⟨l, rfl⟩ := l
  unfold decodeArray
  rw [dif_pos (by simp)]
  simp

theorem decodeShortByteString_append {s : Bytes} (h : s.length ≤ 255) (r : Bytes) :
    decodeShortByteString (encodeShortByteString s ++ r) = .ok (s, r) := by
  have hlen : (Fin.ofNat 256 s.length).val = s.length := Nat.mod_eq_of_lt (Nat.lt_succ_of_le h)
  unfold encodeShortByteString
  rw [List.cons_append, decodeShortByteString, hlen, splitAtChecked_append rfl]
  rfl

section

variable {α κ ν : Type}

theorem decodeOption_append {encode : α → Bytes} {decode : Bytes → Outcome (α × Bytes)} (o : Option α)
    (h : ∀ x ∈ o, ∀ r, decode (encode x ++ r) = .ok (x, r)) (r : Bytes) :
    decodeOption decode (encodeOption encode o ++ r) = .ok (o, r) := by
  cases o with
  | none => rfl
  | some x =>
    have hpresence : decodeUInt 1 (encodeBool true ++ (encode x ++ r)) = .ok (1, encode x ++ r) :=
      decodeUInt_append 1 1 (encode x ++ r)
    unfold decodeOption encodeOption
    rw [List.append_assoc, hpresence, Outcome.ok_bind]
    simp only [h x rfl, Outcome.ok_bind]
    rfl

theorem decodeMany_append {encode : α → Bytes} {decode : Bytes → Outcome (α × Bytes)} (l : List α)
    (h : ∀ x ∈ l, ∀ r, decode (encode x ++ r) = .ok (x, r)) (r : Bytes) :
    decodeMany decode l.length (l.flatMap encode ++ r) = .ok (l, r) := by
  induction l with
  | nil => rfl
  | cons x l ih =>
    have hx := h x List.mem_cons_self
    have hl := ih (fun y hy => h y (List.mem_cons_of_mem x hy))
    simp only [List.flatMap_cons, List.append_assoc, List.length_cons, decodeMany, hx, Outcome.ok_bind, hl]

/-- A vector shorter than `2 ^ 32` with items of at most `2 ^ 31` bytes fits the address space. -/
theorem withCapacity_of_lt {size len : Nat} (hsize : size ≤ 2 ^ 31) (hlen : len < 2 ^ 32) :
    withCapacity size len = .ok () := by
  unfold withCapacity
  rw [if_pos]
  have h : len * size ≤ (2 ^ 32 - 1) * 2 ^ 31 := Nat.mul_le_mul (by omega) hsize
  omega

theorem decodeVec_append {encode : α → Bytes} {decode : Bytes → Outcome (α × Bytes)} {size : Nat} {l : List α}
    (hsize : size ≤ 2 ^ 31) (hlen : l.length < 2 ^ 32) (h : ∀ x ∈ l, ∀ r, decode (encode x ++ r) = .ok (x, r))
    (r : Bytes) : decodeVec size decode (encodeVec encode l ++ r) = .ok (l, r) := by
  unfold decodeVec encodeVec
  rw [List.append_assoc, decodeUInt_length (show l.length < 256 ^ 4 from hlen), Outcome.ok_bind]
  simp only [withCapacity_of_lt hsize hlen, Outcome.ok_bind, decodeMany_append l h]

theorem decodeTimbreVec_append {encode : α → Bytes} {decode : Bytes → Outcome (α × Bytes)} {size : Nat} {l : List α}
    (hsize : size ≤ 2 ^ 31) (hlen : l.length < 2 ^ 32) (h : ∀ x ∈ l, ∀ r, decode (encode x ++ r) = .ok (x, r))
    (r : Bytes) : decodeTimbreVec size decode (encodeTimbreVec encode l ++ r) = .ok (l, r) := by
  unfold decodeTimbreVec encodeTimbreVec
  have hread := decodeVarUInt_append ⟨l.length, Nat.lt_trans hlen (by decide)⟩ (l.flatMap encode ++ r)
  rw [List.append_assoc, hread, Outcome.ok_bind]
  simp only [if_neg (show ¬ 2 ^ 64 ≤ l.length by omega), withCapacity_of_lt hsize hlen, Outcome.ok_bind,
    decodeMany_append l h]

/-- Entries with new keys are read into the map behind those already there. -/
theorem decodeEntries_append [DecidableEq κ] {encodeKey : κ → Bytes} {encodeValue : ν → Bytes}
    {decodeKey : Bytes → Outcome (κ × Bytes)} {decodeValue : Bytes → Outcome (ν × Bytes)} (l : List (κ × ν))
    (hk : ∀ e ∈ l, ∀ r, decodeKey (encodeKey e.1 ++ r) = .ok (e.1, r))
    (hv : ∀ e ∈ l, ∀ r, decodeValue (encodeValue e.2 ++ r) = .ok (e.2, r)) (r : Bytes) :
    ∀ (map map' : IndexMap κ ν), map'.entries = map.entries ++ l →
      decodeEntries decodeKey decodeValue l.length map
        (l.flatMap (fun e => encodeKey e.1 ++ encodeValue e.2) ++ r) = .ok (map', r) := by
  induction l with
  | nil =>
    intro map map' h
    have : map' = map := by
      cases map; cases map'
      simpa using h
    rw [this]
    rfl
  | cons e l ih =>
    intro map map' h
    have hnew : e.1 ∉ map.entries.map Prod.fst := by
      have hnodup := map'.nodup
      rw [h, List.map_append, List.nodup_append] at hnodup
      exact fun hmem => hnodup.2.2 e.1 hmem e.1 (by simp) rfl
    have hins : map'.entries = (map.insert e.1 e.2).entries ++ l := by
      change _ = IndexMap.insertEntry e.1 e.2 map.entries ++ l
      rw [IndexMap.insertEntry_of_notMem hnew, h, List.append_assoc, List.singleton_append]
    have hkey := hk e List.mem_cons_self
    have hvalue := hv e List.mem_cons_self
    simp only [List.flatMap_cons, List.append_assoc, List.length_cons, decodeEntries, hkey, hvalue, Outcome.ok_bind]
    exact ih (fun x hx => hk x (List.mem_cons_of_mem e hx)) (fun x hx => hv x (List.mem_cons_of_mem e hx)) _ _ hins

theorem decodeIndexMap_append [DecidableEq κ] {encodeKey : κ → Bytes} {encodeValue : ν → Bytes}
    {decodeKey : Bytes → Outcome (κ × Bytes)} {decodeValue : Bytes → Outcome (ν × Bytes)} {m : IndexMap κ ν}
    (hlen : m.entries.length < 2 ^ 64) (hk : ∀ e ∈ m.entries, ∀ r, decodeKey (encodeKey e.1 ++ r) = .ok (e.1, r))
    (hv : ∀ e ∈ m.entries, ∀ r, decodeValue (encodeValue e.2 ++ r) = .ok (e.2, r)) (r : Bytes) :
    decodeIndexMap decodeKey decodeValue (encodeIndexMap encodeKey encodeValue m ++ r) = .ok (m, r) := by
  unfold decodeIndexMap encodeIndexMap
  rw [List.append_assoc, decodeUInt_length (show m.entries.length < 256 ^ 8 from hlen), Outcome.ok_bind]
  exact decodeEntries_append m.entries hk hv r IndexMap.empty m rfl

end

/-! ## Values and layouts that can be written -/

mutual

/-- The element types of the vectors of a type. -/
def Ty.elements : Ty → List Ty
  | .option t => t.elements
  | .vec t => t :: t.elements
  | .timbreVec t => t :: t.elements
  | .indexMap k v => k.elements ++ v.elements
  | .tuple fs => fs.elements
  | .struct fs => fs.elements
  | .enum vs => vs.elements
  | _ => []

def Fields.elements : Fields → List Ty
  | .last _ t => t.elements
  | .cons _ t fs => t.elements ++ fs.elements

def Variants.elements : Variants → List Ty
  | .nil => []
  | .unit _ vs => vs.elements
  | .fields _ fs vs => fs.elements ++ vs.elements

end

/-- The number of variants of an enum. -/
def Variants.count : Variants → Nat
  | .nil => 0
  | .unit _ vs => vs.count + 1
  | .fields _ _ vs => vs.count + 1

mutual

/-- Every enum's variants are told apart by one byte. -/
def Ty.tagged : Ty → Bool
  | .option t => t.tagged
  | .vec t => t.tagged
  | .timbreVec t => t.tagged
  | .indexMap k v => k.tagged && v.tagged
  | .tuple fs => fs.tagged
  | .struct fs => fs.tagged
  | .enum vs => decide (vs.count ≤ 256) && vs.tagged
  | _ => true

def Fields.tagged : Fields → Bool
  | .last _ t => t.tagged
  | .cons _ t fs => t.tagged && fs.tagged

def Variants.tagged : Variants → Bool
  | .nil => true
  | .unit _ vs => vs.tagged
  | .fields _ fs vs => fs.tagged && vs.tagged

end

mutual

/-- Vectors shorter than `2 ^ 32`, `ShortByteString`s of at most 255 bytes, and maps whose length is a `usize`. -/
def Ty.Sized : (t : Ty) → t.Val → Prop
  | .shortByteString => fun (s : Bytes) => s.length ≤ 255
  | .option t => fun (o : Option t.Val) => ∀ x ∈ o, t.Sized x
  | .vec t => fun (l : List t.Val) => l.length < 2 ^ 32 ∧ ∀ x ∈ l, t.Sized x
  | .timbreVec t => fun (l : List t.Val) => l.length < 2 ^ 32 ∧ ∀ x ∈ l, t.Sized x
  | .indexMap k v => fun m => m.entries.length < 2 ^ 64 ∧ ∀ e ∈ m.entries, k.Sized e.1 ∧ v.Sized e.2
  | .tuple fs => fs.Sized
  | .struct fs => fs.Sized
  | .enum vs => vs.Sized
  | _ => fun _ => True

def Fields.Sized : (fs : Fields) → fs.Val → Prop
  | .last _ t => t.Sized
  | .cons _ t fs => fun (x, xs) => t.Sized x ∧ fs.Sized xs

def Variants.Sized : (vs : Variants) → vs.Val → Prop
  | .nil => fun x => nomatch x
  | .unit _ vs => fun
    | .inl _ => True
    | .inr x => vs.Sized x
  | .fields _ fs vs => fun
    | .inl x => fs.Sized x
    | .inr x => vs.Sized x

end

/-! ## Every type -/

section

variable {size : Ty → Nat}

theorem kind_ne {i : Nat} {kind : Byte} (hi : i < 256) (h : i + 1 ≤ kind.val) : kind ≠ Fin.ofNat 256 i := by
  intro heq
  have : kind.val = i := by
    rw [heq]
    exact Nat.mod_eq_of_lt hi
  omega

mutual

/-- **Every type is read back** from the front of any bytes. -/
theorem Ty.decode_encode : (t : Ty) → (∀ e ∈ t.elements, size e ≤ 2 ^ 31) → t.tagged = true → (x : t.Val) →
    t.Sized x → (r : Bytes) → t.decode size (t.encode x ++ r) = .ok (x, r)
  | .uint w, _, _, x, _, r => decodeUInt_append w x r
  | .bool, _, _, x, _, r => decodeBool_append x r
  | .array _, _, _, x, _, r => decodeArray_append x r
  | .shortByteString, _, _, _, hx, r => decodeShortByteString_append hx r
  | .varUInt, _, _, x, _, r => decodeVarUInt_append x r
  | .option t, hsize, htag, o, ho, r =>
    decodeOption_append o (fun x hx => t.decode_encode hsize htag x (ho x hx)) r
  | .vec t, hsize, htag, _, hl, r =>
    decodeVec_append (hsize t List.mem_cons_self) hl.1
      (fun x hx => t.decode_encode (fun e he => hsize e (List.mem_cons_of_mem t he)) htag x (hl.2 x hx)) r
  | .timbreVec t, hsize, htag, _, hl, r =>
    decodeTimbreVec_append (hsize t List.mem_cons_self) hl.1
      (fun x hx => t.decode_encode (fun e he => hsize e (List.mem_cons_of_mem t he)) htag x (hl.2 x hx)) r
  | .indexMap k v, hsize, htag, _, hm, r =>
    have htags := Bool.and_eq_true_iff.mp htag
    decodeIndexMap_append hm.1
      (fun e he => k.decode_encode (fun t ht => hsize t (List.mem_append_left _ ht)) htags.1 e.1 (hm.2 e he).1)
      (fun e he => v.decode_encode (fun t ht => hsize t (List.mem_append_right _ ht)) htags.2 e.2 (hm.2 e he).2) r
  | .tuple fs, hsize, htag, x, hx, r => fs.decodeTuple_encodeTuple hsize htag x hx r
  | .struct fs, hsize, htag, x, hx, r => fs.decodeStruct_encodeStruct hsize htag x hx r
  | .enum vs, hsize, htag, x, hx, r => by
    simp only [Ty.tagged, Bool.and_eq_true, decide_eq_true_eq] at htag
    obtain ⟨kind, body, henc, -, hdec⟩ := vs.decode_encode hsize htag.2 0 (by omega) x hx r
    rw [show (Ty.enum vs).encode x = kind :: body from henc, List.cons_append]
    exact hdec

theorem Fields.decodeTuple_encodeTuple : (fs : Fields) → (∀ e ∈ fs.elements, size e ≤ 2 ^ 31) →
    fs.tagged = true → (x : fs.Val) → fs.Sized x → (r : Bytes) →
    fs.decodeTuple size (fs.encodeTuple x ++ r) = .ok (x, r)
  | .last _ t, hsize, htag, x, hx, r => t.decode_encode hsize htag x hx r
  | .cons _ t fs, hsize, htag, (x, xs), hx, r => by
    simp only [Fields.tagged, Bool.and_eq_true] at htag
    have hfirst := t.decode_encode (fun e he => hsize e (List.mem_append_left _ he)) htag.1 x hx.1
    have hrest := fs.decodeTuple_encodeTuple (fun e he => hsize e (List.mem_append_right _ he)) htag.2 xs hx.2 r
    simp only [Fields.encodeTuple, Fields.decodeTuple, List.append_assoc, hfirst, Outcome.ok_bind, hrest]

theorem Fields.decodeStruct_encodeStruct : (fs : Fields) → (∀ e ∈ fs.elements, size e ≤ 2 ^ 31) →
    fs.tagged = true → (x : fs.Val) → fs.Sized x → (r : Bytes) →
    fs.decodeStruct size (fs.encodeStruct x ++ r) = .ok (x, r)
  | .last _ t, hsize, htag, x, hx, r => t.decode_encode hsize htag x hx r
  | .cons _ t fs, hsize, htag, (x, xs), hx, r => by
    simp only [Fields.tagged, Bool.and_eq_true] at htag
    have hfirst := t.decode_encode (fun e he => hsize e (List.mem_append_left _ he)) htag.1 x hx.1
    have hrest := fs.decodeStruct_encodeStruct (fun e he => hsize e (List.mem_append_right _ he)) htag.2 xs hx.2 r
    -- the decoder drops the break that the encoder put behind the field
    simp only [Fields.encodeStruct, Fields.decodeStruct, List.append_assoc, List.cons_append, hfirst,
      Outcome.ok_bind, skipBreak, hrest]

/-- The first byte names the variant, and no earlier position has that byte. -/
theorem Variants.decode_encode : (vs : Variants) → (∀ e ∈ vs.elements, size e ≤ 2 ^ 31) → vs.tagged = true →
    (i : Nat) → i + vs.count ≤ 256 → (x : vs.Val) → vs.Sized x → (r : Bytes) →
    ∃ kind body, vs.encode i x = kind :: body ∧ i ≤ kind.val ∧ vs.decode size i kind (body ++ r) = .ok (x, r)
  | .unit _ vs, _, _, i, hi, .inl (), _, r => by
    simp only [Variants.count] at hi
    refine ⟨Fin.ofNat 256 i, [], rfl, Nat.le_of_eq (Nat.mod_eq_of_lt (by omega)).symm, ?_⟩
    simp only [Variants.decode, if_true, List.nil_append]
  | .unit _ vs, hsize, htag, i, hi, .inr x, hx, r => by
    simp only [Variants.count] at hi
    obtain ⟨kind, body, henc, hle, hdec⟩ := vs.decode_encode hsize htag (i + 1) (by omega) x hx r
    refine ⟨kind, body, henc, by omega, ?_⟩
    simp only [Variants.decode, if_neg (kind_ne (by omega) hle), hdec, Outcome.ok_bind]
  | .fields _ fs vs, hsize, htag, i, hi, .inl x, hx, r => by
    simp only [Variants.count] at hi
    simp only [Variants.tagged, Bool.and_eq_true] at htag
    have hbody := fs.decodeTuple_encodeTuple (fun e he => hsize e (List.mem_append_left _ he)) htag.1 x hx r
    refine ⟨Fin.ofNat 256 i, fs.encodeTuple x, rfl, Nat.le_of_eq (Nat.mod_eq_of_lt (by omega)).symm, ?_⟩
    simp only [Variants.decode, if_true, hbody, Outcome.ok_bind]
  | .fields _ fs vs, hsize, htag, i, hi, .inr x, hx, r => by
    simp only [Variants.count] at hi
    simp only [Variants.tagged, Bool.and_eq_true] at htag
    obtain ⟨kind, body, henc, hle, hdec⟩ :=
      vs.decode_encode (fun e he => hsize e (List.mem_append_right _ he)) htag.2 (i + 1) (by omega) x hx r
    refine ⟨kind, body, henc, by omega, ?_⟩
    simp only [Variants.decode, if_neg (kind_ne (by omega) hle), hdec, Outcome.ok_bind]

end

/-! ## The stored types -/

theorem schema_tagged : ∀ t ∈ schema, t.tagged = true := by decide

/-- **Every stored type is read back**, whatever bytes follow.  The items of the stored vectors are assumed to take
at most `2 ^ 31` bytes of memory each. -/
theorem schema_round_trip (t : Ty) (ht : t ∈ schema) (hsize : ∀ e ∈ t.elements, size e ≤ 2 ^ 31) (x : t.Val)
    (hx : t.Sized x) (r : Bytes) : t.decode size (t.encode x ++ r) = .ok (x, r) :=
  t.decode_encode hsize (schema_tagged t ht) x hx r

end

/-- Two inscriptions of one output. -/
def twoInscriptions : InscriptionsByUtxo.value.Val :=
  let zeros : (Ty.array 32).Val := ⟨List.replicate 32 0, Machine.length_zeros⟩
  ([((123 : Fin (256 ^ 4)), (zeros, (456 : Fin (256 ^ 4)))), ((345 : Fin (256 ^ 4)), (zeros, (678 : Fin (256 ^ 4))))] :
    List ((Fin (256 ^ 4)) × (Ty.array 32).Val × Fin (256 ^ 4)))

/-- They are read back in front of another byte. -/
theorem schema_round_trip_inscriptions :
    InscriptionsByUtxo.value.decode (fun _ => 40) (InscriptionsByUtxo.value.encode twoInscriptions ++ [7]) =
      .ok (twoInscriptions, [7]) :=
  schema_round_trip InscriptionsByUtxo.value (by simp [schema]) (by decide) twoInscriptions
    ⟨by decide, fun _ _ => ⟨trivial, trivial, trivial⟩⟩ [7]

end DogeIndexer.Timbre
