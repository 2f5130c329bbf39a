import DogeIndexer.Lib.Lexicographic
import DogeIndexer.Timbre.RoundTrip

/-!
# The order of the keys

TiKV scans keys in the lexicographic order of their bytes.  The fields of the scanned keys are
written so that this is the order of the fields, the first one counting most.

* `encodeVarUIntFrom_before` — a `VarUInt` sorts like its number.
* `Ty.encode_before` — so do the types made of such fields.
* `encode_prefix_free` — no encoding begins with another.
* `key_bytes_sort` — the scanned keys and the keys of the rollback data.
-/

set_option autoImplicit false

namespace DogeIndexer.Timbre

/-! ## Variable-length integers -/

/-- The first byte of a `VarUInt` is at most the number of its bytes. -/
theorem encodeVarUIntFrom_head (l : Bytes) (h : l.length < 256) :
    ∃ len body, encodeVarUIntFrom l = len :: body ∧ len.val ≤ l.length := by
  obtain ⟨k, body, hl, henc⟩ := encodeVarUIntFrom_eq l
  have hlen : body.length ≤ l.length := by
    rw [hl, List.length_append]
    omega
  refine ⟨_, _, henc, ?_⟩
  change body.length % 256 ≤ l.length
  rw [Nat.mod_eq_of_lt (by omega)]
  exact hlen

/-- Without their leading zeros, with their lengths in front, words of one length keep their order. -/
theorem encodeVarUIntFrom_before {u v : Bytes} (hlen : u.length = v.length) (hv : v.length < 256)
    (h : Before u v) : Before (encodeVarUIntFrom u) (encodeVarUIntFrom v) := by
  obtain ⟨p, a, s, b, t, rfl, rfl, hab⟩ := h
  simp only [List.length_append, List.length_cons] at hlen hv
  -- along the common beginning
  induction p with
  | nil =>
    have hb : b ≠ 0 := fun hb => by
      rw [hb] at hab
      exact absurd hab (Fin.not_lt_zero a)
    have hst : s.length = t.length := by
      simp only [List.length_nil] at hlen
      omega
    simp only [List.nil_append, List.length_nil] at hv ⊢
    rw [encodeVarUIntFrom, encodeVarUIntFrom, if_pos hb]
    by_cases ha : a = 0
    · -- the left number has fewer bytes
      rw [if_neg (not_not.mpr ha)]
      obtain ⟨len, body, henc, hle⟩ := encodeVarUIntFrom_head s (by omega)
      rw [henc]
      refine Before.head ?_ _ _
      rw [Fin.lt_def]
      change len.val < (t.length + 1) % 256
      rw [Nat.mod_eq_of_lt (by omega)]
      omega
    · rw [if_pos ha, hst]
      exact (Before.head hab s t).append_left [_]
  | cons c p ih =>
    simp only [List.length_cons] at hlen hv
    rw [List.cons_append, List.cons_append, encodeVarUIntFrom, encodeVarUIntFrom]
    by_cases hc : c = 0
    · rw [if_neg (not_not.mpr hc), if_neg (not_not.mpr hc)]
      exact ih (by omega) (by omega)
    · rw [if_pos hc, if_pos hc]
      have hst : (p ++ a :: s).length = (p ++ b :: t).length := by
        simp only [List.length_append, List.length_cons]
        omega
      rw [hst]
      exact ((Before.head hab s t).append_left p).append_left [_, c]

theorem encodeVarUInt_before {v v' : Nat} (h : v < v') (hv : v' < 256 ^ 16) :
    Before (encodeVarUInt v) (encodeVarUInt v') :=
  encodeVarUIntFrom_before (by simp) (by simp) (toBE_before 16 h hv)

/-! ## Field by field -/

mutual

/-- Integers, arrays and what is made of them. -/
def Ty.ordered : Ty → Bool
  | .uint _ => true
  | .array _ => true
  | .varUInt => true
  | .tuple fs => fs.ordered
  | .struct fs => fs.ordered
  | _ => false

def Fields.ordered : Fields → Bool
  | .last _ t => t.ordered
  | .cons _ t fs => t.ordered && fs.ordered

end

mutual

/-- The order of the values: integers by size, arrays byte by byte, tuples and structs field by field. -/
def Ty.Lt : (t : Ty) → t.Val → t.Val → Prop
  | .uint w => fun (x y : Fin (256 ^ w)) => x < y
  | .array n => fun (x y : { l : Bytes // l.length = n }) => x.val < y.val
  | .varUInt => fun (x y : Fin (256 ^ 16)) => x < y
  | .tuple fs => fs.Lt
  | .struct fs => fs.Lt
  | _ => fun _ _ => False

def Fields.Lt : (fs : Fields) → fs.Val → fs.Val → Prop
  | .last _ t => t.Lt
  | .cons _ t fs => fun (x, xs) (y, ys) => t.Lt x y ∨ x = y ∧ fs.Lt xs ys

end

mutual

theorem Ty.trichotomy : (t : Ty) → t.ordered = true → (x y : t.Val) → t.Lt x y ∨ x = y ∨ t.Lt y x
  | .uint w, _, x, y => lt_trichotomy (show Fin (256 ^ w) from x) y
  | .array _, _, x, y => (lt_trichotomy x.val y.val).imp_right (Or.imp_left Subtype.ext)
  | .varUInt, _, x, y => lt_trichotomy (show Fin (256 ^ 16) from x) y
  | .tuple fs, h, x, y => fs.trichotomy h x y
  | .struct fs, h, x, y => fs.trichotomy h x y

theorem Fields.trichotomy : (fs : Fields) → fs.ordered = true → (x y : fs.Val) → fs.Lt x y ∨ x = y ∨ fs.Lt y x
  | .last _ t, h, x, y => t.trichotomy h x y
  | .cons _ t fs, h, (x, xs), (y, ys) => by
    simp only [Fields.ordered, Bool.and_eq_true] at h
    rcases t.trichotomy h.1 x y with hlt | rfl | hgt
    · exact .inl (.inl hlt)
    · rcases fs.trichotomy h.2 xs ys with hlt | rfl | hgt
      · exact .inl (.inr ⟨rfl, hlt⟩)
      · exact .inr (.inl rfl)
      · exact .inr (.inr (.inr ⟨rfl, hgt⟩))
    · exact .inr (.inr (.inl hgt))

end

mutual

/-- **The bytes of the smaller value are before those of the larger one.** -/
theorem Ty.encode_before : (t : Ty) → t.ordered = true → (x y : t.Val) → t.Lt x y → Before (t.encode x) (t.encode y)
  | .uint w, _, _, y, h => toBE_before w h (Fin.isLt y)
  | .array _, _, x, y, h => Before.of_length (x.2.trans y.2.symm) h
  | .varUInt, _, _, y, h => encodeVarUInt_before h (Fin.isLt y)
  | .tuple fs, ho, x, y, h => fs.encodeTuple_before ho x y h
  | .struct fs, ho, x, y, h => fs.encodeStruct_before ho x y h

theorem Fields.encodeTuple_before : (fs : Fields) → fs.ordered = true → (x y : fs.Val) → fs.Lt x y →
    Before (fs.encodeTuple x) (fs.encodeTuple y)
  | .last _ t, ho, x, y, h => t.encode_before ho x y h
  | .cons _ t fs, ho, (x, xs), (y, ys), h => by
    simp only [Fields.ordered, Bool.and_eq_true] at ho
    rcases h with h | ⟨rfl, h⟩
    · exact (t.encode_before ho.1 x y h).append _ _
    · exact (fs.encodeTuple_before ho.2 xs ys h).append_left _

theorem Fields.encodeStruct_before : (fs : Fields) → fs.ordered = true → (x y : fs.Val) → fs.Lt x y →
    Before (fs.encodeStruct x) (fs.encodeStruct y)
  | .last _ t, ho, x, y, h => t.encode_before ho x y h
  | .cons _ t fs, ho, (x, xs), (y, ys), h => by
    simp only [Fields.ordered, Bool.and_eq_true] at ho
    rcases h with h | ⟨rfl, h⟩
    · exact (t.encode_before ho.1 x y h).append _ _
    · exact ((fs.encodeStruct_before ho.2 xs ys h).append_left [BREAK]).append_left _

end

/-- The byte order of the encodings is the order of the values. -/
theorem Ty.encode_lt_iff (t : Ty) (ho : t.ordered = true) (x y : t.Val) : t.encode x < t.encode y ↔ t.Lt x y := by
  refine ⟨fun h => ?_, fun h => (t.encode_before ho x y h).lt⟩
  rcases t.trichotomy ho x y with hlt | rfl | hgt
  · exact hlt
  · exact absurd h (lt_irrefl _)
  · exact absurd ((t.encode_before ho y x hgt).lt.trans h) (lt_irrefl _)

/-- **No encoding begins with another**: both are read from the longer one. -/
theorem encode_prefix_free (t : Ty) (htag : t.tagged = true) {x y : t.Val} (hx : t.Sized x) (hy : t.Sized y)
    (h : t.encode x <+: t.encode y) : x = y := by
  obtain ⟨r, hr⟩ := h
  have hread : t.decode (fun _ => 1) (t.encode x ++ r) = .ok (x, r) :=
    t.decode_encode (fun _ _ => by decide) htag x hx r
  rw [hr, ← List.append_nil (t.encode y), t.decode_encode (fun _ _ => by decide) htag y hy []] at hread
  cases hread
  rfl

/-! ## The scanned keys -/

/-- The types whose encodings are scanned in order. -/
def scannedKeys : List Ty :=
  [.varUInt, UtxosByScriptHash.key, TxsByScriptHash.key, UtxosByRuneId.key, InscriptionUtxosByScriptHash.key,
   BalancesByRuneId.key]

mutual

/-- Values of the ordered types have no vectors or byte strings. -/
theorem Ty.sized_of_ordered : (t : Ty) → t.ordered = true → (x : t.Val) → t.Sized x
  | .uint _, _, _ => trivial
  | .array _, _, _ => trivial
  | .varUInt, _, _ => trivial
  | .tuple fs, ho, x => fs.sized_of_ordered ho x
  | .struct fs, ho, x => fs.sized_of_ordered ho x

theorem Fields.sized_of_ordered : (fs : Fields) → fs.ordered = true → (x : fs.Val) → fs.Sized x
  | .last _ t, ho, x => t.sized_of_ordered ho x
  | .cons _ t fs, ho, (x, xs) => by
    simp only [Fields.ordered, Bool.and_eq_true] at ho
    exact ⟨t.sized_of_ordered ho.1 x, fs.sized_of_ordered ho.2 xs⟩

end

namespace Rollback

/-- The fields in front of the modified key. -/
def position : Ty :=
  .struct <|
    .cons "height" u64 <|
    .cons "hash" (.array 32) <|
    .last "operation_idx" u64

def positionOf : metadataKey.Val → position.Val := fun (height, hash, operationIdx, _) => (height, hash, operationIdx)

def modifiedKey : metadataKey.Val → (Ty.vec u8).Val := fun (_, _, _, modifiedKey) => modifiedKey

theorem encode_metadataKey (a : metadataKey.Val) :
    metadataKey.encode a = position.encode (positionOf a) ++ BREAK :: (Ty.vec u8).encode (modifiedKey a) := by
  obtain ⟨height, hash, operationIdx, modifiedKey⟩ := a
  simp only [metadataKey, position, positionOf, Rollback.modifiedKey, Ty.encode, Fields.encodeStruct, List.append_assoc,
    List.cons_append]

theorem encode_before (a b : metadataKey.Val) (h : position.Lt (positionOf a) (positionOf b)) :
    Before (metadataKey.encode a) (metadataKey.encode b) := by
  rw [encode_metadataKey, encode_metadataKey]
  exact (position.encode_before rfl _ _ h).append _ _

end Rollback

/-- **The bytes of the scanned keys sort like their fields, and none begins with another.**  The keys of the rollback
data are sorted by the fields in front of the modified key. -/
theorem key_bytes_sort :
    (∀ t ∈ scannedKeys, ∀ a b : t.Val,
      (t.encode a < t.encode b ↔ t.Lt a b) ∧ (t.encode a <+: t.encode b → a = b)) ∧
    (∀ a b : Rollback.metadataKey.Val,
      (Rollback.positionOf a ≠ Rollback.positionOf b →
        ((Rollback.metadataKey.encode a < Rollback.metadataKey.encode b ↔
          Rollback.position.Lt (Rollback.positionOf a) (Rollback.positionOf b)) ∧
        ¬ Rollback.metadataKey.encode a <+: Rollback.metadataKey.encode b)) ∧
      ((Rollback.modifiedKey a).length < 2 ^ 32 → (Rollback.modifiedKey b).length < 2 ^ 32 →
        Rollback.metadataKey.encode a <+: Rollback.metadataKey.encode b → a = b)) := by
  refine ⟨fun t ht a b => ?_, fun a b => ⟨fun hne => ?_, fun ha hb h => ?_⟩⟩
  · have ho : ∀ t ∈ scannedKeys, t.ordered = true ∧ t.tagged = true := by decide
    exact ⟨t.encode_lt_iff (ho t ht).1 a b, encode_prefix_free t (ho t ht).2 (t.sized_of_ordered (ho t ht).1 a)
      (t.sized_of_ordered (ho t ht).1 b)⟩
  · rcases Rollback.position.trichotomy rfl (Rollback.positionOf a) (Rollback.positionOf b) with hlt | heq | hgt
    · have hbefore := Rollback.encode_before a b hlt
      exact ⟨⟨fun _ => hlt, fun _ => hbefore.lt⟩, hbefore.not_prefix⟩
    · exact absurd heq hne
    · have hbefore := Rollback.encode_before b a hgt
      refine ⟨⟨fun h => absurd (h.trans hbefore.lt) (lt_irrefl _), fun h => ?_⟩, hbefore.not_prefix_swap⟩
      exact absurd ((Rollback.encode_before a b h).lt.trans hbefore.lt) (lt_irrefl _)
  · refine encode_prefix_free Rollback.metadataKey rfl ?_ ?_ h
    · exact ⟨trivial, trivial, trivial, ha, fun _ _ => trivial⟩
    · exact ⟨trivial, trivial, trivial, hb, fun _ _ => trivial⟩

end DogeIndexer.Timbre
