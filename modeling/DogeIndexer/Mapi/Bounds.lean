import DogeIndexer.Mapi.Pages

/-!
# Which keys a range selects

A range of heights is cut out of the keys by bytes: an absent bound is a separator, or the byte after it, a present one
an encoded height behind the separator.

* `selects_data` — the range of a reducer's parameter holds the data keys of that parameter within the heights, and no
  other key of any instance.
* `holds_rollback_iff` — the range of rollback keys, which may also hold an `info` key.
* `bounds_exact_iff` — the ranges are exact, except for the instance that the `info` keys fall into.
-/

set_option autoImplicit false

namespace DogeIndexer.Timbre

/-! ## Keys -/

def PREFIX_COLLECTION_METADATA : Byte := 84
def PREFIX_MINER_METADATA : Byte := 85

/-- The keys that `Prefix` builds, those of the ingestors included. -/
inductive WrittenKey where
  | stored (key : StoredKey)
  | collectionMetadata (kind : Byte) (data : Bytes)
  | minerMetadata (data : Bytes)

def Namespace.written (ns : Namespace) : WrittenKey → Bytes
  | .stored key => ns.key key
  | .collectionMetadata kind data => ns.encode ++ PREFIX_COLLECTION_METADATA :: kind :: BREAK :: data
  | .minerMetadata data => ns.encode ++ PREFIX_MINER_METADATA :: 77 :: BREAK :: data

/-- A height, and the fields after it. -/
def heightFields (hname : String) : Option Fields → Fields
  | none => .last hname u64
  | some fs => .cons hname u64 fs

/-- The key types of a parameter followed by a height. -/
def byHeight (name : String) (A : Ty) (hname : String) (rest : Option Fields) : Ty :=
  .struct (.cons name A (heightFields hname rest))

end DogeIndexer.Timbre

namespace DogeIndexer.Mapi

open Timbre

/-- The height of a key. -/
def heightOf {hname : String} : {rest : Option Fields} → (heightFields hname rest).Val → Height
  | none => fun (height : Height) => height
  | some _ => fun (height, _) => height

/-- `rollback_metadata_key_range`. -/
def rollbackMetadataKeyRange (ns : Namespace) (lower upper : Option Height) : Range :=
  let e := ns.encode ++ [PREFIX_ROLLBACK]
  ⟨(lower.map fun v => e ++ [BREAK] ++ u64.encode v).getD (e ++ [BREAK]),
    (upper.map fun v => e ++ [BREAK] ++ u64.encode v).getD (e ++ [BREAK_1])⟩

/-! ## Heights in keys -/

theorem encode_heightFields {hname : String} : {rest : Option Fields} → (x : (heightFields hname rest).Val) →
    ∃ tail, (heightFields hname rest).encodeStruct x = Machine.toBE 8 (heightOf x).val ++ tail
  | none, _ => ⟨[], (List.append_nil _).symm⟩
  | some fs, (_, xs) => ⟨BREAK :: fs.encodeStruct xs, rfl⟩

theorem not_lt_height_iff {h v : Height} (tail : Bytes) :
    ¬ Machine.toBE 8 h.val ++ tail < Machine.toBE 8 v.val ↔ v ≤ h := by
  rw [toBE_append_lt_iff h.isLt v.isLt, not_lt, Fin.le_def]

theorem lt_height_iff {h v : Height} (tail : Bytes) :
    Machine.toBE 8 h.val ++ tail < Machine.toBE 8 v.val ↔ h < v := by
  rw [toBE_append_lt_iff h.isLt v.isLt, Fin.lt_def]

/-- Below the height after `v` are the heights up to `v`, when there is one. -/
theorem lt_saturatingSucc_iff {h v : Height} (hv : v.val < 256 ^ 8 - 1) : h < saturatingSucc v ↔ h ≤ v := by
  unfold saturatingSucc
  rw [dif_pos (by omega), Fin.lt_def, Fin.le_def]
  exact Nat.lt_succ_iff

/-! ## Data keys -/

section

variable {name hname : String} {A : Ty} {rest : Option Fields}

/-- The parameter of a key. -/
def paramOf (key : (byHeight name A hname rest).Val) : A.Val :=
  Prod.fst (show A.Val × (heightFields hname rest).Val from key)

/-- The height of a key. -/
def keyHeight (key : (byHeight name A hname rest).Val) : Height :=
  heightOf (show A.Val × (heightFields hname rest).Val from key).2

theorem encode_byHeight (key : (byHeight name A hname rest).Val) :
    ∃ tail, (byHeight name A hname rest).encode key =
      A.encode (paramOf key) ++ BREAK :: (Machine.toBE 8 (keyHeight key).val ++ tail) := by
  obtain ⟨tail, htail⟩ := encode_heightFields (show A.Val × (heightFields hname rest).Val from key).2
  refine ⟨tail, ?_⟩
  show A.encode (paramOf key) ++ BREAK :: (heightFields hname rest).encodeStruct _ = _
  rw [htail]
  rfl

theorem sized_paramOf {key : (byHeight name A hname rest).Val} (h : (byHeight name A hname rest).Sized key) :
    A.Sized (paramOf key) := h.1

theorem tagged_param (h : (byHeight name A hname rest).tagged = true) : A.tagged = true := by
  simp only [byHeight, Ty.tagged, Fields.tagged, Bool.and_eq_true] at h
  exact h.1

/-- The parameter that a key begins with is its own. -/
theorem paramOf_eq {key : (byHeight name A hname rest).Val} {p : A.Val} {r : Bytes} (htag : A.tagged = true)
    (hp : A.Sized p) (hkey : (byHeight name A hname rest).Sized key)
    (h : (byHeight name A hname rest).encode key = A.encode p ++ BREAK :: r) : paramOf key = p := by
  obtain ⟨tail, htail⟩ := encode_byHeight key
  have hleft : A.encode (paramOf key) <+: A.encode p ++ BREAK :: r := by
    rw [← h, htail]
    exact List.prefix_append _ _
  rcases List.prefix_or_prefix_of_prefix hleft (List.prefix_append _ _) with hle | hle
  · exact encode_prefix_free A htag (sized_paramOf hkey) hp hle
  · exact (encode_prefix_free A htag hp (sized_paramOf hkey) hle).symm

/-- **The range of a parameter and heights selects exactly its data keys**, among the keys of all instances. -/
theorem selects_data (ns : Namespace) {reducer : Reducer} (hreducer : reducer.key = some (byHeight name A hname rest))
    {p : A.Val} (hp : A.Sized p) (lower upper : Option Height) (hupper : ∀ v ∈ upper, v.val < 256 ^ 8 - 1)
    (ns' : Namespace) (k : WrittenKey) :
    (reducerKeyRange ns reducer A u64 (some p) lower (upper.map saturatingSucc)).Holds (ns'.written k) ↔
      ns' = ns ∧ ∃ key hkey, k = .stored (.data reducer (byHeight name A hname rest) hreducer key hkey) ∧
        paramOf key = p ∧ (∀ v ∈ lower, v ≤ keyHeight key) ∧ ∀ v ∈ upper, keyHeight key ≤ v := by
  obtain ⟨dataplane, inst⟩ := ns
  obtain ⟨dataplane', inst'⟩ := ns'
  have htag : A.tagged = true := tagged_param (schema_tagged _ (key_mem_schema reducer _ hreducer))
  refine (holds_reducerKeyRange _ _ A _ lower (upper.map saturatingSucc) _).trans ?_
  constructor
  · rintro ⟨r, hk, hlower, hbelow⟩
    cases k with
    | stored k =>
      cases k with
      | cursor =>
        simp [Namespace.written, Namespace.key, keyBase, Namespace.dataPrefix, Namespace.encode] at hk
      | info =>
        simp [Namespace.written, Namespace.key, keyBase, Namespace.dataPrefix, Namespace.encode] at hk
      | rollback key hkey =>
        simp [Namespace.written, Namespace.key, keyBase, Namespace.dataPrefix, Namespace.encode, PREFIX_ROLLBACK,
          PREFIX_DATA] at hk
      | data reducer' t ht key hkey =>
        simp only [Namespace.written, Namespace.key, keyBase, Namespace.dataPrefix, Namespace.encode,
          List.cons_append, List.nil_append, List.append_assoc, List.cons.injEq, true_and] at hk
        obtain ⟨rfl, rfl, hred, henc⟩ := hk
        cases Reducer.encode_injective hred
        cases ht.symm.trans hreducer
        have hparam := paramOf_eq htag hp hkey henc
        obtain ⟨tail, htail⟩ := encode_byHeight key
        have hr : r = Machine.toBE 8 (keyHeight key).val ++ tail := by
          rw [htail, hparam] at henc
          exact (List.cons.inj (List.append_cancel_left henc)).2.symm
        subst hr
        refine ⟨rfl, key, hkey, rfl, hparam, fun v hv => (not_lt_height_iff tail).mp (hlower v hv), fun v hv => ?_⟩
        exact (lt_saturatingSucc_iff (hupper v hv)).mp
          ((lt_height_iff tail).mp (hbelow _ (Option.mem_map_of_mem _ hv)))
    | collectionMetadata kind data =>
      simp [Namespace.written, keyBase, Namespace.dataPrefix, Namespace.encode, PREFIX_COLLECTION_METADATA,
        PREFIX_DATA] at hk
    | minerMetadata data =>
      simp [Namespace.written, keyBase, Namespace.dataPrefix, Namespace.encode, PREFIX_MINER_METADATA,
        PREFIX_DATA] at hk
  · rintro ⟨hns, key, hkey, rfl, rfl, hlower, hbelow⟩
    rw [hns]
    obtain ⟨tail, htail⟩ := encode_byHeight key
    refine ⟨Machine.toBE 8 (keyHeight key).val ++ tail, ?_, fun v hv => (not_lt_height_iff tail).mpr (hlower v hv),
      fun v hv => ?_⟩
    · simp only [Namespace.written, Namespace.key, keyBase, Namespace.dataPrefix, htail, List.append_assoc,
        List.cons_append, List.nil_append]
    · obtain ⟨w, hw, rfl⟩ := Option.mem_map.mp hv
      exact (lt_height_iff tail).mpr ((lt_saturatingSucc_iff (hupper w hw)).mpr (hbelow w hw))

/-- The keys of unspent outputs are of this kind, as are those of the other listings by height. -/
example : Reducer.utxosByScriptHash.key = some (byHeight "script_hash" (.array 20) "height"
    (some (.cons "utxo_hash" (.array 32) (.last "utxo_index" u32)))) := rfl

end

/-! ## Rollback keys -/

/-- The height of a rollback key. -/
def rollbackHeight (key : Rollback.metadataKey.Val) : Height := (Rollback.positionOf key).1

/-- **The range of rollback keys** holds those within the heights, and the `info` key that is the separator itself. -/
theorem holds_rollback_iff (ns : Namespace) (lower upper : Option Height) (ns' : Namespace) (k : WrittenKey) :
    (rollbackMetadataKeyRange ns lower upper).Holds (ns'.written k) ↔
      (ns' = ns ∧ ∃ key hkey, k = .stored (.rollback key hkey) ∧ (∀ v ∈ lower, v ≤ rollbackHeight key) ∧
        ∀ v ∈ upper, rollbackHeight key < v) ∨
      (k = .stored .info ∧ ns = infoNamespace ∧ ns' = ⟨PREFIX_ROLLBACK, BREAK⟩ ∧ lower = none) := by
  obtain ⟨dataplane, inst⟩ := ns
  obtain ⟨dataplane', inst'⟩ := ns'
  refine (holds_bounds (Namespace.encode ⟨dataplane, inst⟩ ++ [PREFIX_ROLLBACK]) lower upper _).trans ?_
  have hkeyBytes : ∀ key : Rollback.metadataKey.Val, ∃ tail,
      Rollback.metadataKey.encode key = Machine.toBE 8 (rollbackHeight key).val ++ tail := by
    rintro ⟨height, hash, operationIdx, modifiedKey⟩
    exact ⟨_, rfl⟩
  constructor
  · rintro ⟨r, hk, hlower, hbelow⟩
    cases k with
    | stored k =>
      cases k with
      | cursor => simp [Namespace.written, Namespace.key, Namespace.encode] at hk
      | info =>
        simp only [Namespace.written, Namespace.key, Namespace.encode, List.cons_append, List.nil_append,
          List.cons.injEq] at hk
        obtain ⟨rfl, rfl, rfl, rfl, rfl⟩ := hk
        refine .inr ⟨rfl, rfl, rfl, ?_⟩
        cases lower with
        | none => rfl
        | some v => exact absurd (List.nil_lt_cons _ _) (hlower v rfl)
      | data reducer t ht key hkey =>
        simp [Namespace.written, Namespace.key, Namespace.encode, PREFIX_ROLLBACK, PREFIX_DATA] at hk
      | rollback key hkey =>
        simp only [Namespace.written, Namespace.key, Namespace.encode, List.cons_append, List.nil_append,
          List.cons.injEq, true_and] at hk
        obtain ⟨rfl, rfl, henc⟩ := hk
        obtain ⟨tail, htail⟩ := hkeyBytes key
        rw [htail] at henc
        subst henc
        exact .inl ⟨rfl, key, hkey, rfl, fun v hv => (not_lt_height_iff tail).mp (hlower v hv),
          fun v hv => (lt_height_iff tail).mp (hbelow v hv)⟩
    | collectionMetadata kind data =>
      simp [Namespace.written, Namespace.encode, PREFIX_COLLECTION_METADATA, PREFIX_ROLLBACK] at hk
    | minerMetadata data => simp [Namespace.written, Namespace.encode, PREFIX_MINER_METADATA, PREFIX_ROLLBACK] at hk
  · rintro (⟨hns, key, hkey, rfl, hlower, hbelow⟩ | ⟨rfl, hns, hns', rfl⟩)
    · rw [hns]
      obtain ⟨tail, htail⟩ := hkeyBytes key
      refine ⟨Machine.toBE 8 (rollbackHeight key).val ++ tail, ?_,
        fun v hv => (not_lt_height_iff tail).mpr (hlower v hv), fun v hv => (lt_height_iff tail).mpr (hbelow v hv)⟩
      simp only [Namespace.written, Namespace.key, htail, List.append_assoc, List.cons_append, List.nil_append]
    · rw [hns, hns']
      exact ⟨[], rfl, by simp, fun v _ => List.nil_lt_cons _ _⟩

/-! ## Exactness -/

/-- The ranges of parameters are exact. -/
def DataExact (ns : Namespace) : Prop :=
  ∀ (name : String) (A : Ty) (hname : String) (rest : Option Fields) (reducer : Reducer)
    (hreducer : reducer.key = some (byHeight name A hname rest)) (p : A.Val), A.Sized p →
    ∀ lower upper : Option Height, (∀ v ∈ upper, v.val < 256 ^ 8 - 1) → ∀ (ns' : Namespace) (k : WrittenKey),
      (reducerKeyRange ns reducer A u64 (some p) lower (upper.map saturatingSucc)).Holds (ns'.written k) ↔
        ns' = ns ∧ ∃ key hkey, k = .stored (.data reducer (byHeight name A hname rest) hreducer key hkey) ∧
          paramOf key = p ∧ (∀ v ∈ lower, v ≤ keyHeight key) ∧ ∀ v ∈ upper, keyHeight key ≤ v

/-- The range of rollback keys is exact. -/
def RollbackExact (ns : Namespace) (lower upper : Option Height) : Prop :=
  ∀ (ns' : Namespace) (k : WrittenKey), (rollbackMetadataKeyRange ns lower upper).Holds (ns'.written k) ↔
    ns' = ns ∧ ∃ key hkey, k = .stored (.rollback key hkey) ∧ (∀ v ∈ lower, v ≤ rollbackHeight key) ∧
      ∀ v ∈ upper, rollbackHeight key < v

/-- **The ranges select exactly the keys they are meant for**, unless the instance is the one that the `info` keys
fall into and the rollback keys are asked for from the first one on. -/
theorem bounds_exact_iff (ns : Namespace) (lower upper : Option Height) :
    DataExact ns ∧ RollbackExact ns lower upper ↔ (ns = infoNamespace → lower ≠ none) := by
  constructor
  · rintro ⟨-, hexact⟩ rfl rfl
    have hholds := (holds_rollback_iff infoNamespace none upper ⟨PREFIX_ROLLBACK, BREAK⟩ (.stored .info)).mpr
      (.inr ⟨rfl, rfl, rfl, rfl⟩)
    obtain ⟨-, key, hkey, hk, -⟩ := (hexact _ _).mp hholds
    cases hk
  · intro hns
    refine ⟨fun name A hname rest reducer hreducer p hp lower upper hupper ns' k =>
      selects_data ns hreducer hp lower upper hupper ns' k, fun ns' k => ?_⟩
    rw [holds_rollback_iff]
    constructor
    · rintro (h | ⟨-, hinfo, -, hnone⟩)
      · exact h
      · exact absurd hnone (hns hinfo)
    · exact .inl

/-- The `info` key of instance `(82, 96)` is among the rollback keys of instance `(73, 96)`. -/
theorem info_key_among_rollback :
    (rollbackMetadataKeyRange ⟨73, 96⟩ none none).Holds ((⟨82, 96⟩ : Namespace).written (.stored .info)) ∧
      ¬ RollbackExact ⟨73, 96⟩ none none := by
  have hholds : (rollbackMetadataKeyRange ⟨73, 96⟩ none none).Holds
      ((⟨82, 96⟩ : Namespace).written (.stored .info)) := by decide
  refine ⟨hholds, fun hexact => ?_⟩
  exact absurd ((hexact _ _).mp hholds).1 (by decide)

end DogeIndexer.Mapi
