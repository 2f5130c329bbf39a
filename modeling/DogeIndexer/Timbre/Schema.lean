import DogeIndexer.Lib.Machine
import Mathlib.Data.List.Nodup

/-!
# The key and value codec

Model of `Encode` and `Decode` of `crates/timbre-xbt` (`encdec/encode.rs`, `encdec/decode.rs`) and
of the derive macros (`macros/src/lib.rs`).  A derive macro reads the declaration of a type, so the
declarations are data here: `Ty` is the language of field types, `Ty.Val` the values of a type, and
`Ty.encode`, `Ty.decode` what the impls and the macros generate for it.

A decoder ends in a value and the bytes left, in a `TimbreError`, or in a panic.  What a panic of
`Vec::with_capacity` depends on, the size of the element type in memory, is the parameter `size`.
-/

set_option autoImplicit false

namespace DogeIndexer.Timbre

abbrev Bytes := List Byte

/-! ## Outcomes -/

/-- `TimbreError`, the part that decoding can return. -/
inductive TimbreError where
  | malformedInput (text : String)
  | invalidUtf8
  | varUIntCasting (value : Nat)
  deriving DecidableEq, Repr

/-- How a call ends: `Ok`, `Err` or a panic. -/
inductive Outcome (α : Type) where
  | ok (a : α)
  | err (e : TimbreError)
  | panic
  deriving DecidableEq, Repr

namespace Outcome

variable {α β : Type}

/-- `?` after a call. -/
protected def bind : Outcome α → (α → Outcome β) → Outcome β
  | ok a, f => f a
  | err e, _ => err e
  | panic, _ => panic

instance : Monad Outcome where
  pure := ok
  bind := Outcome.bind

/-- `ok_or`. -/
def okOr (e : TimbreError) : Option α → Outcome α
  | some a => ok a
  | none => err e

@[simp] theorem ok_bind (a : α) (f : α → Outcome β) : (ok a >>= f) = f a := rfl

@[simp] theorem panic_bind (f : α → Outcome β) : ((panic : Outcome α) >>= f) = panic := rfl

end Outcome

/-! ## Types -/

mutual

/-- The types that implement both traits. -/
inductive Ty where
  /-- An unsigned integer of `w` bytes. -/
  | uint (w : Nat)
  | bool
  /-- `[u8; n]`. -/
  | array (n : Nat)
  | shortByteString
  | varUInt
  | option (t : Ty)
  /-- `Vec<T>`. -/
  | vec (t : Ty)
  /-- `TimbreVec<T>`. -/
  | timbreVec (t : Ty)
  /-- `IndexMap<K, V>`. -/
  | indexMap (k v : Ty)
  /-- Parts one after the other: the tuples, and `CursorValue`, whose impls are written by hand. -/
  | tuple (fs : Fields)
  /-- A struct with derived impls: a break after each field but the last. -/
  | struct (fs : Fields)
  /-- An enum with derived impls. -/
  | enum (vs : Variants)

inductive Fields where
  | last (name : String) (t : Ty)
  | cons (name : String) (t : Ty) (fs : Fields)

inductive Variants where
  | nil
  | unit (name : String) (vs : Variants)
  | fields (name : String) (fs : Fields) (vs : Variants)

end

/-- An `IndexMap`: its entries in the order of insertion. -/
structure IndexMap (κ ν : Type) where
  entries : List (κ × ν)
  nodup : (entries.map Prod.fst).Nodup
  deriving DecidableEq

namespace IndexMap

variable {κ ν : Type} [DecidableEq κ]

/-- The entries after `insert`: a known key keeps its place and gets the new value. -/
def insertEntry (k : κ) (v : ν) : List (κ × ν) → List (κ × ν)
  | [] => [(k, v)]
  | e :: l => if e.1 = k then (k, v) :: l else e :: insertEntry k v l

theorem keys_insertEntry (k : κ) (v : ν) (l : List (κ × ν)) :
    (insertEntry k v l).map Prod.fst = if k ∈ l.map Prod.fst then l.map Prod.fst else l.map Prod.fst ++ [k] := by
  induction l with
  | nil => simp [insertEntry]
  | cons e l ih =>
    unfold insertEntry
    by_cases h : e.1 = k
    · simp [h]
    · have hne : ¬ k = e.1 := fun hk => h hk.symm
      simp only [if_neg h, List.map_cons, ih, List.mem_cons, hne, false_or, List.cons_append]
      split <;> rfl

theorem insertEntry_of_notMem {k : κ} {v : ν} {l : List (κ × ν)} (h : k ∉ l.map Prod.fst) :
    insertEntry k v l = l ++ [(k, v)] := by
  induction l with
  | nil => rfl
  | cons e l ih =>
    simp only [List.map_cons, List.mem_cons, not_or] at h
    rw [insertEntry, if_neg (fun he => h.1 he.symm), ih h.2, List.cons_append]

def empty : IndexMap κ ν := ⟨[], List.nodup_nil⟩

def insert (m : IndexMap κ ν) (k : κ) (v : ν) : IndexMap κ ν where
  entries := insertEntry k v m.entries
  nodup := by
    rw [keys_insertEntry]
    split
    · exact m.nodup
    · rename_i h
      exact List.nodup_append.mpr ⟨m.nodup, List.nodup_singleton k,
        fun a ha b hb => by rw [List.mem_singleton.mp hb]; exact fun e => h (e ▸ ha)⟩

end IndexMap

mutual

/-- The values of a type. -/
def Ty.Val : Ty → Type
  | .uint w => Fin (256 ^ w)
  | .bool => Bool
  | .array n => { l : Bytes // l.length = n }
  | .shortByteString => Bytes
  | .varUInt => Fin (256 ^ 16)
  | .option t => Option t.Val
  | .vec t => List t.Val
  | .timbreVec t => List t.Val
  | .indexMap k v => IndexMap k.Val v.Val
  | .tuple fs => fs.Val
  | .struct fs => fs.Val
  | .enum vs => vs.Val

def Fields.Val : Fields → Type
  | .last _ t => t.Val
  | .cons _ t fs => t.Val × fs.Val

def Variants.Val : Variants → Type
  | .nil => Empty
  | .unit _ vs => Unit ⊕ vs.Val
  | .fields _ fs vs => fs.Val ⊕ vs.Val

end

mutual

def Ty.decEq : (t : Ty) → DecidableEq t.Val
  | .uint w => inferInstanceAs (DecidableEq (Fin (256 ^ w)))
  | .bool => inferInstanceAs (DecidableEq Bool)
  | .array n => inferInstanceAs (DecidableEq { l : Bytes // l.length = n })
  | .shortByteString => inferInstanceAs (DecidableEq Bytes)
  | .varUInt => inferInstanceAs (DecidableEq (Fin (256 ^ 16)))
  | .option t =>
    have := t.decEq
    inferInstanceAs (DecidableEq (Option t.Val))
  | .vec t =>
    have := t.decEq
    inferInstanceAs (DecidableEq (List t.Val))
  | .timbreVec t =>
    have := t.decEq
    inferInstanceAs (DecidableEq (List t.Val))
  | .indexMap k v =>
    have := k.decEq
    have := v.decEq
    inferInstanceAs (DecidableEq (IndexMap k.Val v.Val))
  | .tuple fs => fs.decEq
  | .struct fs => fs.decEq
  | .enum vs => vs.decEq

def Fields.decEq : (fs : Fields) → DecidableEq fs.Val
  | .last _ t => t.decEq
  | .cons _ t fs =>
    have := t.decEq
    have := fs.decEq
    inferInstanceAs (DecidableEq (t.Val × fs.Val))

def Variants.decEq : (vs : Variants) → DecidableEq vs.Val
  | .nil => inferInstanceAs (DecidableEq Empty)
  | .unit _ vs =>
    have := vs.decEq
    inferInstanceAs (DecidableEq (Unit ⊕ vs.Val))
  | .fields _ fs vs =>
    have := fs.decEq
    have := vs.decEq
    inferInstanceAs (DecidableEq (fs.Val ⊕ vs.Val))

end

instance (t : Ty) : DecidableEq t.Val := t.decEq

/-! ## Encoding -/

/-- The separator between the fields of a struct and between the parts of a key. -/
def BREAK : Byte := 96

/-- `to_be_bytes` of a value of `w` bytes. -/
def encodeUInt (w v : Nat) : Bytes := Machine.toBE w v

/-- The loop of `VarUInt::encode` over the big-endian bytes: from the first byte that is not zero on. -/
def encodeVarUIntFrom : Bytes → Bytes
  | [] => [0]
  | b :: l => if b ≠ 0 then Fin.ofNat 256 (l.length + 1) :: b :: l else encodeVarUIntFrom l

def encodeVarUInt (v : Nat) : Bytes := encodeVarUIntFrom (Machine.toBE 16 v)

def encodeBool (b : Bool) : Bytes := [if b then 1 else 0]

/-- The length `as u8`, then the bytes. -/
def encodeShortByteString (s : Bytes) : Bytes := Fin.ofNat 256 s.length :: s

section

variable {α κ ν : Type}

def encodeOption (encode : α → Bytes) : Option α → Bytes
  | none => encodeBool false
  | some x => encodeBool true ++ encode x

/-- The length `as u32`, then the items. -/
def encodeVec (encode : α → Bytes) (l : List α) : Bytes := encodeUInt 4 l.length ++ l.flatMap encode

def encodeTimbreVec (encode : α → Bytes) (l : List α) : Bytes := encodeVarUInt l.length ++ l.flatMap encode

/-- The length as a `usize`, then each key with its value. -/
def encodeIndexMap (encodeKey : κ → Bytes) (encodeValue : ν → Bytes) (m : IndexMap κ ν) : Bytes :=
  encodeUInt 8 m.entries.length ++ m.entries.flatMap (fun e => encodeKey e.1 ++ encodeValue e.2)

end

mutual

def Ty.encode : (t : Ty) → t.Val → Bytes
  | .uint w => fun (v : Fin (256 ^ w)) => encodeUInt w v.val
  | .bool => encodeBool
  | .array _ => Subtype.val
  | .shortByteString => encodeShortByteString
  | .varUInt => fun (v : Fin (256 ^ 16)) => encodeVarUInt v.val
  | .option t => encodeOption t.encode
  | .vec t => encodeVec t.encode
  | .timbreVec t => encodeTimbreVec t.encode
  | .indexMap k v => encodeIndexMap k.encode v.encode
  | .tuple fs => fs.encodeTuple
  | .struct fs => fs.encodeStruct
  | .enum vs => vs.encode 0

def Fields.encodeTuple : (fs : Fields) → fs.Val → Bytes
  | .last _ t => t.encode
  | .cons _ t fs => fun (x, xs) => t.encode x ++ fs.encodeTuple xs

/-- `encode_derive` on a struct: `append` for the last field, `append_with_break` for the others. -/
def Fields.encodeStruct : (fs : Fields) → fs.Val → Bytes
  | .last _ t => t.encode
  | .cons _ t fs => fun (x, xs) => t.encode x ++ BREAK :: fs.encodeStruct xs

/-- `encode_derive` on an enum: the variant's position as a byte, then its fields. -/
def Variants.encode : (vs : Variants) → Nat → vs.Val → Bytes
  | .nil, _ => fun x => nomatch x
  | .unit _ vs, i => fun
    | .inl _ => [Fin.ofNat 256 i]
    | .inr x => vs.encode (i + 1) x
  | .fields _ fs vs, i => fun
    | .inl x => Fin.ofNat 256 i :: fs.encodeTuple x
    | .inr x => vs.encode (i + 1) x

end

/-! ## Decoding -/

def insufficient : TimbreError := .malformedInput "Insufficient bytes for decoding"

/-- `split_at_checked`. -/
def splitAtChecked (n : Nat) (bytes : Bytes) : Option (Bytes × Bytes) :=
  if n ≤ bytes.length then some (bytes.take n, bytes.drop n) else none

/-- `from_be_bytes` of the first `w` bytes. -/
def decodeUInt (w : Nat) (bytes : Bytes) : Outcome (Fin (256 ^ w) × Bytes) :=
  Outcome.okOr insufficient
    ((splitAtChecked w bytes).map fun p => (Fin.ofNat (256 ^ w) (Machine.ofBE p.1), p.2))

def decodeBool : Bytes → Outcome (Bool × Bytes)
  | [] => .err (.malformedInput "Insufficient bytes for bool decoding")
  | b :: bytes => .ok (decide (b ≠ 0), bytes)

def decodeArray (n : Nat) (bytes : Bytes) : Outcome ({ l : Bytes // l.length = n } × Bytes) :=
  if h : n ≤ bytes.length then .ok (⟨bytes.take n, List.length_take_of_le h⟩, bytes.drop n)
  else .err (.malformedInput "Insufficient bytes for array decoding")

def decodeShortByteString : Bytes → Outcome (Bytes × Bytes)
  | [] => .err (.malformedInput "Empty bytes for ShortByteString decode")
  | len :: bytes =>
    Outcome.okOr (.malformedInput "Insufficient bytes for ShortByteString decode") (splitAtChecked len.val bytes)

def decodeVarUInt : Bytes → Outcome (Fin (256 ^ 16) × Bytes)
  | [] => .err (.malformedInput "Empty bytes for VarUInt decode")
  | len :: bytes =>
    if 16 < len.val then .err (.malformedInput "VarUInt length byte exceeds 16")
    else Outcome.okOr (.malformedInput "Insufficient bytes for VarUInt decode")
      ((splitAtChecked len.val bytes).map fun p =>
        (Fin.ofNat (256 ^ 16) (Machine.ofBE (List.replicate (16 - len.val) 0 ++ p.1)), p.2))

/-- `Vec::with_capacity` panics when the capacity exceeds `isize::MAX` bytes.  An allocation of up to `isize::MAX` bytes
is taken to succeed: where the allocator has no room, the process aborts, which is not modelled. -/
def withCapacity (size len : Nat) : Outcome Unit := if len * size ≤ 2 ^ 63 - 1 then .ok () else .panic

/-- The loop that decodes `n` items. -/
def decodeMany {α : Type} (decode : Bytes → Outcome (α × Bytes)) : Nat → Bytes → Outcome (List α × Bytes)
  | 0, bytes => .ok ([], bytes)
  | n + 1, bytes => do
    let (x, bytes) ← decode bytes
    let (l, bytes) ← decodeMany decode n bytes
    .ok (x :: l, bytes)

/-- The loop of `IndexMap::decode`. -/
def decodeEntries {κ ν : Type} [DecidableEq κ] (decodeKey : Bytes → Outcome (κ × Bytes))
    (decodeValue : Bytes → Outcome (ν × Bytes)) :
    Nat → IndexMap κ ν → Bytes → Outcome (IndexMap κ ν × Bytes)
  | 0, map, bytes => .ok (map, bytes)
  | n + 1, map, bytes => do
    let (key, bytes) ← decodeKey bytes
    let (value, bytes) ← decodeValue bytes
    decodeEntries decodeKey decodeValue n (map.insert key value) bytes

/-- `Option::decode`. -/
def decodeOption {α : Type} (decode : Bytes → Outcome (α × Bytes)) (bytes : Bytes) : Outcome (Option α × Bytes) := do
  let (presence, bytes) ← decodeUInt 1 bytes
  if presence.val = 0 then .ok (none, bytes)
  else
    let (value, bytes) ← decode bytes
    .ok (some value, bytes)

/-- `Vec::decode`; `size` is the size of an item. -/
def decodeVec {α : Type} (size : Nat) (decode : Bytes → Outcome (α × Bytes)) (bytes : Bytes) :
    Outcome (List α × Bytes) := do
  let (len, bytes) ← decodeUInt 4 bytes
  withCapacity size len.val
  decodeMany decode len.val bytes

/-- `TimbreVec::decode`. -/
def decodeTimbreVec {α : Type} (size : Nat) (decode : Bytes → Outcome (α × Bytes)) (bytes : Bytes) :
    Outcome (List α × Bytes) := do
  let (len, bytes) ← decodeVarUInt bytes
  if 2 ^ 64 ≤ len.val then .err (.varUIntCasting len.val)
  else
    withCapacity size len.val
    decodeMany decode len.val bytes

/-- `IndexMap::decode`. -/
def decodeIndexMap {κ ν : Type} [DecidableEq κ] (decodeKey : Bytes → Outcome (κ × Bytes))
    (decodeValue : Bytes → Outcome (ν × Bytes)) (bytes : Bytes) : Outcome (IndexMap κ ν × Bytes) := do
  let (len, bytes) ← decodeUInt 8 bytes
  decodeEntries decodeKey decodeValue len.val IndexMap.empty bytes

/-- `&rest[1..]` after a field that is not the last. -/
def skipBreak : Bytes → Outcome Bytes
  | [] => .panic
  | _ :: bytes => .ok bytes

/-- `bytes[0]` and `&bytes[1..]`, before the variant is chosen. -/
def readKind : Bytes → Outcome (Byte × Bytes)
  | [] => .panic
  | kind :: bytes => .ok (kind, bytes)

section

-- `size_of::<T>()`
variable (size : Ty → Nat)

mutual

def Ty.decode : (t : Ty) → Bytes → Outcome (t.Val × Bytes)
  | .uint w => decodeUInt w
  | .bool => decodeBool
  | .array n => decodeArray n
  | .shortByteString => decodeShortByteString
  | .varUInt => decodeVarUInt
  | .option t => decodeOption t.decode
  | .vec t => decodeVec (size t) t.decode
  | .timbreVec t => decodeTimbreVec (size t) t.decode
  | .indexMap k v => decodeIndexMap k.decode v.decode
  | .tuple fs => fs.decodeTuple
  | .struct fs => fs.decodeStruct
  | .enum vs => fun bytes => do
    let (kind, bytes) ← readKind bytes
    vs.decode 0 kind bytes

def Fields.decodeTuple : (fs : Fields) → Bytes → Outcome (fs.Val × Bytes)
  | .last _ t => t.decode
  | .cons _ t fs => fun bytes => do
    let (first, bytes) ← t.decode bytes
    let (second, bytes) ← fs.decodeTuple bytes
    .ok ((first, second), bytes)

/-- `decode_derive` on a struct. -/
def Fields.decodeStruct : (fs : Fields) → Bytes → Outcome (fs.Val × Bytes)
  | .last _ t => t.decode
  | .cons _ t fs => fun bytes => do
    let (field, rest) ← t.decode bytes
    let bytes ← skipBreak rest
    let (fields, bytes) ← fs.decodeStruct bytes
    .ok ((field, fields), bytes)

/-- `decode_derive` on an enum, after the first byte has been read; `i` is the position reached. -/
def Variants.decode : (vs : Variants) → Nat → Byte → Bytes → Outcome (vs.Val × Bytes)
  | .nil, _, _, _ => .err (.malformedInput "Unrecognized asset kind")
  | .unit _ vs, i, kind, bytes =>
    if kind = Fin.ofNat 256 i then .ok (.inl (), bytes)
    else do
      let (x, bytes) ← vs.decode (i + 1) kind bytes
      .ok (.inr x, bytes)
  | .fields _ fs vs, i, kind, bytes =>
    if kind = Fin.ofNat 256 i then do
      let (x, bytes) ← fs.decodeTuple bytes
      .ok (.inl x, bytes)
    else do
      let (x, bytes) ← vs.decode (i + 1) kind bytes
      .ok (.inr x, bytes)

end

end

end DogeIndexer.Timbre
