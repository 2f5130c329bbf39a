import DogeIndexer.Timbre.Reducers

/-!
# Where decoding panics

A derived decoder takes the byte behind each field but the last, and an enum's tag, without asking
whether there is one; a vector is allocated for as many items as its length announces.  `Ty.skip`
walks over one value along the length prefixes, and `Ty.Intact` says that on this walk no such byte
is missing and no such allocation is too large.

Principal results: `Ty.decode_follows` — a decoder and the walk end in the same way;
`decode_ne_panic_iff` — it panics on exactly the inputs that are not intact.
-/

set_option autoImplicit false

namespace DogeIndexer.Timbre

/-! ## Walking over a value -/

/-- An unsigned integer of `w` bytes, and what is behind it. -/
def readUInt (w : Nat) (bytes : Bytes) : Option (Nat × Bytes) :=
  (splitAtChecked w bytes).map fun p => (Machine.ofBE p.1, p.2)

/-- A length of at most 16, an integer of so many bytes, and what is behind it. -/
def readVarUInt : Bytes → Option (Nat × Bytes)
  | [] => none
  | len :: bytes => if 16 < len.val then none else readUInt len.val bytes

/-- Walk over `n` items. -/
def skipMany (skip : Bytes → Option Bytes) : Nat → Bytes → Option Bytes
  | 0, bytes => some bytes
  | n + 1, bytes => (skip bytes).bind (skipMany skip n)

mutual

/-- What is behind one value of the type, if there is one at the front. -/
def Ty.skip : Ty → Bytes → Option Bytes
  | .uint w => fun bytes => (readUInt w bytes).map Prod.snd
  | .bool => fun bytes => (readUInt 1 bytes).map Prod.snd
  | .array n => fun bytes => (readUInt n bytes).map Prod.snd
  | .shortByteString => fun bytes => (readUInt 1 bytes).bind fun p => (readUInt p.1 p.2).map Prod.snd
  | .varUInt => fun bytes => (readVarUInt bytes).map Prod.snd
  | .option t => fun bytes => (readUInt 1 bytes).bind fun p => if p.1 = 0 then some p.2 else t.skip p.2
  | .vec t => fun bytes => (readUInt 4 bytes).bind fun p => skipMany t.skip p.1 p.2
  | .timbreVec t => fun bytes =>
    (readVarUInt bytes).bind fun p => if 2 ^ 64 ≤ p.1 then none else skipMany t.skip p.1 p.2
  | .indexMap k v => fun bytes =>
    (readUInt 8 bytes).bind fun p => skipMany (fun bytes => (k.skip bytes).bind v.skip) p.1 p.2
  | .tuple fs => fs.skipTuple
  | .struct fs => fs.skipStruct
  | .enum vs => fun
    | [] => none
    | kind :: bytes => vs.skip 0 kind bytes

def Fields.skipTuple : Fields → Bytes → Option Bytes
  | .last _ t => t.skip
  | .cons _ t fs => fun bytes => (t.skip bytes).bind fs.skipTuple

def Fields.skipStruct : Fields → Bytes → Option Bytes
  | .last _ t => t.skip
  | .cons _ t fs => fun bytes => (t.skip bytes).bind fun
    | [] => none
    | _ :: rest => fs.skipStruct rest

def Variants.skip : Variants → Nat → Byte → Bytes → Option Bytes
  | .nil, _, _ => fun _ => none
  | .unit _ vs, i, kind => if kind = Fin.ofNat 256 i then some else vs.skip (i + 1) kind
  | .fields _ fs vs, i, kind => if kind = Fin.ofNat 256 i then fs.skipTuple else vs.skip (i + 1) kind

end

/-- Each of the items that the walk reaches is intact. -/
def IntactMany (skip : Bytes → Option Bytes) (intact : Bytes → Prop) : Nat → Bytes → Prop
  | 0, _ => True
  | n + 1, bytes => intact bytes ∧ ∀ rest ∈ skip bytes, IntactMany skip intact n rest

/-- `isize::MAX`. -/
def isizeMax : Nat := 2 ^ 63 - 1

section

variable (size : Ty → Nat)

mutual

/-- On the walk along the length prefixes the bytes do not end where a break or a tag is due, and no vector announces
items of more than `isize::MAX` bytes. -/
def Ty.Intact : Ty → Bytes → Prop
  | .option t => fun bytes => ∀ p ∈ readUInt 1 bytes, p.1 ≠ 0 → t.Intact p.2
  | .vec t => fun bytes =>
    ∀ p ∈ readUInt 4 bytes, p.1 * size t ≤ isizeMax ∧ IntactMany t.skip t.Intact p.1 p.2
  | .timbreVec t => fun bytes =>
    ∀ p ∈ readVarUInt bytes, p.1 < 2 ^ 64 → p.1 * size t ≤ isizeMax ∧ IntactMany t.skip t.Intact p.1 p.2
  | .indexMap k v => fun bytes =>
    ∀ p ∈ readUInt 8 bytes, IntactMany (fun bytes => (k.skip bytes).bind v.skip)
      (fun bytes => k.Intact bytes ∧ ∀ rest ∈ k.skip bytes, v.Intact rest) p.1 p.2
  | .tuple fs => fs.IntactTuple
  | .struct fs => fs.IntactStruct
  | .enum vs => fun bytes => ∃ kind rest, bytes = kind :: rest ∧ vs.Intact 0 kind rest
  | _ => fun _ => True

def Fields.IntactTuple : Fields → Bytes → Prop
  | .last _ t => t.Intact
  | .cons _ t fs => fun bytes => t.Intact bytes ∧ ∀ rest ∈ t.skip bytes, fs.IntactTuple rest

/-- A field that ends inside the bytes is followed by one more byte, the break. -/
def Fields.IntactStruct : Fields → Bytes → Prop
  | .last _ t => t.Intact
  | .cons _ t fs => fun bytes =>
    t.Intact bytes ∧ ∀ rest ∈ t.skip bytes, ∃ sep after, rest = sep :: after ∧ fs.IntactStruct after

def Variants.Intact : Variants → Nat → Byte → Bytes → Prop
  | .nil, _, _ => fun _ => True
  | .unit _ vs, i, kind => if kind = Fin.ofNat 256 i then fun _ => True else vs.Intact (i + 1) kind
  | .fields _ fs vs, i, kind => if kind = Fin.ofNat 256 i then fs.IntactTuple else vs.Intact (i + 1) kind

end

end

/-! ## Decoders follow the walk -/

/-- A call panics exactly when `intact` fails; otherwise it ends as the walk does, `view` being what the walk sees of
its result. -/
def Follows {α β : Type} (view : α → β) (o : Outcome α) (intact : Prop) (walk : Option β) : Prop :=
  match o with
  | .ok a => intact ∧ walk = some (view a)
  | .err _ => intact ∧ walk = none
  | .panic => ¬ intact

namespace Follows

variable {α β γ δ : Type} {view : α → β} {o : Outcome α} {P Q : Prop} {walk : Option β}

theorem congr (h : Follows view o P walk) (hiff : P ↔ Q) : Follows view o Q walk := by
  rwa [propext hiff] at h

theorem ne_panic_iff (h : Follows view o P walk) : o ≠ .panic ↔ P := by
  cases o with
  | ok a => exact ⟨fun _ => h.1, fun _ e => nomatch e⟩
  | err e => exact ⟨fun _ => h.1, fun _ e => nomatch e⟩
  | panic => exact ⟨fun hne => absurd rfl hne, fun hi => absurd hi h⟩

/-- One call after another: the second follows from where the walk has come. -/
theorem bind {view' : γ → δ} {f : α → Outcome γ} {next : β → Prop} {walk' : β → Option δ}
    (h : Follows view o P walk) (hf : ∀ a, Follows view' (f a) (next (view a)) (walk' (view a))) :
    Follows view' (o >>= f) (P ∧ ∀ b ∈ walk, next b) (walk.bind walk') := by
  cases o with
  | ok a =>
    obtain ⟨hi, rfl⟩ := h
    refine (hf a).congr ⟨fun hn => ⟨hi, ?_⟩, fun hn => hn.2 _ rfl⟩
    intro b hb
    cases hb
    exact hn
  | err e =>
    obtain ⟨hi, rfl⟩ := h
    exact ⟨⟨hi, fun b hb => nomatch hb⟩, rfl⟩
  | panic => exact fun hn => h hn.1

/-- A total reader before a call. -/
theorem bind_total {view' : γ → δ} {f : α → Outcome γ} {next : β → Prop} {walk' : β → Option δ}
    (h : Follows view o True walk) (hf : ∀ a, Follows view' (f a) (next (view a)) (walk' (view a))) :
    Follows view' (o >>= f) (∀ b ∈ walk, next b) (walk.bind walk') :=
  (h.bind hf).congr (by simp)

/-- Building the result of a call. -/
theorem map {view' : γ → β} {k : α → γ} (h : Follows view o P walk) (hk : ∀ a, view' (k a) = view a) :
    Follows view' (o >>= fun a => .ok (k a)) P walk := by
  cases o with
  | ok a => exact ⟨h.1, by rw [hk]; exact h.2⟩
  | err e => exact h
  | panic => exact h

/-- Only the end of what was read is of interest. -/
theorem comp {f : β → δ} (h : Follows view o P walk) : Follows (fun a => f (view a)) o P (walk.map f) := by
  cases o with
  | ok a => exact ⟨h.1, by rw [h.2, Option.map_some]⟩
  | err e => exact ⟨h.1, by rw [h.2, Option.map_none]⟩
  | panic => exact h

end Follows

theorem decodeUInt_follows (w : Nat) (bytes : Bytes) :
    Follows (fun p : Fin (256 ^ w) × Bytes => (p.1.val, p.2)) (decodeUInt w bytes) True (readUInt w bytes) := by
  unfold decodeUInt readUInt splitAtChecked
  split
  · rename_i hw
    refine ⟨trivial, ?_⟩
    have hlt : Machine.ofBE (bytes.take w) < 256 ^ w := by
      have := Machine.ofBE_lt (bytes.take w)
      rwa [List.length_take_of_le hw] at this
    simp [Fin.ofNat, Nat.mod_eq_of_lt hlt]
  · exact ⟨trivial, rfl⟩

theorem ofBE_replicate_zero_append (k : Nat) (l : Bytes) :
    Machine.ofBE (List.replicate k 0 ++ l) = Machine.ofBE l := by
  induction k with
  | zero => rfl
  | succ k ih => exact ih

theorem decodeVarUInt_follows (bytes : Bytes) :
    Follows (fun p : Fin (256 ^ 16) × Bytes => (p.1.val, p.2)) (decodeVarUInt bytes) True (readVarUInt bytes) := by
  cases bytes with
  | nil => exact ⟨trivial, rfl⟩
  | cons len bytes =>
    by_cases hlen : 16 < len.val
    · simp only [decodeVarUInt, readVarUInt, if_pos hlen]
      exact ⟨trivial, rfl⟩
    · by_cases hw : len.val ≤ bytes.length
      · have hlt : Machine.ofBE (bytes.take len.val) < 256 ^ 16 := by
          have := Machine.ofBE_lt (bytes.take len.val)
          rw [List.length_take_of_le hw] at this
          exact Nat.lt_of_lt_of_le this (Nat.pow_le_pow_right (by decide) (by omega))
        simp only [decodeVarUInt, readVarUInt, if_neg hlen, readUInt, splitAtChecked, if_pos hw, Option.map_some,
          ofBE_replicate_zero_append]
        refine ⟨trivial, ?_⟩
        change _ = some (Machine.ofBE (bytes.take len.val) % 256 ^ 16, _)
        rw [Nat.mod_eq_of_lt hlt]
      · simp only [decodeVarUInt, readVarUInt, if_neg hlen, readUInt, splitAtChecked, if_neg hw, Option.map_none]
        exact ⟨trivial, rfl⟩

theorem decodeBool_follows (bytes : Bytes) :
    Follows Prod.snd (decodeBool bytes) True ((readUInt 1 bytes).map Prod.snd) := by
  cases bytes with
  | nil => exact ⟨trivial, rfl⟩
  | cons b bytes => exact ⟨trivial, rfl⟩

theorem decodeArray_follows (n : Nat) (bytes : Bytes) :
    Follows Prod.snd (decodeArray n bytes) True ((readUInt n bytes).map Prod.snd) := by
  unfold decodeArray readUInt splitAtChecked
  split
  · exact ⟨trivial, rfl⟩
  · exact ⟨trivial, rfl⟩

theorem decodeShortByteString_follows (bytes : Bytes) :
    Follows Prod.snd (decodeShortByteString bytes) True
      ((readUInt 1 bytes).bind fun p => (readUInt p.1 p.2).map Prod.snd) := by
  cases bytes with
  | nil => exact ⟨trivial, rfl⟩
  | cons len bytes =>
    have hread : readUInt 1 (len :: bytes) = some (len.val, bytes) := by
      simp [readUInt, splitAtChecked, Machine.ofBE]
    rw [hread, Option.bind_some]
    by_cases hlen : len.val ≤ bytes.length
    · simp only [decodeShortByteString, readUInt, splitAtChecked, if_pos hlen]
      exact ⟨trivial, rfl⟩
    · simp only [decodeShortByteString, readUInt, splitAtChecked, if_neg hlen]
      exact ⟨trivial, rfl⟩

section

variable {α κ ν : Type}

theorem decodeMany_follows {decode : Bytes → Outcome (α × Bytes)} {intact : Bytes → Prop}
    {skip : Bytes → Option Bytes} (h : ∀ bytes, Follows Prod.snd (decode bytes) (intact bytes) (skip bytes)) (n : Nat) :
    ∀ bytes, Follows Prod.snd (decodeMany decode n bytes) (IntactMany skip intact n bytes) (skipMany skip n bytes) := by
  induction n with
  | zero => exact fun bytes => ⟨trivial, rfl⟩
  | succ n ih => exact fun bytes => (h bytes).bind fun p => (ih p.2).map fun q => rfl

theorem decodeEntries_follows [DecidableEq κ] {decodeKey : Bytes → Outcome (κ × Bytes)}
    {decodeValue : Bytes → Outcome (ν × Bytes)} {intactKey intactValue : Bytes → Prop}
    {skipKey skipValue : Bytes → Option Bytes}
    (hk : ∀ bytes, Follows Prod.snd (decodeKey bytes) (intactKey bytes) (skipKey bytes))
    (hv : ∀ bytes, Follows Prod.snd (decodeValue bytes) (intactValue bytes) (skipValue bytes)) (n : Nat) :
    ∀ (map : IndexMap κ ν) (bytes : Bytes), Follows Prod.snd (decodeEntries decodeKey decodeValue n map bytes)
      (IntactMany (fun bytes => (skipKey bytes).bind skipValue)
        (fun bytes => intactKey bytes ∧ ∀ rest ∈ skipKey bytes, intactValue rest) n bytes)
      (skipMany (fun bytes => (skipKey bytes).bind skipValue) n bytes) := by
  induction n with
  | zero => exact fun map bytes => ⟨trivial, rfl⟩
  | succ n ih =>
    intro map bytes
    have hentry : Follows Prod.snd (decodeEntries decodeKey decodeValue (n + 1) map bytes)
        (intactKey bytes ∧ ∀ rest ∈ skipKey bytes, intactValue rest ∧ ∀ after ∈ skipValue rest,
          IntactMany (fun bytes => (skipKey bytes).bind skipValue)
            (fun bytes => intactKey bytes ∧ ∀ rest ∈ skipKey bytes, intactValue rest) n after)
        ((skipKey bytes).bind fun rest => (skipValue rest).bind
          (skipMany (fun bytes => (skipKey bytes).bind skipValue) n)) := by
      refine (hk bytes).bind ?_
      rintro ⟨key, rest⟩
      refine (hv rest).bind ?_
      rintro ⟨value, rest⟩
      exact ih (map.insert key value) rest
    unfold skipMany
    rw [Option.bind_assoc]
    refine hentry.congr ?_
    simp only [IntactMany]
    cases skipKey bytes with
    | none => simp
    | some rest => simp only [Option.mem_def, Option.some.injEq, forall_eq', Option.bind_some, and_assoc]

/-- An allocation before a call. -/
theorem withCapacity_bind_follows {size len : Nat} {o : Outcome (α × Bytes)} {intact : Prop} {walk : Option Bytes}
    (h : Follows Prod.snd o intact walk) :
    Follows Prod.snd (withCapacity size len >>= fun _ => o) (len * size ≤ isizeMax ∧ intact) walk := by
  by_cases hlen : len * size ≤ isizeMax
  · have hok : withCapacity size len = .ok () := if_pos hlen
    rw [hok, Outcome.ok_bind]
    exact h.congr ⟨fun hi => ⟨hlen, hi⟩, fun hi => hi.2⟩
  · have hpanic : withCapacity size len = .panic := if_neg hlen
    rw [hpanic, Outcome.panic_bind]
    exact fun hi => hlen hi.1

theorem decodeOption_follows {decode : Bytes → Outcome (α × Bytes)} {intact : Bytes → Prop}
    {skip : Bytes → Option Bytes} (h : ∀ bytes, Follows Prod.snd (decode bytes) (intact bytes) (skip bytes))
    (bytes : Bytes) : Follows Prod.snd (decodeOption decode bytes)
      (∀ p ∈ readUInt 1 bytes, p.1 ≠ 0 → intact p.2)
      ((readUInt 1 bytes).bind fun p => if p.1 = 0 then some p.2 else skip p.2) := by
  refine (decodeUInt_follows 1 bytes).bind_total ?_
  rintro ⟨presence, rest⟩
  by_cases hp : presence.val = 0
  · simp only [if_pos hp]
    exact ⟨fun hne => absurd hp hne, rfl⟩
  · simp only [if_neg hp]
    exact Follows.congr (P := intact rest) ((h rest).map fun q => rfl) ⟨fun hi _ => hi, fun hi => hi hp⟩

theorem decodeVec_follows {decode : Bytes → Outcome (α × Bytes)} {intact : Bytes → Prop}
    {skip : Bytes → Option Bytes} (h : ∀ bytes, Follows Prod.snd (decode bytes) (intact bytes) (skip bytes))
    (size : Nat) (bytes : Bytes) : Follows Prod.snd (decodeVec size decode bytes)
      (∀ p ∈ readUInt 4 bytes, p.1 * size ≤ isizeMax ∧ IntactMany skip intact p.1 p.2)
      ((readUInt 4 bytes).bind fun p => skipMany skip p.1 p.2) := by
  refine (decodeUInt_follows 4 bytes).bind_total ?_
  rintro ⟨len, rest⟩
  exact withCapacity_bind_follows (decodeMany_follows h len.val rest)

theorem decodeTimbreVec_follows {decode : Bytes → Outcome (α × Bytes)} {intact : Bytes → Prop}
    {skip : Bytes → Option Bytes} (h : ∀ bytes, Follows Prod.snd (decode bytes) (intact bytes) (skip bytes))
    (size : Nat) (bytes : Bytes) : Follows Prod.snd (decodeTimbreVec size decode bytes)
      (∀ p ∈ readVarUInt bytes, p.1 < 2 ^ 64 → p.1 * size ≤ isizeMax ∧ IntactMany skip intact p.1 p.2)
      ((readVarUInt bytes).bind fun p => if 2 ^ 64 ≤ p.1 then none else skipMany skip p.1 p.2) := by
  refine (decodeVarUInt_follows bytes).bind_total ?_
  rintro ⟨len, rest⟩
  by_cases hlen : 2 ^ 64 ≤ len.val
  · simp only [if_pos hlen]
    exact ⟨fun hlt => absurd hlt (Nat.not_lt.mpr hlen), rfl⟩
  · simp only [if_neg hlen]
    exact (withCapacity_bind_follows (decodeMany_follows h len.val rest)).congr
      ⟨fun hi _ => hi, fun hi => hi (Nat.not_le.mp hlen)⟩

end

section

variable {size : Ty → Nat}

mutual

/-- **Every decoder follows the walk over its type.** -/
theorem Ty.decode_follows : (t : Ty) → (bytes : Bytes) →
    Follows Prod.snd (t.decode size bytes) (t.Intact size bytes) (t.skip bytes)
  | .uint w, bytes => (decodeUInt_follows w bytes).comp
  | .bool, bytes => decodeBool_follows bytes
  | .array n, bytes => decodeArray_follows n bytes
  | .shortByteString, bytes => decodeShortByteString_follows bytes
  | .varUInt, bytes => (decodeVarUInt_follows bytes).comp
  | .option t, bytes => decodeOption_follows t.decode_follows bytes
  | .vec t, bytes => decodeVec_follows t.decode_follows (size t) bytes
  | .timbreVec t, bytes => decodeTimbreVec_follows t.decode_follows (size t) bytes
  | .indexMap k v, bytes =>
    (decodeUInt_follows 8 bytes).bind_total fun p =>
      decodeEntries_follows k.decode_follows v.decode_follows p.1.val IndexMap.empty p.2
  | .tuple fs, bytes => fs.decodeTuple_follows bytes
  | .struct fs, bytes => fs.decodeStruct_follows bytes
  | .enum _, [] => by
    rintro ⟨kind, rest, h, -⟩
    cases h
  | .enum vs, kind :: bytes => by
    refine (vs.decode_follows 0 kind bytes).congr ⟨fun h => ⟨kind, bytes, rfl, h⟩, ?_⟩
    rintro ⟨_, _, h, hi⟩
    cases h
    exact hi

theorem Fields.decodeTuple_follows : (fs : Fields) → (bytes : Bytes) →
    Follows Prod.snd (fs.decodeTuple size bytes) (fs.IntactTuple size bytes) (fs.skipTuple bytes)
  | .last _ t, bytes => t.decode_follows bytes
  | .cons _ t fs, bytes => (t.decode_follows bytes).bind fun p => (fs.decodeTuple_follows p.2).map fun _ => rfl

theorem Fields.decodeStruct_follows : (fs : Fields) → (bytes : Bytes) →
    Follows Prod.snd (fs.decodeStruct size bytes) (fs.IntactStruct size bytes) (fs.skipStruct bytes)
  | .last _ t, bytes => t.decode_follows bytes
  | .cons _ t fs, bytes => by
    refine (t.decode_follows bytes).bind ?_
    rintro ⟨x, rest⟩
    cases rest with
    | nil =>
      -- the bytes end behind the field: `&rest[1..]`
      rintro ⟨sep, after, h, -⟩
      cases h
    | cons sep after =>
      refine Follows.congr (P := fs.IntactStruct size after) ((fs.decodeStruct_follows after).map fun _ => rfl)
        ⟨fun h => ⟨sep, after, rfl, h⟩, ?_⟩
      rintro ⟨_, _, h, hi⟩
      cases h
      exact hi

theorem Variants.decode_follows : (vs : Variants) → (i : Nat) → (kind : Byte) → (bytes : Bytes) →
    Follows Prod.snd (vs.decode size i kind bytes) (vs.Intact size i kind bytes) (vs.skip i kind bytes)
  | .nil, _, _, _ => ⟨trivial, rfl⟩
  | .unit _ vs, i, kind, bytes => by
    unfold Variants.decode Variants.Intact Variants.skip
    by_cases h : kind = Fin.ofNat 256 i
    · simp only [if_pos h]
      exact ⟨trivial, rfl⟩
    · simp only [if_neg h]
      exact (vs.decode_follows (i + 1) kind bytes).map fun _ => rfl
  | .fields _ fs vs, i, kind, bytes => by
    unfold Variants.decode Variants.Intact Variants.skip
    by_cases h : kind = Fin.ofNat 256 i
    · simp only [if_pos h]
      exact (fs.decodeTuple_follows bytes).map fun _ => rfl
    · simp only [if_neg h]
      exact (vs.decode_follows (i + 1) kind bytes).map fun _ => rfl

end

end

/-- **Decoding panics on exactly the inputs that are not intact.** -/
theorem decode_ne_panic_iff (size : Ty → Nat) (t : Ty) (bytes : Bytes) :
    t.decode size bytes ≠ .panic ↔ t.Intact size bytes :=
  (t.decode_follows bytes).ne_panic_iff

/-- Eight bytes as a cursor of the transactions of a script: the height, and no byte behind it. -/
theorem cursor_ends_at_break : TxsByScriptHash.cursor ∈ schema ∧
    ∀ size, TxsByScriptHash.cursor.decode size [0, 0, 0, 0, 0, 0, 0, 1] = .panic :=
  ⟨by simp [schema], fun _ => rfl⟩

end DogeIndexer.Timbre
