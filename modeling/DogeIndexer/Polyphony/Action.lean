import DogeIndexer.Lib.Keyed
import DogeIndexer.Lib.Machine
import Mathlib.Data.List.Lex
import Mathlib.Order.Fin.Basic

/-!
# Storage actions

Model of `StorageAction` of `polyphony-xdg/src/model.rs`: the eight actions a block's reducer
outputs turn into, the values they read, and `merge`, which folds two actions on one key into
one.  A panic is `none`; `checks` is the overflow-check setting of the build.

Principal results: `merge_key` — merging keeps the key; `readUInt_writeUInt`,
`writeUInt_readUInt` — a counter and its big-endian bytes.
-/

set_option autoImplicit false

namespace DogeIndexer.Polyphony

abbrev Key := List Byte
abbrev Value := List Byte

inductive StorageAction where
  /-- Set `Key` to `Value`. -/
  | set (k : Key) (v : Value)
  /-- Delete the pair with key `Key`. -/
  | delete (k : Key)
  /-- Set `Key` to `Value` only if `Key` does not already point to a value. -/
  | insert (k : Key) (v : Value)
  | incrementU64 (k : Key) (d : U64)
  | decrementU64 (k : Key) (d : U64)
  | incrementU128 (k : Key) (d : U128)
  | decrementU128 (k : Key) (d : U128)
  /-- Do not remove the key if the resulting value is 0. -/
  | decrementU128NoDelete (k : Key) (d : U128)
  deriving DecidableEq

namespace StorageAction

def key : StorageAction → Key
  | set k _ => k
  | delete k => k
  | insert k _ => k
  | incrementU64 k _ => k
  | decrementU64 k _ => k
  | incrementU128 k _ => k
  | decrementU128 k _ => k
  | decrementU128NoDelete k _ => k

/-- True if the previous value of the key is required to perform the action. -/
def requiresPreviousValue : StorageAction → Bool
  | incrementU64 _ _ => true
  | decrementU64 _ _ => true
  | incrementU128 _ _ => true
  | decrementU128 _ _ => true
  | decrementU128NoDelete _ _ => true
  | insert _ _ => true
  | set _ _ => false
  | delete _ => false

/-- Number of bytes for the key and value (estimate). -/
def size : StorageAction → Nat
  | set k v => k.length + v.length
  | delete k => k.length
  | insert k v => k.length + v.length
  | incrementU64 k _ => k.length + 8
  | decrementU64 k _ => k.length + 8
  | incrementU128 k _ => k.length + 16
  | decrementU128 k _ => k.length + 16
  | decrementU128NoDelete k _ => k.length + 16

/-- `StorageAction::merge`; the pairs that the source panics on are `none`. -/
def merge (checks : Bool) (self other : StorageAction) : Option StorageAction :=
  if self.key ≠ other.key then none else
  match self, other with
  | incrementU64 _ pd, incrementU64 nk nd => (Machine.add checks pd nd).map (incrementU64 nk)
  | incrementU64 _ pd, decrementU64 nk nd =>
    if nd ≤ pd then some (incrementU64 nk (pd - nd)) else some (decrementU64 nk (nd - pd))
  | decrementU64 _ pd, decrementU64 nk nd => (Machine.add checks pd nd).map (decrementU64 nk)
  | decrementU64 _ pd, incrementU64 nk nd =>
    if nd ≤ pd then some (decrementU64 nk (pd - nd)) else some (incrementU64 nk (nd - pd))
  | incrementU128 _ pd, incrementU128 nk nd => (Machine.add checks pd nd).map (incrementU128 nk)
  | incrementU128 _ pd, decrementU128 nk nd =>
    if nd ≤ pd then some (incrementU128 nk (pd - nd)) else some (decrementU128 nk (nd - pd))
  | incrementU128 _ pd, decrementU128NoDelete nk nd =>
    if nd ≤ pd then some (incrementU128 nk (pd - nd))
    else some (decrementU128NoDelete nk (nd - pd))
  | decrementU128 _ pd, decrementU128 nk nd => (Machine.add checks pd nd).map (decrementU128 nk)
  | decrementU128 _ pd, incrementU128 nk nd =>
    if nd ≤ pd then some (decrementU128 nk (pd - nd)) else some (incrementU128 nk (nd - pd))
  | decrementU128NoDelete _ pd, decrementU128NoDelete nk nd =>
    (Machine.add checks pd nd).map (decrementU128NoDelete nk)
  | decrementU128NoDelete _ pd, incrementU128 nk nd =>
    if nd ≤ pd then some (decrementU128NoDelete nk (pd - nd))
    else some (incrementU128 nk (nd - pd))
  -- overwrite SET with SET/DEL, but not with an INS
  | set _ _, set k v => some (set k v)
  | set _ _, delete k => some (delete k)
  | set k v, insert _ _ => some (set k v)
  -- a Delete merged with an Insert is a Set, because the value is cleared
  | delete _, insert k v => some (set k v)
  | delete _, set k v => some (set k v)
  | delete _, delete k => some (delete k)
  | insert _ _, set k v => some (set k v)
  | insert _ _, delete k => some (delete k)
  | insert k v, insert _ _ => some (insert k v)
  | _, _ => none

/-- The kinds of action that may meet on one key. -/
inductive Family where
  | writes
  | u64
  | u128
  | u128NoDelete
  deriving DecidableEq

/-- Set/Delete/Insert, or U64 incr/decr, or U128 incr/decr, or U128 incr/NoDelete-decr. -/
def inFamily : Family → StorageAction → Bool
  | .writes, set _ _ => true
  | .writes, delete _ => true
  | .writes, insert _ _ => true
  | .u64, incrementU64 _ _ => true
  | .u64, decrementU64 _ _ => true
  | .u128, incrementU128 _ _ => true
  | .u128, decrementU128 _ _ => true
  | .u128NoDelete, incrementU128 _ _ => true
  | .u128NoDelete, decrementU128NoDelete _ _ => true
  | _, _ => false

theorem merge_of_key_ne {checks : Bool} {a b : StorageAction} (h : a.key ≠ b.key) :
    merge checks a b = none := by
  unfold merge
  rw [if_pos h]

/-- Merging keeps the key. -/
theorem merge_key {checks : Bool} {a b c : StorageAction} (h : merge checks a b = some c) :
    c.key = a.key := by
  have hk : a.key = b.key := by
    by_contra hne
    rw [merge_of_key_ne hne] at h
    cases h
  unfold merge at h
  rw [if_neg (not_not.mpr hk)] at h
  split at h
  all_goals first
    | cases h; exact hk.symm
    | (obtain ⟨d, -, rfl⟩ := Option.map_eq_some_iff.mp h; exact hk.symm)
    | (split at h <;> cases h <;> exact hk.symm)
    | (cases h; rfl)
    | cases h

end StorageAction

/-! ## Counter values -/

/-- `u64::from_be_bytes(value[0..8])` and its 16-byte twin; a shorter value panics. -/
def readUInt (w n : Nat) [NeZero n] (v : Value) : Option (Fin n) :=
  if w ≤ v.length then some (Fin.ofNat n (Machine.ofBE (v.take w))) else none

/-- `to_be_bytes` of a counter. -/
def writeUInt (w : Nat) {n : Nat} (d : Fin n) : Value := Machine.toBE w d.val

/-- Reading back a written counter. -/
theorem readUInt_writeUInt {w n : Nat} [NeZero n] (hn : n = 256 ^ w) (d : Fin n) :
    readUInt w n (writeUInt w d) = some d := by
  unfold readUInt writeUInt
  rw [if_pos (by simp), List.take_of_length_le (by simp), Machine.ofBE_toBE w d.val (hn ▸ d.isLt)]
  simp

/-- Rewriting a counter read from a value keeps exactly the value's first `w` bytes. -/
theorem writeUInt_readUInt {w n : Nat} [NeZero n] (hn : n = 256 ^ w) {v : Value} {d : Fin n}
    (h : readUInt w n v = some d) : writeUInt w d = v.take w := by
  unfold readUInt at h
  split at h
  · rename_i hw
    cases h
    have hlen : (v.take w).length = w := by simp [hw]
    have hlt : Machine.ofBE (v.take w) < n := by
      have := Machine.ofBE_lt (v.take w)
      rw [hlen] at this
      exact hn ▸ this
    have hval : (Fin.ofNat n (Machine.ofBE (v.take w))).val = Machine.ofBE (v.take w) := by
      simp [Fin.ofNat, Nat.mod_eq_of_lt hlt]
    unfold writeUInt
    rw [hval]
    have := Machine.toBE_ofBE (v.take w)
    rw [hlen] at this
    exact this
  · cases h

end DogeIndexer.Polyphony
