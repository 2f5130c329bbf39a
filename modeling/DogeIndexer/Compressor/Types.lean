import DogeIndexer.Lib.Table
import DogeIndexer.Lib.Machine
import Mathlib.Data.List.Lex
import Mathlib.Data.Prod.Lex
import Mathlib.Order.Fin.Basic

/-!
# Data model of the compressor

Transactions, outputs and the records that the tables of `compressor-xdg/src/storage` hold.
Encoded values stand for what they decode to: a stored block is a block, the `raw` bytes of an
output are the output, a concatenation of txids is a list.

What the program takes from other crates (script hashing, script iteration, JSON, Unicode,
the subsidy schedule) is a parameter, `Deps`.
-/

set_option autoImplicit false

namespace DogeIndexer.Compressor

abbrev Txid := Fin (2 ^ 256)
abbrev BlockHash := Fin (2 ^ 256)
abbrev ScriptHash := Fin (2 ^ 160)
abbrev Bytes := List Byte

instance (priority := 2000) lawfulBEq_txid : LawfulBEq Txid := inferInstance

/-! ## Transactions -/

/-- `OutPoint`, and `TxoRef`, which has the same fields. -/
structure OutPoint where
  txid : Txid
  vout : Nat
  deriving DecidableEq

namespace OutPoint

def fields (o : OutPoint) : Txid ×ₗ Nat := toLex (o.txid, o.vout)

theorem fields_injective : Function.Injective fields := by
  rintro ⟨t, v⟩ ⟨t', v'⟩ h
  cases h
  rfl

instance : LinearOrder OutPoint := LinearOrder.lift' fields fields_injective

/-- `OutPoint::null`. -/
def null : OutPoint := ⟨0, 2 ^ 32 - 1⟩

def isNull (o : OutPoint) : Bool := o = null

end OutPoint

abbrev TxoRef := OutPoint

structure TxIn where
  previousOutput : OutPoint
  scriptSig : Bytes
  deriving DecidableEq

structure TxOut where
  value : U64
  scriptPubkey : Bytes
  deriving DecidableEq

structure Transaction where
  txid : Txid
  input : List TxIn
  output : List TxOut
  deriving DecidableEq

structure Block where
  hash : BlockHash
  prevBlockhash : BlockHash
  txdata : List Transaction
  deriving DecidableEq

/-! ## Dunes -/

/-- `DuneId`, of the storage and of the dunes module. -/
structure DuneId where
  block : Nat
  tx : Nat
  deriving DecidableEq

namespace DuneId

def fields (d : DuneId) : Nat ×ₗ Nat := toLex (d.block, d.tx)

theorem fields_injective : Function.Injective fields := by
  rintro ⟨b, t⟩ ⟨b', t'⟩ h
  cases h
  rfl

instance : LinearOrder DuneId := LinearOrder.lift' fields fields_injective

/-- `DuneId::try_from(u128)`: 16 bits of transaction index under a 64-bit height. -/
def tryFrom (n : U128) : Option DuneId :=
  if n.val / 2 ^ 16 < 2 ^ 64 then some ⟨n.val / 2 ^ 16, n.val % 2 ^ 16⟩ else none

/-- `u128::from(DuneId)`. -/
def toU128 (d : DuneId) : U128 := Fin.ofNat (2 ^ 128) ((d.block * 2 ^ 16) ||| d.tx)

/-- Ids that `tryFrom` accepts are told apart by their dune ids. -/
theorem tryFrom_injective {n m : U128} {d : DuneId} (hn : tryFrom n = some d) (hm : tryFrom m = some d) :
    n = m := by
  unfold tryFrom at hn hm
  split at hn
  · split at hm
    · cases hn
      simp only [Option.some.injEq, DuneId.mk.injEq] at hm
      exact Fin.ext (by omega)
    · cases hm
  · cases hn

/-- `tryFrom` is undone by `toU128`. -/
theorem toU128_tryFrom {n : U128} {d : DuneId} (h : tryFrom n = some d) : d.toU128 = n := by
  unfold tryFrom at h
  split at h
  · cases h
    have hlt : n.val % 2 ^ 16 < 2 ^ 16 := Nat.mod_lt _ (by decide)
    refine Fin.ext ?_
    unfold toU128
    simp only [Fin.ofNat]
    rw [Nat.mul_comm, ← Nat.two_pow_add_eq_or_of_lt hlt, Nat.div_add_mod, Nat.mod_eq_of_lt n.isLt]
  · cases h

/-- The id of a transaction in a block is read back from its number. -/
theorem tryFrom_toU128 {block tx : Nat} (hblock : block < 2 ^ 64) (htx : tx < 2 ^ 16) :
    tryFrom (toU128 ⟨block, tx⟩) = some ⟨block, tx⟩ := by
  have hval : (toU128 ⟨block, tx⟩).val = 2 ^ 16 * block + tx := by
    unfold toU128
    simp only [Fin.ofNat]
    rw [Nat.mul_comm, ← Nat.two_pow_add_eq_or_of_lt htx, Nat.mod_eq_of_lt (by omega)]
  unfold tryFrom
  rw [hval, if_pos (by omega)]
  congr 2 <;> omega

end DuneId

structure DuneTerms where
  name : U128
  amount : Option U128
  cap : Option U128
  startHeight : Option Nat
  endHeight : Option Nat
  deriving DecidableEq

/-! ## Inscriptions -/

structure InscriptionId where
  txid : Txid
  index : Nat
  deriving DecidableEq

namespace InscriptionId

def fields (i : InscriptionId) : Txid ×ₗ Nat := toLex (i.txid, i.index)

theorem fields_injective : Function.Injective fields := by
  rintro ⟨t, v⟩ ⟨t', v'⟩ h
  cases h
  rfl

instance : LinearOrder InscriptionId := LinearOrder.lift' fields fields_injective

end InscriptionId

/-- A place on an output. -/
structure SatPoint where
  outpoint : OutPoint
  offset : U64
  deriving DecidableEq

/-- `Counters`; the cursed and unbound counts are never written. -/
structure Counters where
  blessedCount : U64
  nextSequenceNum : U64
  lostSats : U64
  deriving DecidableEq

def Counters.default : Counters := ⟨0, 0, 0⟩

structure NewInscriptionInfo where
  txHash : Txid
  id : InscriptionId
  number : U64
  body : Bytes
  bodyType : Bytes
  deriving DecidableEq

/-! ## DRC-20 -/

abbrev Ticker := Bytes

/-- Fields of a DRC-20 message as they stand in the JSON. -/
structure RawProtocolMessage where
  p : Bytes
  op : Bytes
  tick : Bytes
  max : Option Bytes
  lim : Option Bytes
  dec : Option Bytes
  amt : Option Bytes
  deriving DecidableEq

structure BRC20Terms where
  max : U128
  mintAmtLimit : U128
  dec : Nat
  selfMint : Bool
  deployId : InscriptionId
  deriving DecidableEq

structure ScriptAndBRC20Kind where
  script : ScriptHash
  brc20Ticker : Ticker
  deriving DecidableEq

namespace ScriptAndBRC20Kind

def fields (k : ScriptAndBRC20Kind) : ScriptHash ×ₗ Ticker := toLex (k.script, k.brc20Ticker)

theorem fields_injective : Function.Injective fields := by
  rintro ⟨s, t⟩ ⟨s', t'⟩ h
  cases h
  rfl

instance : LinearOrder ScriptAndBRC20Kind := LinearOrder.lift' fields fields_injective

end ScriptAndBRC20Kind

inductive BRC20Message where
  | deploy (tick : Ticker)
  | mint (tick : Ticker) (amt : U128) (receiver : ScriptHash)
  | transfer (tick : Ticker) (amt : U128) (outpoint : OutPoint) (receiver : ScriptHash)
  | transferInit (tick : Ticker) (amt : U128) (receiver : ScriptHash)
  deriving DecidableEq

/-! ## Outputs -/

/-- `TxoBody`; sat-range tracking is disabled, so `ord_ranges` is always empty and left out. -/
structure TxoBody where
  height : Nat
  raw : TxOut
  dunes : List (DuneId × U128)
  inscriptions : List (U64 × InscriptionId)
  unusedBrc20Transfers : Table InscriptionId (Ticker × U128)
  deriving DecidableEq

/-! ## Errors and parameters -/

inductive Err where
  | missingTxo (hash : BlockHash) (txid : Txid) (vout : Nat)
  | previousHashMismatch (applying receivedPrev : BlockHash) (expectedPrev : Option BlockHash)
  | noCoinbase
  | missingResolver (hash : BlockHash)
  | resolverHashMismatch (height : Nat) (hash resolverHash : BlockHash)
  | invalidRollbackPoint (found : Option (Nat × BlockHash))
  | rocks
  | panic
  deriving DecidableEq

def orPanic {α : Type} : Option α → Except Err α
  | some a => .ok a
  | none => .error .panic

/-- A script instruction. -/
inductive Instruction where
  | pushBytes (bytes : Bytes)
  | op (opcode : Byte)
  deriving DecidableEq

/-- `SUBSIDY_HALVING_INTERVAL` of the `bitcoin` crate, in blocks: ten times the interval is twelve intervals of names,
and a `u32` has room for it behind every first height. -/
structure HalvingInterval where
  blocks : Nat
  positive : 0 < blocks
  six_dvd : 6 ∣ blocks
  fits : blocks * 10 < 2 ^ 31

/-- The interval of the main network. -/
def HalvingInterval.main : HalvingInterval := ⟨210000, by decide, by decide, by decide⟩

/-- Code of other crates. -/
structure Deps where
  /-- `Script::script_hash`. -/
  scriptHash : Bytes → ScriptHash
  /-- `Script::instructions`, `none` where it yields an error. -/
  instructions : Bytes → List (Option Instruction)
  /-- `Script::is_op_return`. -/
  isOpReturn : Bytes → Bool
  /-- `serde_json::from_str`, on valid UTF-8. -/
  fromJson : Bytes → Option RawProtocolMessage
  /-- `str::to_lowercase`. -/
  toLowercase : Bytes → Bytes
  /-- `Height::subsidy`. -/
  subsidy : Nat → U64
  halvingInterval : HalvingInterval
  /-- Length of an encoded output. -/
  encodedLen : TxOut → Nat

inductive BitcoinCompatibleNetwork where
  | bitcoin
  | bitcoinTestnet
  | dogecoin
  | dogecoinTestnet
  deriving DecidableEq

structure Config where
  /-- Overflow checks of the build. -/
  checks : Bool
  network : BitcoinCompatibleNetwork
  firstRuneHeight : Nat
  firstInscriptionHeight : Nat
  immutableAfterConfs : Option Nat

end DogeIndexer.Compressor
