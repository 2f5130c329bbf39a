import DogeIndexer.Polyphony.Context
import DogeIndexer.Timbre.Namespace

/-!
# The reducers

Model of the reducers of outputs and of what they hold (`polyphony-xdg/src/reducers`), of
`Worker::reduce_block` (`reducers/worker.rs`) and of `reducer_output_to_storage_ops`
(`storage/tikv.rs`): an enriched block becomes the storage actions that the storage stage executes.

`none` is an error that the policy does not skip; the stage panics on it.  The hash of a script is
a parameter.
-/

set_option autoImplicit false

namespace DogeIndexer.Polyphony.Reducers

open Compressor (Bytes U32 Txid ScriptHash OutPoint TxIn TxOut DuneId InscriptionId Transaction Block
  hashBytes scriptHashBytes)
open Timbre (Namespace Ty)

/-! ## Policies -/

inductive ErrorAction where
  | skip
  | warn
  | default
  deriving DecidableEq

/-- `RuntimePolicy`, without the policies for errors that the reducers do not make. -/
structure RuntimePolicy where
  missingData : Option ErrorAction
  anyError : Option ErrorAction

/-- `handle_error`. -/
def handleError {α : Type} : Option ErrorAction → Option (Option α)
  | some .skip => some none
  | some .warn => some none
  | _ => none

/-- `apply_policy` on a `MissingUtxo` error, and `or_panic`. -/
def applyPolicy {α : Type} (policy : RuntimePolicy) : Option α → Option (Option α)
  | some a => some (some a)
  | none => if policy.anyError.isSome then handleError policy.anyError else handleError policy.missingData

/-! ## Reducer outputs -/

inductive UtxoAction (α : Type) where
  | consumed
  | produced (value : α)

inductive IncrOrDecr (α : Type) where
  | increment (delta : α)
  | decrement (delta : α)

inductive ReducerOutput where
  | balancesByRuneId (runeId : DuneId) (scriptHash : ScriptHash) (action : IncrOrDecr U128)
  /-- Height, reference and offset of the inscribed output. -/
  | inscriptionsByScriptHash (scriptHash : ScriptHash) (inscriptionId : InscriptionId)
      (action : UtxoAction (Nat × OutPoint × U32))
  | runeBalancesByScriptHash (scriptHash : ScriptHash) (runeId : DuneId) (delta : IncrOrDecr U128)
  | satBalanceByScriptHash (scriptHash : ScriptHash) (delta : IncrOrDecr U64)
  /-- Script hash, amount and satoshis. -/
  | utxosByRuneId (runeId : DuneId) (height : Nat) (utxo : OutPoint) (action : UtxoAction (ScriptHash × U128 × U64))
  | utxosByScriptHash (scriptHash : ScriptHash) (height : Nat) (utxo : OutPoint) (action : UtxoAction U64)
  | cursor (point : Point) (wasMempool : Bool) (timestamp : Nat)

/-! ## The loop over a block -/

/-- `Transaction::is_coinbase`. -/
def isCoinbase (tx : Transaction) : Bool :=
  match tx.input with
  | [txin] => txin.previousOutput.isNull
  | _ => false

/-- The inputs of a transaction. -/
def inputs (tx : Transaction) : List OutPoint := tx.input.map TxIn.previousOutput

/-- The outputs of a transaction with their outpoints, `OutPoint::new(txid, idx as u32)`. -/
def outputs (tx : Transaction) : List (OutPoint × TxOut) :=
  tx.output.zipIdx.map fun e => (⟨tx.txid, e.2 % 2 ^ 32⟩, e.1)

/-- `chained_txos`: what the transactions produce and consume. -/
def chainedTxos (txs : List Transaction) : List OutPoint :=
  let consumed := txs.flatMap inputs
  let produced := txs.flatMap fun tx => (outputs tx).map Prod.fst
  produced.filter fun x => consumed.contains x

/-- A loop that pushes what its body makes of each element. -/
def collect {α β : Type} (f : α → Option (List β)) : List α → Option (List β)
  | [] => some []
  | a :: l => do
    let pushed ← f a
    let rest ← collect f l
    return pushed ++ rest

/-- The loop of `reduce_block`: the inputs of each transaction but the coinbase, then its outputs, without the
outpoints to skip. -/
def reduceTxs (skip : OutPoint → Bool) (processConsumedTxo : OutPoint → Option (List ReducerOutput))
    (processProducedTxo : OutPoint → TxOut → List ReducerOutput) (block : Block) : Option (List ReducerOutput) :=
  collect (fun tx => do
    let consumed ← if isCoinbase tx then some [] else
      collect processConsumedTxo ((inputs tx).filter fun x => !skip x)
    return consumed ++ ((outputs tx).filter fun x => !skip x.1).flatMap fun x => processProducedTxo x.1 x.2)
    block.txdata

section

variable (scriptHash : Bytes → ScriptHash) (policy : RuntimePolicy)

namespace UtxosByScriptHash

def processConsumedTxo (ctx : BlockContext) (input : OutPoint) : Option (List ReducerOutput) := do
  match ← applyPolicy policy (ctx.findUtxo input) with
  | some u => return [.utxosByScriptHash (scriptHash u.txo.scriptPubkey) u.height input .consumed]
  | none => return []

def processProducedTxo (height : Nat) (outpoint : OutPoint) (output : TxOut) : List ReducerOutput :=
  [.utxosByScriptHash (scriptHash output.scriptPubkey) height outpoint (.produced output.value)]

def reduceBlock (height : Nat) (block : Block) (ctx : BlockContext) : Option (List ReducerOutput) :=
  let chained := chainedTxos block.txdata
  reduceTxs (fun x => chained.contains x) (processConsumedTxo scriptHash policy ctx)
    (processProducedTxo scriptHash height) block

end UtxosByScriptHash

namespace SatBalanceByScriptHash

def processConsumedTxo (ctx : BlockContext) (input : OutPoint) : Option (List ReducerOutput) := do
  match ← applyPolicy policy (ctx.findUtxo input) with
  | some u => return [.satBalanceByScriptHash (scriptHash u.txo.scriptPubkey) (.decrement u.txo.value)]
  | none => return []

def processProducedTxo (_outpoint : OutPoint) (output : TxOut) : List ReducerOutput :=
  [.satBalanceByScriptHash (scriptHash output.scriptPubkey) (.increment output.value)]

def reduceBlock (block : Block) (ctx : BlockContext) : Option (List ReducerOutput) :=
  reduceTxs (fun _ => false) (processConsumedTxo scriptHash policy ctx) (processProducedTxo scriptHash) block

end SatBalanceByScriptHash

namespace BalancesByRuneId

/-- The dunes are looked up before the output. -/
def processConsumedTxo (ctx : BlockContext) (input : OutPoint) : Option (List ReducerOutput) :=
  match ctx.utxoRunes input with
  | none => some []
  | some utxoRunes => do
    match ← applyPolicy policy (ctx.findUtxo input) with
    | some u => return utxoRunes.map fun rune =>
        .balancesByRuneId rune.1 (scriptHash u.txo.scriptPubkey) (.decrement rune.2)
    | none => return []

def processProducedTxo (ctx : BlockContext) (outpoint : OutPoint) (output : TxOut) : List ReducerOutput :=
  ((ctx.utxoRunes outpoint).getD []).map fun rune =>
    .balancesByRuneId rune.1 (scriptHash output.scriptPubkey) (.increment rune.2)

def reduceBlock (block : Block) (ctx : BlockContext) : Option (List ReducerOutput) :=
  reduceTxs (fun _ => false) (processConsumedTxo scriptHash policy ctx) (processProducedTxo scriptHash ctx) block

end BalancesByRuneId

namespace RuneBalancesByScriptHash

/-- The output is looked up before its dunes. -/
def processConsumedTxo (ctx : BlockContext) (input : OutPoint) : Option (List ReducerOutput) := do
  match ← applyPolicy policy (ctx.findUtxo input) with
  | some u => return ((ctx.utxoRunes input).getD []).map fun rune =>
      .runeBalancesByScriptHash (scriptHash u.txo.scriptPubkey) rune.1 (.decrement rune.2)
  | none => return []

def processProducedTxo (ctx : BlockContext) (outpoint : OutPoint) (output : TxOut) : List ReducerOutput :=
  ((ctx.utxoRunes outpoint).getD []).map fun rune =>
    .runeBalancesByScriptHash (scriptHash output.scriptPubkey) rune.1 (.increment rune.2)

def reduceBlock (block : Block) (ctx : BlockContext) : Option (List ReducerOutput) :=
  reduceTxs (fun _ => false) (processConsumedTxo scriptHash policy ctx) (processProducedTxo scriptHash ctx) block

end RuneBalancesByScriptHash

namespace UtxosByRuneId

def processConsumedTxo (ctx : BlockContext) (input : OutPoint) : Option (List ReducerOutput) :=
  match ctx.utxoRunes input with
  | none => some []
  | some runes => do
    match ← applyPolicy policy (ctx.findUtxo input) with
    | some u => return runes.map fun rune => .utxosByRuneId rune.1 u.height input .consumed
    | none => return []

def processProducedTxo (ctx : BlockContext) (height : Nat) (outpoint : OutPoint) (output : TxOut) :
    List ReducerOutput :=
  ((ctx.utxoRunes outpoint).getD []).map fun rune =>
    .utxosByRuneId rune.1 height outpoint (.produced (scriptHash output.scriptPubkey, rune.2, output.value))

def reduceBlock (height : Nat) (block : Block) (ctx : BlockContext) : Option (List ReducerOutput) :=
  let chained := chainedTxos block.txdata
  reduceTxs (fun x => chained.contains x) (processConsumedTxo policy ctx) (processProducedTxo scriptHash ctx height)
    block

end UtxosByRuneId

namespace InscriptionsByScriptHash

def processConsumedTxo (ctx : BlockContext) (input : OutPoint) : Option (List ReducerOutput) := do
  match ← applyPolicy policy (ctx.findUtxo input) with
  | some u => return ((ctx.utxoInscriptions input).getD []).map fun inscription =>
      .inscriptionsByScriptHash (scriptHash u.txo.scriptPubkey) inscription.2 .consumed
  | none => return []

def processProducedTxo (ctx : BlockContext) (height : Nat) (output : OutPoint) (txOutput : TxOut) :
    List ReducerOutput :=
  ((ctx.utxoInscriptions output).getD []).map fun inscription =>
    .inscriptionsByScriptHash (scriptHash txOutput.scriptPubkey) inscription.2
      (.produced (height, output, inscription.1))

def reduceBlock (height : Nat) (block : Block) (ctx : BlockContext) : Option (List ReducerOutput) :=
  reduceTxs (fun _ => false) (processConsumedTxo scriptHash policy ctx) (processProducedTxo scriptHash ctx height)
    block

end InscriptionsByScriptHash

inductive Reducer where
  | balancesByRuneId
  | inscriptionsByScriptHash
  | runeBalancesByScriptHash
  | satBalanceByScriptHash
  | utxosByRuneId
  | utxosByScriptHash
  deriving DecidableEq

def Reducer.reduceBlock (height : Nat) (block : Block) (ctx : BlockContext) :
    Reducer → Option (List ReducerOutput)
  | balancesByRuneId => BalancesByRuneId.reduceBlock scriptHash policy block ctx
  | inscriptionsByScriptHash => InscriptionsByScriptHash.reduceBlock scriptHash policy height block ctx
  | runeBalancesByScriptHash => RuneBalancesByScriptHash.reduceBlock scriptHash policy block ctx
  | satBalanceByScriptHash => SatBalanceByScriptHash.reduceBlock scriptHash policy block ctx
  | utxosByRuneId => UtxosByRuneId.reduceBlock scriptHash policy height block ctx
  | utxosByScriptHash => UtxosByScriptHash.reduceBlock scriptHash policy height block ctx

end

/-! ## Storage actions -/

/-- A hash or a script hash as an array. -/
def array32 (hash : Fin (2 ^ 256)) : (Ty.array 32).Val := ⟨hashBytes hash, Machine.length_toBE 32 hash.val⟩

def array20 (hash : ScriptHash) : (Ty.array 20).Val := ⟨scriptHashBytes hash, Machine.length_toBE 20 hash.val⟩

/-- An integer of the source, in its width. -/
def uint (w n : Nat) : Fin (256 ^ w) := Fin.ofNat (256 ^ w) n

section

variable (ns : Namespace)

def utxosByScriptHashKey (scriptHash : ScriptHash) (height : Nat) (utxo : OutPoint) : Key :=
  ns.data .utxosByScriptHash Timbre.UtxosByScriptHash.key
    (array20 scriptHash, uint 8 height, array32 utxo.txid, uint 4 utxo.vout)

def satBalanceByScriptHashKey (scriptHash : ScriptHash) : Key :=
  ns.data .satBalanceByScriptHash Timbre.SatBalanceByScriptHash.key (array20 scriptHash)

/-- The dune id is written as a pair of `VarUInt`s. -/
def balancesByRuneIdKey (runeId : DuneId) (scriptHash : ScriptHash) : Key :=
  ns.data .balancesByRuneId Timbre.BalancesByRuneId.key
    ((uint 16 runeId.block, uint 16 runeId.tx), array20 scriptHash)

def runeBalancesByScriptHashKey (scriptHash : ScriptHash) (runeId : DuneId) : Key :=
  ns.data .runeBalancesByScriptHash Timbre.RuneBalancesByScriptHash.key
    (array20 scriptHash, uint 8 runeId.block, uint 4 runeId.tx)

def utxosByRuneIdKey (runeId : DuneId) (height : Nat) (utxo : OutPoint) : Key :=
  ns.data .utxosByRuneId Timbre.UtxosByRuneId.key
    ((uint 8 runeId.block, uint 4 runeId.tx), uint 8 height, array32 utxo.txid, uint 4 utxo.vout)

def inscriptionsByScriptHashKey (scriptHash : ScriptHash) (inscriptionId : InscriptionId) : Key :=
  ns.data .inscriptionsByScriptHash Timbre.InscriptionsByScriptHash.key
    (array20 scriptHash, array32 inscriptionId.txid, uint 4 inscriptionId.index)

end

def utxosByScriptHashValue (satoshis : U64) : Value := Timbre.UtxosByScriptHash.value.encode (uint 8 satoshis.val)

def utxosByRuneIdValue (scriptHash : ScriptHash) (runeQuantity : U128) (satoshis : U64) : Value :=
  Timbre.UtxosByRuneId.value.encode (array20 scriptHash, uint 16 runeQuantity.val, uint 8 satoshis.val)

def inscriptionsByScriptHashValue (height : Nat) (utxo : OutPoint) (offset : U32) : Value :=
  Timbre.InscriptionsByScriptHash.value.encode
    (uint 8 height, array32 utxo.txid, uint 4 utxo.vout, uint 4 offset.val)

/-- `CursorValue`, without mempool information. -/
def pointValue (point : Point) (wasMempool : Bool) (timestamp : Nat) : Value :=
  Timbre.cursorValue.encode (uint 8 point.height, array32 point.hash, wasMempool, uint 8 timestamp, none)

def UtxoAction.toStorageAction {α : Type} (key : Key) (value : α → Value) : UtxoAction α → StorageAction
  | consumed => .delete key
  | produced a => .set key (value a)

def IncrOrDecr.toStorageAction {α : Type} (increment decrement : α → StorageAction) : IncrOrDecr α → StorageAction
  | .increment x => increment x
  | .decrement x => decrement x

/-- `reducer_output_to_storage_ops`. -/
def reducerOutputToStorageOps (ns : Namespace) : ReducerOutput → List StorageAction
  | .balancesByRuneId runeId scriptHash action =>
    let key := balancesByRuneIdKey ns runeId scriptHash
    [action.toStorageAction (.incrementU128 key) (.decrementU128 key)]
  | .inscriptionsByScriptHash scriptHash inscriptionId action =>
    let key := inscriptionsByScriptHashKey ns scriptHash inscriptionId
    [action.toStorageAction key fun (height, utxo, offset) => inscriptionsByScriptHashValue height utxo offset]
  | .runeBalancesByScriptHash scriptHash runeId delta =>
    let key := runeBalancesByScriptHashKey ns scriptHash runeId
    [delta.toStorageAction (.incrementU128 key) (.decrementU128 key)]
  | .satBalanceByScriptHash scriptHash delta =>
    let key := satBalanceByScriptHashKey ns scriptHash
    [delta.toStorageAction (.incrementU64 key) (.decrementU64 key)]
  | .utxosByRuneId runeId height utxo action =>
    let key := utxosByRuneIdKey ns runeId height utxo
    [action.toStorageAction key fun (scriptHash, runeQuantity, satoshis) =>
      utxosByRuneIdValue scriptHash runeQuantity satoshis]
  | .utxosByScriptHash scriptHash height utxo action =>
    let key := utxosByScriptHashKey ns scriptHash height utxo
    [action.toStorageAction key utxosByScriptHashValue]
  | .cursor point wasMempool timestamp =>
    let value := pointValue point wasMempool timestamp
    [.set (ns.key .cursor) value, .set (ns.key .info) value]

/-! ## A block -/

/-- A block with its context, as it reaches the reducers at a time. -/
structure EnrichedBlock where
  point : Point
  block : Block
  ctx : BlockContext
  now : Nat

/-- `Worker::reduce_block`: the outputs of every reducer, then the cursor. -/
def reduceBlock (scriptHash : Bytes → ScriptHash) (policy : RuntimePolicy) (reducers : List Reducer)
    (b : EnrichedBlock) : Option (List ReducerOutput) := do
  let outputs ← collect (Reducer.reduceBlock scriptHash policy b.point.height b.block b.ctx) reducers
  return outputs ++ [.cursor b.point false b.now]

/-- The storage actions of a block. -/
def blockActions (scriptHash : Bytes → ScriptHash) (policy : RuntimePolicy) (ns : Namespace)
    (reducers : List Reducer) (b : EnrichedBlock) : Option (List StorageAction) :=
  (reduceBlock scriptHash policy reducers b).map fun outputs => outputs.flatMap (reducerOutputToStorageOps ns)

end DogeIndexer.Polyphony.Reducers
