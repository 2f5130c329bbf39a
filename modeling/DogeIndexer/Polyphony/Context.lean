import DogeIndexer.Compressor.Serve
import DogeIndexer.Polyphony.Worker

/-!
# Blocks with context at the indexer

Model of `BlockContext` (`polyphony-xdg/src/model.rs`) and of `Worker::process_action` of the compressor source
(`sources/compressor/compressor.rs`): an action of the sync service becomes a payload for the reducers.  A message
that lacks a field, or holds a hash or an amount of the wrong length, is a panic (`none`).

* `readBytes_toBE` — hashes and amounts survive the trip.
-/

set_option autoImplicit false

namespace DogeIndexer.Polyphony

open Compressor (Bytes U32 Txid ScriptHash OutPoint TxOut DuneId InscriptionId BRC20Message Block)

/-! ## The context of a block -/

structure ContextUtxo where
  height : Nat
  txo : TxOut
  deriving DecidableEq

/-- `BlockContext`; sat ranges and reinscriptions, which are never there, are left out. -/
structure BlockContext where
  inputResolver : Table OutPoint ContextUtxo
  runesResolver : Table OutPoint (List (DuneId × U128))
  runeMintIdxs : List (Nat × Nat)
  runeEtchIdxs : List (Nat × U128)
  inscriptionsResolver : Table OutPoint (List (U32 × InscriptionId))
  brc20Resolver : Table InscriptionId (List BRC20Message)
  newInscriptions : Table Txid (InscriptionId × U64 × Bytes × Bytes)

namespace BlockContext

def new : BlockContext :=
  ⟨Table.empty, Table.empty, [], [], Table.empty, Table.empty, Table.empty⟩

def insertTxo (ctx : BlockContext) (key : OutPoint) (utxo : ContextUtxo) : BlockContext :=
  { ctx with inputResolver := ctx.inputResolver.insert key utxo }

def insertRunes (ctx : BlockContext) (key : OutPoint) (runes : List (DuneId × U128)) : BlockContext :=
  { ctx with runesResolver := ctx.runesResolver.insert key runes }

def insertInscriptions (ctx : BlockContext) (key : OutPoint) (inscriptions : List (U32 × InscriptionId)) :
    BlockContext :=
  { ctx with inscriptionsResolver := ctx.inscriptionsResolver.insert key inscriptions }

def insertBrc20 (ctx : BlockContext) (key : InscriptionId) (action : BRC20Message) : BlockContext :=
  { ctx with brc20Resolver := ctx.brc20Resolver.insert key (ctx.brc20Resolver.getD key [] ++ [action]) }

def insertNewInscription (ctx : BlockContext) (key : Txid) (info : InscriptionId × U64 × Bytes × Bytes) :
    BlockContext :=
  { ctx with newInscriptions := ctx.newInscriptions.insert key info }

def findUtxo (ctx : BlockContext) (key : OutPoint) : Option ContextUtxo := ctx.inputResolver.get key

def utxoRunes (ctx : BlockContext) (key : OutPoint) : Option (List (DuneId × U128)) := ctx.runesResolver.get key

def utxoInscriptions (ctx : BlockContext) (key : OutPoint) : Option (List (U32 × InscriptionId)) :=
  ctx.inscriptionsResolver.get key

def inscriptionBrc20s (ctx : BlockContext) (key : InscriptionId) : Option (List BRC20Message) :=
  ctx.brc20Resolver.get key

end BlockContext

inductive EnrichedBlockPayload where
  | rollForward (point : Point) (block : Block) (ctx : BlockContext) (mutable : Bool)
  | rollBack (point : Point) (mutable : Bool)

/-! ## Reading messages -/

/-- An integer of a fixed width in big-endian bytes, or a hash. -/
def readBytes (width n : Nat) [NeZero n] (bytes : Bytes) : Option (Fin n) :=
  if bytes.length = width then some (Fin.ofNat n (Machine.ofBE bytes)) else none

theorem readBytes_toBE {width n : Nat} [NeZero n] (h : n ≤ 256 ^ width) (v : Fin n) :
    readBytes width n (Machine.toBE width v.val) = some v := by
  unfold readBytes
  rw [if_pos (Machine.length_toBE width v.val), Machine.ofBE_toBE width v.val (lt_of_lt_of_le v.isLt h)]
  exact congrArg some (Fin.ofNat_val_eq_self v)

def readHash (bytes : Bytes) : Option (Fin (2 ^ 256)) := readBytes 32 (2 ^ 256) bytes

def readAmount (bytes : Bytes) : Option U128 := readBytes 16 (2 ^ 128) bytes

def readScriptHash (bytes : Bytes) : Option ScriptHash := readBytes 20 (2 ^ 160) bytes

def readTxoRef (ref : Option Compressor.Api.TxoRef) : Option OutPoint := do
  let ref ← ref
  let txid ← readHash ref.txHash
  return ⟨txid, ref.txoIndex⟩

def readInscriptionId (id : Option Compressor.Api.InscriptionId) : Option InscriptionId := do
  let id ← id
  let txid ← readHash id.txHash
  return ⟨txid, id.index⟩

/-- `block_ref_to_point`. -/
def blockRefToPoint (ref : Compressor.Api.BlockRef) : Option Point := do
  let hash ← readHash ref.hash
  return ⟨ref.height, hash⟩

def readRune (rune : Compressor.Api.Rune) : Option (DuneId × U128) := do
  let id ← rune.id
  let amount ← readAmount rune.amount
  return (⟨id.block, id.tx⟩, amount)

def readEtch (etch : Compressor.Api.ValidEtch) : Option (Nat × U128) := do
  let name ← readAmount etch.name
  return (etch.txIndex, name)

def readInscription (inscription : Compressor.Api.InscriptionAtOffset) : Option (U32 × InscriptionId) := do
  let id ← readInscriptionId inscription.id
  return (inscription.offset, id)

def readKind : Compressor.Api.Kind → Option BRC20Message
  | .deploy ticker => some (.deploy ticker)
  | .mint ticker amt scriptHash => do
    let amt ← readAmount amt
    let scriptHash ← readScriptHash scriptHash
    return .mint ticker amt scriptHash
  | .transfer ticker amt firstOutput scriptHash => do
    let output ← readTxoRef firstOutput
    let amt ← readAmount amt
    let scriptHash ← readScriptHash scriptHash
    return .transfer ticker amt output scriptHash
  | .transferInit ticker amt scriptHash => do
    let amt ← readAmount amt
    let scriptHash ← readScriptHash scriptHash
    return .transferInit ticker amt scriptHash

def resolveTxo (ctx : BlockContext) (txo : Compressor.Api.ResolvedTxo) : Option BlockContext := do
  let ref ← readTxoRef txo.ref
  return ctx.insertTxo ref ⟨txo.height, txo.raw⟩

def resolveRunes (ctx : BlockContext) (resolved : Compressor.Api.RunesResolvedTxo) : Option BlockContext := do
  let ref ← readTxoRef resolved.ref
  let runes ← resolved.runes.mapM readRune
  return if runes.isEmpty then ctx else ctx.insertRunes ref runes

def resolveInscriptions (ctx : BlockContext) (resolved : Compressor.Api.InscriptionResolvedTxo) :
    Option BlockContext := do
  let ref ← readTxoRef resolved.ref
  let inscriptions ← resolved.inscriptions.mapM readInscription
  return if inscriptions.isEmpty then ctx else ctx.insertInscriptions ref inscriptions

def resolveBrc20 (ctx : BlockContext) (resolved : Compressor.Api.Brc20Resolver) : Option BlockContext := do
  let id ← readInscriptionId resolved.id
  let action ← resolved.action
  let kind ← action.kind
  let message ← readKind kind
  return ctx.insertBrc20 id message

def resolveOrigin (ctx : BlockContext) (origin : Compressor.Api.InscriptionOrigin) : Option BlockContext := do
  let txHash ← readHash origin.txHash
  let id ← readInscriptionId origin.id
  return ctx.insertNewInscription txHash (id, origin.num, origin.type, origin.content)

def readRunes (ctx : BlockContext) (runes : Compressor.Api.RunesInfo) : Option BlockContext := do
  let ctx ← runes.txoResolver.foldlM resolveRunes ctx
  let etchs ← runes.successfulEtchs.mapM readEtch
  return { ctx with
    runeEtchIdxs := etchs
    runeMintIdxs := runes.successfulMints.map fun mint => (mint.txIndex, mint.edictIndex) }

def readInscriptions (ctx : BlockContext) (inscriptions : Compressor.Api.InscriptionsInfo) :
    Option BlockContext := do
  let ctx ← inscriptions.txoResolver.foldlM resolveInscriptions ctx
  let ctx ← inscriptions.brc20Resolver.foldlM resolveBrc20 ctx
  inscriptions.newInscriptions.foldlM resolveOrigin ctx

/-- The context of an applied block. -/
def readContext (block : Compressor.Api.BlockWithContext) : Option BlockContext := do
  let ctx ← block.txoResolver.foldlM resolveTxo BlockContext.new
  let ctx ← (match block.runes with
    | some runes => readRunes ctx runes
    | none => some ctx)
  match block.inscriptions with
  | some inscriptions => readInscriptions ctx inscriptions
  | none => some ctx

/-- `Worker::process_action`: the payload that is sent on, if any. -/
def processAction (action : Compressor.Api.Action) (mutable : Bool) : Option (Option EnrichedBlockPayload) :=
  match action with
  | .apply block => do
    let ref ← block.ref
    let ctx ← readContext block
    let point ← blockRefToPoint ref
    return some (.rollForward point block.raw ctx mutable)
  | .reset ref => do
    let point ← blockRefToPoint ref
    return some (.rollBack point false)
  | .undo _ => some none

end DogeIndexer.Polyphony
