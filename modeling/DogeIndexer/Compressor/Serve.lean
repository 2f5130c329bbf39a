import DogeIndexer.Compressor.ChainDB

/-!
# The sync service

Model of `compressor-xdg/src/serve/grpc.rs`: the messages of `proto/sync/v1/sync.proto`, the conversion of a
stored block with its resolver, or of a log entry, to a block with context, and the paging of stored blocks.

A message field is optional where the protocol makes it so.  Hashes and 128-bit amounts travel as bytes; raw
blocks and raw outputs stand for what they decode to.
-/

set_option autoImplicit false

namespace DogeIndexer.Compressor

abbrev U32 := Fin (2 ^ 32)

/-! ## Messages -/

namespace Api

structure BlockRef where
  height : Nat
  hash : Bytes
  deriving DecidableEq

structure TxoRef where
  txHash : Bytes
  txoIndex : Nat

structure ResolvedTxo where
  ref : Option TxoRef
  height : Nat
  raw : TxOut

structure RuneId where
  block : Nat
  tx : Nat

structure Rune where
  id : Option RuneId
  amount : Bytes

structure RunesResolvedTxo where
  ref : Option TxoRef
  runes : List Rune

structure ValidEtch where
  txIndex : Nat
  name : Bytes

structure ValidMint where
  txIndex : Nat
  edictIndex : Nat

structure RunesInfo where
  txoResolver : List RunesResolvedTxo
  successfulEtchs : List ValidEtch
  successfulMints : List ValidMint

structure InscriptionId where
  txHash : Bytes
  index : Nat

inductive Kind where
  | deploy (ticker : Bytes)
  | mint (ticker amt scriptHash : Bytes)
  | transfer (ticker amt : Bytes) (firstOutput : Option TxoRef) (scriptHash : Bytes)
  | transferInit (ticker amt scriptHash : Bytes)

structure Brc20Action where
  kind : Option Kind

structure Brc20Resolver where
  id : Option InscriptionId
  action : Option Brc20Action

structure InscriptionAtOffset where
  id : Option InscriptionId
  offset : U32

structure InscriptionOrigin where
  txHash : Bytes
  id : Option InscriptionId
  num : U64
  content : Bytes
  type : Bytes

structure InscriptionResolvedTxo where
  ref : Option TxoRef
  inscriptions : List InscriptionAtOffset

/-- `InscriptionsInfo`, without the reinscriptions, of which there are none. -/
structure InscriptionsInfo where
  txoResolver : List InscriptionResolvedTxo
  brc20Resolver : List Brc20Resolver
  newInscriptions : List InscriptionOrigin

structure BlockWithContext where
  ref : Option BlockRef
  raw : Block
  txoResolver : List ResolvedTxo
  runes : Option RunesInfo
  inscriptions : Option InscriptionsInfo

/-- `stream_updates_with_ctx_response::Action`. -/
inductive Action where
  | apply (block : BlockWithContext)
  | undo (ref : BlockRef)
  | reset (ref : BlockRef)

structure PageBlocksWithCtxResponse where
  blocks : List BlockWithContext
  nextCursor : Option BlockRef
  chainTip : Option BlockRef

end Api

/-! ## Conversions -/

/-- The bytes of a 256-bit hash. -/
def hashBytes (hash : Fin (2 ^ 256)) : Bytes := Machine.toBE 32 hash.val

/-- `u128::to_be_bytes`. -/
def amountBytes (amount : U128) : Bytes := Machine.toBE 16 amount.val

/-- `ScriptHash::as_byte_array`. -/
def scriptHashBytes (hash : ScriptHash) : Bytes := Machine.toBE 20 hash.val

def txoRefMessage (ref : TxoRef) : Api.TxoRef := ⟨hashBytes ref.txid, ref.vout⟩

def blockRefMessage (height : Nat) (hash : BlockHash) : Api.BlockRef := ⟨height, hashBytes hash⟩

def inscriptionIdMessage (id : InscriptionId) : Api.InscriptionId := ⟨hashBytes id.txid, id.index⟩

/-- Dunes of an output; the transaction index is cast to 32 bits. -/
def runesMessage (e : TxoRef × List (DuneId × U128)) : Api.RunesResolvedTxo where
  ref := some (txoRefMessage e.1)
  runes := e.2.map fun (id, amount) => ⟨some ⟨id.block, id.tx % 2 ^ 32⟩, amountBytes amount⟩

def resolvedTxoMessage (e : TxoRef × TxoBody) : Api.ResolvedTxo :=
  ⟨some (txoRefMessage e.1), e.2.height, e.2.raw⟩

def etchMessage (e : Nat × U128) : Api.ValidEtch := ⟨e.1, amountBytes e.2⟩

def mintMessage (e : Nat × Nat) : Api.ValidMint := ⟨e.1, e.2⟩

/-- An inscription at its offset, which is cast to 32 bits. -/
def inscriptionMessage (e : U64 × InscriptionId) : Api.InscriptionAtOffset :=
  ⟨some (inscriptionIdMessage e.2), Fin.ofNat _ e.1.val⟩

def brc20Kind : BRC20Message → Api.Kind
  | .deploy ticker => .deploy ticker
  | .mint ticker amt sh => .mint ticker (amountBytes amt) (scriptHashBytes sh)
  | .transfer ticker amt op sh => .transfer ticker (amountBytes amt) (some (txoRefMessage op)) (scriptHashBytes sh)
  | .transferInit ticker amt sh => .transferInit ticker (amountBytes amt) (scriptHashBytes sh)

def brc20Message (e : InscriptionId × BRC20Message) : Api.Brc20Resolver :=
  ⟨some (inscriptionIdMessage e.1), some ⟨some (brc20Kind e.2)⟩⟩

def originMessage (info : NewInscriptionInfo) : Api.InscriptionOrigin :=
  ⟨hashBytes info.txHash, some (inscriptionIdMessage info.id), info.number, info.body, info.bodyType⟩

/-- How hash maps are iterated: in any order, which may differ from one iteration to the next. -/
structure HashOrder where
  iter : ∀ {V : Type}, Nat → Table TxoRef V → List (TxoRef × V)
  perm : ∀ {V : Type} (site : Nat) (t : Table TxoRef V), (iter site t).Perm t.entries

/-- Iteration in key order. -/
def HashOrder.byKey : HashOrder where
  iter _ t := t.entries
  perm _ _ := .refl _

/-- One inscription is pushed to the entry of its output. -/
def pushInscription (ref : TxoRef) (t : Table TxoRef (List Api.InscriptionAtOffset)) (e : U64 × InscriptionId) :
    Table TxoRef (List Api.InscriptionAtOffset) :=
  t.insert ref (t.getD ref [] ++ [inscriptionMessage e])

/-- The inscriptions of a list of outputs, gathered in a hash map. -/
def gatherInscriptions (l : List (TxoRef × List (U64 × InscriptionId))) :
    Table TxoRef (List Api.InscriptionAtOffset) :=
  l.foldl (fun t e => e.2.foldl (pushInscription e.1) t) Table.empty

/-- The message for a block; `resolver` and `outputRunes` are in the order in which they are iterated.  The
functions that page blocks and that stream them both contain this conversion. -/
def blockWithContext (o : HashOrder) (height : Nat) (hash : BlockHash) (block : Block)
    (resolver : List (TxoRef × TxoBody)) (outputRunes : List (TxoRef × List (DuneId × U128)))
    (entry : ResolverEntry) : Api.BlockWithContext :=
  let inputs := o.iter 1 (gatherInscriptions (resolver.map fun e => (e.1, e.2.inscriptions)))
  let outputs := o.iter 2 (gatherInscriptions entry.outputInscriptions)
  { ref := some (blockRefMessage height hash)
    raw := block
    txoResolver := resolver.map resolvedTxoMessage
    runes := some {
      txoResolver := resolver.map (fun e => runesMessage (e.1, e.2.dunes)) ++ outputRunes.map runesMessage
      successfulEtchs := entry.etches.map etchMessage
      successfulMints := entry.mints.map mintMessage }
    inscriptions := some {
      txoResolver := (inputs ++ outputs).map fun e => ⟨some (txoRefMessage e.1), e.2⟩
      brc20Resolver := entry.brc20Resolver.map brc20Message
      newInscriptions := entry.newInscriptions.map originMessage } }

/-- The block with context of a stored block; the resolver is stored as a list, in the order of the hash map at
the time. -/
def pagedBlock (o : HashOrder) (height : Nat) (hash : BlockHash) (block : Block) (entry : ResolverEntry) :
    Api.BlockWithContext :=
  blockWithContext o height hash block (o.iter 0 entry.resolver) entry.outputRunes entry

/-- `log_to_response_with_ctx`; the log holds the resolver and the dunes of outputs as hash maps. -/
def logToResponseWithCtx (o : HashOrder) : Log → Api.Action
  | .apply height block entry =>
    .apply (blockWithContext o height block.hash block (o.iter 0 entry.resolver)
      (o.iter 3 (Table.empty.insertAll entry.outputRunes)) entry)
  | .undo height hash _ => .undo (blockRefMessage height hash)
  | .mark height hash _ => .reset (blockRefMessage height hash)

/-! ## Paging -/

inductive Code where
  | invalidArgument
  | notFound
  | internal
  deriving DecidableEq

/-- `tonic::Status`. -/
structure Status where
  code : Code
  message : String
  deriving DecidableEq

/-- The stored blocks after the intersect, which must be the first entry found. -/
def afterIntersect (cursor : Option Api.BlockRef) (entries : List (Nat × BlockHash × Block)) :
    Except Status (List (Nat × BlockHash × Block)) :=
  match cursor with
  | none => .ok entries
  | some intersect =>
    match entries with
    | [] => .error ⟨.notFound, "intersect not found (no entry)"⟩
    | (foundHeight, foundHash, _) :: rest =>
      if foundHeight ≠ intersect.height then .error ⟨.notFound, "intersect not found (height mismatch)"⟩
      else if hashBytes foundHash ≠ intersect.hash then .error ⟨.notFound, "intersect not found (hash mismatch)"⟩
      else .ok rest

/-- One block of a page with its resolver. -/
def pageBlock (o : HashOrder) (e : (Nat × BlockHash × Block) × (Nat × ResolverEntry)) :
    Except Status Api.BlockWithContext :=
  let ((height, blockHash, block), (_, resolver)) := e
  if blockHash ≠ resolver.hash then .error ⟨.internal, "blocks/resolvers hash mismatch"⟩
  else .ok (pagedBlock o height blockHash block resolver)

/-- `SyncServerImpl::page_blocks_with_context`. -/
def pageBlocksWithContext (o : HashOrder) (t : Tables) (cursor : Option Api.BlockRef) (maxItems : Nat) :
    Except Status Api.PageBlocksWithCtxResponse := do
  if maxItems < 1 then throw ⟨.invalidArgument, "max items must be greater than 0"⟩
  let intersectHeight := (cursor.map Api.BlockRef.height).getD 0
  let blocks ← afterIntersect cursor (t.blockByHeight.entriesFrom intersectHeight)
  -- one block more than asked for tells whether there is a next page
  let taken := blocks.take (maxItems + 1)
  let pageBlocks := taken.take maxItems
  let nextCursor := if taken.length = maxItems + 1 then
      pageBlocks.getLast?.map fun e => blockRefMessage e.1 e.2.1
    else none
  let resolvers := t.resolverByHeight.entriesFrom intersectHeight
  let pageResolvers := (if cursor.isSome then resolvers.tail else resolvers).take maxItems
  if pageBlocks.length ≠ pageResolvers.length then throw ⟨.internal, "blocks/resolvers len mismatch"⟩
  let page ← (pageBlocks.zip pageResolvers).mapM (pageBlock o)
  return {
    blocks := page
    nextCursor := nextCursor
    chainTip := t.blockByHeight.lastEntry.map fun e => blockRefMessage e.1 e.2.1 }

end DogeIndexer.Compressor
