import DogeIndexer.Timbre.Schema

/-!
# The stored types

The `Key`, `Value` and `Cursor` types of `crates/timbre-xbt/src/reducers`, one namespace for each
module, with `CursorValue` and the `MetadataKey` of `rollback/mod.rs`, as declarations that the
codec of `Schema` reads.  `schema` lists them all.
-/

set_option autoImplicit false

namespace DogeIndexer.Timbre

abbrev u8 : Ty := .uint 1
abbrev u16 : Ty := .uint 2
abbrev u32 : Ty := .uint 4
abbrev u64 : Ty := .uint 8
abbrev u128 : Ty := .uint 16

/-- `(A, B)`. -/
abbrev pair (a b : Ty) : Ty := .tuple (.cons "0" a (.last "1" b))

/-- `(A, B, C)`. -/
abbrev triple (a b c : Ty) : Ty := .tuple (.cons "0" a (.cons "1" b (.last "2" c)))

/-- A place in a transaction's inputs or outputs: script hash, index and offset of the inscribed sat. -/
abbrev inscribedSat : Ty := triple (.array 20) .varUInt .varUInt

/-- The point of an instance's cursor, with the chain tip and the mempool view it was made for. -/
def cursorValue : Ty :=
  .tuple <|
    .cons "height" u64 <|
    .cons "hash" (.array 32) <|
    .cons "was_mempool" .bool <|
    .cons "timestamp" u64 <|
    .last "mempool_info" (.option (pair (pair u64 (.array 32)) u64))

namespace Rollback

def metadataKey : Ty :=
  .struct <|
    .cons "height" u64 <|
    .cons "hash" (.array 32) <|
    .cons "operation_idx" u64 <|
    .last "modified_key" (.vec u8)

end Rollback

namespace BalancesByBrc20

def key : Ty :=
  .struct <|
    .cons "ticker" .shortByteString <|
    .last "script_hash" (.array 20)

end BalancesByBrc20

namespace BalancesByRuneId

def key : Ty :=
  .struct <|
    .cons "rune_id" (pair .varUInt .varUInt) <|
    .last "script_hash" (.array 20)

end BalancesByRuneId

namespace BlockByTxHash

def key : Ty := .struct (.last "tx_hash" (.array 32))

def value : Ty :=
  .struct <|
    .cons "height" .varUInt <|
    .last "index" .varUInt

end BlockByTxHash

namespace BlockInfo

def key : Ty := .struct (.last "height" .varUInt)

def value : Ty :=
  .struct <|
    .cons "block_hash" (.option (.array 32)) <|
    .cons "block_size" .varUInt <|
    .cons "block_weight_units" .varUInt <|
    .cons "timestamp" (.option .varUInt) <|
    .cons "total_fees" .varUInt <|
    .cons "total_volume" .varUInt <|
    .cons "total_txs" .varUInt <|
    .cons "involves_inscriptions" .bool <|
    .cons "involves_runes" .bool <|
    .cons "involves_brc20" .bool <|
    .last "coinbase_script_sig" (.timbreVec u8)

end BlockInfo

namespace Brc20BalancesByScriptHash

def key : Ty :=
  .struct <|
    .cons "script_hash" (.array 20) <|
    .last "ticker" .shortByteString

end Brc20BalancesByScriptHash

namespace Brc20TermsByTicker

def key : Ty := .struct (.last "ticker" .shortByteString)

def value : Ty :=
  .struct <|
    .cons "max" u128 <|
    .cons "limit" u128 <|
    .cons "dec" u8 <|
    .cons "self_mint" .bool <|
    .last "deploy_id" (pair (.array 32) u32)

end Brc20TermsByTicker

namespace ContentByInscriptionId

def key : Ty := .struct (.last "inscription_id" (pair (.array 32) u32))

def value : Ty :=
  .struct <|
    .cons "created_at" u64 <|
    .cons "inscription_num" u64 <|
    .cons "content_type" (.vec u8) <|
    .last "content_body" (.vec u8)

def cursor : Ty := .struct (.last "offset" u64)

end ContentByInscriptionId

namespace EtchingByRuneId

def key : Ty := .struct (.last "rune_id" (pair u64 u32))

def value : Ty :=
  .struct <|
    .cons "tx_hash" (.array 32) <|
    .cons "name" (.option u128) <|
    .cons "spacers" (.option u32) <|
    .cons "symbol" (.option u32) <|
    .cons "divisibility" (.option u8) <|
    .cons "premine" (.option u128) <|
    .cons "max_mint_txs" (.option u128) <|
    .cons "amount_per_mint" (.option u128) <|
    .cons "start_height" (.option u64) <|
    .cons "end_height" (.option u64) <|
    .cons "start_offset" (.option u64) <|
    .cons "end_offset" (.option u64) <|
    .cons "turbo" .bool <|
    .last "cenotaph" .bool

end EtchingByRuneId

namespace HeightByBlockHash

def key : Ty := .struct (.last "block_hash" (.array 32))

def value : Ty := .struct (.last "block_height" .varUInt)

end HeightByBlockHash

namespace InscriptionActivityByBlock

def key : Ty := .struct (.last "height" .varUInt)

def value : Ty :=
  .struct <|
    .last "inscriptions_activity" <| .vec <|
      triple .varUInt (.array 32) (.vec (pair (pair (.array 32) u32) (pair (.option inscribedSat) inscribedSat)))

def cursor : Ty := .struct (.last "index" .varUInt)

end InscriptionActivityByBlock

namespace InscriptionActivityByScriptHash

def selfTransferredInscription : Ty :=
  .struct <|
    .cons "inscription_id" (pair (.array 32) u32) <|
    .cons "input_index" u32 <|
    .cons "input_sat_offset" u32 <|
    .cons "output_index" u32 <|
    .last "output_sat_offset" u32

def sentInscription : Ty :=
  .struct <|
    .cons "inscription_id" (pair (.array 32) u32) <|
    .cons "input_index" u32 <|
    .cons "input_sat_offset" u32 <|
    .cons "output_index" u32 <|
    .cons "output_sat_offset" u32 <|
    .last "output_script_hash" (.array 20)

def receivedInscription : Ty :=
  .struct <|
    .cons "inscription_id" (pair (.array 32) u32) <|
    .cons "input_index" (.option u32) <|
    .cons "input_sat_offset" (.option u32) <|
    .cons "input_script_hash" (.option (.array 20)) <|
    .cons "output_index" u32 <|
    .last "output_sat_offset" u32

def key : Ty :=
  .struct <|
    .cons "script_hash" (.array 20) <|
    .cons "height" u64 <|
    .cons "activity_tx_index" u32 <|
    .last "tx_hash" (.array 32)

def value : Ty :=
  .struct <|
    .cons "self_transfers" (.vec selfTransferredInscription) <|
    .cons "sent" (.vec sentInscription) <|
    .last "received" (.vec receivedInscription)

def cursor : Ty :=
  .struct <|
    .cons "height" u64 <|
    .cons "activity_tx_index" u32 <|
    .last "tx_hash" (.array 32)

end InscriptionActivityByScriptHash

namespace InscriptionActivityByTx

def key : Ty :=
  .struct <|
    .cons "height" .varUInt <|
    .last "tx_index" .varUInt

def value : Ty :=
  .struct <|
    .cons "tx_hash" (.array 32) <|
    .last "inscriptions_activity" <| .timbreVec <|
      pair (pair (.array 32) .varUInt) (pair (.option inscribedSat) inscribedSat)

def cursor : Ty :=
  .struct <|
    .cons "tx_index" .varUInt <|
    .last "activity_index" .varUInt

end InscriptionActivityByTx

namespace InscriptionUtxosByScriptHash

def key : Ty :=
  .struct <|
    .cons "script_hash" (.array 20) <|
    .cons "height" .varUInt <|
    .cons "utxo_hash" (.array 32) <|
    .last "utxo_index" .varUInt

def value : Ty :=
  .struct <|
    .cons "satoshis" .varUInt <|
    .last "inscriptions" (.timbreVec (pair .varUInt (pair (.array 32) .varUInt)))

def cursor : Ty :=
  .struct <|
    .cons "tx_id" (.array 32) <|
    .last "index" .varUInt

end InscriptionUtxosByScriptHash

namespace InscriptionsByScriptHash

def key : Ty :=
  .struct <|
    .cons "script_hash" (.array 20) <|
    .last "inscription_id" (pair (.array 32) u32)

def value : Ty :=
  .struct <|
    .cons "height" u64 <|
    .cons "utxo_hash" (.array 32) <|
    .cons "utxo_index" u32 <|
    .last "offset" u32

def cursor : Ty := .struct (.last "inscription_id" (pair (.array 32) u32))

end InscriptionsByScriptHash

namespace InscriptionsByUtxo

def key : Ty :=
  .struct <|
    .cons "utxo_hash" (.array 32) <|
    .last "utxo_index" u32

def value : Ty := .struct (.last "inscriptions" (.vec (pair u32 (pair (.array 32) u32))))

end InscriptionsByUtxo

namespace MintsByRuneId

def key : Ty := .struct (.last "rune_id" (pair u64 u32))

end MintsByRuneId

namespace RuneBalancesByScriptHash

def key : Ty :=
  .struct <|
    .cons "script_hash" (.array 20) <|
    .last "rune_id" (pair u64 u32)

end RuneBalancesByScriptHash

namespace RuneIdByRuneName

def key : Ty := .struct (.last "rune_name" u128)

def value : Ty := .struct (.last "rune_id" (pair u64 u32))

end RuneIdByRuneName

namespace RuneTxsByScriptHash

def key : Ty :=
  .struct <|
    .cons "script_hash" (.array 20) <|
    .cons "height" u64 <|
    .cons "activity_tx_index" u32 <|
    .last "tx_hash" (.array 32)

def value : Ty :=
  .struct <|
    .cons "etched" (.option (pair (pair u64 u32) (.option u128))) <|
    .cons "minted" (.option (pair u64 u32)) <|
    .cons "increased_balances" (.vec (pair (pair u64 u32) u128)) <|
    .last "decreased_balances" (.vec (pair (pair u64 u32) u128))

def cursor : Ty :=
  .struct <|
    .cons "height" u64 <|
    .cons "activity_tx_index" u32 <|
    .last "tx_hash" (.array 32)

end RuneTxsByScriptHash

namespace RuneUtxosByScriptHash

def key : Ty :=
  .struct <|
    .cons "script_hash" (.array 20) <|
    .cons "height" .varUInt <|
    .cons "utxo_hash" (.array 32) <|
    .last "utxo_index" .varUInt

def value : Ty :=
  .struct <|
    .cons "satoshis" .varUInt <|
    .last "runes" (.vec (pair (pair .varUInt .varUInt) .varUInt))

/-- Pagination by height or by rune amount. -/
def cursor : Ty :=
  .enum <|
    .fields "ByHeight" (.cons "height" .varUInt <| .cons "utxo_hash" (.array 32) <| .last "utxo_index" .varUInt) <|
    .fields "ByAmount" (.cons "amount" .varUInt <| .cons "utxo_hash" (.array 32) <| .last "utxo_index" .varUInt) <|
    .nil

end RuneUtxosByScriptHash

namespace RunesByUtxo

def key : Ty :=
  .struct <|
    .cons "utxo_hash" (.array 32) <|
    .last "utxo_index" u32

def value : Ty := .struct (.last "runes" (.indexMap (pair u64 u32) u128))

end RunesByUtxo

namespace SatBalanceByScriptHash

def key : Ty := .struct (.last "script_hash" (.array 20))

def value : Ty := .struct (.last "satoshis" u64)

end SatBalanceByScriptHash

namespace SatTxsByScriptHash

def key : Ty :=
  .struct <|
    .cons "script_hash" (.array 20) <|
    .cons "height" u64 <|
    .cons "activity_tx_index" u32 <|
    .last "tx_hash" (.array 32)

def value : Ty :=
  .struct <|
    .cons "increased" .bool <|
    .last "amount" u64

def cursor : Ty :=
  .struct <|
    .cons "height" u64 <|
    .cons "activity_tx_index" u32 <|
    .last "tx_hash" (.array 32)

end SatTxsByScriptHash

namespace SatsPerVbByBlock

def key : Ty := .struct (.last "height" u64)

def value : Ty :=
  .struct <|
    .cons "min" u64 <|
    .cons "median" u64 <|
    .last "max" u64

end SatsPerVbByBlock

namespace ScriptByScriptHash

def key : Ty := .struct (.last "script_hash" (.array 20))

def value : Ty := .struct (.last "script" (.vec u8))

end ScriptByScriptHash

namespace ScriptHashByAddressPayloadHash

def key : Ty := .struct (.last "payload_hash" (.array 20))

def value : Ty := .struct (.last "script_hash" (.array 20))

end ScriptHashByAddressPayloadHash

namespace SpendingTxByTxo

def key : Ty :=
  .struct <|
    .cons "utxo_tx_hash" (.array 32) <|
    .last "utxo_vout" .varUInt

def value : Ty :=
  .struct <|
    .cons "height" .varUInt <|
    .last "tx_index" .varUInt

end SpendingTxByTxo

namespace TransferInscriptionsByScriptHash

def key : Ty :=
  .struct <|
    .cons "script_hash" (.array 20) <|
    .cons "ticker" .shortByteString <|
    .last "inscription_id" (pair (.array 32) u32)

def value : Ty :=
  .struct <|
    .cons "token_amount" u128 <|
    .cons "sat_amount" u64 <|
    .cons "utxo_hash" (.array 32) <|
    .cons "utxo_index" u32 <|
    .cons "offset" u32 <|
    .last "block_height" u64

def cursor : Ty :=
  .struct <|
    .cons "ticker" .shortByteString <|
    .last "inscription_id" (pair (.array 32) u32)

end TransferInscriptionsByScriptHash

namespace TxFirstSeenTimestamp

def key : Ty := .struct (.last "tx_hash" (.array 32))

def value : Ty := .struct (.last "timestamp" .varUInt)

end TxFirstSeenTimestamp

namespace TxInfo

def txIn : Ty :=
  .struct <|
    .cons "utxo_hash" (.array 32) <|
    .cons "utxo_vout" .varUInt <|
    .cons "script_hash" (.array 20) <|
    .cons "satoshis" .varUInt <|
    .cons "inscriptions" (.timbreVec (pair .varUInt (pair (.array 32) .varUInt))) <|
    .last "runes" (.timbreVec (pair (pair .varUInt .varUInt) .varUInt))

def txOut : Ty :=
  .struct <|
    .cons "script_hash" (.array 20) <|
    .cons "satoshis" .varUInt <|
    .cons "inscriptions" (.timbreVec (pair .varUInt (pair (.array 32) .varUInt))) <|
    .last "runes" (.timbreVec (pair (pair .varUInt .varUInt) .varUInt))

def key : Ty :=
  .struct <|
    .cons "height" .varUInt <|
    .last "tx_index" .varUInt

def value : Ty :=
  .struct <|
    .cons "block_hash" (.option (.array 32)) <|
    .cons "timestamp" (.option .varUInt) <|
    .cons "volume" .varUInt <|
    .cons "fees" .varUInt <|
    .cons "sats_per_vb" .varUInt <|
    .cons "involves_inscriptions" .bool <|
    .cons "involves_runes" .bool <|
    .cons "involves_brc20" .bool <|
    .cons "inputs" (.timbreVec txIn) <|
    .last "outputs" (.timbreVec txOut)

end TxInfo

namespace TxsByBlock

def key : Ty :=
  .struct <|
    .cons "height" .varUInt <|
    .last "tx_index" .varUInt

def value : Ty := .struct (.last "tx_hash" (.array 32))

def cursor : Ty := .struct (.last "tx_index" .varUInt)

end TxsByBlock

namespace TxsByInscription

def key : Ty :=
  .struct <|
    .cons "bucket_id" (.array 2) <|
    .last "height" .varUInt

def value : Ty :=
  .struct (.last "activity" (.indexMap (pair (.array 30) .varUInt) (.timbreVec (pair .varUInt .varUInt))))

def cursor : Ty :=
  .struct <|
    .cons "height" .varUInt <|
    .last "tx_index" .varUInt

end TxsByInscription

namespace TxsByRuneId

def key : Ty :=
  .struct <|
    .cons "rune_id" (pair u64 u32) <|
    .cons "height" u64 <|
    .cons "activity_tx_index" u32 <|
    .last "tx_hash" (.array 32)

def value : Ty :=
  .struct <|
    .cons "etched" .bool <|
    .cons "minted" .bool <|
    .cons "self_transfers" (.vec (pair (.array 20) u128)) <|
    .cons "senders" (.vec (pair (.array 20) u128)) <|
    .last "receivers" (.vec (pair (.array 20) u128))

def cursor : Ty :=
  .struct <|
    .cons "height" u64 <|
    .cons "activity_tx_index" u32 <|
    .last "tx_hash" (.array 32)

end TxsByRuneId

namespace TxsByScriptHash

def key : Ty :=
  .struct <|
    .cons "script_hash" (.array 20) <|
    .cons "height" u64 <|
    .cons "blk_index" u16 <|
    .last "tx_hash" (.array 32)

def value : Ty :=
  .struct <|
    .cons "input" .bool <|
    .last "output" .bool

def cursor : Ty :=
  .struct <|
    .cons "height" u64 <|
    .cons "blk_index" u16 <|
    .last "tx_hash" (.array 32)

end TxsByScriptHash

namespace UtxosByRuneId

def key : Ty :=
  .struct <|
    .cons "rune_id" (pair u64 u32) <|
    .cons "height" u64 <|
    .cons "utxo_hash" (.array 32) <|
    .last "utxo_index" u32

def value : Ty :=
  .struct <|
    .cons "script_hash" (.array 20) <|
    .cons "rune_quantity" u128 <|
    .last "satoshis" u64

def cursor : Ty :=
  .struct <|
    .cons "height" u64 <|
    .cons "utxo_hash" (.array 32) <|
    .last "utxo_index" u32

end UtxosByRuneId

namespace UtxosByScriptHash

def key : Ty :=
  .struct <|
    .cons "script_hash" (.array 20) <|
    .cons "height" u64 <|
    .cons "utxo_hash" (.array 32) <|
    .last "utxo_index" u32

def value : Ty := .struct (.last "satoshis" u64)

def cursor : Ty :=
  .struct <|
    .cons "height" u64 <|
    .cons "utxo_hash" (.array 32) <|
    .last "utxo_index" u32

end UtxosByScriptHash

/-- Every stored type. -/
def schema : List Ty :=
  [cursorValue, Rollback.metadataKey, BalancesByBrc20.key, BalancesByRuneId.key, BlockByTxHash.key,
   BlockByTxHash.value, BlockInfo.key, BlockInfo.value, Brc20BalancesByScriptHash.key,
   Brc20TermsByTicker.key, Brc20TermsByTicker.value, ContentByInscriptionId.key,
   ContentByInscriptionId.value, ContentByInscriptionId.cursor, EtchingByRuneId.key,
   EtchingByRuneId.value, HeightByBlockHash.key, HeightByBlockHash.value,
   InscriptionActivityByBlock.key, InscriptionActivityByBlock.value,
   InscriptionActivityByBlock.cursor, InscriptionActivityByScriptHash.key,
   InscriptionActivityByScriptHash.value, InscriptionActivityByScriptHash.cursor,
   InscriptionActivityByTx.key, InscriptionActivityByTx.value, InscriptionActivityByTx.cursor,
   InscriptionUtxosByScriptHash.key, InscriptionUtxosByScriptHash.value,
   InscriptionUtxosByScriptHash.cursor, InscriptionsByScriptHash.key, InscriptionsByScriptHash.value,
   InscriptionsByScriptHash.cursor, InscriptionsByUtxo.key, InscriptionsByUtxo.value,
   MintsByRuneId.key, RuneBalancesByScriptHash.key, RuneIdByRuneName.key, RuneIdByRuneName.value,
   RuneTxsByScriptHash.key, RuneTxsByScriptHash.value, RuneTxsByScriptHash.cursor,
   RuneUtxosByScriptHash.key, RuneUtxosByScriptHash.value, RuneUtxosByScriptHash.cursor,
   RunesByUtxo.key, RunesByUtxo.value, SatBalanceByScriptHash.key, SatBalanceByScriptHash.value,
   SatTxsByScriptHash.key, SatTxsByScriptHash.value, SatTxsByScriptHash.cursor, SatsPerVbByBlock.key,
   SatsPerVbByBlock.value, ScriptByScriptHash.key, ScriptByScriptHash.value,
   ScriptHashByAddressPayloadHash.key, ScriptHashByAddressPayloadHash.value, SpendingTxByTxo.key,
   SpendingTxByTxo.value, TransferInscriptionsByScriptHash.key,
   TransferInscriptionsByScriptHash.value, TransferInscriptionsByScriptHash.cursor,
   TxFirstSeenTimestamp.key, TxFirstSeenTimestamp.value, TxInfo.key, TxInfo.value, TxsByBlock.key,
   TxsByBlock.value, TxsByBlock.cursor, TxsByInscription.key, TxsByInscription.value,
   TxsByInscription.cursor, TxsByRuneId.key, TxsByRuneId.value, TxsByRuneId.cursor,
   TxsByScriptHash.key, TxsByScriptHash.value, TxsByScriptHash.cursor, UtxosByRuneId.key,
   UtxosByRuneId.value, UtxosByRuneId.cursor, UtxosByScriptHash.key, UtxosByScriptHash.value,
   UtxosByScriptHash.cursor]

end DogeIndexer.Timbre
