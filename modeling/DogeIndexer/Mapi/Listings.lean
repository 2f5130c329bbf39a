import DogeIndexer.Lib.Sorting
import DogeIndexer.Mapi.Scan

/-!
# The paginated listings

Model of the pagination parameters of `services/mapi-xdg/src/util.rs`, of `reducer_key_range` of
`crates/timbre-xbt/src/reducers/mod.rs` and of the handlers `txs_by_address`, `utxos_by_address`,
`utxos_by_dune`, `dune_utxos_by_address`, `holders_by_dune` and `list_dunes`.

A handler begins where the address or the name of the dune has been resolved to a script hash or a
dune id.  An item of a response is the entry it is made from with what the handler looks up for it;
the texts it is written as are left out.
-/

set_option autoImplicit false

namespace DogeIndexer.Mapi

open Timbre

/-! ## Key ranges -/

/-- `BREAK_1`. -/
def BREAK_1 : Byte := BREAK + 1

/-- `reducer_maybe_key_range`. -/
def reducerMaybeKeyRange (ns : Namespace) (reducer : Reducer) (A B : Ty) (params : Option A.Val)
    (lower upper : Option B.Val) : Option Bytes × Option Bytes :=
  let start := ns.dataPrefix reducer ++ (match params with
    | some p => A.encode p ++ [BREAK]
    | none => [])
  (lower.map (fun v => start ++ B.encode v), upper.map (fun v => start ++ B.encode v))

/-- `reducer_key_range`. -/
def reducerKeyRange (ns : Namespace) (reducer : Reducer) (A B : Ty) (params : Option A.Val)
    (lower upper : Option B.Val) : Range :=
  let e := ns.encode ++ [PREFIX_DATA, reducer.encode] ++ (match params with
    | some p => BREAK :: A.encode p
    | none => [])
  let (start, stop) := reducerMaybeKeyRange ns reducer A B params lower upper
  ⟨start.getD (e ++ [BREAK]), stop.getD (e ++ [BREAK_1])⟩

/-! ## Pagination parameters -/

/-- The values of `u64`. -/
abbrev Height := Fin (256 ^ 8)

/-- `HeightPaginationParams`; the heights of a `CursorPaginationParams` are never read. -/
structure HeightPaginationParams where
  count : Option Nat
  order : Option OrderParam
  cursor : Option String
  fromHeight : Option Height
  toHeight : Option Height

def MAX_PAGE_COUNT : Nat := 100

/-- `saturating_add(1)`. -/
def saturatingSucc (x : Height) : Height :=
  if h : x.val + 1 < 256 ^ 8 then ⟨x.val + 1, h⟩ else x

/-- `encode_base64`. -/
def encodeBase64 (srv : Server) (t : Ty) (x : t.Val) : String := srv.base64.encode (t.encode x)

/-- `from_utf8(..).is_ok()`. -/
def isUtf8 (bytes : Bytes) : Bool := (ByteArray.mk (bytes.map (fun b => UInt8.ofNat b.val)).toArray).validateUTF8

/-- `decode_base64`, with its errors as `parse` reports them. -/
def decodeBase64 (srv : Server) (t : Ty) (text : String) : MapiResult t.Val :=
  let malformed : MapiResult t.Val := .error (.malformedRequest "Malformed cursor: unable to decode")
  match srv.base64.decode text with
  | none => malformed
  | some bytes =>
    match t.decode srv.size bytes with
    | .ok (x, remaining) => if isUtf8 remaining then .ok x else malformed
    | .err _ => malformed
    | .panic => .error .panicked

/-- The key that a cursor stands for. -/
def cursorKey (ns : Namespace) (reducer : Reducer) (A C : Ty) (keyParams : Option A.Val) (cursor : C.Val) : Bytes :=
  match keyParams with
  | some p => ns.data reducer (triple A u8 C) (p, (⟨96, by decide⟩ : Fin (256 ^ 1)), cursor)
  | none => ns.data reducer C cursor

/-- `ParsedHeightPaginationParams` and `ParsedPaginationParams`. -/
structure ParsedPaginationParams where
  count : Nat
  order : OrderParam
  range : Range

/-- What the functions `parse` share, given the bounds of the heights. -/
def parseWith (srv : Server) (ns : Namespace) (reducer : Reducer) (A C : Ty) (params : HeightPaginationParams)
    (keyParams : Option A.Val) (lower upper : Option Height) : MapiResult ParsedPaginationParams := do
  let count := params.count.getD MAX_PAGE_COUNT
  if count > MAX_PAGE_COUNT ∨ count = 0 then .error (.malformedRequest "Invalid page size")
  else
    let order := params.order.getD .asc
    let range := reducerKeyRange ns reducer A u64 keyParams lower upper
    match params.cursor with
    | none => .ok ⟨count, order, range⟩
    | some text =>
      let cursor ← decodeBase64 srv C text
      let key := cursorKey ns reducer A C keyParams cursor
      if ¬ range.Admits key then .error (.malformedRequest "Malformed cursor: invalid for height range")
      else .ok ⟨count, order, range.behind order key⟩

/-- `ParsedHeightPaginationParams::parse` and `ParsedPaginationParams::parse`. -/
def parse (srv : Server) (ns : Namespace) (reducer : Reducer) (A C : Ty) (params : HeightPaginationParams)
    (keyParams : Option A.Val) : MapiResult ParsedPaginationParams :=
  parseWith srv ns reducer A C params keyParams params.fromHeight (params.toHeight.map saturatingSucc)

/-- `ParsedPaginationParams::parse_no_height`. -/
def parseNoHeight (srv : Server) (ns : Namespace) (reducer : Reducer) (A C : Ty) (params : HeightPaginationParams)
    (keyParams : Option A.Val) : MapiResult ParsedPaginationParams :=
  parseWith srv ns reducer A C params keyParams none none

/-! ## Responses -/

/-- `LastUpdated`. -/
structure LastUpdated where
  blockHeight : u64.Val
  blockHash : (Ty.array 32).Val

/-- `PaginatedResponse`. -/
structure PaginatedResponse (α : Type) where
  data : List α
  lastUpdated : LastUpdated
  nextCursor : Option String

/-- `get_last_updated`. -/
def Snapshot.getLastUpdated (srv : Server) (s : Snapshot) (ns : Namespace) : MapiResult LastUpdated := do
  match s.table.get (ns.key .cursor) with
  | none => .error (.missingData (ns.key .cursor))
  | some bytes =>
    let (blockHeight, blockHash) ← decodeAs srv (pair u64 (.array 32)) bytes
    .ok ⟨blockHeight, blockHash⟩

/-- An entry with what is looked up for it. -/
structure Item (K V : Ty) (ι : Type) where
  key : K.Val
  value : V.Val
  info : ι

section Process

variable {K V : Ty} {ι : Type} (count : Nat) (cursorOf : K.Val → String) (describe : K.Val → V.Val → MapiResult ι)

/-- The loop over the fetched entries: the last entry of the page takes the entry behind it, if there is one, and
leaves the cursor. -/
def processKvs : Nat → List (K.Val × V.Val) → Option String → List (Item K V ι) →
    MapiResult (List (Item K V ι) × Option String)
  | _, [], nextCursor, items => .ok (items, nextCursor)
  | _, [(key, value)], nextCursor, items => do
    let info ← describe key value
    .ok (items ++ [⟨key, value, info⟩], nextCursor)
  | i, (key, value) :: next :: kvs, nextCursor, items =>
    if i = count - 1 then do
      let info ← describe key value
      processKvs (i + 1) kvs (some (cursorOf key)) (items ++ [⟨key, value, info⟩])
    else do
      let info ← describe key value
      processKvs (i + 1) (next :: kvs) nextCursor (items ++ [⟨key, value, info⟩])

end Process

/-! ## Handlers -/

/-- `EtchingByRuneId::Value::divisibility`, 0 where there is none. -/
def divisibility (etching : EtchingByRuneId.value.Val) : Nat :=
  let (_, _, _, _, divisibility, _) := etching
  ((divisibility : Option (Fin (256 ^ 1))).map (·.val)).getD 0

/-- `confirmations`. -/
def confirmations (lastUpdated : LastUpdated) (height : u64.Val) : Nat := lastUpdated.blockHeight.val - height.val

/-- `resolve_script_hash`, up to the address of the script. -/
def resolveScriptHash (srv : Server) (s : Snapshot) (scriptHash : (Ty.array 20).Val) : MapiResult (Ty.vec u8).Val :=
  s.getReducerKey srv (srv.encoder .scriptByScriptHash) .scriptByScriptHash ScriptByScriptHash.key (.vec u8) scriptHash

/-- `TxsByScriptHashCursor` of a key. -/
def txsCursor : TxsByScriptHash.key.Val → TxsByScriptHash.cursor.Val :=
  fun (_, height, blkIndex, txHash) => (height, blkIndex, txHash)

/-- `UtxosByScriptHashCursor` of a key. -/
def utxosCursor : UtxosByScriptHash.key.Val → UtxosByScriptHash.cursor.Val :=
  fun (_, height, utxoHash, utxoIndex) => (height, utxoHash, utxoIndex)

/-- `UtxosByRuneIdCursor` of a key. -/
def duneUtxosCursor : UtxosByRuneId.key.Val → UtxosByRuneId.cursor.Val :=
  fun (_, height, utxoHash, utxoIndex) => (height, utxoHash, utxoIndex)

/-- The script hash of a holder. -/
def holderCursor : BalancesByRuneId.key.Val → (Ty.array 20).Val := fun (_, scriptHash) => scriptHash

/-- `txs_by_address`. -/
def txsByAddress (srv : Server) (s : Snapshot) (scriptHash : (Ty.array 20).Val) (params : HeightPaginationParams) :
    MapiResult (PaginatedResponse (Item TxsByScriptHash.key TxsByScriptHash.value Unit)) := do
  let encoder := srv.encoder .txsByScriptHash
  let page ← parse srv encoder .txsByScriptHash (.array 20) TxsByScriptHash.cursor params (some scriptHash)
  let lastUpdated ← s.getLastUpdated srv encoder
  let kvs ← ((Scanner.new page.range).withCount (page.count + 1)).withOrder page.order
    |>.executeWithFilter srv s s.refusals s.calls TxsByScriptHash.key TxsByScriptHash.value none
  let (data, nextCursor) ← processKvs page.count (fun key => encodeBase64 srv TxsByScriptHash.cursor (txsCursor key))
    (fun _ _ => .ok ()) 0 kvs none []
  .ok ⟨data, lastUpdated, nextCursor⟩

/-- The query of `utxos_by_address`. -/
structure UtxosParams where
  filterDust : Option Bool
  filterDustThreshold : Option u64.Val
  excludeMetaprotocols : Option Bool

namespace UtxosParams

def threshold (params : UtxosParams) : Nat :=
  (params.filterDustThreshold.map (fun t : Fin (256 ^ 8) => t.val)).getD
    (if params.filterDust.getD false then 100000 else 0)

def filter (params : UtxosParams) : Option (Bytes × Bytes → Bool) :=
  if params.threshold > 0 then
    some (fun kv => decide (8 ≤ kv.2.length ∧ params.threshold ≤ Machine.ofBE (kv.2.take 8)))
  else none

end UtxosParams

/-- What `utxos_by_address` looks up for an output: its dunes with their divisibilities, and its inscriptions by
offset. -/
structure UtxoInfo where
  confirmations : Nat
  dunes : List (((pair u64 u32).Val × u128.Val) × Nat)
  inscriptions : List (u32.Val × (pair (.array 32) u32).Val)

def describeUtxo (srv : Server) (s : Snapshot) (excludeMetaprotocols : Bool) (lastUpdated : LastUpdated)
    (key : UtxosByScriptHash.key.Val) : MapiResult UtxoInfo := do
  let (_, height, utxoHash, utxoIndex) := key
  if excludeMetaprotocols then
    .ok ⟨confirmations lastUpdated height, [], []⟩
  else
    let runes ← s.getReducerKeyMaybe srv (srv.encoder .runesByUtxo) .runesByUtxo RunesByUtxo.key RunesByUtxo.value
      (utxoHash, utxoIndex)
    let fetchedDunes := (runes.map (fun m : IndexMap (pair u64 u32).Val u128.Val => m.entries)).getD []
    let dunes ← fetchedDunes.mapM (fun dune => do
      let etching ← s.getReducerKey srv (srv.encoder .etchingByRuneId) .etchingByRuneId EtchingByRuneId.key
        EtchingByRuneId.value dune.1
      .ok (dune, divisibility etching))
    let inscriptions ← s.getReducerKeyMaybe srv (srv.encoder .inscriptionsByUtxo) .inscriptionsByUtxo
      InscriptionsByUtxo.key InscriptionsByUtxo.value (utxoHash, utxoIndex)
    let inscriptions := (inscriptions : Option (List (u32.Val × (pair (.array 32) u32).Val))).getD []
    .ok ⟨confirmations lastUpdated height, dunes, sortByKey (fun x => (x.1 : Fin (256 ^ 4)).val) inscriptions⟩

/-- `utxos_by_address`. -/
def utxosByAddress (srv : Server) (s : Snapshot) (scriptHash : (Ty.array 20).Val) (query : UtxosParams)
    (params : HeightPaginationParams) :
    MapiResult (PaginatedResponse (Item UtxosByScriptHash.key UtxosByScriptHash.value UtxoInfo)) := do
  let utxosEncoder := srv.encoder .utxosByScriptHash
  let lastUpdated ← s.getLastUpdated srv utxosEncoder
  let page ← parse srv utxosEncoder .utxosByScriptHash (.array 20) UtxosByScriptHash.cursor params (some scriptHash)
  let exclMetaprotocols := query.excludeMetaprotocols.getD false
  let scanner := ((Scanner.new page.range).withCount (page.count + 1)).withOrder page.order
  let kvs ← if exclMetaprotocols then scanner.getNonMetaprotocolUtxos srv s s.refusals s.calls query.filter
    else scanner.executeWithFilter srv s s.refusals s.calls UtxosByScriptHash.key UtxosByScriptHash.value query.filter
  let (data, nextCursor) ← processKvs page.count (fun key => encodeBase64 srv UtxosByScriptHash.cursor (utxosCursor key))
    (fun key _ => describeUtxo srv s exclMetaprotocols lastUpdated key) 0 kvs none []
  .ok ⟨data, lastUpdated, nextCursor⟩

/-- What `utxos_by_dune` looks up for an output. -/
structure DuneUtxoInfo where
  script : (Ty.vec u8).Val
  confirmations : Nat
  divisibility : Nat

def describeDuneUtxo (srv : Server) (s : Snapshot) (lastUpdated : LastUpdated) (etching : EtchingByRuneId.value.Val)
    (key : UtxosByRuneId.key.Val) (value : UtxosByRuneId.value.Val) : MapiResult DuneUtxoInfo := do
  let (_, height, _, _) := key
  let (scriptHash, _, _) := value
  let script ← resolveScriptHash srv s scriptHash
  .ok ⟨script, confirmations lastUpdated height, divisibility etching⟩

/-- `utxos_by_dune`.  The etching is looked up under the prefix of the outputs' reducer. -/
def utxosByDune (srv : Server) (s : Snapshot) (duneId : (pair u64 u32).Val) (params : HeightPaginationParams) :
    MapiResult (PaginatedResponse (Item UtxosByRuneId.key UtxosByRuneId.value DuneUtxoInfo)) := do
  let utxosEncoder := srv.encoder .utxosByRuneId
  let etchingEncoder := srv.encoder .utxosByRuneId
  let page ← parse srv utxosEncoder .utxosByRuneId (pair u64 u32) UtxosByRuneId.cursor params (some duneId)
  let lastUpdated ← s.getLastUpdated srv utxosEncoder
  let kvs ← ((Scanner.new page.range).withCount (page.count + 1)).withOrder page.order
    |>.executeWithFilter srv s s.refusals s.calls UtxosByRuneId.key UtxosByRuneId.value none
  match ← s.getReducerKeyMaybe srv etchingEncoder .etchingByRuneId EtchingByRuneId.key EtchingByRuneId.value duneId with
  | none => .ok ⟨[], lastUpdated, none⟩
  | some etching =>
    let (data, nextCursor) ← processKvs page.count (fun key => encodeBase64 srv UtxosByRuneId.cursor (duneUtxosCursor key))
      (describeDuneUtxo srv s lastUpdated etching) 0 kvs none []
    .ok ⟨data, lastUpdated, nextCursor⟩

/-- The filter of `dune_utxos_by_address`; stored values decode, so a panic of the decoder is no case of its own. -/
def controlledBy (srv : Server) (scriptHash : (Ty.array 20).Val) (kv : Bytes × Bytes) : Bool :=
  match UtxosByRuneId.value.decode srv.size kv.2 with
  | .ok ((owner, _, _), _) => decide ((owner : { l : Bytes // l.length = 20 }) = scriptHash)
  | _ => false

/-- What `dune_utxos_by_address` adds to an output. -/
structure AddressDuneUtxoInfo where
  confirmations : Nat
  divisibility : Nat

def describeAddressDuneUtxo (lastUpdated : LastUpdated) (etching : EtchingByRuneId.value.Val)
    (key : UtxosByRuneId.key.Val) (_ : UtxosByRuneId.value.Val) : MapiResult AddressDuneUtxoInfo :=
  let (_, height, _, _) := key
  .ok ⟨confirmations lastUpdated height, divisibility etching⟩

/-- `dune_utxos_by_address`. -/
def duneUtxosByAddress (srv : Server) (s : Snapshot) (scriptHash : (Ty.array 20).Val) (runeId : (pair u64 u32).Val)
    (params : HeightPaginationParams) :
    MapiResult (PaginatedResponse (Item UtxosByRuneId.key UtxosByRuneId.value AddressDuneUtxoInfo)) := do
  let utxosEncoder := srv.encoder .utxosByRuneId
  let etchingEncoder := srv.encoder .etchingByRuneId
  let page ← parse srv utxosEncoder .utxosByRuneId (pair u64 u32) UtxosByRuneId.cursor params (some runeId)
  let lastUpdated ← s.getLastUpdated srv utxosEncoder
  match ← s.getReducerKeyMaybe srv etchingEncoder .etchingByRuneId EtchingByRuneId.key EtchingByRuneId.value runeId with
  | none => .ok ⟨[], lastUpdated, none⟩
  | some etching =>
    let kvs ← ((Scanner.new page.range).withCount (page.count + 1)).withOrder page.order
      |>.executeWithFilter srv s s.refusals s.calls UtxosByRuneId.key UtxosByRuneId.value (some (controlledBy srv scriptHash))
    let (data, nextCursor) ← processKvs page.count (fun key => encodeBase64 srv UtxosByRuneId.cursor (duneUtxosCursor key))
      (describeAddressDuneUtxo lastUpdated etching) 0 kvs none []
    .ok ⟨data, lastUpdated, nextCursor⟩

/-- What `holders_by_dune` looks up for a holder. -/
structure DuneHolderInfo where
  script : (Ty.vec u8).Val
  divisibility : Nat

def describeHolder (srv : Server) (s : Snapshot) (dec : Nat) (key : BalancesByRuneId.key.Val) :
    MapiResult DuneHolderInfo := do
  let script ← resolveScriptHash srv s (holderCursor key)
  .ok ⟨script, dec⟩

/-- `VarUInt::from`. -/
def toVarUInt {w : Nat} (hw : w ≤ 16) (x : (Ty.uint w).Val) : Ty.varUInt.Val :=
  ⟨x.val, lt_of_lt_of_le x.isLt (Nat.pow_le_pow_right (by decide) hw)⟩

theorem u64_le_u128 : 8 ≤ 16 := by decide

theorem u32_le_u128 : 4 ≤ 16 := by decide

/-- `holders_by_dune`.  The order is not handed to the scanner. -/
def holdersByDune (srv : Server) (s : Snapshot) (runeId : (pair u64 u32).Val) (params : HeightPaginationParams) :
    MapiResult (PaginatedResponse (Item BalancesByRuneId.key u128 DuneHolderInfo)) := do
  let balancesEncoder := srv.encoder .balancesByRuneId
  let etchingEncoder := srv.encoder .etchingByRuneId
  let lastUpdated ← s.getLastUpdated srv balancesEncoder
  let (block, tx) := runeId
  let page ← parseNoHeight srv balancesEncoder .balancesByRuneId (pair .varUInt .varUInt) (.array 20) params
    (some (toVarUInt u64_le_u128 block, toVarUInt u32_le_u128 tx))
  let kvs ← (Scanner.new page.range).withCount (page.count + 1)
    |>.executeWithFilter srv s s.refusals s.calls BalancesByRuneId.key u128 none
  let etching ← s.getReducerKeyMaybe srv etchingEncoder .etchingByRuneId EtchingByRuneId.key EtchingByRuneId.value runeId
  let dec := (etching.map divisibility).getD 0
  let (data, nextCursor) ← processKvs page.count (fun key => encodeBase64 srv (.array 20) (holderCursor key))
    (fun key _ => describeHolder srv s dec key) 0 kvs none []
  .ok ⟨data, lastUpdated, nextCursor⟩

/-- The name and the spacers of a dune. -/
def describeDune (etching : EtchingByRuneId.value.Val) : MapiResult (u128.Val × Nat) :=
  let (_, name, spacers, _) := etching
  match (name : Option u128.Val) with
  | none => .error (.internal "expected rune name in dogecoin")
  | some name => .ok (name, ((spacers : Option (Fin (256 ^ 4))).map (·.val)).getD 0)

/-- `list_dunes`.  The order is not handed to the scanner. -/
def listDunes (srv : Server) (s : Snapshot) (params : HeightPaginationParams) :
    MapiResult (PaginatedResponse (Item EtchingByRuneId.key EtchingByRuneId.value (u128.Val × Nat))) := do
  let encoder := srv.encoder .etchingByRuneId
  let lastUpdated ← s.getLastUpdated srv encoder
  let page ← parseNoHeight srv encoder .etchingByRuneId u64 EtchingByRuneId.key params none
  let kvs ← (Scanner.new page.range).withCount (page.count + 1)
    |>.executeWithFilter srv s s.refusals s.calls EtchingByRuneId.key EtchingByRuneId.value none
  let (data, nextCursor) ← processKvs page.count (fun key => encodeBase64 srv EtchingByRuneId.key key)
    (fun _ info => describeDune info) 0 kvs none []
  .ok ⟨data, lastUpdated, nextCursor⟩

end DogeIndexer.Mapi
