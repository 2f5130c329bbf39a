import DogeIndexer.Compressor.Txos

/-!
# The chain database

Model of `ChainDB` (`compressor-xdg/src/storage/mod.rs`): its tables,
`apply_block_with_context` and `rollback`.  All writes of a call are staged in one transaction;
what RocksDB answers to the commit and to the periodic flush is a parameter.  Its reads are taken
to succeed.
-/

set_option autoImplicit false

namespace DogeIndexer.Compressor

/-- The value of `ResolverByHeightKV`; reinscriptions are not supported, so their indices are
always empty and left out. -/
structure ResolverEntry where
  hash : BlockHash
  /-- The consumed outputs. -/
  resolver : Table TxoRef TxoBody
  outputRunes : List (TxoRef × List (DuneId × U128))
  etches : List (Nat × U128)
  mints : List (Nat × Nat)
  outputInscriptions : List (TxoRef × List (U64 × InscriptionId))
  counters : Counters
  brc20Resolver : List (InscriptionId × BRC20Message)
  newInscriptions : List NewInscriptionInfo

/-- An entry of the write-ahead log. -/
inductive Log where
  | apply (height : Nat) (block : Block) (entry : ResolverEntry)
  | undo (height : Nat) (hash : BlockHash) (block : Block)
  | mark (height : Nat) (hash : BlockHash) (block : Block)

def Log.height : Log → Nat
  | .apply h _ _ => h
  | .undo h _ _ => h
  | .mark h _ _ => h

structure Tables where
  txos : Table TxoRef TxoBody
  blockByHeight : Table Nat (BlockHash × Block)
  resolverByHeight : Table Nat ResolverEntry
  dunes : DuneTables
  partials : PartialTables
  counters : Option Counters
  brc20 : Brc20Tables
  mutableKV : Table Nat Log

def Tables.empty : Tables where
  txos := Table.empty
  blockByHeight := Table.empty
  resolverByHeight := Table.empty
  dunes := DuneTables.empty
  partials := PartialTables.empty
  counters := none
  brc20 := Brc20Tables.empty
  mutableKV := Table.empty

structure ChainDB where
  tables : Tables
  nextWalSeq : Nat
  lastBlockHash : Option BlockHash

/-- `ChainDB::open` on an empty directory. -/
def ChainDB.open_ : ChainDB := ⟨Tables.empty, 1, none⟩

/-- What RocksDB answers to a commit and to a flush. -/
structure Rocks where
  commit : Bool
  flush : Bool

/-- `MutableKV::prune`: oldest entries first, up to the first of a height kept. -/
def prune (t : Table Nat Log) (beforeHeight : Nat) : Table Nat Log :=
  (t.entries.takeWhile fun e => e.2.height < beforeHeight).foldl (fun t e => t.erase e.1) t

/-! ## Apply -/

/-- What staging the outputs of a block collects. -/
structure Staged where
  txos : Table TxoRef TxoBody
  outputRunes : List (TxoRef × List (DuneId × U128))
  outputInscriptions : List (TxoRef × List (U64 × InscriptionId))

/-- One produced output. -/
def stageOutput (resolver : Table TxoRef TxoBody) (height : Nat) (hash : BlockHash) (txid : Txid)
    (s : Staged) (e : TxOut × Nat) : Except Err Staged :=
  let (output, vout) := e
  let ref : TxoRef := ⟨txid, vout⟩
  match resolver.get ref with
  | none => .error (.missingTxo hash txid vout)
  | some entry =>
    .ok {
      txos := s.txos.insert ref
        ⟨height, output, entry.dunes, entry.inscriptions, entry.unusedBrc20Transfers⟩
      outputRunes := if entry.dunes.isEmpty then s.outputRunes else s.outputRunes ++ [(ref, entry.dunes)]
      outputInscriptions := if entry.inscriptions.isEmpty then s.outputInscriptions
        else s.outputInscriptions ++ [(ref, entry.inscriptions)] }

/-- One transaction: its outputs are inserted, then its inputs deleted. -/
def stageTx (resolver : Table TxoRef TxoBody) (height : Nat) (hash : BlockHash) (s : Staged)
    (tx : Transaction) : Except Err Staged := do
  let s ← tx.output.zipIdx.foldlM (stageOutput resolver height hash tx.txid) s
  return { s with txos := tx.input.foldl (fun t txin => t.erase txin.previousOutput) s.txos }

/-- The state in which a block is processed. -/
def initialState (deps : Deps) (t : Tables) (height : Nat) (memory : Option UtxoResolver) : BlockState where
  memory := memory
  resolver := Table.empty
  dunes := t.dunes
  inscriptions := {
    partials := t.partials
    brc20 := t.brc20
    counters := t.counters.getD Counters.default
    reward := deps.subsidy (height % 2 ^ 32)
    cbInscriptions := []
    newInscriptions := [] }
  successfulEtches := []
  successfulMints := []
  brc20Resolver := []

/-- The resolver entry of a processed block. -/
def resolverEntry (t : Tables) (block : Block) (s : BlockState) (staged : Staged) : ResolverEntry where
  hash := block.hash
  resolver := s.resolver.filter fun ref _ => (inputRefs block).contains ref
  outputRunes := staged.outputRunes
  etches := s.successfulEtches
  mints := s.successfulMints
  outputInscriptions := staged.outputInscriptions
  counters := t.counters.getD Counters.default
  brc20Resolver := s.brc20Resolver
  newInscriptions := s.inscriptions.newInscriptions

/-- The tables with a processed block staged. -/
def stageBlock (cfg : Config) (db : ChainDB) (height : Nat) (block : Block) (mutable : Bool)
    (s : BlockState) : Except Err Tables := do
  let staged ← block.txdata.foldlM (stageTx s.resolver height block.hash) ⟨db.tables.txos, [], []⟩
  let entry := resolverEntry db.tables block s staged
  let log := if mutable then db.tables.mutableKV.insert db.nextWalSeq (.apply height block entry)
    else db.tables.mutableKV
  let log := match mutable, cfg.immutableAfterConfs with
    | true, some pruneAfter => if height ≥ pruneAfter then prune log (height - pruneAfter) else log
    | _, _ => log
  return {
    txos := staged.txos
    blockByHeight := db.tables.blockByHeight.insert height (block.hash, block)
    resolverByHeight := db.tables.resolverByHeight.insert height entry
    dunes := s.dunes
    partials := s.inscriptions.partials
    counters := some s.inscriptions.counters
    brc20 := s.inscriptions.brc20
    mutableKV := log }

/-- A chain database and the memory resolver beside it. -/
structure Node where
  db : ChainDB
  memory : Option UtxoResolver

abbrev NodeM (α : Type) := EStateM Err Node α

/-- `ChainDB::apply_block_with_context`. -/
def applyBlockWithContext (deps : Deps) (cfg : Config) (rocks : Rocks) (height : Nat) (block : Block)
    (mutable : Bool) : NodeM Unit := fun n =>
  if n.db.lastBlockHash.any (· ≠ block.prevBlockhash) then
    .error (.previousHashMismatch block.hash block.prevBlockhash n.db.lastBlockHash) n
  else
    match resolveAndProcess deps cfg n.db.tables.txos height block
        (initialState deps n.db.tables height n.memory) with
    | .error e s => .error e { n with memory := s.memory }
    | .ok () s =>
      match stageBlock cfg n.db height block mutable s with
      | .error e => .error e { n with memory := s.memory }
      | .ok tables =>
        if rocks.commit = false then .error .rocks { n with memory := s.memory }
        -- the flush comes after the commit, before the counters move
        else if height % 5000 = 0 ∧ rocks.flush = false then
          .error .rocks ⟨{ n.db with tables := tables }, s.memory⟩
        else .ok () ⟨⟨tables, n.db.nextWalSeq + 1, some block.hash⟩, s.memory⟩

/-! ## Rollback -/

/-- Undo of one recorded DRC-20 message. -/
def undoMessage (checks : Bool) (t : Brc20Tables) (message : BRC20Message) : Except Err Brc20Tables :=
  match message with
  | .deploy tick => .ok { t with terms := t.terms.erase tick }
  | .mint tick amt receiver => do
    let newSupply ← orPanic (Machine.sub checks (t.supply.getD tick 0) amt)
    let key : ScriptAndBRC20Kind := ⟨receiver, tick⟩
    let newBalance ← orPanic (Machine.sub checks (t.balances.getD key 0) amt)
    return { t with
      supply := t.supply.insert tick newSupply
      balances := t.balances.insert key newBalance }
  | .transfer tick amt _ receiver => do
    let key : ScriptAndBRC20Kind := ⟨receiver, tick⟩
    let newBalance ← orPanic (Machine.sub checks (t.balances.getD key 0) amt)
    return { t with balances := t.balances.insert key newBalance }
  | .transferInit tick amt receiver => do
    let key : ScriptAndBRC20Kind := ⟨receiver, tick⟩
    let newBalance ← orPanic (Machine.add checks (t.balances.getD key 0) amt)
    return { t with balances := t.balances.insert key newBalance }

/-- Undo of an etching, if the dune of this transaction was created. -/
def undoEtching (t : DuneTables) (id : DuneId) (etching : Etching) : Except Err DuneTables :=
  match t.termsById.get id with
  | none => .ok t
  | some terms =>
    let t := { t with idByName := t.idByName.erase terms.name, termsById := t.termsById.erase id }
    if etching.dune.isNone then do
      let newReserved ← orPanic (Machine.checkedSub (t.reservedCounter.getD 0) 1)
      return { t with reservedCounter := some newReserved }
    else .ok t

/-- Undo of the reported mints of a transaction: `claims` with their indices. -/
def undoMints (mints : List (Nat × Nat)) (idx : Nat) (t : DuneTables) (claims : List (U128 × Nat)) :
    Except Err DuneTables :=
  claims.foldlM (fun t (id, claimIdx) =>
    match DuneId.tryFrom id with
    | none => .ok t
    | some key =>
      if (idx, claimIdx % 2 ^ 16) ∈ mints then do
        let newMints ← orPanic (Machine.checkedSub (t.mintsById.getD key 0) 1)
        return { t with mintsById := t.mintsById.insert key newMints }
      else .ok t) t

/-- Undo of a dunestone. -/
def undoDunes (deps : Deps) (height : Nat) (mints : List (Nat × Nat)) (idx : Nat) (tx : Transaction)
    (t : DuneTables) : Except Err DuneTables :=
  match Dunestone.fromTransaction deps tx with
  | none => .ok t
  | some dunestone => do
    let t ← (match dunestone.etching with
      | some etching => undoEtching t ⟨height, idx⟩ etching
      | none => .ok t)
    undoMints mints idx t dunestone.claims.zipIdx

/-- What the transactions of a block are undone on. -/
structure UndoState where
  txos : Table TxoRef TxoBody
  resolver : Table TxoRef TxoBody
  partials : PartialTables
  dunes : DuneTables

/-- A consumed output goes back from the resolver to the table. -/
def restoreInput (hash : BlockHash) (s : UndoState) (txin : TxIn) : Except Err UndoState :=
  match s.resolver.get txin.previousOutput with
  | none => .error (.missingTxo hash txin.previousOutput.txid txin.previousOutput.vout)
  | some body => .ok { s with
      resolver := s.resolver.erase txin.previousOutput
      txos := s.txos.insert txin.previousOutput body }

/-- One transaction. -/
def undoTx (deps : Deps) (height : Nat) (hash : BlockHash) (mints : List (Nat × Nat)) (s : UndoState)
    (entry : Transaction × Nat) : Except Err UndoState := do
  let (tx, idx) := entry
  let s := { s with partials := ⟨s.partials.txids.erase tx.txid, s.partials.bytes.erase tx.txid⟩ }
  let dunes ← undoDunes deps height mints idx tx s.dunes
  let s := { s with dunes := dunes }
  let s ← (if idx ≠ 0 then tx.input.foldlM (restoreInput hash) s else .ok s)
  return { s with txos := tx.output.zipIdx.foldl (fun t e => t.erase ⟨tx.txid, e.2⟩) s.txos }

/-- Undo of one block, with its log entry at `walSeq` in mutable mode. -/
def undoBlock (deps : Deps) (cfg : Config) (mutable : Bool) (s : Tables × Nat)
    (entry : Nat × BlockHash × Block) : Except Err (Tables × Nat) := do
  let (t, walSeq) := s
  let (height, hash, block) := entry
  let (log, walSeq) := if mutable then (t.mutableKV.insert walSeq (.undo height hash block), walSeq + 1)
    else (t.mutableKV, walSeq)
  match t.resolverByHeight.get height with
  | none => .error (.missingResolver hash)
  | some resolver =>
    if resolver.hash ≠ hash then .error (.resolverHashMismatch height hash resolver.hash)
    else do
      let brc20 ← (resolver.brc20Resolver.map Prod.snd).reverse.foldlM (undoMessage cfg.checks) t.brc20
      let u ← block.txdata.zipIdx.reverse.foldlM (undoTx deps height hash resolver.mints)
        ⟨t.txos, resolver.resolver, t.partials, t.dunes⟩
      return ({
        txos := u.txos
        blockByHeight := t.blockByHeight.erase height
        resolverByHeight := t.resolverByHeight.erase height
        dunes := u.dunes
        partials := u.partials
        counters := some resolver.counters
        brc20 := brc20
        mutableKV := log }, walSeq)

/-- `ChainDB::rollback`. -/
def rollback (deps : Deps) (cfg : Config) (rocks : Rocks) (rbHeight : Nat) (rbHash : BlockHash)
    (mutable : Bool) : NodeM Unit := fun n =>
  match n.db.tables.blockByHeight.entriesFrom rbHeight with
  | [] => .error (.invalidRollbackPoint none) n
  | (foundHeight, foundHash, foundBlock) :: toRemove =>
    if rbHeight ≠ foundHeight ∨ rbHash ≠ foundHash then
      .error (.invalidRollbackPoint (some (foundHeight, foundHash))) n
    else
      match toRemove.reverse.foldlM (undoBlock deps cfg mutable) (n.db.tables, n.db.nextWalSeq) with
      | .error e => .error e n
      | .ok (t, walSeq) =>
        let (log, walSeq) := if mutable then
            (t.mutableKV.insert walSeq (.mark rbHeight rbHash foundBlock), walSeq + 1)
          else (t.mutableKV, walSeq)
        if rocks.commit = false then .error .rocks n
        else .ok () { n with db := ⟨{ t with mutableKV := log }, walSeq, some rbHash⟩ }

end DogeIndexer.Compressor
