import DogeIndexer.Lib.Effect
import DogeIndexer.Compressor.Inscriptions
import DogeIndexer.Compressor.Runes

/-!
# Resolving and processing a block

Model of `TxoKV::resolve_and_process` (`storage/txos/mod.rs`) and of the in-memory
`UtxoResolver` (`sync/roll.rs`).  The memory resolver keeps what was done to it when the block
fails part-way; everything else is dropped with the transaction.
-/

set_option autoImplicit false

namespace DogeIndexer.Compressor

/-! ## Memory resolver -/

structure UtxoResolver where
  entries : Table TxoRef TxoBody
  size : U64

namespace UtxoResolver

def new : UtxoResolver := ⟨Table.empty, 0⟩

/-- `raw.len() as u64`. -/
def rawLen (deps : Deps) (body : TxoBody) : U64 := Fin.ofNat (2 ^ 64) (deps.encodedLen body.raw)

def remove (deps : Deps) (checks : Bool) (r : UtxoResolver) (ref : TxoRef) :
    Option (Option TxoBody × UtxoResolver) :=
  match r.entries.get ref with
  | none => some (none, r)
  | some body => (Machine.sub checks r.size (rawLen deps body)).map fun size =>
      (some body, ⟨r.entries.erase ref, size⟩)

def insert (deps : Deps) (checks : Bool) (r : UtxoResolver) (ref : TxoRef) (body : TxoBody) :
    Option UtxoResolver :=
  (Machine.add checks r.size (rawLen deps body)).map fun size => ⟨r.entries.insert ref body, size⟩

end UtxoResolver

/-! ## State of a block -/

structure BlockState where
  memory : Option UtxoResolver
  resolver : Table TxoRef TxoBody
  dunes : DuneTables
  inscriptions : InscriptionState
  successfulEtches : List (Nat × U128)
  successfulMints : List (Nat × Nat)
  brc20Resolver : List (InscriptionId × BRC20Message)

abbrev Process (α : Type) := EStateM Err BlockState α

def lift {α : Type} : Except Err α → Process α
  | .ok a => pure a
  | .error e => throw e

/-- `memory_resolver.remove`, when there is one. -/
def forget (deps : Deps) (cfg : Config) (ref : TxoRef) : Process (Option TxoBody) := do
  let s ← get
  match s.memory with
  | none => return none
  | some memory => do
    let (body, memory) ← lift (orPanic (memory.remove deps cfg.checks ref))
    modify fun s => { s with memory := some memory }
    return body

/-- `memory_resolver.insert`, when there is one. -/
def remember (deps : Deps) (cfg : Config) (ref : TxoRef) (body : TxoBody) : Process Unit := do
  let s ← get
  match s.memory with
  | none => return ()
  | some memory => do
    let memory ← lift (orPanic (memory.insert deps cfg.checks ref body))
    modify fun s => { s with memory := some memory }

/-! ## Inputs -/

def txIds (block : Block) : List Txid := block.txdata.map Transaction.txid

/-- `input_refs`: the references of all inputs but the coinbase's. -/
def inputRefs (block : Block) : List TxoRef :=
  ((block.txdata.drop 1).flatMap fun tx => tx.input.map TxIn.previousOutput).dedup

/-- Inputs that the block does not produce itself. -/
def externalRefs (block : Block) : List TxoRef :=
  (inputRefs block).filter fun ref => ref.txid ∉ txIds block

/-- One input is taken from memory, or else from the table; a miss shows later. -/
def resolveInput (deps : Deps) (cfg : Config) (txos : Table TxoRef TxoBody) (ref : TxoRef) :
    Process Unit := do
  let remembered ← forget deps cfg ref
  match remembered.or (txos.get ref) with
  | some body => modify fun s => { s with resolver := s.resolver.insert ref body }
  | none => return ()

/-! ## Transactions -/

/-- `index_runes` from the first rune height on. -/
def processRunes (deps : Deps) (cfg : Config) (height idx : Nat) (tx : Transaction) :
    Process (List Balances) :=
  if height ≥ cfg.firstRuneHeight then do
    let s ← get
    let (result, dunes) ← lift (indexRunes deps cfg s.resolver idx tx height s.dunes)
    modify fun s => { s with
      dunes := dunes
      successfulEtches := s.successfulEtches ++ result.successfulEtch.toList.map fun name => (idx, name)
      successfulMints := s.successfulMints ++ result.successfulMints.map fun mint => (idx, mint) }
    return result.outputDunes
  else return tx.output.map fun _ => Table.empty

/-- `index_inscriptions` from the first inscription height on. -/
def processInscriptions (deps : Deps) (cfg : Config) (height : Nat) (tx : Transaction) :
    Process (List (List (U64 × InscriptionId)) × Table InscriptionId (Ticker × U128)) :=
  if height ≥ cfg.firstInscriptionHeight then do
    let s ← get
    let (result, inscriptions) ← lift (indexInscriptions deps cfg s.resolver tx tx.txid height s.inscriptions)
    modify fun s => { s with
      inscriptions := inscriptions
      brc20Resolver := s.brc20Resolver ++ result.brc20Resolver }
    return (result.outputInscriptions, result.newUnusedBrc20Transfers)
  else return (tx.output.map fun _ => [], Table.empty)

/-- The body of an output; the unused transfers are those of the inscriptions on it. -/
def outputBody (height : Nat) (output : TxOut) (dunes : Balances)
    (inscriptions : List (U64 × InscriptionId)) (transfers : Table InscriptionId (Ticker × U128)) :
    Except Err TxoBody := do
  let dunes ← dunes.entries.mapM fun (id, amount) => (orPanic (DuneId.tryFrom id)).map fun id => (id, amount)
  return ⟨height, output, dunes, inscriptions,
    transfers.filter fun id _ => (inscriptions.map Prod.snd).contains id⟩

/-- The outputs of a transaction, from number `vout` on, go into the resolvers. -/
def produceOutputs (deps : Deps) (cfg : Config) (height : Nat) (txid : Txid)
    (transfers : Table InscriptionId (Ticker × U128)) :
    Nat → List TxOut → List Balances → List (List (U64 × InscriptionId)) → Process Unit
  | vout, output :: outputs, dunes :: allDunes, inscriptions :: allInscriptions => do
    let body ← lift (outputBody height output dunes inscriptions transfers)
    modify fun s => { s with resolver := s.resolver.insert ⟨txid, vout⟩ body }
    remember deps cfg ⟨txid, vout⟩ body
    produceOutputs deps cfg height txid transfers (vout + 1) outputs allDunes allInscriptions
  | _, _, _, _ => return ()

/-- An input of a transaction must be resolved, and leaves the memory resolver. -/
def consumeInput (deps : Deps) (cfg : Config) (blockHash : BlockHash) (txin : TxIn) : Process Unit := do
  let s ← get
  match s.resolver.get txin.previousOutput with
  | none => throw (.missingTxo blockHash txin.previousOutput.txid txin.previousOutput.vout)
  | some _ => do
    let _ ← forget deps cfg txin.previousOutput
    return ()

/-- A transaction other than the coinbase. -/
def processTx (deps : Deps) (cfg : Config) (height : Nat) (blockHash : BlockHash)
    (entry : Transaction × Nat) : Process Unit := do
  let (tx, idx) := entry
  let dunes ← processRunes deps cfg height idx tx
  let (inscriptions, transfers) ← processInscriptions deps cfg height tx
  tx.input.forM (consumeInput deps cfg blockHash)
  produceOutputs deps cfg height tx.txid transfers 0 tx.output dunes inscriptions

/-- `TxoKV::resolve_and_process`: the inputs, the coinbase's dunes, the other transactions, then
the coinbase's inscriptions and outputs. -/
def resolveAndProcess (deps : Deps) (cfg : Config) (txos : Table TxoRef TxoBody) (height : Nat)
    (block : Block) : Process Unit := do
  (externalRefs block).forM (resolveInput deps cfg txos)
  match block.txdata with
  | [] => throw .noCoinbase
  | coinbase :: txs => do
    let dunes ← processRunes deps cfg height 0 coinbase
    (txs.zipIdx 1).forM (processTx deps cfg height block.hash)
    let (inscriptions, transfers) ← processInscriptions deps cfg height coinbase
    produceOutputs deps cfg height coinbase.txid transfers 0 coinbase.output dunes inscriptions

end DogeIndexer.Compressor
