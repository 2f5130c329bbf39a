import DogeIndexer.Compressor.Inscription
import Mathlib.Data.List.Sort

/-!
# Indexing inscriptions

Model of `index_inscriptions` (`storage/inscriptions/updater.rs`): inscriptions of the inputs
and a newly revealed one float over the outputs by satoshi offset; those beyond the outputs go
to the coinbase; DRC-20 transfers and messages move balances on the way.
-/

set_option autoImplicit false

namespace DogeIndexer.Compressor

inductive Origin where
  | new (fee : U64)
  | old (oldSatpoint : SatPoint)
  deriving DecidableEq

structure Flotsam where
  inscriptionId : InscriptionId
  offset : U64
  origin : Origin
  deriving DecidableEq

/-- A transfer inscription on an input whose amount is not yet used. -/
structure UnusedTransfer where
  tick : Ticker
  amt : U128
  sender : ScriptHash
  originalPoint : SatPoint

/-- The tables of partial inscriptions. -/
structure PartialTables where
  /-- Txid to the txids of the partial inscription so far. -/
  txids : Table Txid (List Txid)
  bytes : Table Txid Transaction

def PartialTables.empty : PartialTables := ⟨Table.empty, Table.empty⟩

/-- The DRC-20 tables. -/
structure Brc20Tables where
  terms : Table Ticker BRC20Terms
  supply : Table Ticker U128
  balances : Table ScriptAndBRC20Kind U128

def Brc20Tables.empty : Brc20Tables := ⟨Table.empty, Table.empty, Table.empty⟩

/-- What `index_inscriptions` reads and writes besides the resolver. -/
structure InscriptionState where
  partials : PartialTables
  brc20 : Brc20Tables
  counters : Counters
  reward : U64
  cbInscriptions : List Flotsam
  newInscriptions : List NewInscriptionInfo

structure IndexInscriptionsResult where
  /-- For each output the inscriptions on it with their offsets. -/
  outputInscriptions : List (List (U64 × InscriptionId))
  lostOrUnboundInscriptions : List (SatPoint × InscriptionId)
  brc20Resolver : List (InscriptionId × BRC20Message)
  newUnusedBrc20Transfers : Table InscriptionId (Ticker × U128)

/-- `a + b`, a panic when checked and out of range. -/
def add64 (checks : Bool) (a b : U64) : Except Err U64 := orPanic (Machine.add checks a b)

/-- `a - b`. -/
def sub64 (checks : Bool) (a b : U64) : Except Err U64 := orPanic (Machine.sub checks a b)

/-! ## Inputs -/

structure InputState where
  totalInputValue : U64
  floating : List Flotsam
  unused : Table InscriptionId UnusedTransfer

/-- One inscription on an input. -/
def collectInscription (deps : Deps) (checks : Bool) (previousOutput : OutPoint) (body : TxoBody)
    (s : InputState) (entry : U64 × InscriptionId) : Except Err InputState := do
  let (offset, inscriptionId) := entry
  let oldSatpoint : SatPoint := ⟨previousOutput, offset⟩
  let total ← add64 checks s.totalInputValue offset
  let s := { s with floating := s.floating ++ [⟨inscriptionId, total, .old oldSatpoint⟩] }
  match body.unusedBrc20Transfers.get inscriptionId with
  | some (tick, amt) =>
    let transfer : UnusedTransfer := ⟨tick, amt, deps.scriptHash body.raw.scriptPubkey, oldSatpoint⟩
    return { s with unused := s.unused.insert inscriptionId transfer }
  | none => return s

/-- One input: the inscriptions on it, then its value. -/
def collectInput (deps : Deps) (checks : Bool) (resolver : Table TxoRef TxoBody) (height : Nat)
    (s : InputState) (txin : TxIn) : Except Err InputState :=
  if txin.previousOutput.isNull then do
    let total ← add64 checks s.totalInputValue (deps.subsidy (height % 2 ^ 32))
    return { s with totalInputValue := total }
  else
    match resolver.get txin.previousOutput with
    | none => .error (.missingTxo 0 txin.previousOutput.txid txin.previousOutput.vout)
    | some body => do
      let s ← body.inscriptions.foldlM (collectInscription deps checks txin.previousOutput body) s
      let total ← add64 checks s.totalInputValue body.raw.value
      return { s with totalInputValue := total }

def collectInputs (deps : Deps) (checks : Bool) (resolver : Table TxoRef TxoBody) (height : Nat)
    (tx : Transaction) : Except Err InputState :=
  tx.input.foldlM (collectInput deps checks resolver height) ⟨0, [], Table.empty⟩

/-! ## Reveals -/

/-- The transactions of the partial inscription that the first input continues, oldest first, and
their txids. -/
def previousPartials (partials : PartialTables) (previousTxid : Txid) :
    Except Err (List Txid × List Transaction) :=
  match partials.txids.get previousTxid with
  | none => .ok ([], [])
  | some txids => do
    let txs ← txids.mapM fun txid => orPanic (partials.bytes.get txid)
    return (txids, txs)

/-- A transaction whose inputs carry no inscription at offset 0 may reveal one: the floating
inscription and its message. -/
def reveal (deps : Deps) (checks : Bool) (tx : Transaction) (txid : Txid)
    (totalInputValue totalOutputValue : U64) (s : InscriptionState) :
    Except Err (List Flotsam × List (InscriptionId × RawProtocolMessage) × InscriptionState) := do
  let first ← orPanic tx.input.head?
  let (txids, txs) ← previousPartials s.partials first.previousOutput.txid
  match Inscription.fromTransactions (txs ++ [tx]) with
  | .none => return ([], [], s)
  | .partial_ =>
    return ([], [], { s with partials :=
      ⟨s.partials.txids.insert txid (txids ++ [txid]), s.partials.bytes.insert txid tx⟩ })
  | .complete inscription => do
    let id : InscriptionId := ⟨(txids ++ [txid]).headD txid, 0⟩
    let fee ← sub64 checks totalInputValue totalOutputValue
    let message := (BRC20.unparsedMessage deps inscription).map fun m => (id, m)
    let info : NewInscriptionInfo :=
      ⟨txid, id, s.counters.nextSequenceNum, inscription.body, inscription.contentTypeStr.getD []⟩
    return ([⟨id, 0, .new fee⟩], message.toList, { s with newInscriptions := s.newInscriptions ++ [info] })

/-! ## Locations -/

/-- `sort_by_key(|flotsam| flotsam.offset)`, which is stable. -/
def sortFlotsam (l : List Flotsam) : List Flotsam := l.insertionSort (fun a b => a.offset ≤ b.offset)

/-- One output takes the flotsam that starts before its end. -/
def sweepOutput (checks : Bool) (txid : Txid) (vout : Nat) (outputValue stop : U64) :
    List Flotsam → Except Err (List (SatPoint × Flotsam) × List Flotsam)
  | [] => .ok ([], [])
  | flotsam :: rest =>
    if flotsam.offset ≥ stop then .ok ([], flotsam :: rest)
    else do
      let offset ← sub64 checks flotsam.offset outputValue
      let (placed, left) ← sweepOutput checks txid vout outputValue stop rest
      return ((⟨⟨txid, vout⟩, offset⟩, flotsam) :: placed, left)

/-- All outputs, from number `vout` on: locations, what is left, and the final output value. -/
def sweep (checks : Bool) (txid : Txid) (vout : Nat) (outputValue : U64) (l : List Flotsam) :
    List TxOut → Except Err (List (SatPoint × Flotsam) × List Flotsam × U64)
  | [] => .ok ([], l, outputValue)
  | output :: outputs => do
    let stop ← add64 checks outputValue output.value
    let (placed, left) ← sweepOutput checks txid vout outputValue stop l
    let (others, left, outputValue) ← sweep checks txid (vout + 1) stop left outputs
    return (placed ++ others, left, outputValue)

/-- `update_inscription_location`: a new inscription advances the counters. -/
def updateInscriptionLocation (checks : Bool) (counters : Counters) (flotsam : Flotsam) :
    Except Err Counters :=
  match flotsam.origin with
  | .old _ => .ok counters
  | .new _ => do
    let blessedCount ← add64 checks counters.blessedCount 1
    let nextSequenceNum ← add64 checks counters.nextSequenceNum 1
    return { counters with blessedCount := blessedCount, nextSequenceNum := nextSequenceNum }

/-- A coinbase loses what its outputs do not take. -/
def locateLost (checks : Bool) (outputValue : U64) (counters : Counters) (flotsam : Flotsam) :
    Except Err (SatPoint × Counters) := do
  let sum ← add64 checks counters.lostSats flotsam.offset
  let offset ← sub64 checks sum outputValue
  let counters ← updateInscriptionLocation checks counters flotsam
  return (⟨OutPoint.null, offset⟩, counters)

def locateAllLost (checks : Bool) (outputValue : U64) :
    Counters → List Flotsam → Except Err (List (SatPoint × InscriptionId) × Counters)
  | counters, [] => .ok ([], counters)
  | counters, flotsam :: rest => do
    let (satpoint, counters) ← locateLost checks outputValue counters flotsam
    let (others, counters) ← locateAllLost checks outputValue counters rest
    return ((satpoint, flotsam.inscriptionId) :: others, counters)

/-! ## DRC-20 -/

/-- Increase a balance. -/
def creditBalance (checks : Bool) (t : Brc20Tables) (receiver : ScriptHash) (tick : Ticker) (amt : U128) :
    Except Err Brc20Tables := do
  let key : ScriptAndBRC20Kind := ⟨receiver, tick⟩
  let balance ← orPanic (Machine.add checks (t.balances.getD key 0) amt)
  return { t with balances := t.balances.insert key balance }

/-- A transfer that takes place: the receiver is credited, and the transfer recorded. -/
def creditTransfer (checks : Bool) (t : Brc20Tables) (valid : List (InscriptionId × BRC20Message))
    (id : InscriptionId) (transfer : UnusedTransfer) (receiver : ScriptHash) :
    Except Err (Brc20Tables × List (InscriptionId × BRC20Message)) := do
  let t ← creditBalance checks t receiver transfer.tick transfer.amt
  return (t, valid ++ [(id, .transfer transfer.tick transfer.amt transfer.originalPoint.outpoint receiver)])

/-- Unused transfers that leave as fee return to their senders. -/
def returnTransfers (checks : Bool) (unused : Table InscriptionId UnusedTransfer)
    (s : Brc20Tables × List (InscriptionId × BRC20Message)) (left : List Flotsam) :
    Except Err (Brc20Tables × List (InscriptionId × BRC20Message)) :=
  left.foldlM (fun (t, valid) flotsam =>
    match unused.get flotsam.inscriptionId with
    | some transfer => creditTransfer checks t valid flotsam.inscriptionId transfer transfer.sender
    | none => .ok (t, valid)) s

/-- `outpoint_to_script`. -/
def outpointToScript (deps : Deps) (txid : Txid) (outputs : List TxOut) : Table OutPoint ScriptHash :=
  outputs.zipIdx.foldl (fun t (output, vout) => t.insert ⟨txid, vout⟩ (deps.scriptHash output.scriptPubkey))
    Table.empty

/-- Unused transfers that were moved are credited to the receiving script. -/
def creditOutgoing (checks : Bool) (scripts : Table OutPoint ScriptHash)
    (unused : Table InscriptionId UnusedTransfer)
    (s : Brc20Tables × List (InscriptionId × BRC20Message)) (outgoing : List (SatPoint × InscriptionId)) :
    Except Err (Brc20Tables × List (InscriptionId × BRC20Message)) :=
  outgoing.foldlM (fun (t, valid) (satpoint, id) =>
    match unused.get id with
    | some transfer => do
      let receiver ← (if satpoint.outpoint.isNull then .ok transfer.sender
        else orPanic (scripts.get satpoint.outpoint))
      creditTransfer checks t valid id transfer receiver
    | none => .ok (t, valid)) s

/-- `inscription_id_to_script`. -/
def inscriptionIdToScript (scripts : Table OutPoint ScriptHash)
    (outgoing : List (SatPoint × InscriptionId)) : Table InscriptionId ScriptHash :=
  outgoing.foldl (fun t (satpoint, id) =>
    match scripts.get satpoint.outpoint with
    | some script => t.insert id script
    | none => t) Table.empty

/-- What the messages of a transaction change. -/
structure MessageState where
  brc20 : Brc20Tables
  valid : List (InscriptionId × BRC20Message)
  newUnused : Table InscriptionId (Ticker × U128)

/-- A valid deployment. -/
def applyDeploy (s : MessageState) (id : InscriptionId) (deploy : BRC20.DeployAction) : MessageState :=
  let terms : BRC20Terms := ⟨deploy.max, deploy.limit, deploy.dec, deploy.selfMint, id⟩
  { s with
    brc20 := { s.brc20 with terms := s.brc20.terms.insert deploy.ticker terms }
    valid := s.valid ++ [(id, .deploy deploy.ticker)] }

/-- A mint: rejected without a receiver or at the maximal supply. -/
def applyMint (checks : Bool) (s : MessageState) (id : InscriptionId) (receiver : Option ScriptHash)
    (terms : BRC20Terms) (action : BRC20.AmountAction) : Except Err MessageState :=
  let supply := s.brc20.supply.getD action.ticker 0
  match receiver with
  | none => .ok s
  | some receiver =>
    if supply = terms.max then .ok s
    else do
      let left ← orPanic (Machine.sub checks terms.max supply)
      let amt := min action.amt left
      let newSupply ← orPanic (Machine.add checks supply amt)
      let t := { s.brc20 with supply := s.brc20.supply.insert action.ticker newSupply }
      let t ← creditBalance checks t receiver action.ticker amt
      return { s with brc20 := t, valid := s.valid ++ [(id, .mint action.ticker amt receiver)] }

/-- A transfer inscription: its amount is taken out of the receiver's balance. -/
def applyTransferInit (checks : Bool) (s : MessageState) (id : InscriptionId)
    (receiver : Option ScriptHash) (action : BRC20.AmountAction) : Except Err MessageState :=
  match receiver with
  | none => .ok s
  | some receiver =>
    let key : ScriptAndBRC20Kind := ⟨receiver, action.ticker⟩
    match s.brc20.balances.get key with
    | none => .ok s
    | some balance =>
      if balance < action.amt then .ok s
      else do
        let balance ← orPanic (Machine.sub checks balance action.amt)
        return {
          brc20 := { s.brc20 with balances := s.brc20.balances.insert key balance }
          valid := s.valid ++ [(id, .transferInit action.ticker action.amt receiver)]
          newUnused := s.newUnused.insert id (action.ticker, action.amt) }

/-- One DRC-20 message. -/
def processMessage (deps : Deps) (checks : Bool) (idToScript : Table InscriptionId ScriptHash)
    (s : MessageState) (message : InscriptionId × RawProtocolMessage) : Except Err MessageState :=
  let (id, raw) := message
  let terms := s.brc20.terms.get (deps.toLowercase raw.tick)
  match BRC20.DeployAction.parse deps raw with
  | some deploy => if terms.isNone then .ok (applyDeploy s id deploy) else .ok s
  | none =>
    match terms with
    | none => .ok s
    | some terms =>
      match BRC20.MintAction.parse deps raw terms with
      | some action => applyMint checks s id (idToScript.get id) terms action
      | none =>
        match BRC20.TransferAction.parse deps raw terms with
        | some action => applyTransferInit checks s id (idToScript.get id) action
        | none => .ok s

/-! ## The transaction -/

/-- Inscriptions by output. -/
def placeOutputs (txid : Txid) (outputs : Nat) (outgoing : List (SatPoint × InscriptionId)) :
    Except Err (List (List (U64 × InscriptionId))) :=
  (outgoing.filter (fun e => e.1.outpoint.txid = txid)).foldlM (fun acc (satpoint, id) =>
    match acc[satpoint.outpoint.vout]? with
    | some l => .ok (acc.set satpoint.outpoint.vout (l ++ [(satpoint.offset, id)]))
    | none => .error .panic) (List.replicate outputs [])

/-- `total_output_value`. -/
def totalOutputValue (checks : Bool) (tx : Transaction) : Except Err U64 :=
  tx.output.foldlM (fun total output => add64 checks total output.value) 0

/-- The first input is the coinbase input. -/
def isCoinbase (tx : Transaction) : Bool := tx.input.head?.any fun txin => txin.previousOutput.isNull

/-- The floating inscriptions of a transaction: those of its inputs, a revealed one and, for the
coinbase, those carried to it. -/
def floatingInscriptions (deps : Deps) (checks : Bool) (resolver : Table TxoRef TxoBody) (height : Nat)
    (tx : Transaction) (txid : Txid) (s : InscriptionState) :
    Except Err (InputState × List (InscriptionId × RawProtocolMessage) × InscriptionState) := do
  let total ← totalOutputValue checks tx
  let inputs ← collectInputs deps checks resolver height tx
  let (revealed, messages, s) ← (if inputs.floating.all (fun flotsam => flotsam.offset ≠ 0) then
      reveal deps checks tx txid inputs.totalInputValue total s
    else .ok ([], [], s))
  if isCoinbase tx then
    return ({ inputs with floating := inputs.floating ++ revealed ++ s.cbInscriptions }, messages,
      { s with cbInscriptions := [] })
  else return ({ inputs with floating := inputs.floating ++ revealed }, messages, s)

/-- Where a transaction's inscriptions went. -/
structure Located where
  outgoing : List (SatPoint × InscriptionId)
  /-- DRC-20 tables and recorded messages. -/
  brc20 : Brc20Tables × List (InscriptionId × BRC20Message)
  state : InscriptionState

/-- What the outputs of a transaction leave: lost by the coinbase, carried to it otherwise. -/
def locateRest (checks coinbase : Bool) (inputs : InputState)
    (outgoing : List (SatPoint × InscriptionId)) (left : List Flotsam) (outputValue : U64)
    (s : InscriptionState) : Except Err Located :=
  if coinbase then do
    let (lost, counters) ← locateAllLost checks outputValue s.counters left
    let sats ← sub64 checks s.reward outputValue
    let lostSats ← add64 checks counters.lostSats sats
    return ⟨outgoing ++ lost, (s.brc20, []), { s with counters := { counters with lostSats := lostSats } }⟩
  else do
    let brc20 ← returnTransfers checks inputs.unused (s.brc20, []) left
    let carried ← left.mapM fun flotsam => do
      let sum ← add64 checks s.reward flotsam.offset
      let offset ← sub64 checks sum outputValue
      return { flotsam with offset := offset }
    let fee ← sub64 checks inputs.totalInputValue outputValue
    let reward ← add64 checks s.reward fee
    return ⟨outgoing, brc20, { s with cbInscriptions := s.cbInscriptions ++ carried, reward := reward }⟩

/-- Float the inscriptions over the outputs. -/
def locate (checks : Bool) (tx : Transaction) (txid : Txid) (inputs : InputState)
    (s : InscriptionState) : Except Err Located := do
  let (placed, left, outputValue) ← sweep checks txid 0 0 (sortFlotsam inputs.floating) tx.output
  let counters ← placed.foldlM (fun counters (_, flotsam) =>
    updateInscriptionLocation checks counters flotsam) s.counters
  let outgoing := placed.map fun (satpoint, flotsam) => (satpoint, flotsam.inscriptionId)
  locateRest checks (isCoinbase tx) inputs outgoing left outputValue { s with counters := counters }

/-- `index_inscriptions`. -/
def indexInscriptions (deps : Deps) (cfg : Config) (resolver : Table TxoRef TxoBody) (tx : Transaction)
    (txid : Txid) (height : Nat) (s : InscriptionState) :
    Except Err (IndexInscriptionsResult × InscriptionState) := do
  let (inputs, messages, s) ← floatingInscriptions deps cfg.checks resolver height tx txid s
  let located ← locate cfg.checks tx txid inputs s
  let scripts := outpointToScript deps txid tx.output
  let (t, valid) ← creditOutgoing cfg.checks scripts inputs.unused located.brc20 located.outgoing
  let m ← messages.foldlM (processMessage deps cfg.checks (inscriptionIdToScript scripts located.outgoing))
    ⟨t, valid, Table.empty⟩
  let outputInscriptions ← placeOutputs txid tx.output.length located.outgoing
  return (⟨outputInscriptions, located.outgoing.filter (fun e => e.1.outpoint.txid ≠ txid), m.valid,
    m.newUnused⟩, { located.state with brc20 := m.brc20 })

end DogeIndexer.Compressor
