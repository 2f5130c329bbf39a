import DogeIndexer.Compressor.Dunestone

/-!
# Indexing dunes

Model of `index_runes` (`compressor-xdg/src/storage/runes/updater.rs`) over the dune tables.
-/

set_option autoImplicit false

namespace DogeIndexer.Compressor

/-- The dune tables; the counter of reserved names is a table with one key. -/
structure DuneTables where
  idByName : Table U128 DuneId
  termsById : Table DuneId DuneTerms
  mintsById : Table DuneId U128
  reservedCounter : Option U64

def DuneTables.empty : DuneTables := ⟨Table.empty, Table.empty, Table.empty, none⟩

/-- Balances by dune id. -/
abbrev Balances := Table U128 U128

/-- `*balances.entry(id).or_default() += amount`. -/
def credit (checks : Bool) (balances : Balances) (id amount : U128) : Except Err Balances :=
  (orPanic (Machine.add checks (balances.getD id 0) amount)).map fun balance => balances.insert id balance

/-- `unallocated`: the dunes on the inputs. -/
def unallocated (checks : Bool) (tx : Transaction) (resolver : Table TxoRef TxoBody) :
    Except Err Balances :=
  tx.input.foldlM (fun balances input =>
    if input.previousOutput.isNull then .ok balances
    else
      match resolver.get input.previousOutput with
      | none => .error (.missingTxo 0 input.previousOutput.txid input.previousOutput.vout)
      | some body => body.dunes.foldlM (fun balances (id, balance) =>
          credit checks balances id.toU128 balance) balances) Table.empty

/-- `etched`: the name to etch, when it is allowed. -/
def etched (deps : Deps) (cfg : Config) (etching : Etching) (height : Nat) (t : DuneTables) :
    Except Err (Option U128 × DuneTables) :=
  let chain := match cfg.network with
    | .dogecoinTestnet | .bitcoinTestnet => Chain.testnet
    | _ => Chain.mainnet
  match etching.dune with
  | some dune =>
    if dune.val < Dune.minimumAtHeight deps.halvingInterval chain (height % 2 ^ 32) ∨ Dune.isReserved dune = true ∨
        (t.idByName.get dune).isSome = true then .ok (none, t)
    else .ok (some dune, t)
  | none => do
    let counter := t.reservedCounter.getD 0
    let newCounter ← orPanic (Machine.add cfg.checks counter 1)
    return (some (Dune.reserved counter), { t with reservedCounter := some newCounter })

/-- `mint`: the amount a claim of the dune may take at this height. -/
def mint (t : DuneTables) (id : DuneId) (height : Nat) : Option U128 :=
  match t.termsById.get id with
  | none => none
  | some terms =>
    if terms.startHeight.any (height < ·) then none
    else if terms.endHeight.any (height ≥ ·) then none
    else if t.mintsById.getD id 0 ≥ terms.cap.getD (Fin.ofNat (2 ^ 128) (2 ^ 128 - 1)) then none
    else some (terms.amount.getD 0)

/-- `u64::saturating_add`. -/
def saturatingAddU64 (a b : Nat) : Nat := min (a + b) (2 ^ 64 - 1)

/-- Of two bounds the one chosen by `f`; otherwise the one that is there. -/
def combineBounds (f : Nat → Nat → Nat) : Option Nat → Option Nat → Option Nat
  | some relative, some absolute => some (f relative absolute)
  | some relative, none => some relative
  | none, absolute => absolute

/-- The terms that `create_rune_entry` stores. -/
def entryTerms (dunestone : Dunestone) (dune : U128) (height : Nat) : DuneTerms :=
  if dunestone.cenotaph then ⟨dune, none, none, none, none⟩
  else
    match dunestone.etching.bind Etching.terms with
    | none => ⟨dune, none, none, none, none⟩
    | some terms =>
      { name := dune
        amount := terms.limit
        cap := terms.cap
        startHeight := combineBounds max (terms.offset.1.map (saturatingAddU64 height)) terms.height.1
        endHeight := combineBounds min (terms.offset.2.map (saturatingAddU64 height)) terms.height.2 }

/-- `create_rune_entry`. -/
def createRuneEntry (dunestone : Dunestone) (id : DuneId) (dune : U128) (height : Nat)
    (t : DuneTables) : DuneTables :=
  { t with
    idByName := t.idByName.insert dune id
    termsById := t.termsById.insert id (entryTerms dunestone dune height) }

/-! ## Edicts -/

/-- `Allocation`: the issuance of an etching. -/
structure Allocation where
  balance : U128
  id : U128
  dune : U128

/-- What the edicts of a transaction move. -/
structure EdictState where
  allocation : Option Allocation
  mintable : Balances
  unallocated : Balances
  /-- Allocated balances, one map for each output. -/
  allocated : List Balances
  premineAmount : U128

/-- The balance an edict draws on. -/
inductive Purse where
  | issuance (balance id : U128)
  | mintable (balance id : U128)
  | unallocated (balance id : U128)

namespace Purse

def balance : Purse → U128
  | .issuance b _ => b
  | .mintable b _ => b
  | .unallocated b _ => b

def id : Purse → U128
  | .issuance _ i => i
  | .mintable _ i => i
  | .unallocated _ i => i

/-- Write the remaining balance back. -/
def store (p : Purse) (balance : U128) (st : EdictState) : EdictState :=
  match p with
  | .issuance _ _ => { st with allocation := st.allocation.map fun a => { a with balance := balance } }
  | .mintable _ id => { st with mintable := st.mintable.insert id balance }
  | .unallocated _ id => { st with unallocated := st.unallocated.insert id balance }

end Purse

/-- The purse of an edict, `none` when the edict is skipped. -/
def purseOf (st : EdictState) (edict : Edict) : Option Purse :=
  if edict.id = 0 then st.allocation.map fun a => .issuance a.balance a.id
  else
    match claim edict.id with
    | some claim => (st.mintable.get claim).map fun b => .mintable b claim
    | none => (st.unallocated.get edict.id).map fun b => .unallocated b edict.id

/-- The closure `allocate`, on a balance and the allocated maps. -/
def allocate (checks : Bool) (id : U128) (s : U128 × List Balances) (amount : U128) (output : Nat) :
    Except Err (U128 × List Balances) :=
  if amount > 0 then do
    let balance ← orPanic (Machine.sub checks s.1 amount)
    let map ← orPanic s.2[output]?
    let map ← credit checks map id amount
    return (balance, s.2.set output map)
  else .ok s

/-- The outputs that are not `OP_RETURN`. -/
def destinations (deps : Deps) (tx : Transaction) : List Nat :=
  (tx.output.zipIdx.filter (fun e => !deps.isOpReturn e.1.scriptPubkey)).map Prod.snd

/-- An edict to all outputs. -/
def distribute (checks : Bool) (id : U128) (destinations : List Nat) (amount : U128)
    (s : U128 × List Balances) : Except Err (U128 × List Balances) :=
  if amount = 0 then
    if destinations.isEmpty then .error .panic
    else
      let each := s.1.val / destinations.length
      let remainder := s.1.val % destinations.length
      destinations.zipIdx.foldlM (fun s (output, i) =>
        allocate checks id s (Fin.ofNat (2 ^ 128) (if i < remainder then each + 1 else each)) output) s
  else destinations.foldlM (fun s output => allocate checks id s (min amount s.1) output) s

/-- One edict. -/
def processEdict (deps : Deps) (checks : Bool) (tx : Transaction) (st : EdictState) (edict : Edict) :
    Except Err EdictState :=
  let output := edict.output.val
  if output ≥ 2 ^ 64 ∨ output ≥ tx.output.length then .ok st
  else
    match purseOf st edict with
    | none => .ok st
    | some purse => do
      let premineAmount ← (match purse with
        | .issuance _ _ => orPanic (Machine.add checks st.premineAmount edict.amount)
        | _ => .ok st.premineAmount)
      let st := { st with premineAmount := premineAmount }
      let (balance, allocated) ← (if output = tx.output.length then
          distribute checks purse.id (destinations deps tx) edict.amount (purse.balance, st.allocated)
        else
          allocate checks purse.id (purse.balance, st.allocated)
            (if edict.amount = 0 then purse.balance else min edict.amount purse.balance) output)
      return purse.store balance { st with allocated := allocated }

/-! ## Mints -/

/-- The accepted claims with their limits, and the indices reported for them. -/
def acceptClaims (t : DuneTables) (height : Nat) (claims : List U128) : Balances × List Nat :=
  claims.zipIdx.foldl (fun (mintable, mints) (id, idx) =>
    match DuneId.tryFrom id with
    | none => (mintable, mints)
    | some key =>
      match mint t key height with
      | some limit => (mintable.insert id limit, mints ++ [idx % 2 ^ 16])
      | none => (mintable, mints)) (Table.empty, [])

/-- Count a mint for each claim of which something was taken. -/
def countMints (checks : Bool) (limits mintable : Balances) (t : DuneTables) : Except Err DuneTables :=
  mintable.entries.foldlM (fun t (id, amount) => do
    let limit ← orPanic (limits.get id)
    let minted ← orPanic (Machine.sub checks limit amount)
    if minted > 0 then do
      let id ← orPanic (DuneId.tryFrom id)
      let newMints ← orPanic (Machine.add checks (t.mintsById.getD id 0) 1)
      return { t with mintsById := t.mintsById.insert id newMints }
    else return t) t

/-! ## The transaction -/

structure IndexRunesResult where
  outputDunes : List Balances
  successfulEtch : Option U128
  successfulMints : List Nat
  /-- The burned dunes, which the source adds up and drops. -/
  burned : Balances

/-- `usize` index of the first output that is not `OP_RETURN`. -/
def firstDestination (deps : Deps) (tx : Transaction) : Option Nat := (destinations deps tx).head?

/-- The etching of a dunestone: the issuance, and the name reported for it. -/
def allocationOf (deps : Deps) (cfg : Config) (txIndex : Nat) (dunestone : Dunestone) (height : Nat) (t : DuneTables) :
    Except Err (Option Allocation × Option U128 × DuneTables) :=
  match dunestone.etching with
  | none => .ok (none, none, t)
  | some etching => do
    let (dune, t) ← etched deps cfg etching height t
    match dune with
    | none => return (none, none, t)
    | some dune =>
      if txIndex < 2 ^ 16 then
        return (some ⟨Fin.ofNat (2 ^ 128) (2 ^ 128 - 1), DuneId.toU128 ⟨height, txIndex⟩, dune⟩, some dune, t)
      else return (none, some dune, t)

/-- The mints and edicts of a dunestone that is not a cenotaph. -/
def runEdicts (deps : Deps) (cfg : Config) (tx : Transaction) (dunestone : Dunestone) (height : Nat)
    (st : EdictState) (t : DuneTables) : Except Err (EdictState × List Nat × DuneTables) := do
  let (limits, mints) := acceptClaims t height dunestone.claims
  let st ← dunestone.edicts.foldlM (processEdict deps cfg.checks tx) { st with mintable := limits }
  let t ← countMints cfg.checks limits st.mintable t
  return (st, mints, t)

/-- What a dunestone does: edicts, then the entry of the etched dune. -/
def applyDunestone (deps : Deps) (cfg : Config) (txIndex : Nat) (tx : Transaction) (height : Nat)
    (dunestone : Dunestone) (unallocated : Balances) (t : DuneTables) :
    Except Err (EdictState × Option U128 × List Nat × DuneTables) := do
  let (allocation, successfulEtch, t) ← allocationOf deps cfg txIndex dunestone height t
  let st : EdictState := ⟨allocation, Table.empty, unallocated, tx.output.map fun _ => Table.empty, 0⟩
  let (st, mints, t) ← (if dunestone.cenotaph then .ok (st, [], t)
    else runEdicts deps cfg tx dunestone height st t)
  match allocation with
  | none => return (st, successfulEtch, mints, t)
  | some allocation => do
    let id ← orPanic (DuneId.tryFrom allocation.id)
    return (st, successfulEtch, mints, createRuneEntry dunestone id allocation.dune height t)

/-- Un-allocated dunes go to the default output, or are burned. -/
def assignRest (deps : Deps) (checks cenotaph : Bool) (pointer : Option Nat) (tx : Transaction)
    (unallocated : Balances) (allocated : List Balances) : Except Err (List Balances × Balances) :=
  if cenotaph then do
    let burned ← unallocated.entries.foldlM (fun burned (id, balance) => credit checks burned id balance)
      Table.empty
    return (allocated, burned)
  else
    match (pointer.filter (· < allocated.length)).or (firstDestination deps tx) with
    | some vout => do
      let map ← orPanic allocated[vout]?
      let map ← unallocated.entries.foldlM (fun map (id, balance) =>
        if balance > 0 then credit checks map id balance else .ok map) map
      return (allocated.set vout map, Table.empty)
    | none => do
      let burned ← unallocated.entries.foldlM (fun burned (id, balance) =>
        if balance > 0 then credit checks burned id balance else .ok burned) Table.empty
      return (allocated, burned)

/-- `index_runes`. -/
def indexRunes (deps : Deps) (cfg : Config) (resolver : Table TxoRef TxoBody) (txIndex : Nat)
    (tx : Transaction) (height : Nat) (t : DuneTables) : Except Err (IndexRunesResult × DuneTables) := do
  let dunestone := Dunestone.fromTransaction deps tx
  let unallocated ← unallocated cfg.checks tx resolver
  match dunestone with
  | none => do
    let (allocated, burned) ← assignRest deps cfg.checks false none tx unallocated
      (tx.output.map fun _ => Table.empty)
    return (⟨allocated, none, [], burned⟩, t)
  | some dunestone => do
    let (st, successfulEtch, mints, t) ← applyDunestone deps cfg txIndex tx height dunestone unallocated t
    let (allocated, burned) ← assignRest deps cfg.checks dunestone.cenotaph dunestone.pointer tx
      st.unallocated st.allocated
    return (⟨allocated, successfulEtch, mints, burned⟩, t)

end DogeIndexer.Compressor
