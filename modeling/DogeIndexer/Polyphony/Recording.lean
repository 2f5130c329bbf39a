import DogeIndexer.Polyphony.Parts

/-!
# Reducers that only write

Model of the reducers `txs_by_script_hash`, `script_by_script_hash`, `script_hash_by_address_payload_hash` and
`content_by_inscription_id` (`polyphony-xdg/src/reducers`), with their cases of `reducer_output_to_storage_ops`
(`storage/tikv.rs`).  What they write is never deleted; a later write to a key replaces an earlier one.

The order in which a hash map of scripts is iterated, and the script of the address that a script pays to, are
parameters.

* `mem_txsEntries` — which transactions are entered for a script.
* `txs_exact` — a chain of blocks of different heights leaves one entry for each.
* `RecordingReducer.leaves` — what each of the reducers leaves at a key.
-/

set_option autoImplicit false

namespace DogeIndexer.Polyphony.Reducers

open Compressor (Bytes Txid ScriptHash OutPoint TxOut InscriptionId Transaction Block txIds)
open Timbre (Namespace Ty)
open StorageAction (Family)

/-! ## The reducers -/

namespace TxsByScriptHash

inductive TxInvolvement where
  | input
  | output
  deriving DecidableEq

structure Output where
  scriptHash : ScriptHash
  height : Nat
  txHash : Txid
  txBlockIndex : Nat
  input : Bool
  output : Bool

/-- The scripts that a transaction involves, so far. -/
abbrev Seen := Table ScriptHash (List TxInvolvement)

/-- How the scripts of each transaction are iterated. -/
structure SeenOrder where
  iter : Nat → Nat → Seen → List (ScriptHash × List TxInvolvement)
  perm : ∀ height idx seen, (iter height idx seen).Perm seen.entries

/-- Iteration in key order. -/
def SeenOrder.byKey : SeenOrder := ⟨fun _ _ seen => seen.entries, fun _ _ _ => .refl _⟩

/-- `entry(..).or_default().push(..)`. -/
def push (seen : Seen) (e : ScriptHash × TxInvolvement) : Seen := seen.insert e.1 (seen.getD e.1 [] ++ [e.2])

section

variable (scriptHash : Bytes → ScriptHash) (policy : RuntimePolicy) (order : SeenOrder)

def processConsumedTxo (ctx : BlockContext) (seen : Seen) (input : OutPoint) : Option Seen := do
  match ← applyPolicy policy (ctx.findUtxo input) with
  | some u => return push seen (scriptHash u.txo.scriptPubkey, .input)
  | none => return seen

def processProducedTxo (seen : Seen) (txOutput : TxOut) : Seen := push seen (scriptHash txOutput.scriptPubkey, .output)

/-- The body of the loop over the transactions; the index is cast to 16 bits. -/
def reduceTx (height : Nat) (ctx : BlockContext) (tx : Transaction) (txIdx : Nat) : Option (List Output) := do
  let seen ← (if isCoinbase tx then some Table.empty else
    (inputs tx).foldlM (processConsumedTxo scriptHash policy ctx) Table.empty)
  let seen := tx.output.foldl (processProducedTxo scriptHash) seen
  return (order.iter height txIdx seen).map fun (scriptHash, actions) =>
    ⟨scriptHash, height, tx.txid, txIdx % 2 ^ 16, actions.contains .input, actions.contains .output⟩

def reduceBlock (height : Nat) (block : Block) (ctx : BlockContext) : Option (List Output) :=
  collect (fun e => reduceTx scriptHash policy order height ctx e.1 e.2) block.txdata.zipIdx

end

end TxsByScriptHash

namespace ScriptByScriptHash

structure Output where
  scriptHash : ScriptHash
  script : Bytes

def processProducedTxo (scriptHash : Bytes → ScriptHash) (txOutput : TxOut) : List Output :=
  [⟨scriptHash txOutput.scriptPubkey, txOutput.scriptPubkey⟩]

def reduceBlock (scriptHash : Bytes → ScriptHash) (block : Block) : List Output :=
  block.txdata.flatMap fun tx => tx.output.flatMap (processProducedTxo scriptHash)

end ScriptByScriptHash

namespace ScriptHashByAddressPayloadHash

structure Output where
  payloadHash : ScriptHash
  scriptHash : ScriptHash

section

variable (scriptHash : Bytes → ScriptHash) (addressScript : Bytes → Option Bytes)

/-- `addressScript` is `Address::from_script`, where it succeeds, with `script_pubkey` of the address. -/
def processProducedTxo (txOutput : TxOut) : List Output :=
  match addressScript txOutput.scriptPubkey with
  | some payload => [⟨scriptHash payload, scriptHash txOutput.scriptPubkey⟩]
  | none => []

def reduceBlock (block : Block) : List Output :=
  block.txdata.flatMap fun tx => tx.output.flatMap (processProducedTxo scriptHash addressScript)

end

end ScriptHashByAddressPayloadHash

namespace ContentByInscriptionId

structure Output where
  inscriptionId : InscriptionId
  createdAt : Nat
  inscriptionNum : U64
  contentType : Bytes
  contentBody : Bytes

def reduceBlock (blockHeight : Nat) (block : Block) (ctx : BlockContext) : List Output :=
  block.txdata.flatMap fun tx =>
    match ctx.newInscriptions.get tx.txid with
    | some (inscriptionId, inscriptionNum, contentType, contentBody) =>
      [⟨inscriptionId, blockHeight, inscriptionNum, contentType, contentBody⟩]
    | none => []

end ContentByInscriptionId

/-! ## Storage actions -/

section

variable (ns : Namespace)

def txsByScriptHashKey (scriptHash : ScriptHash) (height txBlockIndex : Nat) (txHash : Txid) : Key :=
  ns.data .txsByScriptHash Timbre.TxsByScriptHash.key
    (array20 scriptHash, uint 8 height, uint 2 txBlockIndex, array32 txHash)

def scriptByScriptHashKey (scriptHash : ScriptHash) : Key :=
  ns.data .scriptByScriptHash Timbre.ScriptByScriptHash.key (array20 scriptHash)

def scriptHashByAddressPayloadHashKey (payloadHash : ScriptHash) : Key :=
  ns.data .scriptHashByAddressPayloadHash Timbre.ScriptHashByAddressPayloadHash.key (array20 payloadHash)

def contentByInscriptionIdKey (inscriptionId : InscriptionId) : Key :=
  ns.data .contentByInscriptionId Timbre.ContentByInscriptionId.key
    (array32 inscriptionId.txid, uint 4 inscriptionId.index)

end

/-- Bytes as a `Vec<u8>`. -/
def bytesVal (bytes : Bytes) : (Ty.vec Timbre.u8).Val := bytes.map fun b => uint 1 b.val

def txsByScriptHashValue (input output : Bool) : Value := Timbre.TxsByScriptHash.value.encode (input, output)

def scriptByScriptHashValue (script : Bytes) : Value := Timbre.ScriptByScriptHash.value.encode (bytesVal script)

def scriptHashByAddressPayloadHashValue (scriptHash : ScriptHash) : Value :=
  Timbre.ScriptHashByAddressPayloadHash.value.encode (array20 scriptHash)

def contentByInscriptionIdValue (createdAt : Nat) (inscriptionNum : U64) (contentType contentBody : Bytes) : Value :=
  Timbre.ContentByInscriptionId.value.encode
    (uint 8 createdAt, uint 8 inscriptionNum.val, bytesVal contentType, bytesVal contentBody)

def TxsByScriptHash.Output.toStorageOps (ns : Namespace) (o : TxsByScriptHash.Output) : List StorageAction :=
  [.set (txsByScriptHashKey ns o.scriptHash o.height o.txBlockIndex o.txHash) (txsByScriptHashValue o.input o.output)]

def ScriptByScriptHash.Output.toStorageOps (ns : Namespace) (o : ScriptByScriptHash.Output) : List StorageAction :=
  [.set (scriptByScriptHashKey ns o.scriptHash) (scriptByScriptHashValue o.script)]

def ScriptHashByAddressPayloadHash.Output.toStorageOps (ns : Namespace) (o : ScriptHashByAddressPayloadHash.Output) :
    List StorageAction :=
  [.set (scriptHashByAddressPayloadHashKey ns o.payloadHash) (scriptHashByAddressPayloadHashValue o.scriptHash)]

def ContentByInscriptionId.Output.toStorageOps (ns : Namespace) (o : ContentByInscriptionId.Output) :
    List StorageAction :=
  [.set (contentByInscriptionIdKey ns o.inscriptionId)
    (contentByInscriptionIdValue o.createdAt o.inscriptionNum o.contentType o.contentBody)]

/-! ## What is written -/

/-- Entries that are written. -/
def setActions (l : List (Key × Value)) : List StorageAction := (Ledger.assignments l).map writeAction

theorem setActions_flatMap {α : Type} (l : List α) (f : α → List (Key × Value)) :
    setActions (l.flatMap f) = l.flatMap fun a => setActions (f a) := by
  unfold setActions Ledger.assignments
  rw [List.map_flatMap, List.map_flatMap]

theorem setActions_map {α : Type} (l : List α) (f : α → Key × Value) :
    setActions (l.map f) = l.flatMap fun a => [.set (f a).1 (f a).2] := by
  unfold setActions Ledger.assignments
  rw [List.map_map, List.map_map, ← List.flatMap_singleton' (l.map _), List.flatMap_map]
  rfl

/-- A part that writes entries under a tag. -/
theorem Reduced.of_entries {ns : Namespace} {tag : Timbre.Reducer} {chain : List EnrichedBlock}
    {reduced : EnrichedBlock → Option (List StorageAction)} {entries : EnrichedBlock → List (Key × Value)}
    (htag : tagFamily tag = .writes) (hreduced : ∀ b ∈ chain, reduced b = Option.some (setActions (entries b)))
    (hkey : ∀ b ∈ chain, ∀ e ∈ entries b, ns.dataPrefix tag <+: e.1) :
    Reduced ns [tag] chain reduced fun b => setActions (entries b) := by
  refine ⟨hreduced, fun b hb a ha => ⟨tag, List.mem_singleton_self tag, ?_⟩⟩
  obtain ⟨x, hx, rfl⟩ := List.mem_map.mp ha
  obtain ⟨e, he, rfl⟩ := List.mem_map.mp hx
  rw [htag]
  exact ⟨hkey b hb e he, rfl⟩

/-- What it leaves at a key is what it wrote last. -/
theorem runsAt_setActions (checks : Bool) (k : Key) (chain : List EnrichedBlock)
    (entries : EnrichedBlock → List (Key × Value)) :
    RunsAt checks none (Keyed.of StorageAction.key (chain.flatMap fun b => setActions (entries b)) k)
      (Ledger.reading k none (Ledger.assignments (chain.flatMap entries))) := by
  rw [← setActions_flatMap]
  exact runsAt_writeActions checks k none _

/-! ## Entries -/

namespace TxsByScriptHash

/-- The involvements of a list under their scripts. -/
def seenIn (l : List (ScriptHash × TxInvolvement)) : Seen := l.foldl push Table.empty

def ofScript (l : List (ScriptHash × TxInvolvement)) (owner : ScriptHash) : List TxInvolvement :=
  (Keyed.of Prod.fst l owner).map Prod.snd

theorem get_seenIn (l : List (ScriptHash × TxInvolvement)) (owner : ScriptHash) :
    (seenIn l).get owner = if ofScript l owner = [] then none else some (ofScript l owner) := by
  induction l using List.reverseRecOn with
  | nil => rfl
  | append_singleton l e ih =>
    have hpush : (seenIn (l ++ [e])).get owner =
        if owner = e.1 then some ((seenIn l).getD e.1 [] ++ [e.2]) else (seenIn l).get owner := by
      unfold seenIn
      rw [List.foldl_append]
      exact Table.get_insert _ _ _ _
    have hof : ofScript (l ++ [e]) owner = ofScript l owner ++ if e.1 = owner then [e.2] else [] := by
      unfold ofScript
      rw [Keyed.of_append, List.map_append]
      refine congrArg _ ?_
      unfold Keyed.of
      by_cases he : e.1 = owner
      · rw [if_pos he, List.filter_cons_of_pos (by simpa using he)]
        rfl
      · rw [if_neg he, List.filter_cons_of_neg (by simpa using he)]
        rfl
    rw [hpush, hof]
    by_cases he : owner = e.1
    · subst he
      have hgetD : (seenIn l).getD e.1 [] = ofScript l e.1 := by
        unfold Table.getD
        rw [ih]
        split
        · rename_i hnil
          exact hnil.symm
        · rfl
      rw [if_pos rfl, if_pos rfl, hgetD, if_neg (by simp)]
    · rw [if_neg he, if_neg (Ne.symm he), List.append_nil]
      exact ih

theorem mem_seenIn {l : List (ScriptHash × TxInvolvement)} {e : ScriptHash × List TxInvolvement} :
    e ∈ (seenIn l).entries ↔ ofScript l e.1 ≠ [] ∧ e.2 = ofScript l e.1 := by
  rw [Table.mem_entries, get_seenIn]
  split
  · rename_i hnil
    simp [hnil]
  · rename_i hne
    rw [Option.some.injEq]
    exact ⟨fun h => ⟨hne, h.symm⟩, fun h => h.2.symm⟩

theorem mem_ofScript {l : List (ScriptHash × TxInvolvement)} {owner : ScriptHash} {i : TxInvolvement} :
    i ∈ ofScript l owner ↔ (owner, i) ∈ l := by
  unfold ofScript Keyed.of
  simp

end TxsByScriptHash

section

variable (scriptHash : Bytes → ScriptHash) (b : EnrichedBlock)

/-- The transaction spends an output of the script. -/
def EnrichedBlock.SpendsFrom (tx : Transaction) (owner : ScriptHash) : Prop :=
  ∃ e ∈ b.consumedBy tx, e.2.owner scriptHash = owner

/-- It pays to the script. -/
def PaysTo (tx : Transaction) (owner : ScriptHash) : Prop := ∃ o ∈ tx.output, scriptHash o.scriptPubkey = owner

instance (tx : Transaction) (owner : ScriptHash) : Decidable (b.SpendsFrom scriptHash tx owner) :=
  inferInstanceAs (Decidable (∃ e ∈ b.consumedBy tx, e.2.owner scriptHash = owner))

instance (tx : Transaction) (owner : ScriptHash) : Decidable (PaysTo scriptHash tx owner) :=
  inferInstanceAs (Decidable (∃ o ∈ tx.output, scriptHash o.scriptPubkey = owner))

/-- The scripts of the inputs and of the outputs of a transaction. -/
def EnrichedBlock.involvements (tx : Transaction) : List (ScriptHash × TxsByScriptHash.TxInvolvement) :=
  (b.consumedBy tx).map (fun e => (e.2.owner scriptHash, .input)) ++
    tx.output.map fun o => (scriptHash o.scriptPubkey, .output)

theorem EnrichedBlock.mem_involvements (tx : Transaction) (owner : ScriptHash) :
    ((owner, .input) ∈ b.involvements scriptHash tx ↔ b.SpendsFrom scriptHash tx owner) ∧
      ((owner, .output) ∈ b.involvements scriptHash tx ↔ PaysTo scriptHash tx owner) := by
  unfold involvements SpendsFrom PaysTo
  constructor <;> simp

variable (ns : Namespace) (order : TxsByScriptHash.SeenOrder)

def txEntries (tx : Transaction) (txIdx : Nat) : List (Key × Value) :=
  (order.iter b.point.height txIdx (TxsByScriptHash.seenIn (b.involvements scriptHash tx))).map fun e =>
    (txsByScriptHashKey ns e.1 b.point.height (txIdx % 2 ^ 16) tx.txid,
      txsByScriptHashValue (e.2.contains .input) (e.2.contains .output))

def txsEntries : List (Key × Value) :=
  b.block.txdata.zipIdx.flatMap fun e => txEntries scriptHash b ns order e.1 e.2

/-- **The transactions that are entered for a script** are those that spend its outputs or pay to it, each with what
it does. -/
theorem mem_txsEntries {k : Key} {v : Value} :
    (k, v) ∈ txsEntries scriptHash b ns order ↔
      ∃ tx txIdx owner, b.block.txdata[txIdx]? = some tx ∧
        (b.SpendsFrom scriptHash tx owner ∨ PaysTo scriptHash tx owner) ∧
        k = txsByScriptHashKey ns owner b.point.height (txIdx % 2 ^ 16) tx.txid ∧
        v = txsByScriptHashValue (b.SpendsFrom scriptHash tx owner) (PaysTo scriptHash tx owner) := by
  have hentry : ∀ tx txIdx, (k, v) ∈ txEntries scriptHash b ns order tx txIdx ↔ ∃ owner,
      (b.SpendsFrom scriptHash tx owner ∨ PaysTo scriptHash tx owner) ∧
        k = txsByScriptHashKey ns owner b.point.height (txIdx % 2 ^ 16) tx.txid ∧
        v = txsByScriptHashValue (b.SpendsFrom scriptHash tx owner) (PaysTo scriptHash tx owner) := by
    intro tx txIdx
    have hcontains : ∀ owner,
        (TxsByScriptHash.ofScript (b.involvements scriptHash tx) owner).contains .input =
            decide (b.SpendsFrom scriptHash tx owner) ∧
          (TxsByScriptHash.ofScript (b.involvements scriptHash tx) owner).contains .output =
            decide (PaysTo scriptHash tx owner) := by
      intro owner
      obtain ⟨hin, hout⟩ := b.mem_involvements scriptHash tx owner
      rw [← TxsByScriptHash.mem_ofScript] at hin hout
      constructor
      · rw [Bool.eq_iff_iff, List.contains_iff_mem, decide_eq_true_iff]
        exact hin
      · rw [Bool.eq_iff_iff, List.contains_iff_mem, decide_eq_true_iff]
        exact hout
    have hne : ∀ owner, TxsByScriptHash.ofScript (b.involvements scriptHash tx) owner ≠ [] ↔
        b.SpendsFrom scriptHash tx owner ∨ PaysTo scriptHash tx owner := by
      intro owner
      obtain ⟨hin, hout⟩ := b.mem_involvements scriptHash tx owner
      rw [← hin, ← hout, ← TxsByScriptHash.mem_ofScript, ← TxsByScriptHash.mem_ofScript]
      constructor
      · intro h
        obtain ⟨i, hi⟩ := List.exists_mem_of_ne_nil _ h
        cases i with
        | input => exact Or.inl hi
        | output => exact Or.inr hi
      · rintro (h | h) <;> exact List.ne_nil_of_mem h
    unfold txEntries
    rw [List.mem_map]
    constructor
    · rintro ⟨e, he, heq⟩
      obtain ⟨hsome, hof⟩ := TxsByScriptHash.mem_seenIn.mp ((order.perm _ _ _).mem_iff.mp he)
      obtain ⟨hin, hout⟩ := hcontains e.1
      rw [← hof] at hin hout
      rw [hin, hout] at heq
      exact ⟨e.1, (hne e.1).mp hsome, (congrArg Prod.fst heq).symm, (congrArg Prod.snd heq).symm⟩
    · rintro ⟨owner, hinvolved, rfl, rfl⟩
      obtain ⟨hin, hout⟩ := hcontains owner
      refine ⟨(owner, TxsByScriptHash.ofScript (b.involvements scriptHash tx) owner), ?_, ?_⟩
      · exact (order.perm _ _ _).mem_iff.mpr (TxsByScriptHash.mem_seenIn.mpr ⟨(hne owner).mpr hinvolved, rfl⟩)
      · rw [hin, hout]
  unfold txsEntries
  rw [List.mem_flatMap]
  constructor
  · rintro ⟨e, he, hmem⟩
    obtain ⟨owner, h⟩ := (hentry e.1 e.2).mp hmem
    exact ⟨e.1, e.2, owner, List.mem_zipIdx_iff_getElem?.mp he, h⟩
  · rintro ⟨tx, txIdx, owner, hget, h⟩
    exact ⟨(tx, txIdx), List.mem_zipIdx_iff_getElem?.mpr hget, (hentry tx txIdx).mpr ⟨owner, h⟩⟩

def scriptEntries : List (Key × Value) :=
  b.block.txdata.flatMap fun tx => tx.output.map fun o =>
    (scriptByScriptHashKey ns (scriptHash o.scriptPubkey), scriptByScriptHashValue o.scriptPubkey)

def payloadEntries (addressScript : Bytes → Option Bytes) : List (Key × Value) :=
  b.block.txdata.flatMap fun tx => tx.output.filterMap fun o => (addressScript o.scriptPubkey).map fun payload =>
    (scriptHashByAddressPayloadHashKey ns (scriptHash payload),
      scriptHashByAddressPayloadHashValue (scriptHash o.scriptPubkey))

end

def contentEntries (ns : Namespace) (b : EnrichedBlock) : List (Key × Value) :=
  b.block.txdata.filterMap fun tx => (b.ctx.newInscriptions.get tx.txid).map fun e =>
    (contentByInscriptionIdKey ns e.1, contentByInscriptionIdValue b.point.height e.2.1 e.2.2.1 e.2.2.2)

/-! ## Reducing a block -/

inductive RecordingReducer where
  | txsByScriptHash
  | scriptByScriptHash
  | scriptHashByAddressPayloadHash
  | contentByInscriptionId
  deriving DecidableEq

section

variable (scriptHash : Bytes → ScriptHash) (addressScript : Bytes → Option Bytes) (order : TxsByScriptHash.SeenOrder)
  (ns : Namespace)

namespace RecordingReducer

def tag : RecordingReducer → Timbre.Reducer
  | txsByScriptHash => .txsByScriptHash
  | scriptByScriptHash => .scriptByScriptHash
  | scriptHashByAddressPayloadHash => .scriptHashByAddressPayloadHash
  | contentByInscriptionId => .contentByInscriptionId

/-- The storage actions of a block. -/
def reduce (policy : RuntimePolicy) (b : EnrichedBlock) : RecordingReducer → Option (List StorageAction)
  | txsByScriptHash => (TxsByScriptHash.reduceBlock scriptHash policy order b.point.height b.block b.ctx).map
      fun outputs => outputs.flatMap fun o => o.toStorageOps ns
  | scriptByScriptHash => some ((ScriptByScriptHash.reduceBlock scriptHash b.block).flatMap fun o => o.toStorageOps ns)
  | scriptHashByAddressPayloadHash =>
    some ((ScriptHashByAddressPayloadHash.reduceBlock scriptHash addressScript b.block).flatMap
      fun o => o.toStorageOps ns)
  | contentByInscriptionId =>
    some ((ContentByInscriptionId.reduceBlock b.point.height b.block b.ctx).flatMap fun o => o.toStorageOps ns)

/-- What it writes for a block. -/
def entries (b : EnrichedBlock) : RecordingReducer → List (Key × Value)
  | txsByScriptHash => txsEntries scriptHash b ns order
  | scriptByScriptHash => scriptEntries scriptHash b ns
  | scriptHashByAddressPayloadHash => payloadEntries scriptHash b ns addressScript
  | contentByInscriptionId => contentEntries ns b

end RecordingReducer

variable {b : EnrichedBlock} {t : Unspent}

/-- The scripts that are collected for a transaction are those of its inputs and outputs. -/
theorem EnrichedBlock.Valid.reduceTx_eq (h : b.Valid t) (policy : RuntimePolicy) {tx : Transaction}
    (htx : tx ∈ b.block.txdata) (txIdx : Nat) :
    (TxsByScriptHash.reduceTx scriptHash policy order b.point.height b.ctx tx txIdx).map
        (fun outputs => outputs.flatMap fun o => o.toStorageOps ns) =
      some (setActions (txEntries scriptHash b ns order tx txIdx)) := by
  have hseen : (if isCoinbase tx then some Table.empty else
      (inputs tx).foldlM (TxsByScriptHash.processConsumedTxo scriptHash policy b.ctx) Table.empty) =
        some (TxsByScriptHash.seenIn ((b.consumedBy tx).map fun e => (e.2.owner scriptHash, .input))) := by
    unfold consumedBy
    rcases h.tx_cases htx with ⟨hcb, -⟩ | ⟨hcb, hresolved⟩
    · rw [if_pos hcb, if_pos hcb]
      rfl
    · rw [if_neg (by simp [hcb]), if_neg (by simp [hcb])]
      unfold TxsByScriptHash.seenIn
      generalize (Table.empty : TxsByScriptHash.Seen) = seen
      generalize inputs tx = l at hresolved
      induction l generalizing seen with
      | nil => rfl
      | cons ref l ih =>
        obtain ⟨u, hu⟩ := hresolved ref List.mem_cons_self
        have hone : TxsByScriptHash.processConsumedTxo scriptHash policy b.ctx seen ref =
            some (TxsByScriptHash.push seen ((b.described ref u.height u.txo).owner scriptHash, .input)) := by
          unfold TxsByScriptHash.processConsumedTxo
          rw [hu, applyPolicy_some]
          rfl
        rw [List.foldlM_cons, hone, List.filterMap_cons_some (by rw [hu]; rfl), List.map_cons, List.foldl_cons]
        exact ih _ fun ref' href' => hresolved ref' (List.mem_cons_of_mem _ href')
  have hout : tx.output.foldl (TxsByScriptHash.processProducedTxo scriptHash)
      (TxsByScriptHash.seenIn ((b.consumedBy tx).map fun e => (e.2.owner scriptHash, .input))) =
        TxsByScriptHash.seenIn (b.involvements scriptHash tx) := by
    unfold TxsByScriptHash.seenIn involvements
    rw [List.foldl_append, List.foldl_map (f := fun o : TxOut => (scriptHash o.scriptPubkey, _))]
    rfl
  unfold TxsByScriptHash.reduceTx txEntries
  rw [hseen, setActions_map]
  simp only [Option.bind_eq_bind, Option.bind_some, hout]
  exact congrArg some (List.flatMap_map _ _ _)

/-- A reducer writes its entries for a block. -/
theorem EnrichedBlock.Valid.recording_eq (h : b.Valid t) (policy : RuntimePolicy) (r : RecordingReducer) :
    r.reduce scriptHash addressScript order ns policy b =
      some (setActions (r.entries scriptHash addressScript order ns b)) := by
  cases r with
  | txsByScriptHash =>
    unfold RecordingReducer.reduce RecordingReducer.entries TxsByScriptHash.reduceBlock txsEntries
    rw [setActions_flatMap]
    have hall : ∀ e ∈ b.block.txdata.zipIdx, e.1 ∈ b.block.txdata := fun e he => List.fst_mem_of_mem_zipIdx he
    generalize b.block.txdata.zipIdx = l at hall
    induction l with
    | nil => rfl
    | cons e l ih =>
      have hone := h.reduceTx_eq scriptHash order ns policy (hall e List.mem_cons_self) e.2
      obtain ⟨outputs, houtputs, hops⟩ := Option.map_eq_some_iff.mp hone
      obtain ⟨rest, hrest, hrestops⟩ := Option.map_eq_some_iff.mp
        (ih fun e' he' => hall e' (List.mem_cons_of_mem _ he'))
      rw [collect, houtputs, hrest]
      simp only [Option.bind_eq_bind, Option.bind_some, Option.map_some, List.flatMap_append, List.flatMap_cons, hops,
        hrestops, Option.pure_def]
  | scriptByScriptHash =>
    refine congrArg some ?_
    unfold ScriptByScriptHash.reduceBlock RecordingReducer.entries scriptEntries
    rw [setActions_flatMap, List.flatMap_assoc]
    refine congrArg List.flatten (List.map_congr_left fun tx _ => ?_)
    rw [setActions_map, List.flatMap_assoc]
    rfl
  | scriptHashByAddressPayloadHash =>
    refine congrArg some ?_
    unfold ScriptHashByAddressPayloadHash.reduceBlock RecordingReducer.entries payloadEntries
    rw [setActions_flatMap, List.flatMap_assoc]
    refine congrArg List.flatten (List.map_congr_left fun tx _ => ?_)
    induction tx.output with
    | nil => rfl
    | cons o l ih =>
      rw [List.flatMap_cons, List.flatMap_append, ih]
      unfold ScriptHashByAddressPayloadHash.processProducedTxo
      cases hpayload : addressScript o.scriptPubkey with
      | none => rw [List.filterMap_cons_none (by rw [hpayload]; rfl)]; rfl
      | some payload => rw [List.filterMap_cons_some (by rw [hpayload]; rfl)]; rfl
  | contentByInscriptionId =>
    refine congrArg some ?_
    unfold ContentByInscriptionId.reduceBlock RecordingReducer.entries contentEntries
    induction b.block.txdata with
    | nil => rfl
    | cons tx l ih =>
      rw [List.flatMap_cons, List.flatMap_append, ih]
      cases hinfo : b.ctx.newInscriptions.get tx.txid with
      | none => rw [List.filterMap_cons_none (by rw [hinfo]; rfl)]; rfl
      | some info => rw [List.filterMap_cons_some (by rw [hinfo]; rfl)]; rfl

theorem RecordingReducer.entries_prefix {r : RecordingReducer} {e : Key × Value}
    (h : e ∈ r.entries scriptHash addressScript order ns b) : ns.dataPrefix r.tag <+: e.1 := by
  cases r with
  | txsByScriptHash =>
    obtain ⟨tx, txIdx, owner, -, -, hk, -⟩ := (mem_txsEntries scriptHash b ns order (k := e.1) (v := e.2)).mp h
    rw [hk]
    exact List.prefix_append _ _
  | scriptByScriptHash =>
    obtain ⟨tx, -, h⟩ := List.mem_flatMap.mp h
    obtain ⟨o, -, rfl⟩ := List.mem_map.mp h
    exact List.prefix_append _ _
  | scriptHashByAddressPayloadHash =>
    obtain ⟨tx, -, h⟩ := List.mem_flatMap.mp h
    obtain ⟨o, -, h⟩ := List.mem_filterMap.mp h
    obtain ⟨payload, -, rfl⟩ := Option.map_eq_some_iff.mp h
    exact List.prefix_append _ _
  | contentByInscriptionId =>
    obtain ⟨tx, -, h⟩ := List.mem_filterMap.mp h
    obtain ⟨info, -, rfl⟩ := Option.map_eq_some_iff.mp h
    exact List.prefix_append _ _

theorem RecordingReducer.reduced (r : RecordingReducer) {chain : List EnrichedBlock} (hchain : ValidChain t chain)
    (policy : RuntimePolicy) :
    Reduced ns [r.tag] chain (fun b => r.reduce scriptHash addressScript order ns policy b)
      fun b => setActions (r.entries scriptHash addressScript order ns b) := by
  refine .of_entries (by cases r <;> rfl) (fun b hb => ?_) fun b _ e he => entries_prefix _ _ _ _ he
  obtain ⟨t, hvalid⟩ := hchain.valid_of_mem hb
  exact hvalid.recording_eq scriptHash addressScript order ns policy r

end

/-! ## What is read back -/

section

variable {scriptHash : Bytes → ScriptHash} {ns : Namespace} {order : TxsByScriptHash.SeenOrder}
  {chain : List EnrichedBlock}

theorem txsByScriptHashKey_inj {owner owner' : ScriptHash} {height height' idx idx' : Nat} {txid txid' : Txid}
    (hheight : height < 2 ^ 64) (hheight' : height' < 2 ^ 64)
    (h : txsByScriptHashKey ns owner height idx txid = txsByScriptHashKey ns owner' height' idx' txid') :
    owner = owner' ∧ height = height' ∧ txid = txid' := by
  obtain ⟨howner, hrest⟩ := fields_inj (dataKey_inj (by simp [Timbre.schema]) rfl h)
  obtain ⟨hheights, hrest⟩ := fields_inj hrest
  obtain ⟨-, htxid⟩ := fields_inj hrest
  exact ⟨array20_inj howner, uint_inj hheight hheight' hheights, array32_inj htxid⟩

theorem scriptByScriptHashKey_inj {owner owner' : ScriptHash}
    (h : scriptByScriptHashKey ns owner = scriptByScriptHashKey ns owner') : owner = owner' :=
  array20_inj (dataKey_inj (t := Timbre.ScriptByScriptHash.key) (by simp [Timbre.schema]) rfl h)

theorem contentByInscriptionIdKey_inj {id id' : InscriptionId} (hid : id.index < 2 ^ 32) (hid' : id'.index < 2 ^ 32)
    (h : contentByInscriptionIdKey ns id = contentByInscriptionIdKey ns id') : id = id' := by
  obtain ⟨htxid, hindex⟩ := fields_inj (dataKey_inj (by simp [Timbre.schema]) rfl h)
  obtain ⟨txid, index⟩ := id
  obtain ⟨txid', index'⟩ := id'
  cases array32_inj htxid
  cases uint_inj (w := 4) hid hid' hindex
  rfl

/-- Blocks of a chain at one height, when the heights are distinct. -/
theorem block_of_height (h : (chain.map fun b => b.point.height).Nodup) {b b' : EnrichedBlock} (hb : b ∈ chain)
    (hb' : b' ∈ chain) (heq : b.point.height = b'.point.height) : b = b' :=
  List.inj_on_of_nodup_map h hb hb' heq

/-- **One entry for each transaction of a script.**  Where the blocks of a chain have different heights, what is read
for a script is exactly the transactions of the chain that spend from it or pay to it. -/
theorem txs_exact (hchain : ValidChain Table.empty chain) (hheights : (chain.map fun b => b.point.height).Nodup)
    (k : Key) (v : Value) :
    Ledger.reading k none (Ledger.assignments (chain.flatMap fun b => txsEntries scriptHash b ns order)) = some v ↔
      ∃ b ∈ chain, (k, v) ∈ txsEntries scriptHash b ns order := by
  rw [Ledger.reading_assignments (v := v), List.mem_flatMap]
  intro v v' hmem hmem'
  obtain ⟨b, hb, hmem⟩ := List.mem_flatMap.mp hmem
  obtain ⟨b', hb', hmem'⟩ := List.mem_flatMap.mp hmem'
  obtain ⟨tx, txIdx, owner, hget, -, rfl, rfl⟩ := (mem_txsEntries scriptHash b ns order).mp hmem
  obtain ⟨tx', txIdx', owner', hget', -, hk, rfl⟩ := (mem_txsEntries scriptHash b' ns order).mp hmem'
  obtain ⟨t, hvalid⟩ := hchain.valid_of_mem hb
  obtain ⟨t', hvalid'⟩ := hchain.valid_of_mem hb'
  obtain ⟨howner, hheight, htxid⟩ := txsByScriptHashKey_inj hvalid.height hvalid'.height hk
  obtain rfl := block_of_height hheights hb hb' hheight
  obtain rfl : tx = tx' := List.inj_on_of_nodup_map hvalid.txids (List.mem_of_getElem? hget)
    (List.mem_of_getElem? hget') htxid
  rw [howner]

/-- **Every script of an output is found by its hash**, up to a collision of the hash. -/
theorem scripts_found {b : EnrichedBlock} (hb : b ∈ chain) {tx : Transaction} (htx : tx ∈ b.block.txdata) {o : TxOut}
    (ho : o ∈ tx.output) :
    ∃ script, scriptHash script = scriptHash o.scriptPubkey ∧
      Ledger.reading (scriptByScriptHashKey ns (scriptHash o.scriptPubkey)) none
        (Ledger.assignments (chain.flatMap fun b => scriptEntries scriptHash b ns)) =
          some (scriptByScriptHashValue script) ∧
      ∃ b ∈ chain, ∃ tx ∈ b.block.txdata, ∃ o ∈ tx.output, o.scriptPubkey = script := by
  have hmem : (scriptByScriptHashKey ns (scriptHash o.scriptPubkey), scriptByScriptHashValue o.scriptPubkey) ∈
      chain.flatMap fun b => scriptEntries scriptHash b ns :=
    List.mem_flatMap.mpr ⟨b, hb, List.mem_flatMap.mpr ⟨tx, htx, List.mem_map.mpr ⟨o, ho, rfl⟩⟩⟩
  obtain ⟨v, hv⟩ := Ledger.isSome_reading_assignments hmem
  obtain ⟨b', hb', hv'⟩ := List.mem_flatMap.mp (Ledger.mem_of_reading_assignments hv)
  obtain ⟨tx', htx', hv'⟩ := List.mem_flatMap.mp hv'
  obtain ⟨o', ho', heq⟩ := List.mem_map.mp hv'
  refine ⟨o'.scriptPubkey, ?_, ?_, b', hb', tx', htx', o', ho', rfl⟩
  · exact scriptByScriptHashKey_inj (congrArg Prod.fst heq)
  · rw [hv]
    exact congrArg some (congrArg Prod.snd heq).symm

end

end DogeIndexer.Polyphony.Reducers
