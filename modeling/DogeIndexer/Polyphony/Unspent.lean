import DogeIndexer.Compressor.Applied
import DogeIndexer.Polyphony.Reducers
import DogeIndexer.Polyphony.Views

/-!
# The unspent outputs of a chain

The blocks that reach the reducers, seen as events on the ledger of unspent outputs: an input
spends an output as the context describes it, and an output is produced with what the context
places on it.

* `EnrichedBlock.Valid` — what the network guarantees of the next block, and that its context
  describes every input as it was produced.
* `blockActions_eq` — the storage actions of a block are those of its events, reducer by reducer.
* `EnrichedBlock.Valid.eventsOf` — leaving out the outputs that are produced and spent in one block
  changes nothing that remains.
-/

set_option autoImplicit false

namespace DogeIndexer.Polyphony.Reducers

open Compressor (Bytes U32 Txid ScriptHash OutPoint TxIn TxOut DuneId InscriptionId Transaction Block CoinbaseFirst
  txIds)
open Timbre (Namespace)

/-- An unspent output and what it carries. -/
structure Utxo where
  height : Nat
  txo : TxOut
  runes : List (DuneId × U128)
  inscriptions : List (U32 × InscriptionId)
  deriving DecidableEq

/-- Numbers in the widths of the source, and each dune listed once. -/
structure Utxo.WellFormed (ref : OutPoint) (u : Utxo) : Prop where
  vout : ref.vout < 2 ^ 32
  dunes : (u.runes.map Prod.fst).Nodup
  dune : ∀ e ∈ u.runes, e.1.block < 2 ^ 64 ∧ e.1.tx < 2 ^ 32
  inscription : ∀ e ∈ u.inscriptions, e.2.index < 2 ^ 32

abbrev Unspent := Table OutPoint Utxo

abbrev Event := Ledger.Event OutPoint Utxo

namespace EnrichedBlock

variable (b : EnrichedBlock)

/-- An output with what the context places on it. -/
def described (ref : OutPoint) (height : Nat) (txo : TxOut) : Utxo :=
  ⟨height, txo, (b.ctx.utxoRunes ref).getD [], (b.ctx.utxoInscriptions ref).getD []⟩

/-- The inputs of a transaction, as the context resolves them. -/
def consumedBy (tx : Transaction) : List (OutPoint × Utxo) :=
  if isCoinbase tx then [] else
    (inputs tx).filterMap fun ref => (b.ctx.findUtxo ref).map fun u => (ref, b.described ref u.height u.txo)

def producedBy (tx : Transaction) : List (OutPoint × Utxo) :=
  (outputs tx).map fun x => (x.1, b.described x.1 b.point.height x.2)

def txEvents (tx : Transaction) : List Event :=
  (b.consumedBy tx).map (fun e => .spend e.1 e.2) ++ (b.producedBy tx).map fun e => .produce e.1 e.2

/-- The transactions one after another, the inputs of each before its outputs. -/
def events : List Event := b.block.txdata.flatMap b.txEvents

/-- The next block after those that left the outputs `t` unspent: the coinbase comes first, the txids are new, every
input is unspent (produced in an earlier block, or by an earlier transaction) and known to the context as it was
produced.  The context lists a dune once for an output, and its numbers have the widths of the source. -/
structure Valid (t : Unspent) : Prop where
  coinbase : CoinbaseFirst b.block
  txids : (txIds b.block).Nodup
  fresh : ∀ tx ∈ b.block.txdata, ∀ vout, t.get ⟨tx.txid, vout⟩ = none
  outputCount : ∀ tx ∈ b.block.txdata, tx.output.length < 2 ^ 32
  height : b.point.height < 2 ^ 64
  runes : ∀ ref runes, b.ctx.utxoRunes ref = some runes →
    (runes.map Prod.fst).Nodup ∧ ∀ e ∈ runes, e.1.block < 2 ^ 64 ∧ e.1.tx < 2 ^ 32
  inscriptions : ∀ ref inscriptions, b.ctx.utxoInscriptions ref = some inscriptions →
    ∀ e ∈ inscriptions, e.2.index < 2 ^ 32
  resolved : ∀ tx ∈ b.block.txdata.drop 1, ∀ ref ∈ inputs tx, (b.ctx.findUtxo ref).isSome = true
  spends : Ledger.Valid t b.events

/-- A condition on the entries of a table. -/
theorem forall_get {K V : Type} [LinearOrder K] {t : Table K V} {P : K → V → Prop} :
    (∀ e ∈ t.entries, P e.1 e.2) ↔ ∀ k v, t.get k = some v → P k v :=
  ⟨fun h k v hget => h (k, v) (Table.mem_entries.mpr hget), fun h e he => h e.1 e.2 (Table.mem_entries.mp he)⟩

instance (t : Unspent) : Decidable (b.Valid t) :=
  decidable_of_iff (CoinbaseFirst b.block ∧ (txIds b.block).Nodup ∧ (∀ e ∈ t.entries, e.1.txid ∉ txIds b.block) ∧
      (∀ tx ∈ b.block.txdata, tx.output.length < 2 ^ 32) ∧ b.point.height < 2 ^ 64 ∧
      (∀ e ∈ b.ctx.runesResolver.entries,
        (e.2.map Prod.fst).Nodup ∧ ∀ rune ∈ e.2, rune.1.block < 2 ^ 64 ∧ rune.1.tx < 2 ^ 32) ∧
      (∀ e ∈ b.ctx.inscriptionsResolver.entries, ∀ inscription ∈ e.2, inscription.2.index < 2 ^ 32) ∧
      (∀ tx ∈ b.block.txdata.drop 1, ∀ ref ∈ inputs tx, (b.ctx.findUtxo ref).isSome = true) ∧
      Ledger.Valid t b.events) (by
    constructor
    · rintro ⟨hcoinbase, htxids, hfresh, houtputs, hheight, hrunes, hinscriptions, hresolved, hspends⟩
      refine ⟨hcoinbase, htxids, fun tx htx vout => ?_, houtputs, hheight, forall_get.mp hrunes,
        forall_get.mp hinscriptions, hresolved, hspends⟩
      by_contra hsome
      obtain ⟨u, hget⟩ := Option.ne_none_iff_exists'.mp hsome
      exact hfresh _ (Table.mem_entries.mpr hget) (List.mem_map_of_mem htx)
    · rintro ⟨hcoinbase, htxids, hfresh, houtputs, hheight, hrunes, hinscriptions, hresolved, hspends⟩
      refine ⟨hcoinbase, htxids, fun e he hmem => ?_, houtputs, hheight, forall_get.mpr hrunes,
        forall_get.mpr hinscriptions, hresolved, hspends⟩
      obtain ⟨tx, htx, heq⟩ := List.mem_map.mp hmem
      have hget := Table.mem_entries.mp he
      rw [show e.1 = ⟨tx.txid, e.1.vout⟩ from by rw [heq], hfresh tx htx] at hget
      cases hget)

end EnrichedBlock

/-- A sequence of valid blocks after those that left `t` unspent. -/
def ValidChain : Unspent → List EnrichedBlock → Prop
  | _, [] => True
  | t, b :: chain => b.Valid t ∧ ValidChain (Ledger.run t b.events) chain

instance decidableValidChain : (t : Unspent) → (chain : List EnrichedBlock) → Decidable (ValidChain t chain)
  | _, [] => isTrue trivial
  | t, b :: chain =>
    have := decidableValidChain (Ledger.run t b.events) chain
    inferInstanceAs (Decidable (_ ∧ _))

/-- The outputs that a chain leaves unspent. -/
def unspentAfter (chain : List EnrichedBlock) : Unspent := Ledger.run Table.empty (chain.flatMap EnrichedBlock.events)

/-! ## What a reducer does with an event -/

section

variable (scriptHash : Bytes → ScriptHash) (ns : Namespace)

/-- The script hash that an output is indexed under. -/
def Utxo.owner (u : Utxo) : ScriptHash := scriptHash u.txo.scriptPubkey

def utxoEntries (ref : OutPoint) (u : Utxo) : List (Key × Value) :=
  [(utxosByScriptHashKey ns (u.owner scriptHash) u.height ref, utxosByScriptHashValue u.txo.value)]

def satAmounts (_ref : OutPoint) (u : Utxo) : List (Key × U64) :=
  [(satBalanceByScriptHashKey ns (u.owner scriptHash), u.txo.value)]

def runeAmounts (_ref : OutPoint) (u : Utxo) : List (Key × U128) :=
  u.runes.map fun e => (balancesByRuneIdKey ns e.1 (u.owner scriptHash), e.2)

def scriptRuneAmounts (_ref : OutPoint) (u : Utxo) : List (Key × U128) :=
  u.runes.map fun e => (runeBalancesByScriptHashKey ns (u.owner scriptHash) e.1, e.2)

def runeUtxoEntries (ref : OutPoint) (u : Utxo) : List (Key × Value) :=
  u.runes.map fun e =>
    (utxosByRuneIdKey ns e.1 u.height ref, utxosByRuneIdValue (u.owner scriptHash) e.2 u.txo.value)

def inscriptionEntries (ref : OutPoint) (u : Utxo) : List (Key × Value) :=
  u.inscriptions.map fun e =>
    (inscriptionsByScriptHashKey ns (u.owner scriptHash) e.2, inscriptionsByScriptHashValue u.height ref e.1)

namespace Reducer

/-- The outputs of a reducer for an event. -/
def eventOutputs : Reducer → Event → List ReducerOutput
  | balancesByRuneId, .spend _ u => u.runes.map fun e => .balancesByRuneId e.1 (u.owner scriptHash) (.decrement e.2)
  | balancesByRuneId, .produce _ u => u.runes.map fun e => .balancesByRuneId e.1 (u.owner scriptHash) (.increment e.2)
  | inscriptionsByScriptHash, .spend _ u => u.inscriptions.map fun e =>
    .inscriptionsByScriptHash (u.owner scriptHash) e.2 .consumed
  | inscriptionsByScriptHash, .produce ref u => u.inscriptions.map fun e =>
    .inscriptionsByScriptHash (u.owner scriptHash) e.2 (.produced (u.height, ref, e.1))
  | runeBalancesByScriptHash, .spend _ u => u.runes.map fun e =>
    .runeBalancesByScriptHash (u.owner scriptHash) e.1 (.decrement e.2)
  | runeBalancesByScriptHash, .produce _ u => u.runes.map fun e =>
    .runeBalancesByScriptHash (u.owner scriptHash) e.1 (.increment e.2)
  | satBalanceByScriptHash, .spend _ u => [.satBalanceByScriptHash (u.owner scriptHash) (.decrement u.txo.value)]
  | satBalanceByScriptHash, .produce _ u => [.satBalanceByScriptHash (u.owner scriptHash) (.increment u.txo.value)]
  | utxosByRuneId, .spend ref u => u.runes.map fun e => .utxosByRuneId e.1 u.height ref .consumed
  | utxosByRuneId, .produce ref u => u.runes.map fun e =>
    .utxosByRuneId e.1 u.height ref (.produced (u.owner scriptHash, e.2, u.txo.value))
  | utxosByScriptHash, .spend ref u => [.utxosByScriptHash (u.owner scriptHash) u.height ref .consumed]
  | utxosByScriptHash, .produce ref u => [.utxosByScriptHash (u.owner scriptHash) u.height ref (.produced u.txo.value)]

/-- The storage actions of an event. -/
def eventActions : Reducer → Event → List StorageAction
  | balancesByRuneId => counterActions .u128 (runeAmounts scriptHash ns)
  | inscriptionsByScriptHash => fun e => (Ledger.updates (inscriptionEntries scriptHash ns) e).map writeAction
  | runeBalancesByScriptHash => counterActions .u128 (scriptRuneAmounts scriptHash ns)
  | satBalanceByScriptHash => counterActions .u64 (satAmounts scriptHash ns)
  | utxosByRuneId => fun e => (Ledger.updates (runeUtxoEntries scriptHash ns) e).map writeAction
  | utxosByScriptHash => fun e => (Ledger.updates (utxoEntries scriptHash ns) e).map writeAction

/-- The outpoints that a reducer leaves out. -/
def skips (block : Block) : Reducer → OutPoint → Bool
  | utxosByRuneId => fun x => (chainedTxos block.txdata).contains x
  | utxosByScriptHash => fun x => (chainedTxos block.txdata).contains x
  | _ => fun _ => false

/-- The events that a reducer takes up. -/
def eventsOf (r : Reducer) (b : EnrichedBlock) : List Event := b.events.filter fun e => !r.skips b.block e.ref

end Reducer

end

/-! ## Reducing a block -/

theorem collect_eq {α β : Type} {f : α → Option (List β)} {g : α → List β} {l : List α}
    (h : ∀ a ∈ l, f a = some (g a)) : collect f l = some (l.flatMap g) := by
  induction l with
  | nil => rfl
  | cons a l ih =>
    rw [collect, h a List.mem_cons_self, ih fun a' ha' => h a' (List.mem_cons_of_mem _ ha')]
    rfl

theorem isCoinbase_of_inputs {tx : Transaction} (h : inputs tx = [OutPoint.null]) : isCoinbase tx = true := by
  obtain ⟨txin, hinput, hnull⟩ := List.map_eq_singleton_iff.mp h
  unfold isCoinbase
  rw [hinput]
  simp [OutPoint.isNull, hnull]

theorem not_isCoinbase {tx : Transaction} (h : OutPoint.null ∉ inputs tx) : isCoinbase tx = false := by
  unfold isCoinbase
  split
  · rename_i txin hinput
    by_contra hnull
    rw [Bool.not_eq_false, OutPoint.isNull, decide_eq_true_eq] at hnull
    refine h ?_
    unfold inputs
    rw [hinput, List.map_singleton, hnull]
    exact List.mem_singleton_self _
  · rfl

namespace EnrichedBlock

variable {b : EnrichedBlock} {t : Unspent}

/-- A transaction is the coinbase, or its inputs are resolved. -/
theorem Valid.tx_cases (h : b.Valid t) {tx : Transaction} (htx : tx ∈ b.block.txdata) :
    (isCoinbase tx = true ∧ inputs tx = [OutPoint.null]) ∨
      (isCoinbase tx = false ∧ ∀ ref ∈ inputs tx, ∃ u, b.ctx.findUtxo ref = some u) := by
  cases hdata : b.block.txdata with
  | nil =>
    rw [hdata] at htx
    cases htx
  | cons coinbase txs =>
    obtain ⟨hcb, hrest⟩ := h.coinbase.not_null hdata
    rw [hdata] at htx
    rcases List.mem_cons.mp htx with rfl | htx
    · exact Or.inl ⟨isCoinbase_of_inputs hcb, hcb⟩
    · refine Or.inr ⟨not_isCoinbase (hrest tx htx), fun ref href => ?_⟩
      exact Option.isSome_iff_exists.mp (h.resolved tx (by rw [hdata]; exact htx) ref href)

/-- **A reducer's loop over a block** is a loop over the events of the block. -/
theorem Valid.reduceTxs_eq (h : b.Valid t) (skip : OutPoint → Bool)
    {processConsumedTxo : OutPoint → Option (List ReducerOutput)}
    {processProducedTxo : OutPoint → TxOut → List ReducerOutput} {f : Event → List ReducerOutput}
    (hconsumed : ∀ ref u, b.ctx.findUtxo ref = some u →
      processConsumedTxo ref = some (f (.spend ref (b.described ref u.height u.txo))))
    (hproduced : ∀ ref txo, processProducedTxo ref txo = f (.produce ref (b.described ref b.point.height txo))) :
    reduceTxs skip processConsumedTxo processProducedTxo b.block =
      some ((b.events.filter fun e => !skip e.ref).flatMap f) := by
  have htx : ∀ tx ∈ b.block.txdata, (do
      let consumed ← if isCoinbase tx then some [] else
        collect processConsumedTxo ((inputs tx).filter fun x => !skip x)
      return consumed ++ ((outputs tx).filter fun x => !skip x.1).flatMap fun x => processProducedTxo x.1 x.2) =
      some (((b.txEvents tx).filter fun e => !skip e.ref).flatMap f) := by
    intro tx htx
    have hout : (((b.producedBy tx).map fun e => (.produce e.1 e.2 : Event)).filter fun e => !skip e.ref).flatMap f =
        ((outputs tx).filter fun x => !skip x.1).flatMap fun x => processProducedTxo x.1 x.2 := by
      unfold producedBy
      rw [List.map_map, List.filter_map, List.flatMap_map]
      refine congrArg List.flatten (List.map_congr_left fun x _ => ?_)
      exact (hproduced x.1 x.2).symm
    unfold txEvents
    rw [List.filter_append, List.flatMap_append, hout]
    rcases h.tx_cases htx with ⟨hcb, -⟩ | ⟨hcb, hresolved⟩
    · unfold consumedBy
      rw [if_pos hcb, if_pos hcb]
      rfl
    · have hin : ∀ l : List OutPoint, (∀ ref ∈ l, ∃ u, b.ctx.findUtxo ref = some u) →
          collect processConsumedTxo (l.filter fun x => !skip x) =
            some ((((l.filterMap fun ref => (b.ctx.findUtxo ref).map fun u =>
              (ref, b.described ref u.height u.txo)).map fun e => (.spend e.1 e.2 : Event)).filter
                fun e => !skip e.ref).flatMap f) := by
        intro l hl
        induction l with
        | nil => rfl
        | cons ref l ih =>
          obtain ⟨u, hu⟩ := hl ref List.mem_cons_self
          have hrest := ih fun ref' href' => hl ref' (List.mem_cons_of_mem _ href')
          rw [List.filterMap_cons_some (by rw [hu]; rfl), List.map_cons]
          by_cases hskip : skip ref = true
          · rw [List.filter_cons_of_neg (by simp [hskip]), hrest,
              List.filter_cons_of_neg (by simp [Ledger.Event.ref, hskip])]
          · rw [List.filter_cons_of_pos (by simp [hskip]), collect, hconsumed ref u hu, hrest,
              List.filter_cons_of_pos (by simp [Ledger.Event.ref, hskip])]
            rfl
      unfold consumedBy
      rw [if_neg (by simp [hcb]), if_neg (by simp [hcb]), hin (inputs tx) hresolved]
      rfl
  unfold reduceTxs
  rw [collect_eq htx]
  unfold events
  rw [List.filter_flatMap, List.flatMap_assoc]

end EnrichedBlock

section

variable (scriptHash : Bytes → ScriptHash) (policy : RuntimePolicy) (ns : Namespace)

theorem applyPolicy_some {α : Type} (a : α) : applyPolicy policy (some a) = some (some a) := rfl

/-- The outputs of an event, as storage actions. -/
theorem eventOutputs_toStorageOps (r : Reducer) (e : Event) :
    (r.eventOutputs scriptHash e).flatMap (reducerOutputToStorageOps ns) = r.eventActions scriptHash ns e := by
  have hmap : ∀ {α : Type} (l : List α) (output : α → ReducerOutput) (action : α → StorageAction),
      (∀ a, reducerOutputToStorageOps ns (output a) = [action a]) →
        (l.map output).flatMap (reducerOutputToStorageOps ns) = l.map action := by
    intro α l output action h
    rw [List.flatMap_map, List.map_eq_flatMap]
    exact congrArg List.flatten (List.map_congr_left fun a _ => h a)
  cases r with
  | balancesByRuneId =>
    cases e with
    | spend ref u => exact (hmap _ _ _ fun _ => rfl).trans List.map_map.symm
    | produce ref u => exact (hmap _ _ _ fun _ => rfl).trans List.map_map.symm
  | runeBalancesByScriptHash =>
    cases e with
    | spend ref u => exact (hmap _ _ _ fun _ => rfl).trans List.map_map.symm
    | produce ref u => exact (hmap _ _ _ fun _ => rfl).trans List.map_map.symm
  | inscriptionsByScriptHash =>
    cases e with
    | spend ref u =>
      exact (hmap _ _ _ fun _ => rfl).trans (List.map_map.symm.trans (congrArg (List.map writeAction) List.map_map.symm))
    | produce ref u =>
      exact (hmap _ _ _ fun _ => rfl).trans (List.map_map.symm.trans (congrArg (List.map writeAction) List.map_map.symm))
  | utxosByRuneId =>
    cases e with
    | spend ref u =>
      exact (hmap _ _ _ fun _ => rfl).trans (List.map_map.symm.trans (congrArg (List.map writeAction) List.map_map.symm))
    | produce ref u =>
      exact (hmap _ _ _ fun _ => rfl).trans (List.map_map.symm.trans (congrArg (List.map writeAction) List.map_map.symm))
  | satBalanceByScriptHash => cases e <;> rfl
  | utxosByScriptHash => cases e <;> rfl

variable {b : EnrichedBlock} {t : Unspent}

/-- A reducer makes the outputs of the events that it takes up. -/
theorem EnrichedBlock.Valid.reducer_eq (h : b.Valid t) (r : Reducer) :
    r.reduceBlock scriptHash policy b.point.height b.block b.ctx =
      some ((r.eventsOf b).flatMap (r.eventOutputs scriptHash)) := by
  cases r with
  | utxosByScriptHash =>
    refine h.reduceTxs_eq _ (fun ref u hu => ?_) fun ref txo => rfl
    simp only [UtxosByScriptHash.processConsumedTxo, hu, applyPolicy_some]
    rfl
  | satBalanceByScriptHash =>
    refine h.reduceTxs_eq _ (fun ref u hu => ?_) fun ref txo => rfl
    simp only [SatBalanceByScriptHash.processConsumedTxo, hu, applyPolicy_some]
    rfl
  | balancesByRuneId =>
    refine h.reduceTxs_eq _ (fun ref u hu => ?_) fun ref txo => rfl
    simp only [BalancesByRuneId.processConsumedTxo, hu, applyPolicy_some]
    cases hrunes : b.ctx.utxoRunes ref with
    | none => simp [Reducer.eventOutputs, EnrichedBlock.described, hrunes]
    | some runes => simp [Reducer.eventOutputs, EnrichedBlock.described, hrunes, Utxo.owner]
  | runeBalancesByScriptHash =>
    refine h.reduceTxs_eq _ (fun ref u hu => ?_) fun ref txo => rfl
    simp only [RuneBalancesByScriptHash.processConsumedTxo, hu, applyPolicy_some]
    rfl
  | utxosByRuneId =>
    refine h.reduceTxs_eq _ (fun ref u hu => ?_) fun ref txo => rfl
    simp only [UtxosByRuneId.processConsumedTxo, hu, applyPolicy_some]
    cases hrunes : b.ctx.utxoRunes ref with
    | none => simp [Reducer.eventOutputs, EnrichedBlock.described, hrunes]
    | some runes => simp [Reducer.eventOutputs, EnrichedBlock.described, hrunes]
  | inscriptionsByScriptHash =>
    refine h.reduceTxs_eq _ (fun ref u hu => ?_) fun ref txo => rfl
    simp only [InscriptionsByScriptHash.processConsumedTxo, hu, applyPolicy_some]
    rfl

/-- The actions that a block's cursor is stored with. -/
def cursorActions (b : EnrichedBlock) : List StorageAction :=
  reducerOutputToStorageOps ns (.cursor b.point false b.now)

/-- **The storage actions of a block** are those of the events that each reducer takes up, and the cursor's. -/
theorem EnrichedBlock.Valid.blockActions_eq (h : b.Valid t) (reducers : List Reducer) :
    blockActions scriptHash policy ns reducers b =
      some ((reducers.flatMap fun r => (r.eventsOf b).flatMap (r.eventActions scriptHash ns)) ++
        cursorActions ns b) := by
  unfold blockActions reduceBlock
  rw [collect_eq fun r _ => h.reducer_eq scriptHash policy r]
  simp only [Option.bind_eq_bind, Option.bind_some, Option.map_some, Option.pure_def, List.flatMap_append,
    List.flatMap_assoc, eventOutputs_toStorageOps]
  rw [List.flatMap_singleton]
  rfl

end

/-! ## Outputs that are produced and spent in one block -/

section

variable {b : EnrichedBlock} {t : Unspent}

theorem outputs_fst {tx : Transaction} (h : tx.output.length < 2 ^ 32) :
    (outputs tx).map Prod.fst = Compressor.outputRefs tx := by
  unfold outputs Compressor.outputRefs
  rw [List.map_map, List.range_eq_range', ← List.zipIdx_map_snd 0 tx.output, List.map_map]
  refine List.map_congr_left fun e he => ?_
  have hlt : e.2 < 2 ^ 32 := lt_of_lt_of_le (by simpa using List.snd_lt_of_mem_zipIdx he) (le_of_lt h)
  simp only [Function.comp_apply, Nat.mod_eq_of_lt hlt]

namespace EnrichedBlock

theorem Valid.produced_events (h : b.Valid t) :
    Ledger.produced b.events = b.block.txdata.flatMap Compressor.outputRefs := by
  unfold events
  rw [Ledger.produced_flatMap]
  refine congrArg List.flatten (List.map_congr_left fun tx htx => ?_)
  unfold txEvents
  rw [Ledger.produced_append, Ledger.produced_spends, Ledger.produced_produces, List.nil_append, producedBy,
    List.map_map, ← outputs_fst (h.outputCount tx htx)]
  rfl

theorem nodup_outputRefs {txs : List Transaction} (h : (txs.map Transaction.txid).Nodup) :
    (txs.flatMap Compressor.outputRefs).Nodup := by
  induction txs with
  | nil => exact List.nodup_nil
  | cons tx txs ih =>
    rw [List.map_cons, List.nodup_cons] at h
    rw [List.flatMap_cons, List.nodup_append]
    refine ⟨?_, ih h.2, ?_⟩
    · refine List.nodup_range.map fun a c heq => ?_
      exact congrArg OutPoint.vout heq
    · intro ref href ref' href' heq
      obtain ⟨tx', htx', hout⟩ := List.mem_flatMap.mp href'
      refine h.1 (List.mem_map.mpr ⟨tx', htx', ?_⟩)
      rw [← (Compressor.mem_outputRefs.mp href).1, heq, (Compressor.mem_outputRefs.mp hout).1]

/-- The txids of what a block produces are its own. -/
theorem Valid.get_produced (h : b.Valid t) {ref : OutPoint} (href : ref ∈ Ledger.produced b.events) :
    t.get ref = none := by
  rw [h.produced_events] at href
  obtain ⟨tx, htx, hout⟩ := List.mem_flatMap.mp href
  have hfresh := h.fresh tx htx ref.vout
  rwa [← (Compressor.mem_outputRefs.mp hout).1] at hfresh

/-- What is chained is produced and spent by the block. -/
theorem Valid.chained (h : b.Valid t) {ref : OutPoint} (href : ref ∈ chainedTxos b.block.txdata) :
    ref ∈ Ledger.produced b.events ∧ ∃ u, Ledger.Event.spend ref u ∈ b.events := by
  obtain ⟨hproduced, hconsumed⟩ := List.mem_filter.mp href
  obtain ⟨tx, htx, hout⟩ := List.mem_flatMap.mp hproduced
  rw [outputs_fst (h.outputCount tx htx)] at hout
  have hmem : ref ∈ Ledger.produced b.events := by
    rw [h.produced_events]
    exact List.mem_flatMap.mpr ⟨tx, htx, hout⟩
  obtain ⟨tx', htx', hin⟩ := List.mem_flatMap.mp (List.contains_iff_mem.mp hconsumed)
  refine ⟨hmem, ?_⟩
  rcases h.tx_cases htx' with ⟨-, hnull⟩ | ⟨hcb, hresolved⟩
  · -- the null outpoint is no output
    rw [hnull, List.mem_singleton] at hin
    have hvout := (Compressor.mem_outputRefs.mp hout).2
    have hlt := h.outputCount tx htx
    rw [hin] at hvout
    simp only [OutPoint.null] at hvout
    omega
  · obtain ⟨u, hu⟩ := hresolved ref hin
    refine ⟨b.described ref u.height u.txo, List.mem_flatMap.mpr ⟨tx', htx', List.mem_append_left _ ?_⟩⟩
    unfold consumedBy
    rw [if_neg (by simp [hcb])]
    refine List.mem_map.mpr ⟨(ref, b.described ref u.height u.txo), List.mem_filterMap.mpr ⟨ref, hin, ?_⟩, rfl⟩
    rw [hu]
    rfl

/-- Before and after a block, no unspent output is one that it produces and spends. -/
theorem Valid.not_skips (h : b.Valid t) (r : Reducer) {ref : OutPoint} {u : Utxo}
    (hget : t.get ref = some u ∨ (Ledger.run t b.events).get ref = some u) : (!r.skips b.block ref) = true := by
  have hchained : ref ∉ chainedTxos b.block.txdata := by
    intro href
    obtain ⟨hproduced, u', hspent⟩ := h.chained href
    have hfree := h.get_produced hproduced
    rcases hget with hget | hget
    · rw [hfree] at hget
      cases hget
    · have hnodup : (Ledger.produced b.events).Nodup := by
        rw [h.produced_events]
        exact nodup_outputRefs h.txids
      rw [Ledger.get_run_of_spent h.spends hnodup (fun _ => hfree) hspent] at hget
      cases hget
  cases r <;> simp [Reducer.skips, hchained]

/-- What a block produces is well formed. -/
theorem Valid.produce_wellFormed (h : b.Valid t) {ref : OutPoint} {u : Utxo}
    (hmem : Ledger.Event.produce ref u ∈ b.events) : u.WellFormed ref := by
  obtain ⟨tx, htx, hin⟩ := List.mem_flatMap.mp hmem
  rcases List.mem_append.mp hin with hin | hin
  · obtain ⟨e, -, heq⟩ := List.mem_map.mp hin
    cases heq
  · obtain ⟨e, he, heq⟩ := List.mem_map.mp hin
    cases heq
    obtain ⟨x, hx, rfl⟩ := List.mem_map.mp he
    obtain ⟨y, -, rfl⟩ := List.mem_map.mp hx
    refine ⟨Nat.mod_lt _ (by decide), ?_, ?_, ?_⟩
    · unfold described
      cases hrunes : b.ctx.utxoRunes ⟨tx.txid, y.2 % 2 ^ 32⟩ with
      | none => exact List.nodup_nil
      | some runes => exact (h.runes _ runes hrunes).1
    · unfold described
      cases hrunes : b.ctx.utxoRunes ⟨tx.txid, y.2 % 2 ^ 32⟩ with
      | none => exact fun e he => absurd he List.not_mem_nil
      | some runes => exact (h.runes _ runes hrunes).2
    · unfold described
      cases hinscriptions : b.ctx.utxoInscriptions ⟨tx.txid, y.2 % 2 ^ 32⟩ with
      | none => exact fun e he => absurd he List.not_mem_nil
      | some inscriptions => exact h.inscriptions _ inscriptions hinscriptions

end EnrichedBlock

/-- **Leaving out chained outputs** leaves the same outputs unspent, by valid events. -/
theorem EnrichedBlock.Valid.eventsOf (h : b.Valid t) (r : Reducer) :
    Ledger.Valid t (r.eventsOf b) ∧ Ledger.run t (r.eventsOf b) = Ledger.run t b.events := by
  have hbefore : Ledger.restrict (fun ref => !r.skips b.block ref) t = t :=
    Ledger.restrict_eq_self fun ref u hget => h.not_skips r (Or.inl hget)
  have hafter : Ledger.restrict (fun ref => !r.skips b.block ref) (Ledger.run t b.events) = Ledger.run t b.events :=
    Ledger.restrict_eq_self fun ref u hget => h.not_skips r (Or.inr hget)
  constructor
  · have hvalid := h.spends.filter fun ref => !r.skips b.block ref
    rwa [hbefore] at hvalid
  · have hrun := Ledger.run_filter (fun ref => !r.skips b.block ref) t b.events
    rwa [hbefore, hafter] at hrun

/-- The events of a chain that a reducer takes up. -/
theorem ValidChain.eventsOf {chain : List EnrichedBlock} (h : ValidChain t chain) (r : Reducer) :
    Ledger.Valid t (chain.flatMap r.eventsOf) ∧
      Ledger.run t (chain.flatMap r.eventsOf) = Ledger.run t (chain.flatMap EnrichedBlock.events) := by
  induction chain generalizing t with
  | nil => exact ⟨trivial, rfl⟩
  | cons b chain ih =>
    obtain ⟨hvalid, hrun⟩ := h.1.eventsOf r
    obtain ⟨hrest, hrunrest⟩ := ih h.2
    rw [List.flatMap_cons, List.flatMap_cons, Ledger.valid_append, Ledger.run_append, Ledger.run_append, hrun]
    exact ⟨⟨hvalid, hrest⟩, hrunrest⟩

/-- What a chain produces is well formed. -/
theorem ValidChain.produce_wellFormed {chain : List EnrichedBlock} (h : ValidChain t chain) {ref : OutPoint} {u : Utxo}
    (hmem : Ledger.Event.produce ref u ∈ chain.flatMap EnrichedBlock.events) : u.WellFormed ref := by
  induction chain generalizing t with
  | nil => cases hmem
  | cons b chain ih =>
    rw [List.flatMap_cons] at hmem
    rcases List.mem_append.mp hmem with hmem | hmem
    · exact h.1.produce_wellFormed hmem
    · exact ih h.2 hmem

end

end DogeIndexer.Polyphony.Reducers
