import DogeIndexer.Compressor.MintCounts
import DogeIndexer.Polyphony.Etchings

/-!
# Configured reducers

The reducer `mints_by_rune_id` (`polyphony-xdg/src/reducers/mints_by_rune_id.rs`), which counts, and the configurations of
all reducers together (`Reducer` in `polyphony-xdg/src/reducers/mod.rs`).

* `mints_counted` — a counter of mints is the number of claims that were reported.
* `configured` — whatever reducers are configured, and however the blocks are batched: they are reduced and committed,
  and each reducer leaves at its keys what it would leave alone.
-/

set_option autoImplicit false

namespace DogeIndexer.Polyphony.Reducers

open Compressor (Bytes ScriptHash OutPoint DuneId Block Deps)
open Timbre (Namespace)
open StorageAction (Family)

/-! ## Mints -/

namespace MintsByRuneId

structure Output where
  runeId : DuneId

def reduceBlock (deps : Deps) (block : Block) (ctx : BlockContext) : List Output :=
  (Compressor.reduceBlock deps block ctx.runeMintIdxs).map Output.mk

end MintsByRuneId

def mintsByRuneIdKey (ns : Namespace) (runeId : DuneId) : Key :=
  ns.data .mintsByRuneId Timbre.MintsByRuneId.key (runeIdVal runeId)

def MintsByRuneId.Output.toStorageOps (ns : Namespace) (o : MintsByRuneId.Output) : List StorageAction :=
  [.incrementU128 (mintsByRuneIdKey ns o.runeId) 1]

/-- The dunes that are claimed in a block, as often as they are. -/
def minted (deps : Deps) (b : EnrichedBlock) : List DuneId := Compressor.reduceBlock deps b.block b.ctx.runeMintIdxs

section

variable {deps : Deps} {ns : Namespace} {chain : List EnrichedBlock}

theorem mintsByRuneIdKey_inj {id id' : DuneId} (hblock : id.block < 2 ^ 64) (hblock' : id'.block < 2 ^ 64)
    (htx : id.tx < 2 ^ 32) (htx' : id'.tx < 2 ^ 32) (h : mintsByRuneIdKey ns id = mintsByRuneIdKey ns id') : id = id' := by
  obtain ⟨hblocks, htxs⟩ := fields_inj (dataKey_inj (t := Timbre.MintsByRuneId.key) (by simp [Timbre.schema]) rfl h)
  obtain ⟨block, tx⟩ := id
  obtain ⟨block', tx'⟩ := id'
  cases uint_inj (w := 8) hblock hblock' hblocks
  cases uint_inj (w := 4) htx htx' htxs
  rfl

def mintActions (deps : Deps) (ns : Namespace) (b : EnrichedBlock) : List StorageAction :=
  (minted deps b).map fun id => .incrementU128 (mintsByRuneIdKey ns id) 1

/-- **Mints are counted**: a counter is the number of claims under its key, while 128 bits can say it. -/
theorem mints_counted (checks : Bool) (hlt : (chain.flatMap (minted deps)).length < 2 ^ 128) (k : Key) :
    ∃ o, RunsAt checks none (Keyed.of StorageAction.key (chain.flatMap (mintActions deps ns)) k) o ∧
      counterValue 16 o = (chain.flatMap (minted deps)).countP fun id => decide (mintsByRuneIdKey ns id = k) := by
  have hat : ∀ l : List DuneId, CounterKind.u128.at_ k (l.map fun id => (mintsByRuneIdKey ns id, (1 : U128))) =
      l.countP fun id => decide (mintsByRuneIdKey ns id = k) := by
    intro l
    induction l with
    | nil => rfl
    | cons id l ih =>
      rw [List.map_cons, CounterKind.at_cons, ih, List.countP_cons]
      by_cases hk : mintsByRuneIdKey ns id = k
      · rw [if_pos hk, if_pos (decide_eq_true hk), Nat.add_comm]
        rfl
      · rw [if_neg hk, if_neg (by simpa using hk), Nat.zero_add, Nat.add_zero]
  have hle : (chain.flatMap (minted deps)).countP (fun id => decide (mintsByRuneIdKey ns id = k)) < 2 ^ 128 :=
    lt_of_le_of_lt List.countP_le_length hlt
  have hbound : 0 + CounterKind.u128.at_ k ((chain.flatMap (minted deps)).map
      fun id => (mintsByRuneIdKey ns id, (1 : U128))) < 256 ^ 16 := by
    rw [hat, Nat.zero_add]
    exact hle
  have hnone : CounterKind.u128.Reads none 0 := ⟨rfl, fun v h => by cases h⟩
  obtain ⟨o, hruns, hreads⟩ := CounterKind.runsAt_increments hnone hbound
  rw [List.map_map] at hruns
  have hactions : chain.flatMap (mintActions deps ns) =
      (chain.flatMap (minted deps)).map fun id => .incrementU128 (mintsByRuneIdKey ns id) 1 := by
    unfold mintActions
    rw [List.map_flatMap]
  refine ⟨o, ?_, ?_⟩
  · rw [hactions]
    exact hruns
  · rw [← hat, ← Nat.zero_add (CounterKind.u128.at_ _ _)]
    exact hreads.1

end

/-! ## Configurations -/

/-- What the reducers are given besides a block. -/
structure Env where
  /-- Hashes of scripts, and their instructions. -/
  deps : Deps
  /-- The script of the address that a script pays to. -/
  addressScript : Bytes → Option Bytes
  order : TxsByScriptHash.SeenOrder
  policy : RuntimePolicy
  ns : Namespace

def Env.scriptHash (env : Env) : Bytes → ScriptHash := env.deps.scriptHash

inductive ConfiguredReducer where
  | view (r : Reducer)
  | carried (r : CarriedReducer)
  | recording (r : RecordingReducer)
  | etching (r : EtchingReducer)
  | mintsByRuneId
  deriving DecidableEq

namespace ConfiguredReducer

def tag : ConfiguredReducer → Timbre.Reducer
  | view r => r.tag
  | carried r => r.tag
  | recording r => r.tag
  | etching r => r.tag
  | mintsByRuneId => .mintsByRuneId

def all : List ConfiguredReducer :=
  [view .balancesByRuneId, view .inscriptionsByScriptHash, view .runeBalancesByScriptHash, view .satBalanceByScriptHash,
   view .utxosByRuneId, view .utxosByScriptHash, carried .runesByUtxo, carried .inscriptionsByUtxo,
   carried .inscriptionUtxosByScriptHash, recording .txsByScriptHash, recording .scriptByScriptHash,
   recording .scriptHashByAddressPayloadHash, recording .contentByInscriptionId, etching .etchingByRuneId,
   etching .runeIdByRuneName, mintsByRuneId]

theorem mem_all (p : ConfiguredReducer) : p ∈ all := by
  cases p with
  | view r => cases r <;> decide
  | carried r => cases r <;> decide
  | recording r => cases r <;> decide
  | etching r => cases r <;> decide
  | mintsByRuneId => decide

theorem tag_injective {p q : ConfiguredReducer} (h : p.tag = q.tag) : p = q := by
  have hnodup : (all.map tag).Nodup := by decide
  exact List.inj_on_of_nodup_map hnodup (mem_all p) (mem_all q) h

variable (env : Env)

/-- The storage actions of a block. -/
def reduce (b : EnrichedBlock) : ConfiguredReducer → Option (List StorageAction)
  | view r => (r.reduceBlock env.scriptHash env.policy b.point.height b.block b.ctx).map fun outputs =>
      outputs.flatMap (reducerOutputToStorageOps env.ns)
  | carried r => r.reduce env.scriptHash env.ns env.policy b
  | recording r => r.reduce env.scriptHash env.addressScript env.order env.ns env.policy b
  | etching r => r.reduce env.deps env.ns b
  | mintsByRuneId => some ((MintsByRuneId.reduceBlock env.deps b.block b.ctx).flatMap fun o => o.toStorageOps env.ns)

/-- What they are for a valid block. -/
def actions : ConfiguredReducer → EnrichedBlock → List StorageAction
  | view r => fun b => (r.eventsOf b).flatMap (r.eventActions env.scriptHash env.ns)
  | carried r => r.actions env.scriptHash env.ns
  | recording r => fun b => setActions (r.entries env.scriptHash env.addressScript env.order env.ns b)
  | etching r => fun b => setActions (r.entries env.deps env.ns b)
  | mintsByRuneId => mintActions env.deps env.ns

/-- What is counted over a chain can be said by the reducer's counters. -/
structure InRange (chain : List EnrichedBlock) (p : ConfiguredReducer) : Prop where
  held : ∀ r, p = view r → Ledger.Along (r.InRange env.scriptHash) Table.empty (chain.flatMap EnrichedBlock.events)
  minted : p = mintsByRuneId → (chain.flatMap (minted env.deps)).length < 2 ^ 128

/-- What a reducer leaves at a key. -/
def Leaves (chain : List EnrichedBlock) : ConfiguredReducer → Key → Option Value → Prop
  | view r => r.Leaves env.scriptHash env.ns chain
  | carried r => fun k o => ∀ v, o = some v ↔ Ledger.Lists (r.entries env.scriptHash env.ns) (unspentAfter chain) k v
  | recording r => fun k o => o = Ledger.reading k none (Ledger.assignments (chain.flatMap fun b =>
      r.entries env.scriptHash env.addressScript env.order env.ns b))
  | etching r => fun k o =>
      o = Ledger.reading k none (Ledger.assignments (chain.flatMap fun b => r.entries env.deps env.ns b))
  | mintsByRuneId => fun k o =>
      counterValue 16 o = (chain.flatMap (minted env.deps)).countP fun id => decide (mintsByRuneIdKey env.ns id = k)

variable {env} {chain : List EnrichedBlock}

/-- A reducer makes its actions of the blocks of a valid chain. -/
theorem reduced (p : ConfiguredReducer) (hchain : ValidChain Table.empty chain) (hlisted : ∀ b ∈ chain, b.ctx.Listed) :
    Reduced env.ns [p.tag] chain (fun b => p.reduce env b) (p.actions env) := by
  cases p with
  | view r =>
    refine ⟨fun b hb => ?_, fun b _ a ha => ⟨r.tag, List.mem_singleton_self _, ?_⟩⟩
    · obtain ⟨t, hvalid⟩ := hchain.valid_of_mem hb
      have hreduce : reduce env b (view r) =
          (r.reduceBlock env.scriptHash env.policy b.point.height b.block b.ctx).map fun outputs =>
            outputs.flatMap (reducerOutputToStorageOps env.ns) := rfl
      rw [hreduce, hvalid.reducer_eq env.scriptHash env.policy r, Option.map_some, List.flatMap_assoc]
      exact congrArg some (congrArg List.flatten (List.map_congr_left fun e _ => eventOutputs_toStorageOps _ _ r e))
    · obtain ⟨e, -, hae⟩ := List.mem_flatMap.mp ha
      obtain ⟨hkey, hfamily⟩ := eventActions_key env.scriptHash env.ns r e hae
      refine ⟨hkey, ?_⟩
      cases r <;> exact hfamily
  | carried r => exact r.reduced hchain hlisted env.policy
  | recording r => exact r.reduced env.scriptHash env.addressScript env.order env.ns hchain env.policy
  | etching r => exact r.reduced env.deps env.ns chain
  | mintsByRuneId =>
    refine ⟨fun b _ => ?_, fun b _ a ha => ⟨_, List.mem_singleton_self _, ?_⟩⟩
    · have hmap : mintActions env.deps env.ns b = (minted env.deps b).flatMap fun id =>
          [.incrementU128 (mintsByRuneIdKey env.ns id) 1] := List.map_eq_flatMap
      refine congrArg some (Eq.trans ?_ hmap.symm)
      unfold MintsByRuneId.reduceBlock
      rw [List.flatMap_map]
      rfl
    · obtain ⟨id, -, rfl⟩ := List.mem_map.mp ha
      exact ⟨List.prefix_append _ _, rfl⟩

/-- What a reducer leaves at each key, alone. -/
theorem leaves (p : ConfiguredReducer) (hchain : ValidChain Table.empty chain) (checks : Bool)
    (hrange : p.InRange env chain) (k : Key) :
    ∃ o, RunsAt checks none (Keyed.of StorageAction.key (chain.flatMap (p.actions env)) k) o ∧ p.Leaves env chain k o := by
  cases p with
  | view r =>
    obtain ⟨o, hruns, hleaves⟩ := hchain.leaves checks r (hrange.held r rfl) k
    refine ⟨o, ?_, hleaves⟩
    rw [chainActions, List.flatMap_assoc] at hruns
    exact hruns
  | carried r => exact r.leaves hchain checks k
  | recording r => exact ⟨_, runsAt_setActions checks k chain _, rfl⟩
  | etching r => exact ⟨_, runsAt_setActions checks k chain _, rfl⟩
  | mintsByRuneId => exact mints_counted checks (hrange.minted rfl) k

end ConfiguredReducer

/-- Whatever the batching, the blocks of a chain are reduced and committed to a store of the kind. -/
def Indexes (env : Env) (checks : Bool) (parts : List ConfiguredReducer) (chain : List EnrichedBlock) (P : Store → Prop) :
    Prop :=
  ∃ blocks, chain.mapM (partActions env.ns (fun p b => p.reduce env b) parts) = some blocks ∧
    ∀ batches : List (HashOrder × List (List StorageAction)), (batches.map Prod.snd).flatten = blocks →
      ∃ store, executeBatches checks Table.empty batches = some store ∧ P store

theorem Indexes.imp {env : Env} {checks : Bool} {parts : List ConfiguredReducer} {chain : List EnrichedBlock}
    {P Q : Store → Prop} (h : Indexes env checks parts chain P) (himp : ∀ store, P store → Q store) :
    Indexes env checks parts chain Q := by
  obtain ⟨blocks, hblocks, hcommit⟩ := h
  refine ⟨blocks, hblocks, fun batches hbatches => ?_⟩
  obtain ⟨store, hstore, hP⟩ := hcommit batches hbatches
  exact ⟨store, hstore, himp store hP⟩

/-- What the reducers of a configuration leave in a store, beside each other and the cursor. -/
structure LeftBy (env : Env) (parts : List ConfiguredReducer) (chain : List EnrichedBlock) (store : Store) : Prop where
  leaves : ∀ p ∈ parts, ∀ k, env.ns.dataPrefix p.tag <+: k →
    ∃ o, p.Leaves env chain k o ∧ SameValue (tagFamily p.tag) (store.get k) o
  others : ∀ k, (∀ p ∈ parts, ¬ env.ns.dataPrefix p.tag <+: k) →
    store.get k = Ledger.reading k none (chain.flatMap (cursorUpdates env.ns))

/-- **Every configuration of the reducers, over every valid chain and in any batching**: the blocks are reduced and
committed, each reducer leaves at its keys what it would leave alone, and there is nothing else but the cursor. -/
theorem configured {env : Env} (checks : Bool) {parts : List ConfiguredReducer} (hnodup : parts.Nodup)
    {chain : List EnrichedBlock} (hchain : ValidChain Table.empty chain) (hlisted : ∀ b ∈ chain, b.ctx.Listed)
    (hrange : ∀ p ∈ parts, p.InRange env chain) : Indexes env checks parts chain (LeftBy env parts chain) := by
  have htags : parts.Pairwise fun p q => ∀ tag ∈ [p.tag], tag ∉ [q.tag] := by
    refine hnodup.imp fun hne tag htag htag' => hne (ConfiguredReducer.tag_injective ?_)
    rw [← List.mem_singleton.mp htag, List.mem_singleton.mp htag']
  have hparts : ∀ p ∈ parts, Reduced env.ns [p.tag] chain (fun b => p.reduce env b) (p.actions env) :=
    fun p _ => p.reduced hchain hlisted
  have hleaves : ∀ p ∈ parts, ∀ tag ∈ [p.tag], ∀ k, env.ns.dataPrefix tag <+: k →
      ∃ o, RunsAt checks none (Keyed.of StorageAction.key (chain.flatMap (p.actions env)) k) o ∧
        ∀ q ∈ parts, q.tag = tag → q.Leaves env chain k o := by
    intro p hp tag htag k _
    obtain ⟨o, hruns, hleaves⟩ := p.leaves hchain checks (hrange p hp) k
    refine ⟨o, hruns, fun q _ hq => ?_⟩
    rw [List.mem_singleton.mp htag] at hq
    rw [ConfiguredReducer.tag_injective hq]
    exact hleaves
  obtain ⟨blocks, hblocks, hcommit⟩ := parts_committed htags hparts
    (Q := fun tag k o => ∀ p ∈ parts, p.tag = tag → p.Leaves env chain k o) hleaves
  refine ⟨blocks, hblocks, fun batches hbatches => ?_⟩
  obtain ⟨store, hstore, hparts, hothers⟩ := hcommit batches hbatches
  refine ⟨store, hstore, fun p hp k hk => ?_, fun k hk => hothers k fun p hp tag htag => ?_⟩
  · obtain ⟨o, hleaves, hsame⟩ := hparts p hp p.tag (List.mem_singleton_self _) k hk
    exact ⟨o, hleaves p hp rfl, hsame⟩
  · rw [List.mem_singleton.mp htag]
    exact hk p hp

end DogeIndexer.Polyphony.Reducers
