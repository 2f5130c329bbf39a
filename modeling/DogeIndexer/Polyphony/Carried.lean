import DogeIndexer.Polyphony.Parts

/-!
# What the outputs carry

Model of the reducers `runes_by_utxo`, `inscriptions_by_utxo` and `inscription_utxos_by_script_hash`
(`polyphony-xdg/src/reducers`), with their cases of `reducer_output_to_storage_ops`
(`storage/tikv.rs`): an entry for each unspent output that carries dunes, or inscriptions.

Unlike the other indexes of outputs these do not look at what an output carries when it is spent:
they delete its entry if the context lists anything for it.

* `readContext_listed` — the source stage lists nothing that is empty.
* `CarriedReducer.leaves` — the entries are those of the unspent outputs.
-/

set_option autoImplicit false

namespace DogeIndexer.Polyphony

open Compressor (Bytes U32 OutPoint DuneId InscriptionId)

/-! ## Contexts -/

/-- No list of the context is empty. -/
structure BlockContext.Listed (ctx : BlockContext) : Prop where
  runes : ∀ ref runes, ctx.utxoRunes ref = some runes → runes ≠ []
  inscriptions : ∀ ref inscriptions, ctx.utxoInscriptions ref = some inscriptions → inscriptions ≠ []

namespace BlockContext.Listed

variable {ctx ctx' : BlockContext}

theorem new : BlockContext.new.Listed := ⟨fun _ _ h => (by cases h), fun _ _ h => (by cases h)⟩

/-- A step that leaves both resolvers alone. -/
theorem congr (h : ctx.Listed) (hrunes : ctx'.runesResolver = ctx.runesResolver)
    (hinscriptions : ctx'.inscriptionsResolver = ctx.inscriptionsResolver) : ctx'.Listed := by
  refine ⟨fun ref runes hget => h.runes ref runes ?_, fun ref inscriptions hget => h.inscriptions ref inscriptions ?_⟩
  · unfold utxoRunes at hget ⊢
    rwa [hrunes] at hget
  · unfold utxoInscriptions at hget ⊢
    rwa [hinscriptions] at hget

theorem insertRunes (h : ctx.Listed) {key : OutPoint} {runes : List (DuneId × U128)} (hne : runes ≠ []) :
    (ctx.insertRunes key runes).Listed := by
  refine ⟨fun ref l hget => ?_, h.inscriptions⟩
  have hget : (ctx.runesResolver.insert key runes).get ref = some l := hget
  rw [Table.get_insert] at hget
  split at hget
  · rw [← Option.some.inj hget]
    exact hne
  · exact h.runes ref l hget

theorem insertInscriptions (h : ctx.Listed) {key : OutPoint} {inscriptions : List (U32 × InscriptionId)}
    (hne : inscriptions ≠ []) : (ctx.insertInscriptions key inscriptions).Listed := by
  refine ⟨h.runes, fun ref l hget => ?_⟩
  have hget : (ctx.inscriptionsResolver.insert key inscriptions).get ref = some l := hget
  rw [Table.get_insert] at hget
  split at hget
  · rw [← Option.some.inj hget]
    exact hne
  · exact h.inscriptions ref l hget

end BlockContext.Listed

/-- An invariant of a loop that may fail. -/
theorem foldlM_invariant {α σ : Type} {P : σ → Prop} {f : σ → α → Option σ} {l : List α} {s s' : σ}
    (hstep : ∀ s a s', f s a = some s' → P s → P s') (h : l.foldlM f s = some s') (hs : P s) : P s' := by
  induction l generalizing s with
  | nil =>
    cases h
    exact hs
  | cons a l ih =>
    rw [List.foldlM_cons] at h
    obtain ⟨s₁, hone, hrest⟩ := Option.bind_eq_some_iff.mp h
    exact ih hrest (hstep s a s₁ hone hs)

section

variable {ctx ctx' : BlockContext}

theorem resolveTxo_listed {txo : Compressor.Api.ResolvedTxo} (h : resolveTxo ctx txo = some ctx') (hctx : ctx.Listed) :
    ctx'.Listed := by
  obtain ⟨ref, -, heq⟩ := Option.bind_eq_some_iff.mp h
  cases heq
  exact hctx.congr rfl rfl

theorem resolveRunes_listed {resolved : Compressor.Api.RunesResolvedTxo} (h : resolveRunes ctx resolved = some ctx')
    (hctx : ctx.Listed) : ctx'.Listed := by
  obtain ⟨ref, -, h⟩ := Option.bind_eq_some_iff.mp h
  obtain ⟨runes, -, heq⟩ := Option.bind_eq_some_iff.mp h
  cases heq
  split
  · exact hctx
  · rename_i hne
    exact hctx.insertRunes fun hnil => hne (by rw [hnil]; rfl)

theorem resolveInscriptions_listed {resolved : Compressor.Api.InscriptionResolvedTxo}
    (h : resolveInscriptions ctx resolved = some ctx') (hctx : ctx.Listed) : ctx'.Listed := by
  obtain ⟨ref, -, h⟩ := Option.bind_eq_some_iff.mp h
  obtain ⟨inscriptions, -, heq⟩ := Option.bind_eq_some_iff.mp h
  cases heq
  split
  · exact hctx
  · rename_i hne
    exact hctx.insertInscriptions fun hnil => hne (by rw [hnil]; rfl)

theorem resolveBrc20_listed {resolved : Compressor.Api.Brc20Resolver} (h : resolveBrc20 ctx resolved = some ctx')
    (hctx : ctx.Listed) : ctx'.Listed := by
  obtain ⟨id, -, h⟩ := Option.bind_eq_some_iff.mp h
  obtain ⟨action, -, h⟩ := Option.bind_eq_some_iff.mp h
  obtain ⟨kind, -, h⟩ := Option.bind_eq_some_iff.mp h
  obtain ⟨message, -, heq⟩ := Option.bind_eq_some_iff.mp h
  cases heq
  exact hctx.congr rfl rfl

theorem resolveOrigin_listed {origin : Compressor.Api.InscriptionOrigin} (h : resolveOrigin ctx origin = some ctx')
    (hctx : ctx.Listed) : ctx'.Listed := by
  obtain ⟨txHash, -, h⟩ := Option.bind_eq_some_iff.mp h
  obtain ⟨id, -, heq⟩ := Option.bind_eq_some_iff.mp h
  cases heq
  exact hctx.congr rfl rfl

/-- **The source stage lists nothing that is empty.** -/
theorem readContext_listed {block : Compressor.Api.BlockWithContext} (h : readContext block = some ctx) : ctx.Listed := by
  unfold readContext at h
  obtain ⟨ctx₁, htxos, h⟩ := Option.bind_eq_some_iff.mp h
  obtain ⟨ctx₂, hrunes, h⟩ := Option.bind_eq_some_iff.mp h
  have hctx₁ : ctx₁.Listed := foldlM_invariant (fun _ _ _ => resolveTxo_listed) htxos .new
  have hctx₂ : ctx₂.Listed := by
    split at hrunes
    · obtain ⟨ctx₃, hresolved, hrunes⟩ := Option.bind_eq_some_iff.mp hrunes
      obtain ⟨etchs, -, heq⟩ := Option.bind_eq_some_iff.mp hrunes
      cases heq
      exact (foldlM_invariant (fun _ _ _ => resolveRunes_listed) hresolved hctx₁).congr rfl rfl
    · cases hrunes
      exact hctx₁
  split at h
  · obtain ⟨ctx₃, hresolved, h⟩ := Option.bind_eq_some_iff.mp h
    obtain ⟨ctx₄, hbrc20, h⟩ := Option.bind_eq_some_iff.mp h
    have hctx₃ := foldlM_invariant (fun _ _ _ => resolveInscriptions_listed) hresolved hctx₂
    have hctx₄ := foldlM_invariant (fun _ _ _ => resolveBrc20_listed) hbrc20 hctx₃
    exact foldlM_invariant (fun _ _ _ => resolveOrigin_listed) h hctx₄
  · cases h
    exact hctx₂

end

namespace Reducers

open Compressor (ScriptHash Transaction TxOut Block)
open Timbre (Namespace Ty IndexMap)
open StorageAction (Family)

/-! ## The reducers -/

/-- The loop of `reduce_block`: the inputs of each transaction but the coinbase, then its outputs. -/
def reduceTxos {α : Type} (processConsumedTxo : OutPoint → Option (List α))
    (processProducedTxo : OutPoint → TxOut → List α) (block : Block) : Option (List α) :=
  collect (fun tx => do
    let consumed ← if isCoinbase tx then some [] else collect processConsumedTxo (inputs tx)
    return consumed ++ (outputs tx).flatMap fun x => processProducedTxo x.1 x.2)
    block.txdata

/-- How many inscriptions of an output are kept. -/
def INSCRIPTIONS_PER_UTXO : Nat := 10000

namespace RunesByUtxo

structure Output where
  utxo : OutPoint
  action : UtxoAction (List (DuneId × U128))

def processConsumedTxo (ctx : BlockContext) (input : OutPoint) : Option (List Output) :=
  some (if (ctx.utxoRunes input).isSome then [⟨input, .consumed⟩] else [])

def processProducedTxo (ctx : BlockContext) (outpoint : OutPoint) (_output : TxOut) : List Output :=
  match ctx.utxoRunes outpoint with
  | some runes => [⟨outpoint, .produced runes⟩]
  | none => []

def reduceBlock (block : Block) (ctx : BlockContext) : Option (List Output) :=
  reduceTxos (processConsumedTxo ctx) (processProducedTxo ctx) block

end RunesByUtxo

namespace InscriptionsByUtxo

structure Output where
  utxo : OutPoint
  action : UtxoAction (List (U32 × InscriptionId))

def processConsumedTxo (ctx : BlockContext) (input : OutPoint) : Option (List Output) :=
  some (if (ctx.utxoInscriptions input).isSome then [⟨input, .consumed⟩] else [])

def processProducedTxo (ctx : BlockContext) (outpoint : OutPoint) (_output : TxOut) : List Output :=
  match ctx.utxoInscriptions outpoint with
  | some inscriptions => [⟨outpoint, .produced (inscriptions.take INSCRIPTIONS_PER_UTXO)⟩]
  | none => []

def reduceBlock (block : Block) (ctx : BlockContext) : Option (List Output) :=
  reduceTxos (processConsumedTxo ctx) (processProducedTxo ctx) block

end InscriptionsByUtxo

namespace InscriptionUtxosByScriptHash

structure Output where
  scriptHash : ScriptHash
  height : Nat
  utxo : OutPoint
  /-- Satoshis and inscriptions. -/
  action : UtxoAction (U64 × List (U32 × InscriptionId))

section

variable (scriptHash : Bytes → ScriptHash) (policy : RuntimePolicy)

/-- The output is resolved whether or not it is inscribed. -/
def processConsumedTxo (ctx : BlockContext) (input : OutPoint) : Option (List Output) := do
  match ← applyPolicy policy (ctx.findUtxo input) with
  | some u => return if (ctx.utxoInscriptions input).isSome then
      [⟨scriptHash u.txo.scriptPubkey, u.height, input, .consumed⟩] else []
  | none => return []

def processProducedTxo (ctx : BlockContext) (height : Nat) (output : OutPoint) (txOutput : TxOut) : List Output :=
  match ctx.utxoInscriptions output with
  | some inscriptions => [⟨scriptHash txOutput.scriptPubkey, height, output,
      .produced (txOutput.value, inscriptions.take INSCRIPTIONS_PER_UTXO)⟩]
  | none => []

def reduceBlock (height : Nat) (block : Block) (ctx : BlockContext) : Option (List Output) :=
  reduceTxos (processConsumedTxo scriptHash policy ctx) (processProducedTxo scriptHash ctx height) block

end

end InscriptionUtxosByScriptHash

/-! ## Storage actions -/

/-- `collect` of pairs into an `IndexMap`. -/
def collectIndexMap {κ ν : Type} [DecidableEq κ] (l : List (κ × ν)) : IndexMap κ ν :=
  l.foldl (fun m e => m.insert e.1 e.2) IndexMap.empty

section

variable (ns : Namespace)

def runesByUtxoKey (utxo : OutPoint) : Key :=
  ns.data .runesByUtxo Timbre.RunesByUtxo.key (array32 utxo.txid, uint 4 utxo.vout)

def inscriptionsByUtxoKey (utxo : OutPoint) : Key :=
  ns.data .inscriptionsByUtxo Timbre.InscriptionsByUtxo.key (array32 utxo.txid, uint 4 utxo.vout)

def inscriptionUtxosByScriptHashKey (scriptHash : ScriptHash) (height : Nat) (utxo : OutPoint) : Key :=
  ns.data .inscriptionUtxosByScriptHash Timbre.InscriptionUtxosByScriptHash.key
    (array20 scriptHash, uint 16 height, array32 utxo.txid, uint 16 utxo.vout)

end

/-- A dune id as a pair of a `u64` and a `u32`. -/
def runeIdVal (id : DuneId) : (Timbre.pair Timbre.u64 Timbre.u32).Val := (uint 8 id.block, uint 4 id.tx)

/-- An inscription id in a value. -/
def inscriptionIdVal (id : InscriptionId) : (Timbre.pair (.array 32) Timbre.u32).Val := (array32 id.txid, uint 4 id.index)

/-- The dunes of an output in an `IndexMap`. -/
def runesMap (runes : List (DuneId × U128)) : IndexMap (Timbre.pair Timbre.u64 Timbre.u32).Val Timbre.u128.Val :=
  collectIndexMap (runes.map fun e => (runeIdVal e.1, (uint 16 e.2.val : Timbre.u128.Val)))

def runesByUtxoValue (runes : List (DuneId × U128)) : Value := Timbre.RunesByUtxo.value.encode (runesMap runes)

def inscriptionsByUtxoValue (inscriptions : List (U32 × InscriptionId)) : Value :=
  Timbre.InscriptionsByUtxo.value.encode (inscriptions.map fun e => (uint 4 e.1.val, inscriptionIdVal e.2))

/-- Numbers are written as `VarUInt`s. -/
def inscriptionUtxosByScriptHashValue (satoshis : U64) (inscriptions : List (U32 × InscriptionId)) : Value :=
  Timbre.InscriptionUtxosByScriptHash.value.encode (uint 16 satoshis.val,
    inscriptions.map fun e => (uint 16 e.1.val, array32 e.2.txid, uint 16 e.2.index))

def RunesByUtxo.Output.toStorageOps (ns : Namespace) (o : RunesByUtxo.Output) : List StorageAction :=
  [o.action.toStorageAction (runesByUtxoKey ns o.utxo) runesByUtxoValue]

def InscriptionsByUtxo.Output.toStorageOps (ns : Namespace) (o : InscriptionsByUtxo.Output) : List StorageAction :=
  [o.action.toStorageAction (inscriptionsByUtxoKey ns o.utxo) inscriptionsByUtxoValue]

def InscriptionUtxosByScriptHash.Output.toStorageOps (ns : Namespace) (o : InscriptionUtxosByScriptHash.Output) :
    List StorageAction :=
  [o.action.toStorageAction (inscriptionUtxosByScriptHashKey ns o.scriptHash o.height o.utxo)
    fun (satoshis, inscriptions) => inscriptionUtxosByScriptHashValue satoshis inscriptions]

/-! ## Reducing a block -/

section

variable {b : EnrichedBlock} {t : Unspent}

/-- **A loop over a block** is a loop over the events of the block. -/
theorem EnrichedBlock.Valid.reduceTxos_eq {α : Type} (h : b.Valid t) {processConsumedTxo : OutPoint → Option (List α)}
    {processProducedTxo : OutPoint → TxOut → List α} {f : Event → List α}
    (hconsumed : ∀ ref u, b.ctx.findUtxo ref = some u →
      processConsumedTxo ref = some (f (.spend ref (b.described ref u.height u.txo))))
    (hproduced : ∀ ref txo, processProducedTxo ref txo = f (.produce ref (b.described ref b.point.height txo))) :
    reduceTxos processConsumedTxo processProducedTxo b.block = some (b.events.flatMap f) := by
  have htx : ∀ tx ∈ b.block.txdata, (do
      let consumed ← if isCoinbase tx then some [] else collect processConsumedTxo (inputs tx)
      return consumed ++ (outputs tx).flatMap fun x => processProducedTxo x.1 x.2) = some ((b.txEvents tx).flatMap f) := by
    intro tx htx
    have hout : ((b.producedBy tx).map fun e => (.produce e.1 e.2 : Event)).flatMap f =
        (outputs tx).flatMap fun x => processProducedTxo x.1 x.2 := by
      unfold EnrichedBlock.producedBy
      rw [List.map_map, List.flatMap_map]
      exact congrArg List.flatten (List.map_congr_left fun x _ => (hproduced x.1 x.2).symm)
    unfold EnrichedBlock.txEvents EnrichedBlock.consumedBy
    rw [List.flatMap_append, hout]
    rcases h.tx_cases htx with ⟨hcb, -⟩ | ⟨hcb, hresolved⟩
    · rw [if_pos hcb, if_pos hcb]
      rfl
    · rw [if_neg (by simp [hcb]), if_neg (by simp [hcb])]
      have hin : ∀ l : List OutPoint, (∀ ref ∈ l, ∃ u, b.ctx.findUtxo ref = some u) →
          collect processConsumedTxo l = some (((l.filterMap fun ref => (b.ctx.findUtxo ref).map fun u =>
            (ref, b.described ref u.height u.txo)).map fun e => (.spend e.1 e.2 : Event)).flatMap f) := by
        intro l hl
        induction l with
        | nil => rfl
        | cons ref l ih =>
          obtain ⟨u, hu⟩ := hl ref List.mem_cons_self
          rw [List.filterMap_cons_some (by rw [hu]; rfl), collect, hconsumed ref u hu,
            ih fun ref' href' => hl ref' (List.mem_cons_of_mem _ href')]
          rfl
      rw [hin (inputs tx) hresolved]
      rfl
  unfold reduceTxos
  rw [collect_eq htx]
  unfold EnrichedBlock.events
  rw [List.flatMap_assoc]

end

/-! ## Entries of the outputs that carry something -/

/-- Something that is there when anything is carried. -/
def ifCarried {α β : Type} (carried : List β) (a : α) : List α := if carried = [] then [] else [a]

section

variable {α β : Type} (carried : List β) (a : α)

theorem mem_ifCarried {x : α} : x ∈ ifCarried carried a ↔ carried ≠ [] ∧ x = a := by
  unfold ifCarried
  split
  · rename_i hnil
    simp [hnil]
  · rename_i hne
    simp [hne]

/-- Outputs of an event and updates of its entries, when one is made of the other. -/
theorem flatMap_ifCarried {e : Key × Value} {op : α → StorageAction} {update : Key × Value → Key × Option Value}
    (h : op a = writeAction (update e)) :
    (ifCarried carried a).flatMap (fun a => [op a]) = ((ifCarried carried e).map update).map writeAction := by
  unfold ifCarried
  split
  · rfl
  · rw [List.flatMap_singleton, h]
    rfl

end

section

variable (scriptHash : Bytes → ScriptHash) (ns : Namespace)

def runesOfUtxoEntries (ref : OutPoint) (u : Utxo) : List (Key × Value) :=
  ifCarried u.runes (runesByUtxoKey ns ref, runesByUtxoValue u.runes)

def inscriptionsOfUtxoEntries (ref : OutPoint) (u : Utxo) : List (Key × Value) :=
  ifCarried u.inscriptions
    (inscriptionsByUtxoKey ns ref, inscriptionsByUtxoValue (u.inscriptions.take INSCRIPTIONS_PER_UTXO))

def inscriptionUtxoEntries (ref : OutPoint) (u : Utxo) : List (Key × Value) :=
  ifCarried u.inscriptions
    (inscriptionUtxosByScriptHashKey ns (u.owner scriptHash) u.height ref,
      inscriptionUtxosByScriptHashValue u.txo.value (u.inscriptions.take INSCRIPTIONS_PER_UTXO))

inductive CarriedReducer where
  | runesByUtxo
  | inscriptionsByUtxo
  | inscriptionUtxosByScriptHash
  deriving DecidableEq

namespace CarriedReducer

def tag : CarriedReducer → Timbre.Reducer
  | runesByUtxo => .runesByUtxo
  | inscriptionsByUtxo => .inscriptionsByUtxo
  | inscriptionUtxosByScriptHash => .inscriptionUtxosByScriptHash

/-- The storage actions of a block. -/
def reduce (policy : RuntimePolicy) (b : EnrichedBlock) : CarriedReducer → Option (List StorageAction)
  | runesByUtxo => (RunesByUtxo.reduceBlock b.block b.ctx).map fun outputs => outputs.flatMap fun o => o.toStorageOps ns
  | inscriptionsByUtxo =>
    (InscriptionsByUtxo.reduceBlock b.block b.ctx).map fun outputs => outputs.flatMap fun o => o.toStorageOps ns
  | inscriptionUtxosByScriptHash =>
    (InscriptionUtxosByScriptHash.reduceBlock scriptHash policy b.point.height b.block b.ctx).map fun outputs =>
      outputs.flatMap fun o => o.toStorageOps ns

/-- The entries of an output. -/
def entries : CarriedReducer → OutPoint → Utxo → List (Key × Value)
  | runesByUtxo => runesOfUtxoEntries ns
  | inscriptionsByUtxo => inscriptionsOfUtxoEntries ns
  | inscriptionUtxosByScriptHash => inscriptionUtxoEntries scriptHash ns

/-- The storage actions of a block, event by event. -/
def actions (r : CarriedReducer) (b : EnrichedBlock) : List StorageAction :=
  (b.events.flatMap (Ledger.updates (r.entries scriptHash ns))).map writeAction

end CarriedReducer

/-! ## The outputs of an event -/

def RunesByUtxo.eventOutputs : Event → List RunesByUtxo.Output
  | .spend ref u => ifCarried u.runes ⟨ref, .consumed⟩
  | .produce ref u => ifCarried u.runes ⟨ref, .produced u.runes⟩

def InscriptionsByUtxo.eventOutputs : Event → List InscriptionsByUtxo.Output
  | .spend ref u => ifCarried u.inscriptions ⟨ref, .consumed⟩
  | .produce ref u => ifCarried u.inscriptions ⟨ref, .produced (u.inscriptions.take INSCRIPTIONS_PER_UTXO)⟩

def InscriptionUtxosByScriptHash.eventOutputs : Event → List InscriptionUtxosByScriptHash.Output
  | .spend ref u => ifCarried u.inscriptions ⟨u.owner scriptHash, u.height, ref, .consumed⟩
  | .produce ref u => ifCarried u.inscriptions
    ⟨u.owner scriptHash, u.height, ref, .produced (u.txo.value, u.inscriptions.take INSCRIPTIONS_PER_UTXO)⟩

section

variable {b : EnrichedBlock} {t : Unspent}

namespace EnrichedBlock.Valid

theorem runesByUtxo_eq (h : b.Valid t) (hlisted : b.ctx.Listed) :
    RunesByUtxo.reduceBlock b.block b.ctx = some (b.events.flatMap RunesByUtxo.eventOutputs) := by
  refine h.reduceTxos_eq (fun ref u _ => ?_) fun ref txo => ?_
  · unfold RunesByUtxo.processConsumedTxo RunesByUtxo.eventOutputs described ifCarried
    cases hget : b.ctx.utxoRunes ref with
    | none => simp
    | some runes => simp [hlisted.runes ref runes hget]
  · unfold RunesByUtxo.processProducedTxo RunesByUtxo.eventOutputs described ifCarried
    cases hget : b.ctx.utxoRunes ref with
    | none => simp
    | some runes => simp [hlisted.runes ref runes hget]

theorem inscriptionsByUtxo_eq (h : b.Valid t) (hlisted : b.ctx.Listed) :
    InscriptionsByUtxo.reduceBlock b.block b.ctx = some (b.events.flatMap InscriptionsByUtxo.eventOutputs) := by
  refine h.reduceTxos_eq (fun ref u _ => ?_) fun ref txo => ?_
  · unfold InscriptionsByUtxo.processConsumedTxo InscriptionsByUtxo.eventOutputs described ifCarried
    cases hget : b.ctx.utxoInscriptions ref with
    | none => simp
    | some inscriptions => simp [hlisted.inscriptions ref inscriptions hget]
  · unfold InscriptionsByUtxo.processProducedTxo InscriptionsByUtxo.eventOutputs described ifCarried
    cases hget : b.ctx.utxoInscriptions ref with
    | none => simp
    | some inscriptions => simp [hlisted.inscriptions ref inscriptions hget]

theorem inscriptionUtxosByScriptHash_eq (h : b.Valid t) (hlisted : b.ctx.Listed) (policy : RuntimePolicy) :
    InscriptionUtxosByScriptHash.reduceBlock scriptHash policy b.point.height b.block b.ctx =
      some (b.events.flatMap (InscriptionUtxosByScriptHash.eventOutputs scriptHash)) := by
  refine h.reduceTxos_eq (fun ref u hu => ?_) fun ref txo => ?_
  · unfold InscriptionUtxosByScriptHash.processConsumedTxo InscriptionUtxosByScriptHash.eventOutputs described ifCarried
    rw [hu, applyPolicy_some]
    cases hget : b.ctx.utxoInscriptions ref with
    | none => simp
    | some inscriptions => simp [hlisted.inscriptions ref inscriptions hget, Utxo.owner]
  · unfold InscriptionUtxosByScriptHash.processProducedTxo InscriptionUtxosByScriptHash.eventOutputs described ifCarried
    cases hget : b.ctx.utxoInscriptions ref with
    | none => simp
    | some inscriptions => simp [hlisted.inscriptions ref inscriptions hget, Utxo.owner]

/-- A reducer makes the entries of the events of a block. -/
theorem carried_eq (h : b.Valid t) (hlisted : b.ctx.Listed) (policy : RuntimePolicy) (r : CarriedReducer) :
    r.reduce scriptHash ns policy b = some (r.actions scriptHash ns b) := by
  have hactions : ∀ {α : Type} (f : Event → List α) (toStorageOps : α → List StorageAction),
      (∀ e, (f e).flatMap toStorageOps = (Ledger.updates (r.entries scriptHash ns) e).map writeAction) →
        (b.events.flatMap f).flatMap toStorageOps = r.actions scriptHash ns b := by
    intro α f toStorageOps hf
    unfold CarriedReducer.actions
    rw [List.map_flatMap, List.flatMap_assoc]
    exact congrArg List.flatten (List.map_congr_left fun e _ => hf e)
  cases r with
  | runesByUtxo =>
    unfold CarriedReducer.reduce
    rw [h.runesByUtxo_eq hlisted]
    refine congrArg some (hactions _ _ fun e => ?_)
    cases e with
    | spend ref u => exact flatMap_ifCarried _ _ rfl
    | produce ref u => exact flatMap_ifCarried _ _ rfl
  | inscriptionsByUtxo =>
    unfold CarriedReducer.reduce
    rw [h.inscriptionsByUtxo_eq hlisted]
    refine congrArg some (hactions _ _ fun e => ?_)
    cases e with
    | spend ref u => exact flatMap_ifCarried _ _ rfl
    | produce ref u => exact flatMap_ifCarried _ _ rfl
  | inscriptionUtxosByScriptHash =>
    unfold CarriedReducer.reduce
    rw [h.inscriptionUtxosByScriptHash_eq scriptHash hlisted policy]
    refine congrArg some (hactions _ _ fun e => ?_)
    cases e with
    | spend ref u => exact flatMap_ifCarried _ _ rfl
    | produce ref u => exact flatMap_ifCarried _ _ rfl

end EnrichedBlock.Valid

end

end

/-! ## What the reducers leave -/

section

variable {scriptHash : Bytes → ScriptHash} {ns : Namespace} {chain : List EnrichedBlock}

theorem runesByUtxoKey_inj {ref ref' : OutPoint} (hvout : ref.vout < 2 ^ 32) (hvout' : ref'.vout < 2 ^ 32)
    (h : runesByUtxoKey ns ref = runesByUtxoKey ns ref') : ref = ref' := by
  obtain ⟨htxid, hvouts⟩ := fields_inj (dataKey_inj (by simp [Timbre.schema]) rfl h)
  exact outpoint_inj hvout hvout' htxid hvouts

theorem inscriptionsByUtxoKey_inj {ref ref' : OutPoint} (hvout : ref.vout < 2 ^ 32) (hvout' : ref'.vout < 2 ^ 32)
    (h : inscriptionsByUtxoKey ns ref = inscriptionsByUtxoKey ns ref') : ref = ref' := by
  obtain ⟨htxid, hvouts⟩ := fields_inj (dataKey_inj (by simp [Timbre.schema]) rfl h)
  exact outpoint_inj hvout hvout' htxid hvouts

theorem inscriptionUtxosByScriptHashKey_inj {owner owner' : ScriptHash} {height height' : Nat} {ref ref' : OutPoint}
    (hvout : ref.vout < 2 ^ 32) (hvout' : ref'.vout < 2 ^ 32)
    (h : inscriptionUtxosByScriptHashKey ns owner height ref =
      inscriptionUtxosByScriptHashKey ns owner' height' ref') : ref = ref' := by
  obtain ⟨-, hrest⟩ := fields_inj (dataKey_inj (by simp [Timbre.schema]) rfl h)
  obtain ⟨-, hrest⟩ := fields_inj hrest
  obtain ⟨htxid, hvouts⟩ := fields_inj hrest
  obtain ⟨txid, vout⟩ := ref
  obtain ⟨txid', vout'⟩ := ref'
  cases array32_inj htxid
  cases uint_inj (w := 16) (lt_trans hvout (by decide)) (lt_trans hvout' (by decide)) hvouts
  rfl

/-- The keys of an output's entries name it. -/
theorem CarriedReducer.entries_key {r : CarriedReducer} {ref ref' : OutPoint} {u u' : Utxo} {k : Key} {v v' : Value}
    (hvout : ref.vout < 2 ^ 32) (hvout' : ref'.vout < 2 ^ 32) (h : (k, v) ∈ r.entries scriptHash ns ref u)
    (h' : (k, v') ∈ r.entries scriptHash ns ref' u') : ref = ref' := by
  cases r with
  | runesByUtxo =>
    have hk := ((mem_ifCarried _ _).mp h).2
    have hk' := ((mem_ifCarried _ _).mp h').2
    exact runesByUtxoKey_inj hvout hvout' ((congrArg Prod.fst hk).symm.trans (congrArg Prod.fst hk'))
  | inscriptionsByUtxo =>
    have hk := ((mem_ifCarried _ _).mp h).2
    have hk' := ((mem_ifCarried _ _).mp h').2
    exact inscriptionsByUtxoKey_inj hvout hvout' ((congrArg Prod.fst hk).symm.trans (congrArg Prod.fst hk'))
  | inscriptionUtxosByScriptHash =>
    have hk := ((mem_ifCarried _ _).mp h).2
    have hk' := ((mem_ifCarried _ _).mp h').2
    exact inscriptionUtxosByScriptHashKey_inj hvout hvout' ((congrArg Prod.fst hk).symm.trans (congrArg Prod.fst hk'))

theorem CarriedReducer.entries_prefix {r : CarriedReducer} {ref : OutPoint} {u : Utxo} {e : Key × Value}
    (h : e ∈ r.entries scriptHash ns ref u) : ns.dataPrefix r.tag <+: e.1 := by
  cases r with
  | runesByUtxo =>
    rw [((mem_ifCarried _ _).mp h).2]
    exact List.prefix_append _ _
  | inscriptionsByUtxo =>
    rw [((mem_ifCarried _ _).mp h).2]
    exact List.prefix_append _ _
  | inscriptionUtxosByScriptHash =>
    rw [((mem_ifCarried _ _).mp h).2]
    exact List.prefix_append _ _

theorem CarriedReducer.entries_nodup (r : CarriedReducer) (ref : OutPoint) (u : Utxo) :
    ((r.entries scriptHash ns ref u).map Prod.fst).Nodup := by
  have hone : ∀ {β : Type} (carried : List β) (e : Key × Value), ((ifCarried carried e).map Prod.fst).Nodup := by
    intro β carried e
    unfold ifCarried
    split
    · exact List.nodup_nil
    · exact List.nodup_singleton _
  cases r with
  | runesByUtxo => exact hone _ _
  | inscriptionsByUtxo => exact hone _ _
  | inscriptionUtxosByScriptHash => exact hone _ _

/-- **The entries are those of the unspent outputs.** -/
theorem CarriedReducer.leaves (r : CarriedReducer) (hchain : ValidChain Table.empty chain) (checks : Bool) (k : Key) :
    ∃ o, RunsAt checks none (Keyed.of StorageAction.key (chain.flatMap (r.actions scriptHash ns)) k) o ∧
      ∀ v, o = some v ↔ Ledger.Lists (r.entries scriptHash ns) (unspentAfter chain) k v := by
  refine hchain.runsAt_view checks (hchain.wellFormed.imp fun t ht => ?_)
  refine Ledger.single_of_injective (fun ref u v ref' u' v' hget hget' hmem hmem' => ?_) fun ref u _ =>
    r.entries_nodup ref u
  exact entries_key (ht ref u hget).vout (ht ref' u' hget').vout hmem hmem'

theorem CarriedReducer.reduced (r : CarriedReducer) {t : Unspent} (hchain : ValidChain t chain)
    (hlisted : ∀ b ∈ chain, b.ctx.Listed) (policy : RuntimePolicy) :
    Reduced ns [r.tag] chain (fun b => r.reduce scriptHash ns policy b) (r.actions scriptHash ns) := by
  refine ⟨fun b hb => ?_, fun b _ a ha => ⟨r.tag, List.mem_singleton_self _, ?_⟩⟩
  · obtain ⟨t, hvalid⟩ := hchain.valid_of_mem hb
    exact hvalid.carried_eq scriptHash ns (hlisted b hb) policy r
  · obtain ⟨x, hx, rfl⟩ := List.mem_map.mp ha
    obtain ⟨e, -, hx⟩ := List.mem_flatMap.mp hx
    rw [writeAction_key]
    refine ⟨?_, ?_⟩
    · cases e with
      | spend ref u =>
        obtain ⟨y, hy, rfl⟩ := List.mem_map.mp hx
        exact entries_prefix hy
      | produce ref u =>
        obtain ⟨y, hy, rfl⟩ := List.mem_map.mp hx
        exact entries_prefix hy
    · cases r <;> exact writeAction_inFamily x

end

end Reducers

end DogeIndexer.Polyphony
