import DogeIndexer.Polyphony.Configured

/-!
# The node in the store

What a reachable node holds is what its chain leaves in the store of the indexer, whatever was applied
and rolled back before, however the blocks are batched and whatever other reducers are configured.

* `outputs_indexed` — entries of the unspent outputs, and of what they carry.
* `balances_indexed` — counters of what scripts hold.
* `inscriptions_indexed` — where inscriptions are.
-/

set_option autoImplicit false

namespace DogeIndexer.Polyphony.Reducers

open Compressor (Bytes ScriptHash OutPoint TxoRef TxoBody DuneId InscriptionId Transaction Block Deps Node Call Tables
  NewInscriptionInfo)
open Timbre (Namespace)

/-! ## Received blocks -/

theorem processAction_listed {action : Compressor.Api.Action} {mutable mutable' : Bool} {point : Point} {block : Block}
    {ctx : BlockContext} (h : processAction action mutable = some (some (.rollForward point block ctx mutable'))) :
    ctx.Listed := by
  cases action with
  | apply message =>
    obtain ⟨ref, -, h⟩ := Option.bind_eq_some_iff.mp h
    obtain ⟨ctx', hctx, h⟩ := Option.bind_eq_some_iff.mp h
    obtain ⟨point', -, h⟩ := Option.bind_eq_some_iff.mp h
    injection h with h
    injection h with h
    injection h with _ _ h
    rw [← h]
    exact readContext_listed hctx
  | reset ref =>
    obtain ⟨point', -, h⟩ := Option.bind_eq_some_iff.mp h
    cases h
  | undo block => cases h

theorem received_listed {t : Tables} {e : Nat × Compressor.BlockHash × Block} {b : EnrichedBlock} (h : Received t e b) :
    b.ctx.Listed := by
  obtain ⟨entry, -, o, mutable, hpaged | hstreamed⟩ := h
  · exact processAction_listed hpaged
  · exact processAction_listed hstreamed

/-- The unspent outputs of the table, as the indexer holds them. -/
def asUnspent (txos : Table TxoRef TxoBody) : Unspent := Table.empty.insertAll (txos.entries.map fun e => (e.1, asUtxo e.2))

theorem get_asUnspent (txos : Table TxoRef TxoBody) (ref : TxoRef) : (asUnspent txos).get ref = (txos.get ref).map asUtxo := by
  unfold asUnspent
  rw [Table.get_insertAll_map, Table.insertAll_entries]
  split
  · rfl
  · rename_i hnot
    cases hget : txos.get ref with
    | none => rfl
    | some body => exact absurd (Table.mem_keys.mpr ⟨body, hget⟩) hnot

theorem Mirrors.eq {t : Unspent} {txos : Table TxoRef TxoBody} (h : Mirrors t txos) : t = asUnspent txos :=
  Table.ext_get fun ref => (h ref).trans (get_asUnspent txos ref).symm

section

variable {env : Env} {parts : List ConfiguredReducer} {chain : List EnrichedBlock} {store : Store}

theorem LeftBy.written (h : LeftBy env parts chain store) {p : ConfiguredReducer} (hp : p ∈ parts)
    (hfamily : tagFamily p.tag = .writes) {k : Key} (hk : env.ns.dataPrefix p.tag <+: k) :
    p.Leaves env chain k (store.get k) := by
  obtain ⟨o, hleaves, hsame⟩ := h.leaves p hp k hk
  rw [hfamily] at hsame
  rw [show store.get k = o from hsame]
  exact hleaves

end

/-! ## Reachable nodes -/

/-- A reachable node whose stored blocks are received. -/
structure Feeds (deps : Deps) (cfg : Compressor.Config) (C : Node → Call → Prop) (n : Node)
    (chain : List EnrichedBlock) : Prop where
  reach : Compressor.Reach deps cfg C n
  received : List.Forall₂ (Received n.db.tables) n.db.tables.blockByHeight.entries chain

section

variable {deps : Deps} {cfg : Compressor.Config} {C : Node → Call → Prop} {n : Node} {chain : List EnrichedBlock}
  {env : Env} {parts : List ConfiguredReducer} {store : Store}

namespace Feeds

theorem sent (h : Feeds deps cfg C n chain) : Sent n.db.tables := Reach.sent h.reach

theorem valid (h : Feeds deps cfg C n chain) : ValidChain Table.empty chain := (h.sent.chain chain h.received).1

theorem unspent (h : Feeds deps cfg C n chain) : unspentAfter chain = asUnspent n.db.tables.txos :=
  (h.sent.chain chain h.received).2.1.eq

theorem listed (h : Feeds deps cfg C n chain) : ∀ b ∈ chain, b.ctx.Listed := by
  intro b hb
  obtain ⟨e, -, hreceived⟩ := exists_related h.received hb
  exact received_listed hreceived

/-- The chain is indexed by any configuration. -/
theorem indexes (h : Feeds deps cfg C n chain) (checks : Bool) (hnodup : parts.Nodup)
    (hrange : ∀ p ∈ parts, p.InRange env chain) : Indexes env checks parts chain (LeftBy env parts chain) :=
  configured checks hnodup h.valid h.listed hrange

end Feeds

/-- The stored blocks with the contexts of their entries. -/
def receive (t : Tables) : List EnrichedBlock :=
  t.blockByHeight.entries.filterMap fun e => (t.resolverByHeight.get e.1).map fun entry =>
    ⟨⟨e.1, e.2.1⟩, e.2.2, contextOf entry, 0⟩

/-- They are received. -/
theorem Feeds.receive (h : Compressor.Reach deps cfg C n) : Feeds deps cfg C n (receive n.db.tables) := by
  refine ⟨h, ?_⟩
  have hentry := (Reach.sent h).entry
  unfold Reducers.receive
  generalize n.db.tables.blockByHeight.entries = entries at hentry
  induction entries with
  | nil => exact .nil
  | cons e entries ih =>
    obtain ⟨hhash, entry, hget, hne⟩ := hentry e List.mem_cons_self
    rw [List.filterMap_cons_some (by rw [hget]; rfl)]
    exact .cons ((received_iff hhash hget hne).mpr ⟨rfl, rfl, rfl⟩)
      (ih fun e' he' => hentry e' (List.mem_cons_of_mem _ he'))

/-- Reducers that only write are always in range. -/
theorem ConfiguredReducer.inRange_of_writes {p : ConfiguredReducer} (hp : tagFamily p.tag = .writes) :
    p.InRange env chain := by
  refine ⟨fun r hr => ?_, fun hmints => ?_⟩
  · subst hr
    cases r <;> first | exact Ledger.along_iff.mpr fun _ _ _ => trivial | cases hp
  · subst hmints
    cases hp

/-- Mints are in range while there are fewer than a counter can say. -/
theorem ConfiguredReducer.inRange_of_minted (h : (chain.flatMap (minted env.deps)).length < 2 ^ 128) :
    mintsByRuneId.InRange env chain :=
  ⟨fun _ hr => (by cases hr), fun _ => h⟩

namespace Sample

def dogecoin : Env := ⟨Compressor.duneScripts, fun _ => none, .byKey, policy, ns⟩

/-- A dune is etched, and minted once. -/
def duneNode : Node :=
  (Compressor.performed Compressor.duneScripts Compressor.fromFirstBlock (Node.open_ true)
    (Compressor.etchedAndMinted Compressor.etchScript)).2

theorem feeds_duneNode :
    Feeds Compressor.duneScripts Compressor.fromFirstBlock (fun _ _ => True) duneNode (receive duneNode.db.tables) := by
  have hsome : (Compressor.runCalls Compressor.duneScripts Compressor.fromFirstBlock (Node.open_ true)
      (Compressor.etchedAndMinted Compressor.etchScript)).isSome = true := by
    decide +kernel
  exact .receive ((Compressor.Run.ofCalls hsome).reach (fun _ _ => True) (by decide +kernel) fun _ _ => trivial)

theorem feeds_revealedNode :
    Feeds Compressor.emptyScripts Compressor.fromFirstBlock (fun _ _ => True) Compressor.revealedNode
      (receive Compressor.revealedNode.db.tables) := by
  have hsome : (Compressor.runCalls Compressor.emptyScripts Compressor.fromFirstBlock (Node.open_ true)
      Compressor.revealedOnSecond).isSome = true := by
    decide +kernel
  exact .receive ((Compressor.Run.ofCalls hsome).reach (fun _ _ => True) (by decide +kernel) fun _ _ => trivial)

end Sample

/-! ## Outputs -/

/-- The entries of an output, for the reducers whose keys name the output. -/
def ConfiguredReducer.outputEntries (env : Env) : ConfiguredReducer → Option (OutPoint → Utxo → List (Key × Value))
  | view .utxosByScriptHash => some (utxoEntries env.scriptHash env.ns)
  | view .utxosByRuneId => some (runeUtxoEntries env.scriptHash env.ns)
  | carried r => some (r.entries env.scriptHash env.ns)
  | _ => none

theorem lists_asUnspent {f : OutPoint → Utxo → List (Key × Value)} {txos : Table TxoRef TxoBody} {k : Key} {v : Value} :
    Ledger.Lists f (asUnspent txos) k v ↔ ∃ ref body, txos.get ref = some body ∧ (k, v) ∈ f ref (asUtxo body) := by
  unfold Ledger.Lists
  constructor
  · rintro ⟨ref, u, hget, hmem⟩
    rw [get_asUnspent] at hget
    obtain ⟨body, hbody, rfl⟩ := Option.map_eq_some_iff.mp hget
    exact ⟨ref, body, hbody, hmem⟩
  · rintro ⟨ref, body, hbody, hmem⟩
    exact ⟨ref, asUtxo body, by rw [get_asUnspent, hbody]; rfl, hmem⟩

theorem LeftBy.outputs (h : Feeds deps cfg C n chain) (hleft : LeftBy env parts chain store)
    {p : ConfiguredReducer} (hp : p ∈ parts) {f : OutPoint → Utxo → List (Key × Value)}
    (hf : p.outputEntries env = some f) {k : Key} (hk : env.ns.dataPrefix p.tag <+: k) (v : Value) :
    store.get k = some v ↔
      ∃ ref body, n.db.tables.txos.get ref = some body ∧ (k, v) ∈ f ref (asUtxo body) := by
  rw [← lists_asUnspent, ← h.unspent]
  cases p with
  | view r =>
    cases r <;> cases hf
    · exact hleft.written hp rfl hk v
    · exact hleft.written hp rfl hk v
  | carried r =>
    cases hf
    exact hleft.written hp (by cases r <;> rfl) hk v
  | recording r => cases hf
  | etching r => cases hf
  | mintsByRuneId => cases hf

/-- **The outputs in the store are those of the node.**  Under the key of an output, for each configured reducer of
outputs, stands what the node's table says of it, and nothing stands under other keys. -/
theorem outputs_indexed (checks : Bool) (h : Feeds deps cfg C n chain) (hnodup : parts.Nodup)
    (hrange : ∀ p ∈ parts, p.InRange env chain) :
    Indexes env checks parts chain fun store => ∀ p ∈ parts, ∀ f, p.outputEntries env = some f → ∀ k v,
      env.ns.dataPrefix p.tag <+: k → (store.get k = some v ↔
        ∃ ref body, n.db.tables.txos.get ref = some body ∧ (k, v) ∈ f ref (asUtxo body)) :=
  (h.indexes checks hnodup hrange).imp fun _ hleft _ hp _ hf _ v hk => hleft.outputs h hp hf hk v

open Sample in
/-- The outputs and the dune of the sample. -/
theorem outputs_indexed_dune :
    duneNode.db.tables.txos.entries.length = 6 ∧
      Indexes dogecoin true [.view .utxosByScriptHash, .carried .runesByUtxo] (receive duneNode.db.tables) fun store =>
        ∀ p ∈ ([.view .utxosByScriptHash, .carried .runesByUtxo] : List ConfiguredReducer), ∀ f,
          p.outputEntries dogecoin = some f → ∀ k v, dogecoin.ns.dataPrefix p.tag <+: k → (store.get k = some v ↔
            ∃ ref body, duneNode.db.tables.txos.get ref = some body ∧ (k, v) ∈ f ref (asUtxo body)) := by
  have hwrites : ∀ p ∈ ([.view .utxosByScriptHash, .carried .runesByUtxo] : List ConfiguredReducer),
      tagFamily p.tag = .writes := by
    decide
  exact ⟨by decide +kernel, outputs_indexed true feeds_duneNode (by decide) fun p hp =>
    ConfiguredReducer.inRange_of_writes (hwrites p hp)⟩

/-! ## Balances -/

theorem LeftBy.counter (hleft : LeftBy env parts chain store) {p : ConfiguredReducer} (hp : p ∈ parts) {k : Key}
    (hk : env.ns.dataPrefix p.tag <+: k) {width : Nat}
    (hfamily : ∀ o o', SameValue (tagFamily p.tag) o o' → counterValue width o = counterValue width o') {m : Nat}
    (hleaves : ∀ o, p.Leaves env chain k o → counterValue width o = m) : counterValue width (store.get k) = m := by
  obtain ⟨o, ho, hsame⟩ := hleft.leaves p hp k hk
  rw [hfamily _ _ hsame]
  exact hleaves o ho

/-- What one script holds of a dune is at most what all hold of all. -/
theorem runesHeld_le (scriptHash : Bytes → ScriptHash) (id : DuneId) (owner : ScriptHash) (t : Unspent) :
    runesHeld scriptHash id owner t ≤ t.total fun _ u => (u.runes.map fun e => e.2.val).sum := by
  refine List.sum_le_sum fun e _ => ?_
  simp only
  split
  · unfold Utxo.amountOf
    exact List.Sublist.sum_le_sum (List.filter_sublist.map _) fun _ _ => Nat.zero_le _
  · exact Nat.zero_le _

/-- Nothing is out of range while all outputs together hold no more than a counter can say. -/
theorem ConfiguredReducer.inRange_of_totals (h : Ledger.Along (fun t : Unspent =>
      t.total (fun _ u => u.txo.value.val) < 2 ^ 64 ∧ t.total (fun _ u => (u.runes.map fun e => e.2.val).sum) < 2 ^ 128)
        Table.empty (chain.flatMap EnrichedBlock.events)) (r : Reducer) : (view r).InRange env chain := by
  refine ⟨fun r' hr => ?_, fun hmints => by cases hmints⟩
  cases hr
  cases r with
  | satBalanceByScriptHash => exact h.imp fun t ht owner => lt_of_le_of_lt (Sample.satsHeld_le _ owner t) ht.1
  | balancesByRuneId => exact h.imp fun t ht id owner => lt_of_le_of_lt (runesHeld_le _ id owner t) ht.2
  | runeBalancesByScriptHash => exact h.imp fun t ht id owner => lt_of_le_of_lt (runesHeld_le _ id owner t) ht.2
  | inscriptionsByScriptHash => exact h.imp fun _ _ => trivial
  | utxosByRuneId => exact h.imp fun _ _ => trivial
  | utxosByScriptHash => exact h.imp fun _ _ => trivial

/-- **The balances in the store are what the node's outputs hold**, in satoshis for each script and in each dune, by
script and by dune, as long as the counters can say it. -/
theorem balances_indexed (checks : Bool) (h : Feeds deps cfg C n chain) (hnodup : parts.Nodup)
    (hrange : ∀ p ∈ parts, p.InRange env chain) :
    Indexes env checks parts chain fun store =>
      (.view .satBalanceByScriptHash ∈ parts → ∀ owner,
        counterValue 8 (store.get (satBalanceByScriptHashKey env.ns owner)) =
          satsHeld env.scriptHash owner (asUnspent n.db.tables.txos)) ∧
      (.view .balancesByRuneId ∈ parts → ∀ (id : DuneId) owner, id.block < 2 ^ 64 ∧ id.tx < 2 ^ 32 →
        counterValue 16 (store.get (balancesByRuneIdKey env.ns id owner)) =
          runesHeld env.scriptHash id owner (asUnspent n.db.tables.txos)) ∧
      (.view .runeBalancesByScriptHash ∈ parts → ∀ (id : DuneId) owner, id.block < 2 ^ 64 ∧ id.tx < 2 ^ 32 →
        counterValue 16 (store.get (runeBalancesByScriptHashKey env.ns owner id)) =
          runesHeld env.scriptHash id owner (asUnspent n.db.tables.txos)) := by
  refine (h.indexes checks hnodup hrange).imp fun store hleft => ?_
  rw [← h.unspent]
  have hwf : ∀ ref u, (unspentAfter chain).get ref = some u → u.WellFormed ref :=
    fun ref u hget => h.valid.unspent_wellFormed hget
  refine ⟨fun hp owner => ?_, fun hp id owner hid => ?_, fun hp id owner hid => ?_⟩
  · exact hleft.counter hp (List.prefix_append _ _) (fun _ _ hsame => hsame) fun o ho => Eq.trans ho (counted_sat owner)
  · exact hleft.counter hp (List.prefix_append _ _) (fun _ _ hsame => hsame) fun o ho =>
      Eq.trans ho (counted_rune env.scriptHash env.ns hwf hid owner).1
  · exact hleft.counter hp (List.prefix_append _ _) (fun _ _ hsame => hsame) fun o ho =>
      Eq.trans ho (counted_rune env.scriptHash env.ns hwf hid owner).2

theorem Sample.duneNode_inRange (r : Reducer) : (ConfiguredReducer.view r).InRange dogecoin (receive duneNode.db.tables) :=
  ConfiguredReducer.inRange_of_totals (by decide +kernel) r

open Sample in
/-- The balances of the sample. -/
theorem balances_indexed_dune :
    Indexes dogecoin true [.view .satBalanceByScriptHash, .view .balancesByRuneId] (receive duneNode.db.tables) fun store =>
      counterValue 16 (store.get (balancesByRuneIdKey dogecoin.ns ⟨1, 1⟩ (dogecoin.scriptHash []))) = 12 := by
  have hrange : ∀ p ∈ ([.view .satBalanceByScriptHash, .view .balancesByRuneId] : List ConfiguredReducer),
      p.InRange dogecoin (receive duneNode.db.tables) :=
    List.forall_mem_cons.mpr ⟨duneNode_inRange _, List.forall_mem_singleton.mpr (duneNode_inRange _)⟩
  have hindexed := balances_indexed true feeds_duneNode (by decide) hrange
  refine hindexed.imp fun store hstore => ?_
  rw [hstore.2.1 (by decide) ⟨1, 1⟩ _ (by decide)]
  decide +kernel

/-! ## Inscriptions -/

/-- **The store knows where inscriptions are**: under a script and an inscription stands the output of the script that
carries it, when ids are distinct and no inscription is paid as a fee from a script to itself. -/
theorem inscriptions_indexed (checks : Bool) (h : Feeds deps cfg C n chain) (hnodup : parts.Nodup)
    (hrange : ∀ p ∈ parts, p.InRange env chain) (hp : .view .inscriptionsByScriptHash ∈ parts)
    (hids : (n.db.tables.records.map NewInscriptionInfo.id).Nodup) (hfees : ∀ b ∈ chain, b.FeesMove env.scriptHash) :
    Indexes env checks parts chain fun store => ∀ owner (id : InscriptionId) v, id.index < 2 ^ 32 →
      (store.get (inscriptionsByScriptHashKey env.ns owner id) = some v ↔ ∃ ref body offset,
        n.db.tables.txos.get ref = some body ∧ env.scriptHash body.raw.scriptPubkey = owner ∧
          (offset, id) ∈ (asUtxo body).inscriptions ∧ v = inscriptionsByScriptHashValue body.height ref offset) := by
  refine (h.indexes checks hnodup hrange).imp fun store hleft owner id v hid => ?_
  have hempty : ∀ k, Ledger.Single (inscriptionEntries env.scriptHash env.ns) k Table.empty := by
    intro k ref u v ref' u' v' hget
    cases hget
  have hinscribed : InscribedChain Table.empty chain := (h.sent.chain chain h.received).2.2 hids
  have hsingle := h.valid.along_single hinscribed hfees h.valid.wellFormed hempty
    (inscriptionsByScriptHashKey env.ns owner id)
  have hlists : store.get (inscriptionsByScriptHashKey env.ns owner id) = some v ↔
      Ledger.Lists (inscriptionEntries env.scriptHash env.ns) (unspentAfter chain)
        (inscriptionsByScriptHashKey env.ns owner id) v :=
    hleft.written hp rfl (List.prefix_append _ _) hsingle v
  rw [hlists, h.unspent, lists_asUnspent]
  constructor
  · rintro ⟨ref, body, hbody, hmem⟩
    obtain ⟨e, he, hkey, hv⟩ := mem_inscriptionEntries.mp hmem
    have hunspent : (unspentAfter chain).get ref = some (asUtxo body) := by
      rw [h.unspent, get_asUnspent, hbody]
      rfl
    obtain ⟨howner, hsame⟩ := inscriptionsByScriptHashKey_inj hid
      ((h.valid.unspent_wellFormed hunspent).inscription e he) hkey
    exact ⟨ref, body, e.1, hbody, howner.symm, by rw [hsame]; exact he, hv⟩
  · rintro ⟨ref, body, offset, hbody, rfl, hmem, hv⟩
    exact ⟨ref, body, hbody, mem_inscriptionEntries.mpr ⟨(offset, id), hmem, rfl, hv⟩⟩

open Sample in
/-- An inscription that is revealed on the second output of its transaction. -/
theorem inscriptions_indexed_revealed :
    Indexes dogecoin true [.view .inscriptionsByScriptHash] (receive Compressor.revealedNode.db.tables) fun store =>
      store.get (inscriptionsByScriptHashKey dogecoin.ns (dogecoin.scriptHash []) ⟨12, 0⟩) =
        some (inscriptionsByScriptHashValue 1 ⟨12, 1⟩ 0) := by
  have hfees : ∀ b ∈ receive Compressor.revealedNode.db.tables, b.FeesMove dogecoin.scriptHash := by
    decide +kernel
  have hindexed := inscriptions_indexed true feeds_revealedNode (List.nodup_singleton _)
    (List.forall_mem_singleton.mpr (ConfiguredReducer.inRange_of_writes rfl)) (List.mem_singleton_self _)
    (by decide +kernel) hfees
  refine hindexed.imp fun store hstore => (hstore _ ⟨12, 0⟩ _ (by decide)).mpr ?_
  have hbody : (Compressor.revealedNode.db.tables.txos.get ⟨12, 1⟩).map (fun body =>
      (body.height, body.raw.scriptPubkey, (asUtxo body).inscriptions)) = some (1, [], [(0, ⟨12, 0⟩)]) := by
    decide +kernel
  obtain ⟨body, hget, heq⟩ := Option.map_eq_some_iff.mp hbody
  obtain ⟨hheight, hrest⟩ := Prod.mk.inj heq
  obtain ⟨hscript, hinscriptions⟩ := Prod.mk.inj hrest
  refine ⟨⟨12, 1⟩, body, 0, hget, by rw [hscript], ?_, by rw [hheight]⟩
  rw [hinscriptions]
  exact List.mem_singleton_self _

end

end DogeIndexer.Polyphony.Reducers
