import DogeIndexer.Compressor.Reach
import DogeIndexer.Compressor.Transfers

/-!
# Conservation of DRC-20 supplies

The supply of a ticker is in the balances of all scripts and in the unused transfers on the outputs, in every
reachable node in which no inscription is revealed twice.  Then no inscription is in two places, and each
unused transfer is credited once.

* `Conserved.step` — one transaction.
* `Applied.conserved` — a block.
* `supply_conserved` — every reachable node.
-/

set_option autoImplicit false

namespace DogeIndexer.Compressor

open Fallible

/-! ## Live outputs -/

/-- How often an inscription is on the outputs. -/
def idsOn (live : Table TxoRef TxoBody) (id : InscriptionId) : Nat := live.total fun _ body => body.ids.count id

/-- The amount of a ticker in the unused transfers of the outputs. -/
def unusedOn (live : Table TxoRef TxoBody) (tick : Ticker) : Nat := live.total fun _ body => body.unusedOf tick

/-- Outputs are replaced by others. -/
structure Replaced (live live' : Table TxoRef TxoBody) (spent produced : List TxoBody) : Prop where
  weights : ∀ w : TxoBody → Nat, ∃ kept, live.total (fun _ body => w body) = kept + (spent.map w).sum ∧
    live'.total (fun _ body => w body) = kept + (produced.map w).sum
  spent : ∀ body ∈ spent, ∃ ref, live.get ref = some body
  produced : ∀ ref body, live'.get ref = some body → (∃ ref, live.get ref = some body) ∨ body ∈ produced

theorem mem_bodies_of_numbered {live : Table TxoRef TxoBody} {txid : Txid} {bodies : List TxoBody} {ref : TxoRef}
    {body : TxoBody} (h : (live.insertAll (numbered txid 0 bodies)).get ref = some body) :
    live.get ref = some body ∨ body ∈ bodies := by
  by_cases hkey : ref ∈ (numbered txid 0 bodies).map Prod.fst
  · obtain ⟨e, he, rfl⟩ := List.mem_map.mp hkey
    rw [Table.get_insertAll_of_mem (numbered_nodup _ _ _) he] at h
    cases h
    obtain ⟨-, i, -, hi⟩ := mem_numbered.mp he
    exact Or.inr (List.mem_of_getElem? hi)
  · rw [Table.get_insertAll_of_notMem hkey] at h
    exact Or.inl h

section

variable {live : Table TxoRef TxoBody} {tx : Transaction} {s : BlockState}

/-- The inputs of a transaction are resolved. -/
theorem LiveTx.resolved (h : LiveTx live tx s) : Resolved s.resolver tx.input := by
  intro txin htxin
  obtain ⟨body, -, hget⟩ := h.inputs _ (List.mem_map_of_mem htxin)
  exact Or.inr ⟨body, hget⟩

/-- The spent outputs are live. -/
theorem LiveTx.inputBodies_eq (h : LiveTx live tx s) (hnull : OutPoint.null ∉ spent tx) :
    inputBodies s.resolver tx.input = (spent tx).filterMap live.get := by
  unfold inputBodies spent
  rw [List.filterMap_map]
  refine List.filterMap_congr fun txin htxin => ?_
  have hmem : txin.previousOutput ∈ spent tx := List.mem_map_of_mem htxin
  obtain ⟨body, hlive, hget⟩ := h.inputs _ hmem
  have hnot : txin.previousOutput.isNull = false := by
    unfold OutPoint.isNull
    exact decide_eq_false fun heq => hnull (heq ▸ hmem)
  rw [hnot, hget, Function.comp_apply, hlive]
  rfl

theorem filterMap_weights (live : Table TxoRef TxoBody) (refs : List TxoRef) (w : TxoBody → Nat) :
    ((refs.filterMap live.get).map w).sum = (refs.map (Table.weightAt (fun _ body => w body) live)).sum := by
  induction refs with
  | nil => rfl
  | cons ref refs ih =>
    rw [List.filterMap_cons, List.map_cons, List.sum_cons, ← ih]
    unfold Table.weightAt
    cases live.get ref with
    | none => exact (Nat.zero_add _).symm
    | some body => rfl

/-- A transaction replaces the outputs that it spends. -/
theorem LiveTx.replaced (h : LiveTx live tx s) (hnull : OutPoint.null ∉ spent tx) (bodies : List TxoBody) :
    Replaced live (afterTx live tx bodies) (inputBodies s.resolver tx.input) bodies := by
  rw [h.inputBodies_eq hnull]
  refine ⟨fun w => ?_, fun body hbody => ?_, fun ref body hget => ?_⟩
  · obtain ⟨kept, hbefore, hafter⟩ := h.total_afterTx w bodies
    exact ⟨kept, by rw [hbefore, filterMap_weights], hafter⟩
  · obtain ⟨ref, -, hget⟩ := List.mem_filterMap.mp hbody
    exact ⟨ref, hget⟩
  · rcases mem_bodies_of_numbered hget with hget | hmem
    · rw [Table.get_eraseAll] at hget
      split at hget
      · cases hget
      · exact Or.inl ⟨ref, hget⟩
    · exact Or.inr hmem

/-- A coinbase adds its outputs. -/
theorem replaced_coinbase {txid : Txid} (hfresh : ∀ vout, live.get ⟨txid, vout⟩ = none) (bodies : List TxoBody) :
    Replaced live (live.insertAll (numbered txid 0 bodies)) [] bodies := by
  refine ⟨fun w => ⟨_, rfl, total_insert_numbered hfresh w bodies⟩, fun body hbody => (List.not_mem_nil hbody).elim,
    fun ref body hget => ?_⟩
  rcases mem_bodies_of_numbered hget with hget | hmem
  · exact Or.inl ⟨ref, hget⟩
  · exact Or.inr hmem

theorem coinbase_inputs (h : spent tx = [OutPoint.null]) (resolver : Table TxoRef TxoBody) :
    Resolved resolver tx.input ∧ inputBodies resolver tx.input = [] := by
  unfold spent at h
  obtain ⟨txin, hinput, hnull⟩ := List.map_eq_singleton_iff.mp h
  have hnull : txin.previousOutput.isNull = true := decide_eq_true hnull
  rw [hinput]
  refine ⟨fun x hx => ?_, ?_⟩
  · rw [List.mem_singleton.mp hx]
    exact Or.inl hnull
  · unfold inputBodies
    rw [List.filterMap_cons, if_pos hnull]
    rfl

end

/-! ## One transaction -/

/-- The state between the transactions of a block, `recorded` being the inscriptions revealed so far: each of
them is in one place, and the supplies are in the balances and on the live outputs. -/
structure Conserved (live : Table TxoRef TxoBody) (i : InscriptionState) (recorded : List InscriptionId) : Prop where
  ids : ∀ id, idsOn live id + (i.cbInscriptions.map Flotsam.inscriptionId).count id ≤ recorded.count id
  carries : ∀ ref body, live.get ref = some body → body.Carries
  bounded : i.brc20.Bounded
  covers : i.brc20.Covers (unusedOn live)

section

variable {deps : Deps} {cfg : Config} {resolver : Table TxoRef TxoBody} {tx : Transaction} {height : Nat}
  {s s' : InscriptionState} {r : IndexInscriptionsResult} {live live' : Table TxoRef TxoBody}
  {placed : List (List (U64 × InscriptionId))} {transfers : Table InscriptionId (Ticker × U128)}
  {messages : List (InscriptionId × BRC20Message)} {bodies : List TxoBody} {recorded : List InscriptionId}

/-- Records are added at the end. -/
theorem InscriptionsStep.records (h : InscriptionsStep deps cfg height tx resolver s placed transfers messages s') :
    ∃ revealed, s'.newInscriptions = s.newInscriptions ++ revealed := by
  cases h with
  | skipped => exact ⟨[], (List.append_nil _).symm⟩
  | indexed _ hindex =>
    obtain ⟨run⟩ := indexInscriptions_ok hindex
    obtain ⟨revealed, hrecords, -⟩ := run.revealed_records
    exact ⟨revealed, hrecords⟩

/-- New outputs carry the inscriptions of their unused transfers. -/
theorem Produced.carries (h : Produced height tx placed transfers bodies) : ∀ body ∈ bodies, body.Carries := by
  intro body hbody id transfer hget
  rw [h.unused body hbody, Table.get_filter, Option.filter_eq_some_iff] at hget
  exact List.contains_iff_mem.mp hget.2

/-- How often an inscription floats, `revealed` being those that the transaction reveals. -/
theorem Indexed.floats_count (run : Indexed deps cfg resolver tx tx.txid height s r s')
    (hresolved : Resolved resolver tx.input) :
    ∃ revealed, s'.newInscriptions.map NewInscriptionInfo.id = s.newInscriptions.map NewInscriptionInfo.id ++ revealed ∧
      ∀ id, run.placedIds.count id + run.leftIds.count id =
        ((inputBodies resolver tx.input).map fun body => body.ids.count id).sum + revealed.count id +
          ((if isCoinbase tx then s.cbInscriptions else []).map Flotsam.inscriptionId).count id := by
  obtain ⟨revealed, hrecords, hperm⟩ := run.ids_perm hresolved
  refine ⟨revealed, hrecords, fun id => ?_⟩
  have hcount := hperm.count_eq id
  rwa [List.count_append, List.count_append, List.count_append, List.count_flatMap] at hcount

/-- **Nothing floats twice** in a transaction after which no inscription has been revealed twice. -/
theorem Indexed.once (run : Indexed deps cfg resolver tx tx.txid height s r s') {earlier : List InscriptionId}
    (h : Conserved live s (earlier ++ s.newInscriptions.map NewInscriptionInfo.id))
    (hresolved : Resolved resolver tx.input) (hreplaced : Replaced live live' (inputBodies resolver tx.input) bodies)
    (hnodup : (earlier ++ s'.newInscriptions.map NewInscriptionInfo.id).Nodup) :
    (run.placedIds ++ run.leftIds).Nodup := by
  obtain ⟨revealed, hrecords, hfloats⟩ := run.floats_count hresolved
  rw [hrecords, ← List.append_assoc] at hnodup
  refine List.nodup_iff_count_le_one.mpr fun id => ?_
  have hone := List.nodup_iff_count_le_one.mp hnodup id
  obtain ⟨kept, hbefore, -⟩ := hreplaced.weights fun body => body.ids.count id
  have hids := h.ids id
  have hfloat := hfloats id
  have hsome : ((if isCoinbase tx then s.cbInscriptions else []).map Flotsam.inscriptionId).count id ≤
      (s.cbInscriptions.map Flotsam.inscriptionId).count id := by
    split
    · exact Nat.le_refl _
    · exact Nat.zero_le _
  have hmore : ((earlier ++ s.newInscriptions.map NewInscriptionInfo.id) ++ revealed).count id =
      (earlier ++ s.newInscriptions.map NewInscriptionInfo.id).count id + revealed.count id := List.count_append
  unfold idsOn at hids
  rw [List.count_append]
  omega

/-- The spent outputs carry the inscriptions of their unused transfers. -/
theorem Conserved.spent_carries {spent : List TxoBody} (h : Conserved live s recorded)
    (hreplaced : Replaced live live' spent bodies) : ∀ body ∈ spent, body.Carries := by
  intro body hbody
  obtain ⟨ref, hget⟩ := hreplaced.spent body hbody
  exact h.carries ref body hget

/-- The unused transfers that a transaction takes off the outputs, and those that it puts on them. -/
theorem Indexed.unusedOn_parts (run : Indexed deps cfg resolver tx tx.txid height s r s')
    (hresolved : Resolved resolver tx.input) (honce : (run.placedIds ++ run.leftIds).Nodup)
    (hcarries : ∀ body ∈ inputBodies resolver tx.input, body.Carries)
    (hproduced : Produced height tx r.outputInscriptions r.newUnusedBrc20Transfers bodies)
    (hreplaced : Replaced live live' (inputBodies resolver tx.input) bodies) (hlen : tx.output.length < 2 ^ 32)
    (tick : Ticker) :
    ∃ kept, unusedOn live tick = kept + transferred r.brc20Resolver tick ∧
      unusedOn live' tick = kept + reserved r.brc20Resolver tick := by
  obtain ⟨hreserved, hplaced⟩ := run.reserved_eq hlen
  have hunused : (bodies.map (TxoBody.unusedOf tick)).sum = reserved r.brc20Resolver tick := by
    rw [hreserved tick]
    refine hproduced.unusedOf_sum (fun id transfer hget => ?_) tick
    rw [(run.outputs_ids hlen hproduced).count_eq id]
    exact List.count_eq_one_of_mem (List.nodup_append.mp honce).1 (hplaced id transfer hget)
  obtain ⟨kept, hbefore, hafter⟩ := hreplaced.weights (TxoBody.unusedOf tick)
  rw [← run.transferred_eq hresolved honce hcarries] at hbefore
  rw [hunused] at hafter
  exact ⟨kept, hbefore, hafter⟩

/-- What a transaction that is indexed conserves: it reveals `revealed`. -/
theorem Indexed.conserved (run : Indexed deps cfg resolver tx tx.txid height s r s') {earlier : List InscriptionId}
    (h : Conserved live s (earlier ++ s.newInscriptions.map NewInscriptionInfo.id))
    (hresolved : Resolved resolver tx.input)
    (hproduced : Produced height tx r.outputInscriptions r.newUnusedBrc20Transfers bodies)
    (hreplaced : Replaced live live' (inputBodies resolver tx.input) bodies) (hlen : tx.output.length < 2 ^ 32)
    (hnodup : (earlier ++ s'.newInscriptions.map NewInscriptionInfo.id).Nodup) :
    Conserved live' s' (earlier ++ s'.newInscriptions.map NewInscriptionInfo.id) ∧
      Recorded true s.brc20 r.brc20Resolver s'.brc20 := by
  have honce := run.once h hresolved hreplaced hnodup
  have hcarries := h.spent_carries hreplaced
  obtain ⟨revealed, hrecords, hfloats⟩ := run.floats_count hresolved
  rw [hrecords, ← List.append_assoc]
  have houtputs : ∀ id, (bodies.map fun body => body.ids.count id).sum = run.placedIds.count id := by
    intro id
    rw [← (run.outputs_ids hlen hproduced).count_eq id, List.count_flatMap]
    rfl
  have hadd : ∀ id, ((earlier ++ s.newInscriptions.map NewInscriptionInfo.id) ++ revealed).count id =
      (earlier ++ s.newInscriptions.map NewInscriptionInfo.id).count id + revealed.count id :=
    fun id => List.count_append
  have hparts := run.unusedOn_parts hresolved honce hcarries hproduced hreplaced hlen
  obtain ⟨hchecked, hcovers⟩ := run.recorded.covers h.bounded h.covers fun tick => by
    obtain ⟨kept, hbefore, -⟩ := hparts tick
    rw [hbefore]
    exact Nat.le_add_left _ _
  refine ⟨⟨fun id => ?_, fun ref body hget => ?_, run.recorded.bounded h.bounded, fun tick => ?_⟩, hchecked⟩
  · obtain ⟨kept, hbefore, hafter⟩ := hreplaced.weights fun body => body.ids.count id
    have hids := h.ids id
    have hfloat := hfloats id
    have hout := houtputs id
    have hmore := hadd id
    unfold idsOn at hids ⊢
    rcases run.rest_cases with ⟨hcoin, hcb, -⟩ | ⟨hcoin, hcb, -⟩
    · rw [hcb, List.map_nil, List.count_nil]
      rw [if_pos hcoin] at hfloat
      omega
    · have hcarried : run.carried.map Flotsam.inscriptionId = run.leftIds := by
        unfold Indexed.carried Indexed.leftIds
        rw [List.map_map]
        rfl
      rw [hcb, List.map_append, List.count_append, hcarried]
      rw [if_neg (by simp [hcoin]), List.map_nil, List.count_nil] at hfloat
      omega
  · rcases hreplaced.produced ref body hget with ⟨ref', hold⟩ | hnew
    · exact h.carries ref' body hold
    · exact hproduced.carries body hnew
  · obtain ⟨kept, hbefore, hafter⟩ := hparts tick
    have hcovered := hcovers tick
    simp only at hcovered
    omega

/-- **One transaction conserves the supplies.** -/
theorem Conserved.step {earlier : List InscriptionId}
    (h : Conserved live s (earlier ++ s.newInscriptions.map NewInscriptionInfo.id))
    (hstep : InscriptionsStep deps cfg height tx resolver s placed transfers messages s')
    (hresolved : Resolved resolver tx.input) (hproduced : Produced height tx placed transfers bodies)
    (hreplaced : Replaced live live' (inputBodies resolver tx.input) bodies) (hlen : tx.output.length < 2 ^ 32)
    (hnodup : (earlier ++ s'.newInscriptions.map NewInscriptionInfo.id).Nodup)
    (hquiet : height < cfg.firstInscriptionHeight → ∀ tick, unusedOn live tick = 0) :
    Conserved live' s' (earlier ++ s'.newInscriptions.map NewInscriptionInfo.id) ∧
      Recorded true s.brc20 messages s'.brc20 ∧
      (height < cfg.firstInscriptionHeight → ∀ tick, unusedOn live' tick = 0) := by
  cases hstep with
  | indexed hheight hindex =>
    obtain ⟨run⟩ := indexInscriptions_ok hindex
    obtain ⟨hconserved, hrecorded⟩ := run.conserved h hresolved hproduced hreplaced hlen hnodup
    exact ⟨hconserved, hrecorded, fun hlow => absurd hheight (by omega)⟩
  | skipped hheight =>
    -- the outputs carry nothing
    have hplain : ∀ body ∈ bodies, body.inscriptions = [] := by
      intro body hbody
      have hmem := List.mem_map_of_mem (f := TxoBody.inscriptions) hbody
      rw [hproduced.inscriptions] at hmem
      obtain ⟨_, -, heq⟩ := List.mem_map.mp hmem
      exact heq.symm
    have hnone : ∀ tick, (bodies.map (TxoBody.unusedOf tick)).sum = 0 := by
      intro tick
      rw [hproduced.unusedOf_sum (fun id transfer hget => by cases hget) tick]
      rfl
    have hquiet' : ∀ tick, unusedOn live' tick = 0 := by
      intro tick
      obtain ⟨kept, hbefore, hafter⟩ := hreplaced.weights (TxoBody.unusedOf tick)
      have hzero := hquiet hheight tick
      have hout := hnone tick
      unfold unusedOn at hzero ⊢
      omega
    refine ⟨⟨fun id => ?_, fun ref body hget => ?_, h.bounded, fun tick => ?_⟩, .nil, fun _ => hquiet'⟩
    · obtain ⟨kept, hbefore, hafter⟩ := hreplaced.weights fun body => body.ids.count id
      have hids := h.ids id
      have hzero : (bodies.map fun body => body.ids.count id).sum = 0 := by
        refine List.sum_eq_zero fun v hv => ?_
        obtain ⟨body, hbody, rfl⟩ := List.mem_map.mp hv
        unfold TxoBody.ids
        rw [hplain body hbody]
        rfl
      unfold idsOn at hids ⊢
      omega
    · rcases hreplaced.produced ref body hget with ⟨ref', hold⟩ | hnew
      · exact h.carries ref' body hold
      · exact hproduced.carries body hnew
    · have hcovered := h.covers tick
      have hbefore := hquiet hheight tick
      have hafter := hquiet' tick
      omega

end

/-! ## A block -/

section

variable {deps : Deps} {cfg : Config} {n n' : Node} {height : Nat} {block : Block} {mutable : Bool}

/-- What holds between the transactions of a block, as long as the inscriptions revealed before and in it are
distinct. -/
def ConservedAfter (cfg : Config) (n : Node) (height : Nat) (earlier : List InscriptionId)
    (live : Table TxoRef TxoBody) (messages : List (InscriptionId × BRC20Message)) (i : InscriptionState) : Prop :=
  (earlier ++ i.newInscriptions.map NewInscriptionInfo.id).Nodup →
    Conserved live i (earlier ++ i.newInscriptions.map NewInscriptionInfo.id) ∧
      Recorded true n.db.tables.brc20 messages i.brc20 ∧
      (height < cfg.firstInscriptionHeight → ∀ tick, unusedOn live tick = 0)

theorem ConservedAfter.step {earlier : List InscriptionId} {live live' : Table TxoRef TxoBody} {tx : Transaction}
    {resolver : Table TxoRef TxoBody} {s s' : InscriptionState} {placed : List (List (U64 × InscriptionId))}
    {transfers : Table InscriptionId (Ticker × U128)} {done messages : List (InscriptionId × BRC20Message)}
    {bodies : List TxoBody} (h : ConservedAfter cfg n height earlier live done s)
    (hstep : InscriptionsStep deps cfg height tx resolver s placed transfers messages s')
    (hresolved : Resolved resolver tx.input) (hproduced : Produced height tx placed transfers bodies)
    (hreplaced : Replaced live live' (inputBodies resolver tx.input) bodies) (hlen : tx.output.length < 2 ^ 32) :
    ConservedAfter cfg n height earlier live' (done ++ messages) s' := by
  intro hnodup
  obtain ⟨revealed, hrecords⟩ := hstep.records
  have hbefore : (earlier ++ s.newInscriptions.map NewInscriptionInfo.id).Nodup := by
    rw [hrecords, List.map_append, ← List.append_assoc] at hnodup
    exact (List.nodup_append.mp hnodup).1
  obtain ⟨hconserved, hrecorded, hquiet⟩ := h hbefore
  obtain ⟨hconserved', hrecorded', hquiet'⟩ := hconserved.step hstep hresolved hproduced hreplaced hlen hnodup hquiet
  exact ⟨hconserved', hrecorded.append hrecorded', hquiet'⟩

/-- **A block conserves the supplies** when no inscription is revealed twice. -/
theorem Applied.conserved (run : Applied deps cfg n height block mutable n')
    (hvalid : ValidBlock n.db.tables height block) (hsettled : Settled n.mem n.db.tables.txos)
    {earlier : List InscriptionId}
    (h : Conserved n.db.tables.txos (initialState deps n.db.tables height n.memory).inscriptions earlier)
    (hquiet : height < cfg.firstInscriptionHeight → ∀ tick, unusedOn n.db.tables.txos tick = 0) :
    ConservedAfter cfg n height earlier n'.db.tables.txos run.final.brc20Resolver run.final.inscriptions := by
  obtain ⟨hcbSpent, hothers⟩ := hvalid.coinbase.not_null run.processed.txdata
  obtain ⟨hinscriptions, hmessages⟩ := run.processed.started_inscriptions
  have hend := run.live_induct hvalid hsettled.agrees hsettled.null
    (P := fun live _ s => ConservedAfter cfg n height earlier live s.brc20Resolver s.inscriptions) ?_ ?_
  · obtain ⟨live, hlive, hfresh, htxos⟩ := hend
    obtain ⟨hresolved, hnone⟩ := coinbase_inputs hcbSpent run.processed.closed.resolver
    rw [run.processed.inscriptions_eq, congrArg BlockState.brc20Resolver run.processed.state, htxos]
    refine hlive.step run.processed.inscriptions hresolved run.processed.produced ?_ ?_
    · rw [hnone]
      exact replaced_coinbase hfresh _
    · exact hvalid.outputs _ (by rw [run.processed.txdata]; exact List.mem_cons_self)
  · rw [hinscriptions, hmessages]
    intro _
    refine ⟨?_, .nil, hquiet⟩
    change Conserved _ _ (earlier ++ [])
    rw [List.append_nil]
    exact h
  · intro live done tx idx s s₁ ptx hidx hpre hliveTx _ hP
    have htx : tx ∈ run.processed.txs := List.fst_mem_of_mem_zipIdx hidx
    rw [ptx.inscriptions_eq, congrArg BlockState.brc20Resolver ptx.state]
    refine hP.step ptx.inscriptions hliveTx.resolved ptx.produced (hliveTx.replaced (hothers tx htx) ptx.bodies) ?_
    exact hvalid.outputs _ (by rw [run.processed.txdata]; exact List.mem_cons_of_mem _ htx)

end

/-! ## Reachable nodes -/

/-- The records of the stored blocks. -/
def Tables.records (t : Tables) : List NewInscriptionInfo :=
  t.resolverByHeight.entries.flatMap fun e => e.2.newInscriptions

/-- The tables between blocks. -/
structure Tables.Conserved (cfg : Config) (t : Tables) : Prop where
  ids : ∀ id, idsOn t.txos id ≤ (t.records.map NewInscriptionInfo.id).count id
  carries : ∀ ref body, t.txos.get ref = some body → body.Carries
  bounded : t.brc20.Bounded
  covers : t.brc20.Covers (unusedOn t.txos)
  quiet : (∀ tick, unusedOn t.txos tick = 0) ∨ ∃ e ∈ t.blockByHeight.entries, cfg.firstInscriptionHeight ≤ e.1

/-- The tables have the same outputs and blocks, and DRC-20 tables that read the same. -/
structure SameSupplies (t t' : Tables) : Prop extends SameChain t t' where
  brc20 : t.brc20.Reads t'.brc20

theorem SameSupplies.records {t t' : Tables} (h : SameSupplies t' t) : t'.records = t.records := by
  unfold Tables.records
  rw [h.resolvers]

theorem SameSupplies.conserved {cfg : Config} {t t' : Tables} (h : SameSupplies t' t) (hc : t.Conserved cfg) :
    t'.Conserved cfg := by
  refine ⟨?_, ?_, h.brc20.bounded hc.bounded, ?_, ?_⟩
  · rw [h.txos, h.records]
    exact hc.ids
  · rw [h.txos]
    exact hc.carries
  · rw [h.txos]
    exact h.brc20.covers hc.covers
  · rw [h.txos, h.blocks]
    exact hc.quiet

/-- Supplies are restored. -/
theorem restores_sameSupplies (deps : Deps) (cfg : Config) (C : Node → Call → Prop) :
    Restores deps cfg C SameSupplies where
  refl t := ⟨SameChain.refl t, Brc20Tables.Reads.refl _⟩
  trans _ _ _ h h' := ⟨h.toSameChain.trans h'.toSameChain, h.brc20.trans h'.brc20⟩
  chain _ _ h := h.toSameChain
  log _ _ := ⟨⟨rfl, rfl, rfl, rfl⟩, Brc20Tables.Reads.refl _⟩
  undo := by
    rintro mutable l t₀ e t₁ x x' hblocks ⟨run, hvalid, hsettled, -⟩ hsame hundo
    have hsourced := (Blocks.sourced (fun _ _ h => SameSupplies.toSameChain h) hblocks).1
    refine ⟨run.undo_sameChain hvalid hsettled hsourced hsame.toSameChain hundo, ?_⟩
    obtain ⟨t, w⟩ := x
    obtain ⟨log, w', heq⟩ := run.undoBlock_eq hvalid hsettled hsame.txos (by rw [hsame.resolvers]) mutable w
    obtain ⟨brc20, hmessages, hreads⟩ := run.recorded.undone hsame.brc20
    rw [heq, hmessages] at hundo
    obtain ⟨brc20', hbrc20', hundo⟩ := bind_eq_ok.mp hundo
    cases hbrc20'
    obtain ⟨dunes, -, rfl⟩ := map_eq_ok.mp hundo
    exact hreads

section

variable {deps : Deps} {cfg : Config} {C : Node → Call → Prop} {n n' : Node} {height : Nat} {block : Block}
  {mutable : Bool}

/-- A block adds its resolver entry at the end. -/
theorem Applied.resolver_entries (run : Applied deps cfg n height block mutable n')
    (hvalid : ValidBlock n.db.tables height block) (hsourced : Sourced n.db.tables) :
    n'.db.tables.resolverByHeight.entries = n.db.tables.resolverByHeight.entries ++
      [(height, resolverEntry n.db.tables block run.final run.staged)] := by
  obtain ⟨log, htables⟩ := run.tables
  have hlater : ∀ e ∈ n.db.tables.resolverByHeight.entries, e.1 < height := by
    rintro ⟨h₀, entry⟩ he
    cases hget : n.db.tables.blockByHeight.get h₀ with
    | none =>
      rw [Table.mem_entries, hsourced.resolvers h₀ hget] at he
      cases he
    | some b => exact hvalid.later (h₀, b) (Table.mem_entries.mpr hget)
  rw [htables]
  exact Table.entries_insert_last _ hlater

/-- A block is stored at the end. -/
theorem Applied.block_entries (run : Applied deps cfg n height block mutable n')
    (hvalid : ValidBlock n.db.tables height block) :
    n'.db.tables.blockByHeight.entries = n.db.tables.blockByHeight.entries ++ [(height, block.hash, block)] := by
  obtain ⟨log, htables⟩ := run.tables
  rw [htables]
  exact Table.entries_insert_last _ hvalid.later

/-- It is stored with its resolver entry, and the others keep theirs. -/
theorem Applied.resolver_get (run : Applied deps cfg n height block mutable n')
    (hvalid : ValidBlock n.db.tables height block) :
    n'.db.tables.resolverByHeight.get height = some (resolverEntry n.db.tables block run.final run.staged) ∧
      ∀ e ∈ n.db.tables.blockByHeight.entries,
        n'.db.tables.resolverByHeight.get e.1 = n.db.tables.resolverByHeight.get e.1 := by
  obtain ⟨log, htables⟩ := run.tables
  rw [htables]
  refine ⟨(Table.get_insert _ _ _ _).trans (if_pos rfl), fun e he => ?_⟩
  exact (Table.get_insert _ _ _ _).trans (if_neg (Nat.ne_of_lt (hvalid.later e he)))

/-- A block adds its records at the end. -/
theorem Applied.records_append (run : Applied deps cfg n height block mutable n')
    (hvalid : ValidBlock n.db.tables height block) (hsourced : Sourced n.db.tables) :
    n'.db.tables.records = n.db.tables.records ++ run.final.inscriptions.newInscriptions := by
  unfold Tables.records
  rw [run.resolver_entries hvalid hsourced, List.flatMap_append, List.flatMap_singleton]
  rfl

/-- **A block conserves the supplies of the tables**, and its messages complete with overflow checks. -/
theorem Tables.Conserved.apply (h : n.db.tables.Conserved cfg) (run : Applied deps cfg n height block mutable n')
    (hvalid : ValidBlock n.db.tables height block) (hsettled : Settled n.mem n.db.tables.txos)
    (hsourced : Sourced n.db.tables) (hnodup : (n'.db.tables.records.map NewInscriptionInfo.id).Nodup) :
    n'.db.tables.Conserved cfg ∧
      Recorded true n.db.tables.brc20 run.final.brc20Resolver n'.db.tables.brc20 := by
  have hquiet : height < cfg.firstInscriptionHeight → ∀ tick, unusedOn n.db.tables.txos tick = 0 := by
    intro hlow
    rcases h.quiet with hzero | ⟨e, he, hfirst⟩
    · exact hzero
    · exact absurd (hvalid.later e he) (by omega)
  have hrecords := run.records_append hvalid hsourced
  obtain ⟨hconserved, hrecorded, hlow⟩ := run.conserved hvalid hsettled
    ⟨fun id => h.ids id, h.carries, h.bounded, h.covers⟩ hquiet (by rwa [hrecords, List.map_append] at hnodup)
  obtain ⟨log, htables⟩ := run.tables
  have hbrc20 : n'.db.tables.brc20 = run.final.inscriptions.brc20 := by rw [htables]
  have hblocks : n'.db.tables.blockByHeight = n.db.tables.blockByHeight.insert height (block.hash, block) := by
    rw [htables]
  rw [hbrc20]
  refine ⟨⟨fun id => ?_, hconserved.carries, ?_, ?_, ?_⟩, hrecorded⟩
  · rw [hrecords, List.map_append]
    exact (Nat.le_add_right _ _).trans (hconserved.ids id)
  · rw [hbrc20]
    exact hconserved.bounded
  · rw [hbrc20]
    exact hconserved.covers
  · by_cases hfirst : height < cfg.firstInscriptionHeight
    · exact Or.inl (hlow hfirst)
    · refine Or.inr ⟨(height, block.hash, block), ?_, by omega⟩
      rw [hblocks, Table.mem_entries, Table.get_insert, if_pos rfl]

theorem Tables.Conserved.empty (cfg : Config) : Tables.empty.Conserved cfg :=
  ⟨fun _ => Nat.le_refl _, fun _ _ hget => (by cases hget), fun _ => Fin.zero_le _, fun _ => rfl,
    Or.inl fun _ => rfl⟩

/-- The tables of a history in which no inscription is revealed twice are conserved. -/
theorem Blocks.conserved {l : List (Tables × (Nat × BlockHash × Block) × Tables)} {t : Tables}
    (h : Blocks deps cfg C SameSupplies l t) (hnodup : (t.records.map NewInscriptionInfo.id).Nodup) :
    t.Conserved cfg := by
  have hall := History.induct (P := fun t => Sourced t ∧
    ((t.records.map NewInscriptionInfo.id).Nodup → t.Conserved cfg)) h
    ⟨Sourced.empty, fun _ => Tables.Conserved.empty cfg⟩ ?_ ?_
  · exact hall.1.2 hnodup
  · rintro s s' hsame ⟨hsourced, hs⟩
    refine ⟨hsame.toSameChain.sourced hsourced, fun hn => hsame.conserved (hs ?_)⟩
    rwa [hsame.records] at hn
  · rintro t₀ e t₁ ⟨hsourced, h₀⟩ ⟨run, hvalid, hsettled, -⟩
    refine ⟨run.sourced hvalid hsettled hsourced, fun hn => ?_⟩
    refine ((h₀ ?_).apply run hvalid hsettled hsourced hn).1
    rw [run.records_append hvalid hsourced, List.map_append] at hn
    exact (List.nodup_append.mp hn).1

/-- The tables of a reachable node are conserved. -/
theorem Reach.conserved (h : Reach deps cfg C n) (hids : (n.db.tables.records.map NewInscriptionInfo.id).Nodup) :
    n.db.tables.Conserved cfg := by
  obtain ⟨l, hl⟩ := h.history (restores_sameSupplies deps cfg C)
  exact hl.blocks.conserved hids

/-- **DRC-20 supplies are conserved** in every reachable node whose stored blocks reveal no inscription twice:
the supply of a ticker is in the balances of all scripts and in the unused transfers on the outputs. -/
theorem supply_conserved (hreach : Reach deps cfg C n)
    (hids : (n.db.tables.records.map NewInscriptionInfo.id).Nodup) (tick : Ticker) :
    (n.db.tables.brc20.supply.getD tick 0).val =
      balancesOf n.db.tables.brc20.balances tick + unusedOn n.db.tables.txos tick :=
  (hreach.conserved hids).covers tick

end

/-- A member of a JSON object. -/
def jsonMember (name : List Char) (value : Option Bytes) : Bytes :=
  match value with
  | some value => ascii [',', '"'] ++ ascii name ++ ascii ['"', ':', '"'] ++ value ++ ascii ['"']
  | none => []

/-- A message as JSON text. -/
def RawProtocolMessage.json (m : RawProtocolMessage) : Bytes :=
  ascii ['{'] ++ (jsonMember ['p'] (some m.p) ++ jsonMember ['o', 'p'] (some m.op) ++
    jsonMember ['t', 'i', 'c', 'k'] (some m.tick) ++ jsonMember ['m', 'a', 'x'] m.max ++ jsonMember ['l', 'i', 'm'] m.lim ++
    jsonMember ['d', 'e', 'c'] m.dec ++ jsonMember ['a', 'm', 't'] m.amt).tail ++ ascii ['}']

/-- The other crates on empty scripts and on the texts of the given messages. -/
def messageScripts (messages : List RawProtocolMessage) : Deps :=
  { emptyScripts with fromJson := fun text => messages.find? fun m => m.json = text }

/-- The first input's script of an inscription of a message, in one piece. -/
def messageScript (m : RawProtocolMessage) : Bytes :=
  [3] ++ ascii ['o', 'r', 'd'] ++ [81, 10] ++ BRC20.textPlain ++ [0, Fin.ofNat 256 m.json.length] ++ m.json

/-- The deployment of ticker `dogi` with a maximal supply of 21, by default with 18 decimals. -/
def deployDogi : RawProtocolMessage where
  p := ascii ['d', 'r', 'c', '-', '2', '0']
  op := ascii ['d', 'e', 'p', 'l', 'o', 'y']
  tick := ascii ['d', 'o', 'g', 'i']
  max := some (ascii ['2', '1'])
  lim := none
  dec := none
  amt := none

def mintDogi (amt : List Char) : RawProtocolMessage :=
  { deployDogi with op := ascii ['m', 'i', 'n', 't'], max := none, amt := some (ascii amt) }

def transferDogi (amt : List Char) : RawProtocolMessage :=
  { deployDogi with op := ascii ['t', 'r', 'a', 'n', 's', 'f', 'e', 'r'], max := none, amt := some (ascii amt) }

def dogiScripts : Deps := messageScripts [deployDogi, mintDogi ['2', '1'], transferDogi ['5']]

/-- A deployment, a mint and a transfer inscription. -/
def dogiCalls : List Call := [
  callOf 0 1 0 [coinbaseTx 10 [2000000000, 1500000000, 1500000000]],
  callOf 1 2 1 [coinbaseTx 11 [5000000000], spendTx 12 ⟨10, 0⟩ (messageScript deployDogi) [2000000000],
    spendTx 13 ⟨10, 1⟩ (messageScript (mintDogi ['2', '1'])) [1500000000],
    spendTx 14 ⟨10, 2⟩ (messageScript (transferDogi ['5'])) [1500000000]]]

/-- Of the minted supply a part is on an unused transfer inscription, and the rest on the balance. -/
theorem supply_conserved_transfer :
    ∃ n, Reach dogiScripts fromFirstBlock (fun _ _ => True) n ∧
      (n.db.tables.brc20.supply.getD deployDogi.tick 0).val =
        balancesOf n.db.tables.brc20.balances deployDogi.tick + unusedOn n.db.tables.txos deployDogi.tick ∧
      unusedOn n.db.tables.txos deployDogi.tick = 5 * 10 ^ 18 := by
  have hsome : (runCalls dogiScripts fromFirstBlock (Node.open_ true) dogiCalls).isSome = true := by decide +kernel
  have hreach := (Run.ofCalls hsome).reach (fun _ _ => True) (by decide +kernel) (fun _ _ => trivial)
  exact ⟨_, hreach, supply_conserved hreach (by decide +kernel) _, by decide +kernel⟩

end DogeIndexer.Compressor
