import DogeIndexer.Compressor.Applied

/-!
# Live outputs

The table of unspent outputs as the transactions of a block change it one by one: a transaction
takes its inputs away and adds its outputs.

* `ProcessedBlock.live_induct` — rule for results about the live outputs of a valid block.
* `Applied.live_induct` — the staged table of outputs is the live table after the block.
* `Run.settled` — the memory resolver agrees with the table along every run of valid blocks.
-/

set_option autoImplicit false

namespace DogeIndexer.Compressor

open Fallible

/-! ## Spendable inputs -/

/-- Only the outputs that are spent need be available. -/
theorem Spendable.restrict {available available' : List TxoRef} {txs : List Transaction}
    (hsub : ∀ ref ∈ available, ref ∈ txs.flatMap spent → ref ∈ available')
    (h : Spendable available txs) : Spendable available' txs := by
  induction txs generalizing available available' with
  | nil => exact trivial
  | cons tx txs ih =>
    obtain ⟨hnodup, hmem, hrest⟩ := h
    refine ⟨hnodup, ?_, ih ?_ hrest⟩
    · intro ref href
      exact hsub ref (hmem ref href) (List.mem_flatMap.mpr ⟨tx, List.mem_cons_self, href⟩)
    · intro ref href hspent
      rcases List.mem_append.mp href with href | href
      · obtain ⟨href, hnot⟩ := List.mem_filter.mp href
        refine List.mem_append_left _ (List.mem_filter.mpr ⟨hsub ref href ?_, hnot⟩)
        obtain ⟨tx', htx', hin⟩ := List.mem_flatMap.mp hspent
        exact List.mem_flatMap.mpr ⟨tx', List.mem_cons_of_mem _ htx', hin⟩
      · exact List.mem_append_right _ href

/-- What is spent was available, or is an output of the transactions. -/
theorem Spendable.mem {available : List TxoRef} {txs : List Transaction} (h : Spendable available txs)
    {ref : TxoRef} (href : ref ∈ txs.flatMap spent) : ref ∈ available ∨ ∃ tx ∈ txs, ref ∈ outputRefs tx := by
  induction txs generalizing available with
  | nil => cases href
  | cons tx txs ih =>
    obtain ⟨-, hmem, hrest⟩ := h
    rw [List.flatMap_cons] at href
    rcases List.mem_append.mp href with href | href
    · exact Or.inl (hmem ref href)
    · rcases ih hrest href with hav | ⟨tx', htx', hout⟩
      · rcases List.mem_append.mp hav with hav | hout
        · exact Or.inl (List.mem_filter.mp hav).1
        · exact Or.inr ⟨tx, List.mem_cons_self, hout⟩
      · exact Or.inr ⟨tx', List.mem_cons_of_mem _ htx', hout⟩

/-- No output is spent twice. -/
theorem Spendable.nodup {available : List TxoRef} {txs : List Transaction} (h : Spendable available txs)
    (hfresh : ∀ ref ∈ available, ∀ tx ∈ txs, ref.txid ≠ tx.txid) (htxids : (txs.map Transaction.txid).Nodup) :
    (txs.flatMap spent).Nodup := by
  induction txs generalizing available with
  | nil => exact List.nodup_nil
  | cons tx txs ih =>
    obtain ⟨hnodup, hmem, hrest⟩ := h
    rw [List.map_cons, List.nodup_cons] at htxids
    rw [List.flatMap_cons, List.nodup_append]
    refine ⟨hnodup, ih hrest ?_ htxids.2, ?_⟩
    · intro ref href tx' htx'
      rcases List.mem_append.mp href with href | href
      · exact hfresh ref (List.mem_filter.mp href).1 tx' (List.mem_cons_of_mem _ htx')
      · intro heq
        exact htxids.1 ((mem_outputRefs.mp href).1 ▸ heq ▸ List.mem_map_of_mem htx')
    · rintro ref href _ hlater rfl
      have hav := hmem ref href
      rcases hrest.mem hlater with hin | ⟨tx', htx', hout⟩
      · rcases List.mem_append.mp hin with hin | hout
        · exact absurd href (by simpa using (List.mem_filter.mp hin).2)
        · exact hfresh ref hav tx List.mem_cons_self (mem_outputRefs.mp hout).1
      · exact hfresh ref hav tx' (List.mem_cons_of_mem _ htx') (mem_outputRefs.mp hout).1

/-- A valid block spends no output twice. -/
theorem ValidBlock.spent_nodup {t : Tables} {height : Nat} {block : Block} (h : ValidBlock t height block) :
    ((block.txdata.drop 1).flatMap spent).Nodup := by
  refine h.unspent.nodup ?_ ?_
  · intro ref href tx htx heq
    obtain ⟨e, he, rfl⟩ := List.mem_map.mp href
    exact h.unproduced e he (heq ▸ List.mem_map_of_mem (List.mem_of_mem_drop htx))
  · exact h.txids.sublist ((List.drop_sublist 1 block.txdata).map Transaction.txid)

/-! ## One transaction -/

/-- The live outputs after a transaction. -/
def afterTx (live : Table TxoRef TxoBody) (tx : Transaction) (bodies : List TxoBody) : Table TxoRef TxoBody :=
  (live.eraseAll (spent tx)).insertAll (numbered tx.txid 0 bodies)

/-- The live outputs a transaction meets: its inputs are live and resolved, its outputs new. -/
structure LiveTx (live : Table TxoRef TxoBody) (tx : Transaction) (s : BlockState) : Prop where
  nodup : (spent tx).Nodup
  inputs : ∀ ref ∈ spent tx, ∃ body, live.get ref = some body ∧ s.resolver.get ref = some body
  fresh : ∀ vout, live.get ⟨tx.txid, vout⟩ = none

/-- The live outputs between the transactions of a block, `rest` being those that follow. -/
structure LiveBlock (coinbase : Transaction) (rest : List Transaction) (live : Table TxoRef TxoBody)
    (s : BlockState) : Prop where
  spendable : Spendable (live.entries.map Prod.fst) rest
  fresh : ∀ tx ∈ coinbase :: rest, ∀ vout, live.get ⟨tx.txid, vout⟩ = none
  txids : ((coinbase :: rest).map Transaction.txid).Nodup
  resolved : ∀ ref ∈ rest.flatMap spent, ∀ body, live.get ref = some body → s.resolver.get ref = some body

theorem LiveBlock.head {coinbase tx : Transaction} {rest : List Transaction} {live : Table TxoRef TxoBody}
    {s : BlockState} (h : LiveBlock coinbase (tx :: rest) live s) : LiveTx live tx s where
  nodup := h.spendable.1
  inputs ref href := by
    obtain ⟨body, hbody⟩ := Table.mem_keys.mp (h.spendable.2.1 ref href)
    exact ⟨body, hbody, h.resolved ref (List.mem_flatMap.mpr ⟨tx, List.mem_cons_self, href⟩) body hbody⟩
  fresh := h.fresh tx (List.mem_cons_of_mem _ List.mem_cons_self)

/-- Outputs of other transactions are live after a transaction when they were and it does not
spend them. -/
theorem get_afterTx_of_ne {live : Table TxoRef TxoBody} {tx : Transaction} {bodies : List TxoBody}
    {ref : TxoRef} (hne : ref.txid ≠ tx.txid) :
    (afterTx live tx bodies).get ref = if ref ∈ spent tx then none else live.get ref := by
  have hkey : ref ∉ (numbered tx.txid 0 bodies).map Prod.fst := fun hmem => hne (numbered_keys.mp hmem).1
  unfold afterTx
  rw [Table.get_insertAll_of_notMem hkey, Table.get_eraseAll]
  by_cases hspent : ref ∈ spent tx
  · rw [if_pos hspent, if_pos hspent]
  · rw [if_neg hspent, if_neg hspent]

theorem get_afterTx_self {live : Table TxoRef TxoBody} {tx : Transaction} {bodies : List TxoBody} {vout : Nat}
    (hfresh : live.get ⟨tx.txid, vout⟩ = none) :
    (afterTx live tx bodies).get ⟨tx.txid, vout⟩ = bodies[vout]? := by
  unfold afterTx
  cases hb : bodies[vout]? with
  | some body =>
    exact Table.get_insertAll_of_mem (numbered_nodup _ _ _) (mem_numbered.mpr ⟨rfl, vout, by simp, hb⟩)
  | none =>
    have hlen := List.getElem?_eq_none_iff.mp hb
    have hkey : (⟨tx.txid, vout⟩ : TxoRef) ∉ (numbered tx.txid 0 bodies).map Prod.fst := by
      intro hmem
      have hlt := (numbered_keys.mp hmem).2.2
      simp only [Nat.zero_add] at hlt
      omega
    rw [Table.get_insertAll_of_notMem hkey, Table.get_eraseAll]
    split
    · rfl
    · exact hfresh

/-- New outputs add their weight. -/
theorem total_insert_numbered {live : Table TxoRef TxoBody} {txid : Txid} (hfresh : ∀ vout, live.get ⟨txid, vout⟩ = none)
    (w : TxoBody → Nat) (bodies : List TxoBody) :
    (live.insertAll (numbered txid 0 bodies)).total (fun _ body => w body) =
      live.total (fun _ body => w body) + (bodies.map w).sum := by
  rw [Table.total_insertAll _ live (numbered_nodup _ _ _), numbered_sum w]
  rintro ⟨⟨txid', vout⟩, body⟩ he
  obtain ⟨htx, -⟩ := mem_numbered.mp he
  simp only at htx
  subst htx
  exact hfresh vout

/-- A transaction takes the weight of its inputs away and adds that of its outputs. -/
theorem LiveTx.total_afterTx {live : Table TxoRef TxoBody} {tx : Transaction} {s : BlockState} (h : LiveTx live tx s)
    (w : TxoBody → Nat) (bodies : List TxoBody) :
    ∃ kept, live.total (fun _ body => w body) =
        kept + ((spent tx).map (Table.weightAt (fun _ body => w body) live)).sum ∧
      (afterTx live tx bodies).total (fun _ body => w body) = kept + (bodies.map w).sum := by
  refine ⟨(live.eraseAll (spent tx)).total (fun _ body => w body), (Table.total_eraseAll _ live h.nodup).symm, ?_⟩
  refine total_insert_numbered (fun vout => ?_) w bodies
  rw [Table.get_eraseAll]
  split
  · rfl
  · exact h.fresh vout

section

variable {deps : Deps} {cfg : Config} {height idx : Nat} {tx : Transaction} {s s₁ : BlockState}

theorem ProcessedTx.bodies_length (run : ProcessedTx deps cfg height idx tx s s₁) :
    run.bodies.length = tx.output.length := by
  rw [← run.produced.raw, List.length_map]

/-- A transaction leads from live outputs to live outputs. -/
theorem LiveBlock.tail {coinbase : Transaction} {rest : List Transaction} {live : Table TxoRef TxoBody}
    (h : LiveBlock coinbase (tx :: rest) live s) (run : ProcessedTx deps cfg height idx tx s s₁) :
    LiveBlock coinbase rest (afterTx live tx run.bodies) s₁ := by
  have hnodup := h.txids
  rw [List.map_cons, List.map_cons, List.nodup_cons, List.nodup_cons] at hnodup
  have hother : ∀ tx' ∈ coinbase :: rest, tx'.txid ≠ tx.txid := by
    intro tx' htx' heq
    rcases List.mem_cons.mp htx' with rfl | htx'
    · exact hnodup.1 (by rw [heq]; exact List.mem_cons_self)
    · exact hnodup.2.1 (by rw [← heq]; exact List.mem_map_of_mem htx')
  refine ⟨?_, ?_, ?_, ?_⟩
  · refine h.spendable.2.2.restrict (fun ref href _ => Table.mem_keys.mpr ?_)
    by_cases htx : ref.txid = tx.txid
    · obtain ⟨t, vout⟩ := ref
      simp only at htx
      subst htx
      rw [get_afterTx_self (h.head.fresh vout)]
      rcases List.mem_append.mp href with href | href
      · obtain ⟨body, hbody⟩ := Table.mem_keys.mp (List.mem_filter.mp href).1
        rw [h.head.fresh vout] at hbody
        cases hbody
      · have hlt := (mem_outputRefs.mp href).2
        simp only at hlt
        exact ⟨_, List.getElem?_eq_getElem (by rw [run.bodies_length]; exact hlt)⟩
    · rw [get_afterTx_of_ne htx]
      rcases List.mem_append.mp href with href | href
      · obtain ⟨hlive, hnot⟩ := List.mem_filter.mp href
        rw [if_neg (by simpa using hnot)]
        exact Table.mem_keys.mp hlive
      · exact absurd (mem_outputRefs.mp href).1 htx
  · intro tx' htx' vout
    rw [get_afterTx_of_ne (hother tx' htx')]
    split
    · rfl
    · refine h.fresh tx' ?_ vout
      rcases List.mem_cons.mp htx' with rfl | htx'
      · exact List.mem_cons_self
      · exact List.mem_cons_of_mem _ (List.mem_cons_of_mem _ htx')
  · rw [List.map_cons, List.nodup_cons]
    exact ⟨fun hmem => hnodup.1 (List.mem_cons_of_mem _ hmem), hnodup.2.2⟩
  · intro ref href body hget
    rw [run.resolver_eq]
    by_cases hkey : ref ∈ (numbered tx.txid 0 run.bodies).map Prod.fst
    · unfold afterTx at hget
      rw [Table.get_insertAll_congr hkey]
      exact hget
    · unfold afterTx at hget
      rw [Table.get_insertAll_of_notMem hkey, Table.get_eraseAll] at hget
      split at hget
      · cases hget
      · rw [Table.get_insertAll_of_notMem hkey]
        obtain ⟨tx', htx', hin⟩ := List.mem_flatMap.mp href
        exact h.resolved ref (List.mem_flatMap.mpr ⟨tx', List.mem_cons_of_mem _ htx', hin⟩) body hget

end

/-! ## A block -/

/-- The position of a transaction among the steps is its number in the block. -/
theorem ProcessedBlock.index_eq {deps : Deps} {cfg : Config} {txos : Table TxoRef TxoBody} {height : Nat}
    {block : Block} {s s' : BlockState} (run : ProcessedBlock deps cfg txos height block s s')
    (hnodup : (txIds block).Nodup) {done : List (Transaction × BlockState)} {tx : Transaction} {idx : Nat}
    {before : BlockState} (hidx : (tx, idx) ∈ run.txs.zipIdx 1) (hpre : (done ++ [(tx, before)]) <+: run.steps) :
    idx = done.length + 1 := by
  unfold txIds at hnodup
  rw [run.txdata, List.map_cons, List.nodup_cons] at hnodup
  obtain ⟨suffix, hsuffix⟩ := hpre
  have hsteps : run.steps[done.length]? = some (tx, before) := by
    rw [← hsuffix, List.append_assoc, List.getElem?_append_right (Nat.le_refl _), Nat.sub_self]
    rfl
  have hat : run.txs[done.length]? = some tx := by
    have hmap : run.steps.map Prod.fst = run.txs := by
      rw [run.processes.map_fst, List.zipIdx_map_fst]
    rw [← hmap, List.getElem?_map, hsteps]
    rfl
  obtain ⟨hle, hget⟩ := List.mk_mem_zipIdx_iff_le_and_getElem?_sub.mp hidx
  obtain ⟨hlt, -⟩ := List.getElem?_eq_some_iff.mp hat
  have := (List.getElem?_inj hlt hnodup.2.of_map).mp (hat.trans hget.symm)
  omega

/-- The outputs of a transaction and those it spends are resolved at the end of its block. -/
structure ResolvedTx (final : Table TxoRef TxoBody) (tx : Transaction) (s : BlockState) (bodies : List TxoBody) :
    Prop where
  outputs : ∀ vout body, bodies[vout]? = some body → final.get ⟨tx.txid, vout⟩ = some body
  inputs : ∀ ref ∈ spent tx, final.get ref = s.resolver.get ref

section

variable {deps : Deps} {cfg : Config} {height : Nat} {block : Block} {txos : Table TxoRef TxoBody}
  {s s' : BlockState}

/-- **Rule for live outputs**: a property of the live outputs, the steps so far and the state that
each transaction preserves holds after the last one. -/
theorem ProcessedBlock.live_induct (run : ProcessedBlock deps cfg txos height block s s')
    {live : Table TxoRef TxoBody} (hlive : LiveBlock run.coinbase run.txs live run.started)
    {P : Table TxoRef TxoBody → List (Transaction × BlockState) → BlockState → Prop}
    (h : P live [] run.started)
    (hstep : ∀ live done tx idx s s₁ (ptx : ProcessedTx deps cfg height idx tx s s₁),
      (tx, idx) ∈ run.txs.zipIdx 1 → (done ++ [(tx, s)]) <+: run.steps → LiveTx live tx s →
      ResolvedTx s'.resolver tx s ptx.bodies →
      P live done s → P (afterTx live tx ptx.bodies) (done ++ [(tx, s)]) s₁) :
    ∃ live', P live' run.steps run.closed ∧ ∀ vout, live'.get ⟨run.coinbase.txid, vout⟩ = none := by
  have hend := ProcessedTxs.induct (P := fun done rest s => ∃ live', P live' done s ∧
      LiveBlock run.coinbase (rest.map Prod.fst) live' s) run.processes [] ?_ ⟨live, h, ?_⟩
  · obtain ⟨live', hP, hblock⟩ := hend
    exact ⟨live', hP, hblock.fresh _ List.mem_cons_self⟩
  · rintro done tx idx rest later s₁ s₂ hsuffix hpre ptx hlater ⟨live', hP, hblock⟩
    rw [List.map_cons] at hblock
    have hnodup := hblock.txids
    rw [List.map_cons, List.map_cons, List.nodup_cons, List.nodup_cons] at hnodup
    -- later transactions, and the coinbase, have other txids
    have hkept : ∀ ref : TxoRef, ref.txid ≠ run.coinbase.txid → (∀ tx' ∈ rest.map Prod.fst, ref.txid ≠ tx'.txid) →
        s'.resolver.get ref = s₂.resolver.get ref := by
      intro ref hcb hothers
      rw [run.resolver_eq, Table.get_insertAll_of_notMem (fun hmem => hcb (numbered_keys.mp hmem).1),
        hlater.resolver_get (fun e he heq => hothers e.1 (List.mem_map_of_mem he) heq.symm)]
    have hfinal : ResolvedTx s'.resolver tx s₁ ptx.bodies := by
      refine ⟨fun vout body hbody => ?_, fun ref href => ?_⟩
      · rw [hkept, ptx.resolver_eq]
        · exact Table.get_insertAll_of_mem (numbered_nodup _ _ _) (mem_numbered.mpr ⟨rfl, vout, by simp, hbody⟩)
        · intro heq
          exact hnodup.1 (by rw [← heq]; exact List.mem_cons_self)
        · intro tx' htx' heq
          have heq : tx.txid = tx'.txid := heq
          exact hnodup.2.1 (heq ▸ List.mem_map_of_mem htx')
      · have hlive : ∀ tx' ∈ run.coinbase :: tx :: rest.map Prod.fst, ref.txid ≠ tx'.txid := by
          intro tx' htx' heq
          obtain ⟨body, hbody, -⟩ := hblock.head.inputs ref href
          have hnone := hblock.fresh tx' htx' ref.vout
          rw [← heq, hbody] at hnone
          cases hnone
        rw [hkept ref (hlive _ List.mem_cons_self)
          (fun tx' htx' => hlive tx' (List.mem_cons_of_mem _ (List.mem_cons_of_mem _ htx'))), ptx.resolver_eq]
        refine Table.get_insertAll_of_notMem (fun hmem => ?_)
        exact hlive tx (List.mem_cons_of_mem _ List.mem_cons_self) (numbered_keys.mp hmem).1
    exact ⟨_, hstep live' done tx idx s₁ s₂ ptx (hsuffix.subset List.mem_cons_self) hpre hblock.head hfinal hP,
      hblock.tail ptx⟩
  · rw [List.zipIdx_map_fst]
    exact hlive

/-- The references that a block takes from outside are distinct, and not its own. -/
theorem externalRefs_nodup (block : Block) : (externalRefs block).Nodup :=
  (List.nodup_dedup _).filter _

theorem mem_externalRefs {ref : TxoRef} :
    ref ∈ externalRefs block ↔ ref ∈ (block.txdata.drop 1).flatMap spent ∧ ref.txid ∉ txIds block := by
  unfold externalRefs inputRefs
  rw [List.mem_filter, List.mem_dedup]
  simp only [decide_eq_true_eq]
  rfl

/-- What a valid block takes from outside is in the table. -/
theorem ValidBlock.external_stored {t : Tables} {height : Nat} {block : Block} (h : ValidBlock t height block)
    {ref : TxoRef} (href : ref ∈ externalRefs block) : ∃ body, t.txos.get ref = some body := by
  obtain ⟨hspent, hother⟩ := mem_externalRefs.mp href
  rcases h.unspent.mem hspent with hstored | ⟨tx, htx, hout⟩
  · exact Table.mem_keys.mp hstored
  · refine absurd ?_ hother
    rw [(mem_outputRefs.mp hout).1]
    exact List.mem_map_of_mem (List.mem_of_mem_drop htx)

/-- What the inputs of a block are resolved to. -/
theorem resolved_get {opened : BlockState}
    (h : (externalRefs block).forM (resolveInput deps cfg txos) s = .ok ⟨⟩ opened)
    (hempty : s.resolver = Table.empty) (ref : TxoRef) :
    opened.resolver.get ref = if ref ∈ externalRefs block then (s.mem.get ref).or (txos.get ref) else none := by
  obtain ⟨-, -, hother, hself⟩ := resolveInputs_ok h
  by_cases href : ref ∈ externalRefs block
  · rw [if_pos href]
    exact hself (externalRefs_nodup block) ref href (by rw [hempty]; rfl)
  · rw [if_neg href, hother ref href, hempty]
    rfl

/-- What a resolved block has read of the outputs it spends. -/
theorem ProcessedBlock.started_resolver (run : ProcessedBlock deps cfg txos height block s s')
    (hempty : s.resolver = Table.empty) (ref : TxoRef) :
    run.started.resolver.get ref =
      if ref ∈ externalRefs block then (s.mem.get ref).or (txos.get ref) else none := by
  have hstart : run.started.resolver = run.opened.resolver := by rw [run.starts]
  rw [hstart]
  exact resolved_get run.resolves hempty ref

/-- Before its transactions a block has resolved its inputs, and its inscriptions are as before. -/
theorem beforeTxs_ok (h : beforeTxs deps cfg txos height block s = .ok ⟨⟩ s') (hempty : s.resolver = Table.empty) :
    ∃ coinbase txs, block.txdata = coinbase :: txs ∧ s'.inscriptions = s.inscriptions ∧
      ∀ ref, s'.resolver.get ref =
        if ref ∈ externalRefs block then (s.mem.get ref).or (txos.get ref) else none := by
  unfold beforeTxs at h
  obtain ⟨_, opened, hopen, h⟩ := Effect.bind_eq_ok.mp h
  obtain ⟨⟨resolver, hopened⟩, -⟩ := resolveInputs_ok hopen
  cases htx : block.txdata with
  | nil =>
    rw [htx] at h
    exact (Effect.throw_ne_ok h).elim
  | cons coinbase txs =>
    rw [htx] at h
    obtain ⟨dunes, started, hrunes, h⟩ := Effect.bind_eq_ok.mp h
    obtain ⟨-, etches, mints, t, -, hstarted⟩ := processRunes_ok hrunes
    obtain ⟨-, rfl⟩ := Effect.pure_eq_ok.mp h
    refine ⟨coinbase, txs, rfl, by rw [hstarted, hopened], fun ref => ?_⟩
    rw [hstarted]
    exact resolved_get hopen hempty ref

end

/-! ## Staging -/

/-- A resolved output is staged as it is. -/
theorem stageOutputs_ok {resolver : Table TxoRef TxoBody} {height : Nat} {hash : BlockHash} {txid : Txid}
    {vout : Nat} {outputs : List TxOut} {bodies : List TxoBody} {staged staged' : Staged}
    (hraw : bodies.map TxoBody.raw = outputs) (hheight : ∀ b ∈ bodies, b.height = height)
    (hget : ∀ i body, bodies[i]? = some body → resolver.get ⟨txid, vout + i⟩ = some body)
    (h : (outputs.zipIdx vout).foldlM (stageOutput resolver height hash txid) staged = .ok staged') :
    staged'.txos = staged.txos.insertAll (numbered txid vout bodies) := by
  induction bodies generalizing vout outputs staged with
  | nil =>
    subst hraw
    cases h
    rfl
  | cons body bodies ih =>
    subst hraw
    rw [List.map_cons, List.zipIdx_cons] at h
    obtain ⟨staged₁, h₁, h₂⟩ := foldlM_cons_eq_ok.mp h
    have hbody : resolver.get ⟨txid, vout⟩ = some body := hget 0 body rfl
    unfold stageOutput at h₁
    simp only [hbody] at h₁
    cases h₁
    have hself : (⟨height, body.raw, body.dunes, body.inscriptions, body.unusedBrc20Transfers⟩ : TxoBody) =
        body := by
      rw [← hheight body List.mem_cons_self]
    rw [ih rfl (fun b hb => hheight b (List.mem_cons_of_mem _ hb)) ?_ h₂]
    · simp only [hself]
      rfl
    · intro i b hb
      have hi := hget (i + 1) b (by simpa using hb)
      rw [show vout + 1 + i = vout + (i + 1) by omega]
      exact hi

theorem stageTx_ok {resolver : Table TxoRef TxoBody} {height : Nat} {hash : BlockHash} {tx : Transaction}
    {bodies : List TxoBody} {staged staged' : Staged}
    (hraw : bodies.map TxoBody.raw = tx.output) (hheight : ∀ b ∈ bodies, b.height = height)
    (hget : ∀ vout body, bodies[vout]? = some body → resolver.get ⟨tx.txid, vout⟩ = some body)
    (h : stageTx resolver height hash staged tx = .ok staged') :
    staged'.txos = (staged.txos.insertAll (numbered tx.txid 0 bodies)).eraseAll (spent tx) := by
  unfold stageTx at h
  obtain ⟨staged₁, h₁, h⟩ := bind_eq_ok.mp h
  cases h
  have houtputs := stageOutputs_ok hraw hheight (fun i body hb => by rw [Nat.zero_add]; exact hget i body hb) h₁
  simp only [← houtputs]
  unfold Table.eraseAll spent
  rw [List.foldl_map]

/-- The table of outputs agrees with the memory where both have an output. -/
def Agrees (mem txos : Table TxoRef TxoBody) : Prop :=
  ∀ ref body body', mem.get ref = some body → txos.get ref = some body' → body = body'

/-- The entries of the memory resolver beside the database. -/
def Node.mem (n : Node) : Table TxoRef TxoBody :=
  match n.memory with
  | none => Table.empty
  | some memory => memory.entries

section

variable {deps : Deps} {cfg : Config} {n n' : Node} {height : Nat} {block : Block} {mutable : Bool}

/-- The outputs of the table are live at the start of a valid block that has resolved its inputs. -/
theorem ValidBlock.liveTxos (hvalid : ValidBlock n.db.tables height block) {coinbase : Transaction}
    {txs : List Transaction} {started : BlockState} (htxdata : block.txdata = coinbase :: txs)
    (hresolver : ∀ ref, started.resolver.get ref =
      if ref ∈ externalRefs block then (n.mem.get ref).or (n.db.tables.txos.get ref) else none)
    (hagrees : Agrees n.mem n.db.tables.txos) : LiveBlock coinbase txs n.db.tables.txos started := by
  have hdrop : block.txdata.drop 1 = txs := by rw [htxdata]; rfl
  have hunspent := hvalid.unspent
  have htxids := hvalid.txids
  unfold txIds at htxids
  rw [htxdata] at htxids
  rw [hdrop] at hunspent
  refine ⟨hunspent, ?_, htxids, ?_⟩
  · intro tx htx vout
    cases hget : n.db.tables.txos.get ⟨tx.txid, vout⟩ with
    | none => rfl
    | some body =>
      refine absurd ?_ (hvalid.unproduced (⟨tx.txid, vout⟩, body) (Table.mem_entries.mpr hget))
      unfold txIds
      rw [htxdata]
      exact List.mem_map_of_mem htx
  · intro ref href body hget
    have hexternal : ref ∈ externalRefs block :=
      mem_externalRefs.mpr ⟨by rw [hdrop]; exact href,
        hvalid.unproduced (ref, body) (Table.mem_entries.mpr hget)⟩
    rw [hresolver, if_pos hexternal]
    cases hmem : n.mem.get ref with
    | none => exact hget
    | some b => rw [hagrees ref b body hmem hget]; rfl

theorem ProcessedBlock.liveTxos {final : BlockState}
    (run : ProcessedBlock deps cfg n.db.tables.txos height block
      (initialState deps n.db.tables height n.memory) final)
    (hvalid : ValidBlock n.db.tables height block) (hagrees : Agrees n.mem n.db.tables.txos) :
    LiveBlock run.coinbase run.txs n.db.tables.txos run.started :=
  hvalid.liveTxos run.txdata (run.started_resolver rfl) hagrees

/-- The live outputs after the coinbase. -/
def afterCoinbase (live : Table TxoRef TxoBody) (run : Applied deps cfg n height block mutable n') :
    Table TxoRef TxoBody :=
  live.insertAll (numbered run.processed.coinbase.txid 0 run.processed.bodies)

/-- **Rule for the outputs of an applied block**: the staged table is the live table after the
coinbase. -/
theorem Applied.live_induct (run : Applied deps cfg n height block mutable n')
    (hvalid : ValidBlock n.db.tables height block) (hagrees : Agrees n.mem n.db.tables.txos)
    (hnull : n.db.tables.txos.get OutPoint.null = none)
    {P : Table TxoRef TxoBody → List (Transaction × BlockState) → BlockState → Prop}
    (h : P n.db.tables.txos [] run.processed.started)
    (hstep : ∀ live done tx idx s s₁ (ptx : ProcessedTx deps cfg height idx tx s s₁),
      (tx, idx) ∈ run.processed.txs.zipIdx 1 → (done ++ [(tx, s)]) <+: run.processed.steps → LiveTx live tx s →
      ResolvedTx run.final.resolver tx s ptx.bodies →
      P live done s → P (afterTx live tx ptx.bodies) (done ++ [(tx, s)]) s₁) :
    ∃ live, P live run.processed.steps run.processed.closed ∧
      (∀ vout, live.get ⟨run.processed.coinbase.txid, vout⟩ = none) ∧
      n'.db.tables.txos = afterCoinbase live run := by
  obtain ⟨hcbSpent, hothers⟩ := hvalid.coinbase.not_null run.processed.txdata
  have hstages := run.stages
  rw [run.processed.txdata] at hstages
  obtain ⟨first, hfirst, hrest⟩ := foldlM_cons_eq_ok.mp hstages
  have hcbGet : ∀ vout body, run.processed.bodies[vout]? = some body →
      run.final.resolver.get ⟨run.processed.coinbase.txid, vout⟩ = some body := by
    intro vout body hbody
    rw [run.processed.resolver_eq]
    exact Table.get_insertAll_of_mem (numbered_nodup _ _ _) (mem_numbered.mpr ⟨rfl, vout, by simp, hbody⟩)
  have hcbNull : OutPoint.null ∉ (numbered run.processed.coinbase.txid 0 run.processed.bodies).map Prod.fst := by
    intro hmem
    have hlt := (numbered_keys.mp hmem).2.2
    have hlen : run.processed.bodies.length = run.processed.coinbase.output.length := by
      rw [← run.processed.produced.raw, List.length_map]
    have hout := hvalid.outputs run.processed.coinbase (by rw [run.processed.txdata]; exact List.mem_cons_self)
    simp only [OutPoint.null] at hlt
    omega
  -- the coinbase is staged first; its null input is not in the table
  have hstart : first.txos = n.db.tables.txos.insertAll
      (numbered run.processed.coinbase.txid 0 run.processed.bodies) := by
    rw [stageTx_ok run.processed.produced.raw run.processed.produced.height hcbGet hfirst, hcbSpent]
    refine Table.ext_get (fun k => ?_)
    rw [Table.get_eraseAll]
    split
    · rename_i hk
      rw [List.mem_singleton.mp hk, Table.get_insertAll_of_notMem hcbNull, hnull]
    · rfl
  have hend := run.processed.live_induct
    (P := fun live done s => P live done s ∧
      (∀ vout, live.get ⟨run.processed.coinbase.txid, vout⟩ = none) ∧
      ∀ staged, (done.map Prod.fst).foldlM (stageTx run.final.resolver height block.hash) first = .ok staged →
        staged.txos = live.insertAll (numbered run.processed.coinbase.txid 0 run.processed.bodies))
    (run.processed.liveTxos hvalid hagrees) ⟨h, ?_, ?_⟩ ?_
  · obtain ⟨live, ⟨hP, -, hstaged⟩, hfresh⟩ := hend
    refine ⟨live, hP, hfresh, ?_⟩
    obtain ⟨log, htables⟩ := run.tables
    rw [htables]
    refine hstaged run.staged ?_
    rw [run.processed.processes.map_fst, List.zipIdx_map_fst]
    exact hrest
  · exact (run.processed.liveTxos hvalid hagrees).fresh _ List.mem_cons_self
  · intro staged hstaged
    cases hstaged
    exact hstart
  · rintro live done tx idx s s₁ ptx hidx hpre hlive hfinal ⟨hP, hcb, hstaged⟩
    have htx : tx ∈ run.processed.txs := List.fst_mem_of_mem_zipIdx hidx
    have hne : run.processed.coinbase.txid ≠ tx.txid := by
      have hn := hvalid.txids
      unfold txIds at hn
      rw [run.processed.txdata, List.map_cons, List.nodup_cons] at hn
      intro heq
      exact hn.1 (by rw [heq]; exact List.mem_map_of_mem htx)
    refine ⟨hstep live done tx idx s s₁ ptx hidx hpre hlive hfinal hP, ?_, ?_⟩
    · intro vout
      rw [get_afterTx_of_ne hne]
      split
      · rfl
      · exact hcb vout
    · intro staged' hfold
      rw [List.map_append] at hfold
      obtain ⟨staged, hdone, hlast⟩ := foldlM_append_eq_ok.mp hfold
      obtain ⟨staged₁, hone, hnil⟩ := foldlM_cons_eq_ok.mp hlast
      cases hnil
      rw [stageTx_ok ptx.produced.raw ptx.produced.height hfinal.outputs hone, hstaged staged hdone]
      -- outputs of the coinbase and of the transaction are not inputs of the transaction
      have hspent : ∀ ref ∈ spent tx, ref ∉ (numbered tx.txid 0 ptx.bodies).map Prod.fst := by
        intro ref href hmem
        obtain ⟨body, hbody, -⟩ := hlive.inputs ref href
        have hnone := hlive.fresh ref.vout
        rw [← (numbered_keys.mp hmem).1, hbody] at hnone
        cases hnone
      have hspentCb : ∀ ref ∈ spent tx,
          ref ∉ (numbered run.processed.coinbase.txid 0 run.processed.bodies).map Prod.fst := by
        intro ref href hmem
        obtain ⟨body, hbody, -⟩ := hlive.inputs ref href
        have hnone := hcb ref.vout
        rw [← (numbered_keys.mp hmem).1, hbody] at hnone
        cases hnone
      have hdisjoint : ∀ k ∈ (numbered run.processed.coinbase.txid 0 run.processed.bodies).map Prod.fst,
          k ∉ (numbered tx.txid 0 ptx.bodies).map Prod.fst := by
        intro k hk hk'
        exact hne ((numbered_keys.mp hk).1.symm.trans (numbered_keys.mp hk').1)
      unfold afterTx
      rw [Table.eraseAll_insertAll hspent, Table.eraseAll_insertAll hspentCb, Table.insertAll_comm hdisjoint]

/-! ## Memory along runs -/

/-- The memory resolver agrees with the table of outputs, which has no null reference. -/
structure Settled (mem txos : Table TxoRef TxoBody) : Prop where
  agrees : Agrees mem txos
  null : txos.get OutPoint.null = none

/-- Bodies under numbers below `u32::MAX` are not under the null reference. -/
theorem null_notMem_numbered {txid : Txid} {bodies : List TxoBody} (h : bodies.length < 2 ^ 32) :
    OutPoint.null ∉ (numbered txid 0 bodies).map Prod.fst := by
  intro hmem
  have hlt := (numbered_keys.mp hmem).2.2
  simp only [OutPoint.null] at hlt
  omega

/-- Outputs that are remembered and made live settle. -/
theorem Settled.insertAll {mem mem' live : Table TxoRef TxoBody} {txid : Txid} {bodies : List TxoBody}
    (h : Settled mem live) (hwithin : Within mem' (mem.insertAll (numbered txid 0 bodies)))
    (hlength : bodies.length < 2 ^ 32) : Settled mem' (live.insertAll (numbered txid 0 bodies)) := by
  refine ⟨fun ref body body' hmem hlive => ?_, ?_⟩
  · have hmem := hwithin ref body hmem
    by_cases hkey : ref ∈ (numbered txid 0 bodies).map Prod.fst
    · have hsame : (mem.insertAll (numbered txid 0 bodies)).get ref =
          (live.insertAll (numbered txid 0 bodies)).get ref := Table.get_insertAll_congr hkey
      rw [hsame, hlive] at hmem
      exact (Option.some.inj hmem).symm
    · rw [Table.get_insertAll_of_notMem hkey] at hmem hlive
      exact h.agrees ref body body' hmem hlive
  · rw [Table.get_insertAll_of_notMem (null_notMem_numbered hlength)]
    exact h.null

theorem Settled.eraseAll {mem live : Table TxoRef TxoBody} (h : Settled mem live) (refs refs' : List TxoRef) :
    Settled (mem.eraseAll refs) (live.eraseAll refs') := by
  refine ⟨fun ref body body' hmem hlive => ?_, ?_⟩
  · rw [Table.get_eraseAll] at hmem hlive
    split at hmem
    · cases hmem
    · split at hlive
      · cases hlive
      · exact h.agrees ref body body' hmem hlive
  · rw [Table.get_eraseAll]
    split
    · rfl
    · exact h.null

/-- A block keeps memory and table settled. -/
theorem Applied.settled (run : Applied deps cfg n height block mutable n')
    (hvalid : ValidBlock n.db.tables height block) (h : Settled n.mem n.db.tables.txos) :
    Settled n'.mem n'.db.tables.txos := by
  have hlength : ∀ tx ∈ block.txdata, ∀ bodies : List TxoBody, bodies.map TxoBody.raw = tx.output →
      bodies.length < 2 ^ 32 := by
    intro tx htx bodies hraw
    have hlt := hvalid.outputs tx htx
    rw [← hraw, List.length_map] at hlt
    exact hlt
  have hend := run.live_induct hvalid h.agrees h.null (P := fun live _ s => Settled s.mem live) ?_ ?_
  · obtain ⟨live, hlive, -, htxos⟩ := hend
    rw [htxos]
    have hmem : n'.mem = run.final.mem := by
      unfold Node.mem BlockState.mem
      cases hm : run.final.memory <;> simp only [run.memory, hm]
    rw [hmem]
    exact hlive.insertAll run.processed.memory
      (hlength _ (by rw [run.processed.txdata]; exact List.mem_cons_self) _ run.processed.produced.raw)
  · obtain ⟨-, hmem, -⟩ := resolveInputs_ok run.processed.resolves
    have hstart : run.processed.started.mem = run.processed.opened.mem := by
      rw [run.processed.starts]
      rfl
    rw [hstart, hmem]
    exact h.eraseAll (externalRefs block) []
  · intro live done tx idx s s₁ ptx hidx hpre hliveTx _ hP
    refine (hP.eraseAll (spent tx) (spent tx)).insertAll ptx.memory (hlength tx ?_ _ ptx.produced.raw)
    rw [run.processed.txdata]
    exact List.mem_cons_of_mem _ (List.fst_mem_of_mem_zipIdx hidx)

end

/-- **Memory and table stay settled** along every run of valid blocks. -/
theorem Run.settled {deps : Deps} {cfg : Config} {memory : Bool} {l : List Transition} {n : Node}
    (run : Run deps cfg (Node.open_ memory) l n)
    (hvalid : ∀ e ∈ l, ValidBlock e.before.db.tables e.call.height e.call.block) :
    Settled n.mem n.db.tables.txos := by
  induction run with
  | nil =>
    refine ⟨?_, rfl⟩
    intro ref body body' _ htxos
    cases htxos
  | @snoc l n n' run call hcall ih =>
    obtain ⟨applied⟩ := apply_ok hcall
    exact applied.settled (hvalid _ (List.mem_append_right _ (List.mem_singleton_self _)))
      (ih (fun e he => hvalid e (List.mem_append_left _ he)))

end DogeIndexer.Compressor
