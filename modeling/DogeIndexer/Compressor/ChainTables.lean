import DogeIndexer.Compressor.Reach
import Mathlib.Data.List.Chain

/-!
# The stored chain

The tables of a reachable node describe one chain: blocks and resolver entries at consecutive heights,
linked by their hashes, and the outputs that the blocks create and do not spend.

* `chain_aligned` — the alignment of the tables, in every node reached without a failed flush.
-/

set_option autoImplicit false

namespace DogeIndexer.Compressor

open Fallible Effect

/-! ## Linked blocks -/

/-- A stored block, its height and hash, is followed by another. -/
def Follows (a b : Nat × BlockHash × Block) : Prop := b.1 = a.1 + 1 ∧ b.2.2.prevBlockhash = a.2.1

section

variable {l : List (Nat × BlockHash × Block)}

/-- The heights of linked blocks are an interval. -/
theorem linked_interval (hs : Entries.Sorted l) (h : l.IsChain Follows) {a b c : Nat} {x z : BlockHash × Block}
    (hx : (a, x) ∈ l) (hz : (c, z) ∈ l) (hab : a ≤ b) (hbc : b ≤ c) : ∃ y, (b, y) ∈ l := by
  induction l generalizing a x with
  | nil => cases hx
  | cons e l ih =>
    rw [List.isChain_cons] at h
    rcases List.mem_cons.mp hz with rfl | hlater
    · -- nothing is below the first block
      rcases List.mem_cons.mp hx with heq | habove
      · cases heq
        exact ⟨z, by rw [Nat.le_antisymm hbc hab]; exact List.mem_cons_self⟩
      · have hlt := hs.head_lt _ habove
        simp only at hlt
        omega
    · rcases List.mem_cons.mp hx with rfl | habove
      · by_cases heq : a = b
        · exact ⟨x, heq ▸ List.mem_cons_self⟩
        · -- the interval goes on with the block after the first
          cases l with
          | nil => cases hlater
          | cons e' l =>
            have hnext := (h.1 e' rfl).1
            simp only at hnext
            obtain ⟨y, hy⟩ := ih hs.tail h.2 List.mem_cons_self hlater (by omega)
            exact ⟨y, List.mem_cons_of_mem _ hy⟩
      · obtain ⟨y, hy⟩ := ih hs.tail h.2 habove hlater hab
        exact ⟨y, List.mem_cons_of_mem _ hy⟩

/-- Linked blocks at adjacent heights follow each other. -/
theorem linked_adjacent (hs : Entries.Sorted l) (h : l.IsChain Follows) {a : Nat} {x y : BlockHash × Block}
    (hx : (a, x) ∈ l) (hy : (a + 1, y) ∈ l) : Follows (a, x) (a + 1, y) := by
  induction l with
  | nil => cases hx
  | cons e l ih =>
    rw [List.isChain_cons] at h
    rcases List.mem_cons.mp hx with rfl | hafter
    · rcases List.mem_cons.mp hy with heq | hlater
      · cases heq
      · cases l with
        | nil => cases hlater
        | cons e' l =>
          have hfollows := h.1 e' rfl
          rcases List.mem_cons.mp hlater with rfl | hbeyond
          · exact hfollows
          · have hlt := hs.tail.head_lt _ hbeyond
            have hnext := hfollows.1
            simp only at hlt hnext
            omega
    · rcases List.mem_cons.mp hy with rfl | hlater
      · have hlt := hs.head_lt _ hafter
        simp only at hlt
        omega
      · exact ih hs.tail h.2 hafter hlater

end

/-! ## Unspent outputs -/

/-- The output is created by a stored block. -/
def Tables.Creates (t : Tables) (ref : TxoRef) : Prop :=
  ∃ e ∈ t.blockByHeight.entries, ∃ tx ∈ e.2.2.txdata, ref ∈ outputRefs tx

/-- The output is spent by a stored block. -/
def Tables.Spends (t : Tables) (ref : TxoRef) : Prop :=
  ∃ e ∈ t.blockByHeight.entries, ∃ tx ∈ e.2.2.txdata, ref ∈ spent tx

/-- The table of outputs holds what the stored blocks create and do not spend. -/
structure UnspentOnly (t : Tables) : Prop where
  unspent : ∀ ref, (∃ body, t.txos.get ref = some body) ↔ t.Creates ref ∧ ¬ t.Spends ref
  body : ∀ ref body, t.txos.get ref = some body → ∃ e ∈ t.blockByHeight.entries, body.height = e.1 ∧
    ∃ tx ∈ e.2.2.txdata, ref.txid = tx.txid ∧ tx.output[ref.vout]? = some body.raw
  known : ∀ ref, t.Spends ref → t.Creates ref ∨ ref = OutPoint.null

/-- The live outputs after some transactions of a block. -/
structure UnspentUpTo (t : Tables) (height : Nat) (block : Block) (live : Table TxoRef TxoBody)
    (done : List Transaction) : Prop where
  unspent : ∀ ref, (∃ body, live.get ref = some body) ↔
    ((t.Creates ref ∧ ¬ t.Spends ref) ∨ ref ∈ done.flatMap outputRefs) ∧ ref ∉ done.flatMap spent
  body : ∀ ref body, live.get ref = some body →
    (∃ e ∈ t.blockByHeight.entries, body.height = e.1 ∧
      ∃ tx ∈ e.2.2.txdata, ref.txid = tx.txid ∧ tx.output[ref.vout]? = some body.raw) ∨
    (body.height = height ∧ ∃ tx ∈ block.txdata, ref.txid = tx.txid ∧ tx.output[ref.vout]? = some body.raw)
  known : ∀ ref ∈ done.flatMap spent, t.Creates ref ∨ ref ∈ done.flatMap outputRefs ∨ ref = OutPoint.null

section

variable {t : Tables} {height : Nat} {block : Block} {live : Table TxoRef TxoBody} {done : List Transaction}
  {tx : Transaction} {bodies : List TxoBody}

theorem Tables.Creates.hasTx {ref : TxoRef} (h : t.Creates ref) : t.HasTx ref.txid := by
  obtain ⟨e, he, tx, htx, href⟩ := h
  refine ⟨e, he, ?_⟩
  rw [(mem_outputRefs.mp href).1]
  exact List.mem_map_of_mem htx

/-- The outputs of a transaction are not null. -/
theorem outputRefs_ne_null (h : tx.output.length < 2 ^ 32) {ref : TxoRef} (href : ref ∈ outputRefs tx) :
    ref ≠ OutPoint.null := by
  rintro rfl
  have hlt := (mem_outputRefs.mp href).2
  simp only [OutPoint.null] at hlt
  omega

/-- One transaction. -/
theorem UnspentUpTo.step (h : UnspentUpTo t height block live done) (hvalid : ValidBlock t height block)
    (htx : tx ∈ block.txdata) (hnew : ∀ tx' ∈ done, tx'.txid ≠ tx.txid)
    (hfresh : ∀ vout, live.get ⟨tx.txid, vout⟩ = none) (hraw : bodies.map TxoBody.raw = tx.output)
    (hheight : ∀ b ∈ bodies, b.height = height)
    (hinputs : ∀ ref ∈ spent tx, (∃ body, live.get ref = some body) ∨ ref = OutPoint.null) :
    UnspentUpTo t height block (afterTx live tx bodies) (done ++ [tx]) := by
  have hlength : bodies.length = tx.output.length := by rw [← hraw, List.length_map]
  -- outputs with the txid of the transaction are its own
  have hown : ∀ ref, ref.txid = tx.txid → ¬ t.Creates ref ∧ ref ∉ done.flatMap outputRefs := by
    intro ref htxid
    refine ⟨fun hcreated => hvalid.not_hasTx (List.mem_map_of_mem htx) (htxid ▸ hcreated.hasTx), fun hmem => ?_⟩
    obtain ⟨tx', htx', hout⟩ := List.mem_flatMap.mp hmem
    exact hnew tx' htx' ((mem_outputRefs.mp hout).1.symm.trans htxid)
  have hknown : ∀ ref ∈ (done ++ [tx]).flatMap spent,
      t.Creates ref ∨ ref ∈ done.flatMap outputRefs ∨ ref = OutPoint.null := by
    intro ref href
    rw [List.flatMap_append, List.mem_append, List.flatMap_singleton] at href
    rcases href with href | href
    · exact h.known ref href
    · rcases hinputs ref href with hlive | hnull
      · rcases ((h.unspent ref).mp hlive).1 with ⟨hcreated, -⟩ | hout
        · exact Or.inl hcreated
        · exact Or.inr (Or.inl hout)
      · exact Or.inr (Or.inr hnull)
  refine ⟨fun ref => ?_, fun ref body hget => ?_, fun ref href => ?_⟩
  · rw [List.flatMap_append, List.flatMap_append, List.flatMap_singleton, List.flatMap_singleton, List.mem_append,
      List.mem_append]
    obtain ⟨txid, vout⟩ := ref
    by_cases htxid : txid = tx.txid
    · subst htxid
      obtain ⟨hcreated, hout⟩ := hown ⟨tx.txid, vout⟩ rfl
      rw [get_afterTx_self (hfresh vout)]
      constructor
      · rintro ⟨body, hbody⟩
        have hlt := (List.getElem?_eq_some_iff.mp hbody).1
        have hmem : (⟨tx.txid, vout⟩ : TxoRef) ∈ outputRefs tx := mem_outputRefs.mpr ⟨rfl, by simp only; omega⟩
        refine ⟨Or.inr (Or.inr hmem), fun hspent => ?_⟩
        have hspent : (⟨tx.txid, vout⟩ : TxoRef) ∈ (done ++ [tx]).flatMap spent := by
          rw [List.flatMap_append, List.flatMap_singleton]
          exact List.mem_append.mpr hspent
        rcases hknown _ hspent with hc | ho | hn
        · exact hcreated hc
        · exact hout ho
        · exact outputRefs_ne_null (hvalid.outputs tx htx) hmem hn
      · rintro ⟨(⟨hc, -⟩ | ho | hmem), -⟩
        · exact absurd hc hcreated
        · exact absurd ho hout
        · have hlt := (mem_outputRefs.mp hmem).2
          exact ⟨_, List.getElem?_eq_getElem (by rw [hlength]; exact hlt)⟩
    · have hother : (⟨txid, vout⟩ : TxoRef) ∉ outputRefs tx := fun hmem => htxid (mem_outputRefs.mp hmem).1
      rw [get_afterTx_of_ne htxid]
      by_cases hspent : (⟨txid, vout⟩ : TxoRef) ∈ spent tx
      · rw [if_pos hspent]
        constructor
        · rintro ⟨body, hbody⟩
          cases hbody
        · rintro ⟨-, hnot⟩
          exact absurd (Or.inr hspent) hnot
      · rw [if_neg hspent, h.unspent]
        simp only [hother, hspent, or_false]
  · by_cases htxid : ref.txid = tx.txid
    · right
      obtain ⟨txid, vout⟩ := ref
      simp only at htxid
      subst htxid
      rw [get_afterTx_self (hfresh vout)] at hget
      refine ⟨hheight body (List.mem_of_getElem? hget), tx, htx, rfl, ?_⟩
      rw [← hraw, List.getElem?_map, hget]
      rfl
    · rw [get_afterTx_of_ne htxid] at hget
      split at hget
      · cases hget
      · exact h.body ref body hget
  · rw [List.flatMap_append, List.mem_append]
    rcases hknown ref href with hc | ho | hn
    · exact Or.inl hc
    · exact Or.inr (Or.inl (Or.inl ho))
    · exact Or.inr (Or.inr hn)

end

section

variable {deps : Deps} {cfg : Config} {n n' : Node} {height : Nat} {block : Block} {mutable : Bool}

/-- The live outputs at the end of a block. -/
theorem Applied.unspentUpTo (run : Applied deps cfg n height block mutable n')
    (hvalid : ValidBlock n.db.tables height block) (hsettled : Settled n.mem n.db.tables.txos)
    (h : UnspentOnly n.db.tables) :
    UnspentUpTo n.db.tables height block n'.db.tables.txos (run.processed.txs ++ [run.processed.coinbase]) := by
  obtain ⟨hcbSpent, -⟩ := hvalid.coinbase.not_null run.processed.txdata
  have hmap : run.processed.steps.map Prod.fst = run.processed.txs :=
    run.processed.processes.map_fst.trans (List.zipIdx_map_fst _ _)
  have hmem : ∀ tx ∈ run.processed.coinbase :: run.processed.txs, tx ∈ block.txdata := by
    rw [run.processed.txdata]
    exact fun tx htx => htx
  have htxids := hvalid.txids
  unfold txIds at htxids
  rw [run.processed.txdata, List.map_cons, List.nodup_cons] at htxids
  have hend := run.live_induct hvalid hsettled.agrees hsettled.null
    (P := fun live done _ => UnspentUpTo n.db.tables height block live (done.map Prod.fst)) ⟨?_, ?_, ?_⟩ ?_
  · obtain ⟨live, hlive, hfresh, htxos⟩ := hend
    rw [hmap] at hlive
    have hnull : live.get OutPoint.null = none := by
      cases hget : live.get OutPoint.null with
      | none => rfl
      | some body =>
        rcases ((hlive.unspent _).mp ⟨body, hget⟩).1 with hold | hout
        · obtain ⟨body', hbody'⟩ := (h.unspent _).mpr hold
          rw [hsettled.null] at hbody'
          cases hbody'
        · obtain ⟨tx, htx, href⟩ := List.mem_flatMap.mp hout
          exact absurd rfl (outputRefs_ne_null (hvalid.outputs tx (hmem tx (List.mem_cons_of_mem _ htx))) href)
    have hcoinbase : afterCoinbase live run = afterTx live run.processed.coinbase run.processed.bodies := by
      have herase : live.eraseAll [OutPoint.null] = live := by
        refine Table.ext_get (fun k => ?_)
        rw [Table.get_eraseAll]
        split
        · rename_i hk
          rw [List.mem_singleton.mp hk, hnull]
        · rfl
      unfold afterCoinbase afterTx
      rw [hcbSpent, herase]
    rw [htxos, hcoinbase]
    refine hlive.step hvalid (hmem _ List.mem_cons_self) ?_ hfresh run.processed.produced.raw
      run.processed.produced.height ?_
    · intro tx' htx' heq
      exact htxids.1 (heq ▸ List.mem_map_of_mem htx')
    · intro ref href
      rw [hcbSpent] at href
      exact Or.inr (List.mem_singleton.mp href)
  · intro ref
    rw [h.unspent]
    simp
  · intro ref body hget
    exact Or.inl (h.body ref body hget)
  · intro ref href
    cases href
  · intro live done tx idx s s₁ ptx hidx hpre hliveTx _ hP
    rw [List.map_append]
    refine hP.step hvalid (hmem tx (List.mem_cons_of_mem _ (List.fst_mem_of_mem_zipIdx hidx))) ?_ hliveTx.fresh
      ptx.produced.raw ptx.produced.height ?_
    · have hsub := htxids.2.sublist ((hmap ▸ (hpre.map Prod.fst).sublist).map Transaction.txid)
      rw [List.map_append, List.map_append, List.nodup_append] at hsub
      intro tx' htx' heq
      exact hsub.2.2 _ (List.mem_map_of_mem htx') _ (by simp) heq
    · intro ref href
      obtain ⟨body, hbody, -⟩ := hliveTx.inputs ref href
      exact Or.inl ⟨body, hbody⟩

/-- **A block keeps the table of outputs to what is created and not spent.** -/
theorem Applied.unspentOnly (run : Applied deps cfg n height block mutable n')
    (hvalid : ValidBlock n.db.tables height block) (hsettled : Settled n.mem n.db.tables.txos)
    (h : UnspentOnly n.db.tables) : UnspentOnly n'.db.tables := by
  have hup := run.unspentUpTo hvalid hsettled h
  have hblocks : n'.db.tables.blockByHeight.entries =
      n.db.tables.blockByHeight.entries ++ [(height, block.hash, block)] := by
    obtain ⟨log, htables⟩ := run.tables
    rw [htables]
    exact Table.entries_insert_last _ hvalid.later
  have hall : ∀ tx, tx ∈ run.processed.txs ++ [run.processed.coinbase] ↔ tx ∈ block.txdata := by
    intro tx
    rw [run.processed.txdata, List.mem_append, List.mem_singleton, List.mem_cons, or_comm]
  have hcreates : ∀ ref, n'.db.tables.Creates ref ↔ n.db.tables.Creates ref ∨
      ref ∈ (run.processed.txs ++ [run.processed.coinbase]).flatMap outputRefs := by
    intro ref
    unfold Tables.Creates
    rw [hblocks]
    simp only [List.mem_append, List.mem_singleton, or_and_right, exists_or, exists_eq_left, List.mem_flatMap, ← hall]
  have hspends : ∀ ref, n'.db.tables.Spends ref ↔ n.db.tables.Spends ref ∨
      ref ∈ (run.processed.txs ++ [run.processed.coinbase]).flatMap spent := by
    intro ref
    unfold Tables.Spends
    rw [hblocks]
    simp only [List.mem_append, List.mem_singleton, or_and_right, exists_or, exists_eq_left, List.mem_flatMap, ← hall]
  refine ⟨fun ref => ?_, fun ref body hget => ?_, fun ref href => ?_⟩
  · rw [hup.unspent, hcreates, hspends, not_or]
    constructor
    · rintro ⟨(⟨hc, hs⟩ | ho), hnot⟩
      · exact ⟨Or.inl hc, hs, hnot⟩
      · refine ⟨Or.inr ho, fun hs => ?_, hnot⟩
        -- what an earlier block spends is not created by this one
        obtain ⟨tx, htx, href⟩ := List.mem_flatMap.mp ho
        have htx := (hall tx).mp htx
        rcases h.known ref hs with hc | hn
        · refine hvalid.not_hasTx (List.mem_map_of_mem htx) ?_
          rw [← (mem_outputRefs.mp href).1]
          exact hc.hasTx
        · exact outputRefs_ne_null (hvalid.outputs tx htx) href hn
    · rintro ⟨(hc | ho), hs, hnot⟩
      · exact ⟨Or.inl ⟨hc, hs⟩, hnot⟩
      · exact ⟨Or.inr ho, hnot⟩
  · rw [hblocks]
    rcases hup.body ref body hget with ⟨e, he, hbody⟩ | ⟨hheight, tx, htx, hbody⟩
    · exact ⟨e, List.mem_append_left _ he, hbody⟩
    · exact ⟨_, List.mem_append_right _ (List.mem_singleton_self _), hheight, tx, htx, hbody⟩
  · rcases (hspends ref).mp href with hold | hnew
    · rcases h.known ref hold with hc | hn
      · exact Or.inl ((hcreates ref).mpr (Or.inl hc))
      · exact Or.inr hn
    · rcases hup.known ref hnew with hc | ho | hn
      · exact Or.inl ((hcreates ref).mpr (Or.inl hc))
      · exact Or.inl ((hcreates ref).mpr (Or.inr ho))
      · exact Or.inr hn

end

/-! ## Alignment -/

/-- The block comes at the height after the top. -/
def Consecutive (n : Node) (call : Call) : Prop :=
  ∀ e, n.db.tables.blockByHeight.lastEntry = some e → call.height = e.1 + 1

instance (n : Node) (call : Call) : Decidable (Consecutive n call) :=
  match h : n.db.tables.blockByHeight.lastEntry with
  | none => isTrue (by intro e he; rw [h] at he; cases he)
  | some e => decidable_of_iff (call.height = e.1 + 1) (by
      unfold Consecutive
      rw [h]
      exact ⟨fun heq e' he' => by cases he'; exact heq, fun hall => hall e rfl⟩)

/-- A periodic flush does not fail. -/
def Flushed (call : Call) : Prop := call.height % 5000 = 0 → call.rocks.flush = true

instance (call : Call) : Decidable (Flushed call) := inferInstanceAs (Decidable (_ → _))

/-- The tables and the last hash describe one chain. -/
structure Aligned (db : ChainDB) : Prop where
  heights : ∀ h, (db.tables.blockByHeight.get h).isSome = (db.tables.resolverByHeight.get h).isSome
  hashes : ∀ h hash block entry, db.tables.blockByHeight.get h = some (hash, block) →
    db.tables.resolverByHeight.get h = some entry → entry.hash = hash ∧ block.hash = hash
  interval : ∀ a b c, (db.tables.blockByHeight.get a).isSome = true → (db.tables.blockByHeight.get c).isSome = true →
    a ≤ b → b ≤ c → (db.tables.blockByHeight.get b).isSome = true
  linked : ∀ h lower upper, db.tables.blockByHeight.get h = some lower →
    db.tables.blockByHeight.get (h + 1) = some upper → upper.2.prevBlockhash = lower.1
  top : db.lastBlockHash = db.tables.blockByHeight.lastEntry.map fun e => e.2.1
  outputs : UnspentOnly db.tables

section

variable {deps : Deps} {cfg : Config} {C : Node → Call → Prop}
  {l : List (Tables × (Nat × BlockHash × Block) × Tables)} {n : Node}

/-- Blocks and resolver entries of a history are aligned, and so are its outputs. -/
theorem Blocks.aligned {t : Tables} (h : Blocks deps cfg C SameChain l t) :
    ((∀ h, (t.blockByHeight.get h).isSome = (t.resolverByHeight.get h).isSome) ∧
      ∀ h hash block entry, t.blockByHeight.get h = some (hash, block) → t.resolverByHeight.get h = some entry →
        entry.hash = hash ∧ block.hash = hash) ∧ UnspentOnly t := by
  refine (History.induct (P := fun t => ((∀ h, (t.blockByHeight.get h).isSome = (t.resolverByHeight.get h).isSome) ∧
      ∀ h hash block entry, t.blockByHeight.get h = some (hash, block) → t.resolverByHeight.get h = some entry →
        entry.hash = hash ∧ block.hash = hash) ∧ UnspentOnly t) h ?_ ?_ ?_).1
  · refine ⟨⟨fun h => rfl, fun h hash block entry hget => (by cases hget)⟩, ⟨fun ref => ?_, ?_, ?_⟩⟩
    · constructor
      · rintro ⟨body, hbody⟩
        cases hbody
      · rintro ⟨⟨e, he, -⟩, -⟩
        cases he
    · intro ref body hget
      cases hget
    · rintro ref ⟨e, he, -⟩
      cases he
  · rintro t t' hsame ⟨htables, houtputs⟩
    rw [hsame.blocks, hsame.resolvers]
    refine ⟨htables, ?_⟩
    obtain ⟨hunspent, hbody, hknown⟩ := houtputs
    unfold Tables.Creates Tables.Spends at hunspent hknown
    refine ⟨?_, ?_, ?_⟩
    · unfold Tables.Creates Tables.Spends
      rw [hsame.blocks, hsame.txos]
      exact hunspent
    · rw [hsame.blocks, hsame.txos]
      exact hbody
    · unfold Tables.Creates Tables.Spends
      rw [hsame.blocks]
      exact hknown
  · rintro t₀ e t₁ ⟨⟨hheights, hhashes⟩, houtputs⟩ ⟨run, hvalid, hsettled, -⟩
    refine ⟨?_, run.unspentOnly hvalid hsettled houtputs⟩
    obtain ⟨log, htables⟩ := run.tables
    rw [htables]
    simp only [Table.get_insert]
    refine ⟨fun h => ?_, fun h hash block entry hblock hentry => ?_⟩
    · split
      · rfl
      · exact hheights h
    · split at hblock
      · rename_i heq
        rw [if_pos heq] at hentry
        cases hblock
        cases hentry
        exact ⟨rfl, rfl⟩
      · rename_i hne
        rw [if_neg hne] at hentry
        exact hhashes h hash block entry hblock hentry

/-- The last hash of a node, and the links of its blocks. -/
structure LinkedTop (l : List (Tables × (Nat × BlockHash × Block) × Tables)) (n : Node) : Prop where
  linked : (l.map fun e => e.2.1).IsChain Follows
  top : n.db.lastBlockHash = (l.map fun e => e.2.1).getLast?.map fun e => e.2.1

/-- Reachable nodes have a linked history. -/
theorem Reach.linked (h : Reach deps cfg (fun n call => Consecutive n call ∧ Flushed call) n) :
    ∃ l, Backed deps cfg (fun n call => Consecutive n call ∧ Flushed call) SameChain l n ∧ LinkedTop l n := by
  have hR := restores_sameChain deps cfg (fun n call => Consecutive n call ∧ Flushed call)
  induction h with
  | open_ memory =>
    refine ⟨[], ⟨.nil (hR.refl _), ⟨?_, rfl⟩, fun e he => (List.not_mem_nil he).elim⟩, ⟨.nil, rfl⟩⟩
    intro ref body body' _ htxos
    cases htxos
  | @apply n h call hvalid hcond ih =>
    obtain ⟨l, hl, hlinked⟩ := ih
    obtain ⟨added, houtcome⟩ := apply_outcome deps cfg n call
    refine ⟨l ++ added, hl.apply hR hvalid hcond houtcome, ?_⟩
    revert houtcome
    generalize endState (applyBlockWithContext deps cfg call.rocks call.height call.block call.mutable n) = n'
    intro houtcome
    cases houtcome with
    | unchanged hdb =>
      rw [List.append_nil]
      exact ⟨hlinked.linked, by rw [hdb]; exact hlinked.top⟩
    | stored run htables hmem hhash =>
      refine ⟨?_, ?_⟩
      · rw [List.map_append]
        refine List.isChain_append.mpr ⟨hlinked.linked, List.isChain_singleton _, ?_⟩
        rintro below hbelow above habove
        cases habove
        have hlast : n.db.tables.blockByHeight.lastEntry = some below := by
          unfold Table.lastEntry
          rw [hl.blocks.entries hR.chain]
          exact hbelow
        refine ⟨hcond.1 below hlast, run.follows below.2.1 ?_⟩
        have hbelow : (l.map fun e => e.2.1).getLast? = some below := hbelow
        rw [hlinked.top, hbelow]
        rfl
      · rw [List.map_append]
        rcases hhash with hhash | ⟨hheight, hflush⟩
        · rw [hhash]
          simp
        · have := hcond.2 hheight
          rw [hflush] at this
          cases this
  | @rollback n h rocks height hash mutable ih =>
    obtain ⟨l, hl, hlinked⟩ := ih
    obtain ⟨kept, undone, rfl, hkept, hcases⟩ := hl.rollback hR rocks height hash mutable
    rcases hcases with ⟨rfl, hsame⟩ | ⟨hhash, block, hlast⟩
    · rw [hsame]
      rw [List.append_nil] at hl hlinked
      exact ⟨kept, hl, hlinked⟩
    · refine ⟨kept, hkept, ?_, ?_⟩
      · have hchain := hlinked.linked
        rw [List.map_append] at hchain
        exact (List.isChain_append.mp hchain).1
      · rw [hhash, hlast]
        rfl

/-- Tables and last hash of a linked history are aligned. -/
theorem Backed.aligned (hl : Backed deps cfg C SameChain l n) (hlinked : LinkedTop l n) : Aligned n.db := by
  have hentries := hl.blocks.entries (fun _ _ => id)
  obtain ⟨⟨hheights, hhashes⟩, houtputs⟩ := hl.blocks.aligned
  have hchain : n.db.tables.blockByHeight.entries.IsChain Follows := by
    rw [hentries]
    exact hlinked.linked
  have hsorted : Entries.Sorted n.db.tables.blockByHeight.entries := n.db.tables.blockByHeight.sorted
  refine ⟨hheights, hhashes, ?_, ?_, ?_, houtputs⟩
  · intro a b c ha hc hab hbc
    obtain ⟨x, hx⟩ := Option.isSome_iff_exists.mp ha
    obtain ⟨z, hz⟩ := Option.isSome_iff_exists.mp hc
    obtain ⟨y, hy⟩ := linked_interval hsorted hchain (Table.mem_entries.mpr hx) (Table.mem_entries.mpr hz) hab hbc
    rw [Table.mem_entries.mp hy]
    rfl
  · intro height lower upper hlower hupper
    exact (linked_adjacent hsorted hchain (Table.mem_entries.mpr hlower) (Table.mem_entries.mpr hupper)).2
  · rw [hlinked.top, ← hentries]
    rfl

/-- **The chain tables are aligned** in every node that is reached by blocks at consecutive heights, and by
rollbacks, as long as no periodic flush fails. -/
theorem chain_aligned (h : Reach deps cfg (fun n call => Consecutive n call ∧ Flushed call) n) : Aligned n.db := by
  obtain ⟨l, hl, hlinked⟩ := h.linked
  exact hl.aligned hlinked

end

/-- A chain of three blocks, in the last of which an output of the first is spent. -/
def threeBlocks : List Call := [
  callOf 0 1 0 [coinbaseTx 10 [5000000000]],
  callOf 1 2 1 [coinbaseTx 11 [5000000000]],
  callOf 2 3 2 [coinbaseTx 12 [5000000000], spendTx 13 ⟨10, 0⟩ [] [5000000000]]]

/-- The last block is undone. -/
theorem chain_aligned_after_rollback :
    ∃ n n', Reach emptyScripts fromFirstBlock (fun n call => Consecutive n call ∧ Flushed call) n ∧
      n' = endState (rollback emptyScripts fromFirstBlock ⟨true, true⟩ 1 2 true n) ∧
      (n.db.tables.txos.get ⟨10, 0⟩).isSome = false ∧ (n'.db.tables.txos.get ⟨10, 0⟩).isSome = true ∧
      n'.db.lastBlockHash = some 2 ∧ Aligned n'.db := by
  have hsome : (runCalls emptyScripts fromFirstBlock (Node.open_ true) threeBlocks).isSome = true := by
    decide +kernel
  have hreach := (Run.ofCalls hsome).reach (fun n call => Consecutive n call ∧ Flushed call) (by decide +kernel)
    (by decide +kernel)
  exact ⟨_, _, hreach, rfl, by decide +kernel, by decide +kernel, by decide +kernel,
    chain_aligned (hreach.rollback ⟨true, true⟩ 1 2 true)⟩

/-- The flush after block 5000 fails: the last hash stays behind the top. -/
theorem chain_top_behind :
    ∃ n, Reach emptyScripts fromFirstBlock Consecutive n ∧ n.db.lastBlockHash = some 1 ∧
      (n.db.tables.blockByHeight.lastEntry.map fun e => e.2.1) = some 2 := by
  have hsome : (runCalls emptyScripts fromFirstBlock (Node.open_ true)
      [callOf 4999 1 0 [coinbaseTx 10 [5000000000]]]).isSome = true := by
    decide +kernel
  have hreach := (Run.ofCalls hsome).reach Consecutive (by decide +kernel) (by decide +kernel)
  exact ⟨_, hreach.apply ⟨5000, block5000, true, ⟨true, false⟩⟩ (by decide +kernel) (by decide +kernel),
    by decide +kernel, by decide +kernel⟩

end DogeIndexer.Compressor
