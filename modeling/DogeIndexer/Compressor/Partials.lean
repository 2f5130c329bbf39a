import DogeIndexer.Compressor.Reach
import DogeIndexer.Compressor.Reveals

/-!
# Partial inscriptions

The tables of partial inscriptions stay closed in every reachable node, reorganisations included: the
transactions of a partial inscription are all there when it is continued.

* `partials_closed` — the tables are closed, and collecting previous transactions does not fail.
-/

set_option autoImplicit false

namespace DogeIndexer.Compressor

open Fallible Effect

/-- Every listed transaction is stored, and the last one is the one it is listed for. -/
def PartialTables.Closed (p : PartialTables) : Prop :=
  ∀ txid l, p.txids.get txid = some l → l.getLast? = some txid ∧ ∀ x ∈ l, ∃ tx, p.bytes.get x = some tx

/-- In closed tables the transactions of a partial inscription are found. -/
theorem PartialTables.Closed.collects {p : PartialTables} (h : p.Closed) (txid : Txid) :
    ∃ r, previousPartials p txid = .ok r := by
  unfold previousPartials
  cases hget : p.txids.get txid with
  | none => exact ⟨_, rfl⟩
  | some l =>
    have hfound : ∀ {l' : List Txid}, (∀ x ∈ l', ∃ tx, p.bytes.get x = some tx) →
        ∃ txs, (l'.mapM fun x => orPanic (p.bytes.get x)) = .ok txs := by
      intro l' hl'
      induction l' with
      | nil => exact ⟨[], rfl⟩
      | cons x l' ih =>
        obtain ⟨tx, htx⟩ := hl' x List.mem_cons_self
        obtain ⟨txs, htxs⟩ := ih (fun y hy => hl' y (List.mem_cons_of_mem _ hy))
        refine ⟨tx :: txs, ?_⟩
        rw [List.mapM_cons, htx, htxs]
        rfl
    obtain ⟨txs, htxs⟩ := hfound (h txid l hget).2
    exact ⟨(l, txs), by simp only [htxs]; rfl⟩

section

variable {deps : Deps} {cfg : Config} {height : Nat}

/-- A transaction keeps the tables closed. -/
theorem InscriptionsStep.closed {tx : Transaction} {resolver : Table TxoRef TxoBody} {s s' : InscriptionState}
    {placed : List (List (U64 × InscriptionId))} {transfers : Table InscriptionId (Ticker × U128)}
    {messages : List (InscriptionId × BRC20Message)}
    (hstep : InscriptionsStep deps cfg height tx resolver s placed transfers messages s')
    (h : s.partials.Closed) : s'.partials.Closed := by
  rcases hstep.partials with hkept | ⟨first, chain, txs, hchain, hadded⟩
  · rw [hkept]
    exact h
  · rw [hadded]
    have hstored : ∀ x ∈ chain, ∃ tx, s.partials.bytes.get x = some tx := by
      rcases previousPartials_ok hchain with ⟨-, rfl⟩ | hlisted
      · intro x hx
        cases hx
      · exact (h _ _ hlisted).2
    have hkeep : ∀ x, (∃ tx, s.partials.bytes.get x = some tx) →
        ∃ tx', (s.partials.bytes.insert tx.txid tx).get x = some tx' := by
      rintro x ⟨tx', htx'⟩
      rw [Table.get_insert]
      split
      · exact ⟨tx, rfl⟩
      · exact ⟨tx', htx'⟩
    intro txid l hget
    simp only [Table.get_insert] at hget
    split at hget
    · rename_i heq
      cases hget
      refine ⟨by rw [heq]; simp, fun x hx => ?_⟩
      rcases List.mem_append.mp hx with hx | hx
      · exact hkeep x (hstored x hx)
      · rw [List.mem_singleton.mp hx]
        exact ⟨tx, by rw [Table.get_insert, if_pos rfl]⟩
    · obtain ⟨hlast, hall⟩ := h txid l hget
      exact ⟨hlast, fun x hx => hkeep x (hall x hx)⟩

theorem ProcessedTxs.closed {l : List (Transaction × Nat)} {steps : List (Transaction × BlockState)}
    {s s' : BlockState} (run : ProcessedTxs deps cfg height l steps s s') (h : s.inscriptions.partials.Closed) :
    s'.inscriptions.partials.Closed := by
  refine ProcessedTxs.induct (P := fun _ _ s => s.inscriptions.partials.Closed) run [] ?_ h
  intro done tx idx rest later s₁ s₂ _ _ ptx _ hP
  rw [ptx.inscriptions_eq]
  exact ptx.inscriptions.closed hP

theorem txSteps_closed {hash : BlockHash} {l : List (Transaction × Nat)} {s : BlockState}
    (h : s.inscriptions.partials.Closed) :
    ∀ step ∈ txSteps deps cfg height hash l s, step.2.inscriptions.partials.Closed := by
  induction l generalizing s with
  | nil =>
    intro step hstep
    cases hstep
  | cons e l ih =>
    obtain ⟨tx, idx⟩ := e
    intro step hstep
    unfold txSteps at hstep
    rcases List.mem_cons.mp hstep with rfl | hlater
    · exact h
    · split at hlater
      · rename_i s' hrun
        obtain ⟨ptx⟩ := processTx_ok hrun
        refine ih ?_ step hlater
        rw [ptx.inscriptions_eq]
        exact ptx.inscriptions.closed h
      · cases hlater

/-- The tables are closed before every transaction of a block, as far as its processing gets. -/
theorem blockSteps_closed {n : Node} (h : n.db.tables.partials.Closed) (height : Nat) (block : Block) :
    ∀ step ∈ blockSteps deps cfg n height block, step.2.inscriptions.partials.Closed := by
  intro step hstep
  unfold blockSteps at hstep
  split at hstep
  · cases hstep
  · rename_i s hbefore
    have hs : s.inscriptions.partials.Closed := by
      obtain ⟨_, _, -, hinscriptions, -⟩ := beforeTxs_ok hbefore rfl
      rw [hinscriptions]
      exact h
    rcases List.mem_append.mp hstep with hstep | hstep
    · exact txSteps_closed hs step hstep
    · split at hstep
      · rename_i s' hrun
        obtain ⟨coinbase, -, rfl⟩ := List.mem_map.mp hstep
        exact (processTxs_ok hrun).closed hs
      · cases hstep

/-- The tables of a reachable node are closed. -/
theorem Reach.closed {C : Node → Call → Prop} {n : Node} (h : Reach deps cfg C n) :
    n.db.tables.partials.Closed := by
  obtain ⟨l, hl⟩ := h.history (restores_sameChain deps cfg _)
  refine (History.induct (P := fun t => t.partials.Closed) hl.blocks ?_ ?_ ?_).1
  · intro txid l hget
    cases hget
  · intro t t' hsame ht
    rw [hsame.partials]
    exact ht
  · rintro t₀ e t₁ ht ⟨run, -, -, -⟩
    obtain ⟨log, htables⟩ := run.tables
    rw [htables]
    refine run.inscriptions_induct (P := fun _ _ i => i.partials.Closed) ht ?_
    intro done tx s placed transfers messages i _ _ hstep hP
    exact hstep.closed hP

/-- **Partial inscriptions are closed** in every reachable node, and so the transactions of a partial
inscription are found whenever a block continues it. -/
theorem partials_closed {n : Node} (h : Reach deps cfg (fun _ _ => True) n) :
    n.db.tables.partials.Closed ∧ ∀ height block, ∀ step ∈ blockSteps deps cfg n height block, ∀ txid,
      ∃ r, previousPartials step.2.inscriptions.partials txid = .ok r :=
  ⟨h.closed, fun height block step hstep txid =>
    (blockSteps_closed h.closed height block step hstep).collects txid⟩

end

/-- The first two of three pieces of an inscription, in blocks 1 and 2. -/
def twoOfThreePieces : List Call := [
  callOf 0 1 0 [coinbaseTx 10 [2000000000, 3000000000]],
  callOf 1 2 1 [coinbaseTx 11 [5000000000], spendTx 12 ⟨10, 0⟩ [3, 111, 114, 100, 83, 1, 97, 82, 1, 98] [2000000000]],
  callOf 2 3 2 [coinbaseTx 13 [5000000000], spendTx 14 ⟨12, 0⟩ [81, 1, 99] [2000000000]]]

/-- The blocks with the two pieces are applied, and the second is undone. -/
theorem partials_closed_after_reorg :
    ∃ n n', Reach emptyScripts fromFirstBlock (fun _ _ => True) n ∧
      n' = endState (rollback emptyScripts fromFirstBlock ⟨true, true⟩ 1 2 true n) ∧
      n.db.tables.partials.txids.get 14 = some [12, 14] ∧ n'.db.tables.partials.txids.get 14 = none ∧
      n'.db.tables.partials.txids.get 12 = some [12] ∧ n'.db.tables.partials.Closed := by
  have hsome : (runCalls emptyScripts fromFirstBlock (Node.open_ true) twoOfThreePieces).isSome = true := by
    decide +kernel
  have hreach := (Run.ofCalls hsome).reach (fun _ _ => True) (by decide +kernel) (fun _ _ => trivial)
  exact ⟨_, _, hreach, rfl, by decide +kernel, by decide +kernel, by decide +kernel,
    (partials_closed (hreach.rollback ⟨true, true⟩ 1 2 true)).1⟩

end DogeIndexer.Compressor
