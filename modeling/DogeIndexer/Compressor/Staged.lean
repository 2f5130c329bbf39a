import DogeIndexer.Compressor.Roll

/-!
# What a block is stored with

The resolver entry that `apply_block_with_context` stores for a block and writes to the log, and how the outputs
listed in it relate to the outputs of the block.

* `apply_stores` — the entry of an applied block.
* `stageTxs_notes` — every output of the block is listed with the inscriptions it is stored with.
-/

set_option autoImplicit false

namespace DogeIndexer.Compressor

open Fallible

/-! ## Staging -/

/-- What has been listed comes from the resolver. -/
structure StagedFrom (resolver : Table TxoRef TxoBody) (s : Staged) : Prop where
  runes : ∀ e ∈ s.outputRunes, e.2 ≠ []
  inscriptions : ∀ e ∈ s.outputInscriptions, ∃ body, resolver.get e.1 = some body ∧ body.inscriptions = e.2

/-- An output is listed with its inscriptions, and stored with them. -/
def Noted (resolver : Table TxoRef TxoBody) (s : Staged) (ref : TxoRef) : Prop :=
  ∃ body, resolver.get ref = some body ∧
    (body.inscriptions = [] ∨ (ref, body.inscriptions) ∈ s.outputInscriptions) ∧
    ∀ stored, s.txos.get ref = some stored → stored.inscriptions = body.inscriptions

/-- A step of staging keeps what is listed. -/
structure Notes (resolver : Table TxoRef TxoBody) (s s' : Staged) : Prop where
  staged : StagedFrom resolver s → StagedFrom resolver s'
  noted : ∀ ref, Noted resolver s ref → Noted resolver s' ref

section

variable {resolver : Table TxoRef TxoBody} {height : Nat} {hash : BlockHash} {s s' s'' : Staged}

theorem Notes.refl (s : Staged) : Notes resolver s s := ⟨id, fun _ => id⟩

theorem Notes.trans (h : Notes resolver s s') (h' : Notes resolver s' s'') : Notes resolver s s'' :=
  ⟨fun hs => h'.staged (h.staged hs), fun ref href => h'.noted ref (h.noted ref href)⟩

/-- One output. -/
theorem stageOutput_notes {txid : Txid} {e : TxOut × Nat}
    (h : stageOutput resolver height hash txid s e = .ok s') :
    Notes resolver s s' ∧ Noted resolver s' ⟨txid, e.2⟩ := by
  unfold stageOutput at h
  simp only at h
  split at h
  · cases h
  · rename_i body hbody
    cases h
    refine ⟨⟨fun hs => ⟨?_, ?_⟩, ?_⟩, body, hbody, ?_, ?_⟩
    · intro e' he'
      simp only at he'
      split at he'
      · exact hs.runes e' he'
      · rename_i hne
        rcases List.mem_append.mp he' with he' | he'
        · exact hs.runes e' he'
        · rw [List.mem_singleton.mp he']
          exact fun hnil => hne (List.isEmpty_iff.mpr hnil)
    · intro e' he'
      simp only at he'
      split at he'
      · exact hs.inscriptions e' he'
      · rcases List.mem_append.mp he' with he' | he'
        · exact hs.inscriptions e' he'
        · rw [List.mem_singleton.mp he']
          exact ⟨body, hbody, rfl⟩
    · rintro ref ⟨body', hbody', hlisted, hstored⟩
      refine ⟨body', hbody', ?_, ?_⟩
      · refine hlisted.imp_right fun hmem => ?_
        simp only
        split
        · exact hmem
        · exact List.mem_append_left _ hmem
      · intro stored hget
        simp only [Table.get_insert] at hget
        split at hget
        · rename_i href
          rw [href, hbody] at hbody'
          cases hbody'
          cases hget
          rfl
        · exact hstored stored hget
    · simp only
      split
      · rename_i hempty
        exact Or.inl (List.isEmpty_iff.mp hempty)
      · exact Or.inr (List.mem_append_right _ (List.mem_singleton_self _))
    · intro stored hget
      simp only [Table.get_insert, if_true] at hget
      cases hget
      rfl

/-- The outputs of a transaction. -/
theorem stageOutputs_notes {txid : Txid} {l : List (TxOut × Nat)}
    (h : l.foldlM (stageOutput resolver height hash txid) s = .ok s') :
    Notes resolver s s' ∧ ∀ e ∈ l, Noted resolver s' ⟨txid, e.2⟩ := by
  induction l generalizing s with
  | nil =>
    cases h
    exact ⟨.refl _, fun e he => (List.not_mem_nil he).elim⟩
  | cons e l ih =>
    obtain ⟨s₁, hone, hrest⟩ := foldlM_cons_eq_ok.mp h
    obtain ⟨hnotes, hnoted⟩ := stageOutput_notes hone
    obtain ⟨hnotes', hall⟩ := ih hrest
    refine ⟨hnotes.trans hnotes', fun e' he' => ?_⟩
    rcases List.mem_cons.mp he' with rfl | he'
    · exact hnotes'.noted _ hnoted
    · exact hall e' he'

/-- A transaction. -/
theorem stageTx_notes {tx : Transaction} (h : stageTx resolver height hash s tx = .ok s') :
    Notes resolver s s' ∧ ∀ ref ∈ outputRefs tx, Noted resolver s' ref := by
  unfold stageTx at h
  obtain ⟨s₁, houtputs, h⟩ := bind_eq_ok.mp h
  cases h
  obtain ⟨hnotes, hall⟩ := stageOutputs_notes houtputs
  -- deleting the inputs takes nothing from the lists
  have herase : Notes resolver s₁
      { s₁ with txos := tx.input.foldl (fun t txin => t.erase txin.previousOutput) s₁.txos } := by
    refine ⟨fun hs => ⟨hs.runes, hs.inscriptions⟩, ?_⟩
    rintro ref ⟨body, hbody, hlisted, hstored⟩
    refine ⟨body, hbody, hlisted, fun stored hget => hstored stored ?_⟩
    have hgone : tx.input.foldl (fun t txin => t.erase txin.previousOutput) s₁.txos =
        s₁.txos.eraseAll (tx.input.map TxIn.previousOutput) := by
      unfold Table.eraseAll
      rw [List.foldl_map]
    simp only [hgone, Table.get_eraseAll] at hget
    split at hget
    · cases hget
    · exact hget
  refine ⟨hnotes.trans herase, fun ref href => herase.noted ref ?_⟩
  obtain ⟨htxid, hvout⟩ := mem_outputRefs.mp href
  have hmem : (tx.output[ref.vout], ref.vout) ∈ tx.output.zipIdx :=
    List.mk_mem_zipIdx_iff_getElem?.mpr (List.getElem?_eq_getElem hvout)
  have hnoted := hall _ hmem
  rw [← htxid] at hnoted
  exact hnoted

/-- **The transactions of a block**: their outputs are listed. -/
theorem stageTxs_notes {txs : List Transaction} (h : txs.foldlM (stageTx resolver height hash) s = .ok s') :
    Notes resolver s s' ∧ ∀ tx ∈ txs, ∀ ref ∈ outputRefs tx, Noted resolver s' ref := by
  induction txs generalizing s with
  | nil =>
    cases h
    exact ⟨.refl _, fun tx htx => (List.not_mem_nil htx).elim⟩
  | cons tx txs ih =>
    obtain ⟨s₁, hone, hrest⟩ := foldlM_cons_eq_ok.mp h
    obtain ⟨hnotes, hnoted⟩ := stageTx_notes hone
    obtain ⟨hnotes', hall⟩ := ih hrest
    refine ⟨hnotes.trans hnotes', fun tx' htx' => ?_⟩
    rcases List.mem_cons.mp htx' with rfl | htx'
    · exact fun ref href => hnotes'.noted ref (hnoted ref href)
    · exact hall tx' htx'

end

/-! ## The stored entry -/

/-- An entry that is high enough is not pruned. -/
theorem get_prune {t : Table Nat Log} {beforeHeight k : Nat} {log : Log} (hget : t.get k = some log)
    (hheight : beforeHeight ≤ log.height) : (prune t beforeHeight).get k = some log := by
  have hmem : (k, log) ∈ t.entries := Table.mem_entries.mpr hget
  rw [← List.takeWhile_append_dropWhile (p := fun e : Nat × Log => e.2.height < beforeHeight) (l := t.entries)] at hmem
  refine Table.mem_entries.mp ?_
  rw [prune_entries]
  refine (List.mem_append.mp hmem).resolve_left fun hpruned => ?_
  have hlow := List.all_eq_true.mp List.all_takeWhile _ hpruned
  simp only [decide_eq_true_eq] at hlow
  omega

/-- **The entry of an applied block**, in the tables and, in mutable mode, in the log. -/
theorem apply_stores {deps : Deps} {cfg : Config} {rocks : Rocks} {n n' : Node} {height : Nat} {block : Block}
    {mutable : Bool} (h : applyBlockWithContext deps cfg rocks height block mutable n = .ok ⟨⟩ n') :
    ∃ resolver staged entry,
      block.txdata.foldlM (stageTx resolver height block.hash) ⟨n.db.tables.txos, [], []⟩ = .ok staged ∧
      entry.resolver = resolver.filter (fun ref _ => (inputRefs block).contains ref) ∧
      entry.outputRunes = staged.outputRunes ∧ entry.outputInscriptions = staged.outputInscriptions ∧
      n'.db.tables.txos = staged.txos ∧
      n'.db.tables.blockByHeight.get height = some (block.hash, block) ∧
      n'.db.tables.resolverByHeight.get height = some entry ∧
      (mutable = true → n'.db.tables.mutableKV.get n.db.nextWalSeq = some (.apply height block entry)) := by
  unfold applyBlockWithContext at h
  split at h
  · cases h
  · split at h
    · cases h
    · rename_i s _
      split at h
      · cases h
      · rename_i tables hstage
        split at h
        · cases h
        · split at h
          · cases h
          · cases h
            unfold stageBlock at hstage
            obtain ⟨staged, hstaged, hstage⟩ := bind_eq_ok.mp hstage
            cases hstage
            refine ⟨s.resolver, staged, resolverEntry n.db.tables block s staged, hstaged, rfl, rfl, rfl, rfl, ?_, ?_, ?_⟩
            · exact (Table.get_insert _ _ _ _).trans (if_pos rfl)
            · exact (Table.get_insert _ _ _ _).trans (if_pos rfl)
            · rintro rfl
              have hnew : (n.db.tables.mutableKV.insert n.db.nextWalSeq
                  (.apply height block (resolverEntry n.db.tables block s staged))).get n.db.nextWalSeq =
                    some (.apply height block (resolverEntry n.db.tables block s staged)) :=
                (Table.get_insert _ _ _ _).trans (if_pos rfl)
              simp only [if_true]
              split
              · split
                · exact get_prune hnew (Nat.sub_le height _)
                · exact hnew
              · exact hnew

end DogeIndexer.Compressor
