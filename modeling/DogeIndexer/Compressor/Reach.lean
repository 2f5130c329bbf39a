import DogeIndexer.Compressor.Outcomes
import DogeIndexer.Compressor.Undo
import DogeIndexer.Lib.History

/-!
# Reachable nodes

Nodes reached from an empty database by calls of `apply_block_with_context` and of `rollback`, completed
or not.  Behind such a node stands the history of the stored blocks: a block that is undone leaves it, and
the memory resolver, which `rollback` does not touch, agrees with the outputs at every point of it.

* `Restores` — tables related by `R` read the same, and undoing a block restores them up to `R`.
* `Reach.history` — a reachable node has a history.
-/

set_option autoImplicit false

namespace DogeIndexer.Compressor

open Fallible Effect

/-- Reachable nodes; the calls of `apply_block_with_context` are for valid blocks and satisfy `C`. -/
inductive Reach (deps : Deps) (cfg : Config) (C : Node → Call → Prop) : Node → Prop
  | open_ (memory : Bool) : Reach deps cfg C (Node.open_ memory)
  | apply {n : Node} (h : Reach deps cfg C n) (call : Call)
      (hvalid : ValidBlock n.db.tables call.height call.block) (hcond : C n call) :
      Reach deps cfg C
        (endState (applyBlockWithContext deps cfg call.rocks call.height call.block call.mutable n))
  | rollback {n : Node} (h : Reach deps cfg C n) (rocks : Rocks) (height : Nat) (hash : BlockHash) (mutable : Bool) :
      Reach deps cfg C (endState (rollback deps cfg rocks height hash mutable n))

/-- The nodes of a run from a reachable node are reachable. -/
theorem Run.reach_from {deps : Deps} {cfg : Config} {C : Node → Call → Prop} {n n' : Node} {l : List Transition}
    (run : Run deps cfg n l n') (h : Reach deps cfg C n)
    (hvalid : ∀ e ∈ l, ValidBlock e.before.db.tables e.call.height e.call.block)
    (hcond : ∀ e ∈ l, C e.before e.call) : Reach deps cfg C n' := by
  induction run with
  | nil => exact h
  | @snoc l m m' run call hcall ih =>
    have hmem : Transition.mk m call m' ∈ l ++ [⟨m, call, m'⟩] := List.mem_append_right _ (List.mem_singleton_self _)
    have hreach := (ih (fun e he => hvalid e (List.mem_append_left _ he))
      (fun e he => hcond e (List.mem_append_left _ he))).apply call (hvalid _ hmem) (hcond _ hmem)
    rw [hcall] at hreach
    exact hreach

/-- The nodes of a run are reachable. -/
theorem Run.reach {deps : Deps} {cfg : Config} (C : Node → Call → Prop) {memory : Bool}
    {l : List Transition} {n : Node} (run : Run deps cfg (Node.open_ memory) l n)
    (hvalid : ∀ e ∈ l, ValidBlock e.before.db.tables e.call.height e.call.block)
    (hcond : ∀ e ∈ l, C e.before e.call) : Reach deps cfg C n :=
  run.reach_from (.open_ memory) hvalid hcond

/-- A valid block, stored under its entry of `BlockByHeightKV`, leads from tables to tables. -/
inductive Extends (deps : Deps) (cfg : Config) (C : Node → Call → Prop) :
    Tables → Nat × BlockHash × Block → Tables → Prop
  | intro {n n' : Node} {call : Call} (run : Applied deps cfg n call.height call.block call.mutable n')
      (hvalid : ValidBlock n.db.tables call.height call.block) (hsettled : Settled n.mem n.db.tables.txos)
      (hcond : C n call) :
      Extends deps cfg C n.db.tables (call.height, call.block.hash, call.block) n'.db.tables

/-- The histories of tables. -/
abbrev Blocks (deps : Deps) (cfg : Config) (C : Node → Call → Prop) (R : Tables → Tables → Prop) :
    List (Tables × (Nat × BlockHash × Block) × Tables) → Tables → Prop :=
  History R (Extends deps cfg C) Tables.empty

/-- What a rollback restores: tables that read the same by `R`. -/
structure Restores (deps : Deps) (cfg : Config) (C : Node → Call → Prop) (R : Tables → Tables → Prop) :
    Prop where
  refl : ∀ t, R t t
  trans : ∀ a b c, R a b → R b c → R a c
  chain : ∀ t t', R t t' → SameChain t t'
  log : ∀ t log, R { t with mutableKV := log } t
  undo : ∀ mutable l t₀ e t₁ x x', Blocks deps cfg C R l t₀ → Extends deps cfg C t₀ e t₁ → R (Prod.fst x) t₁ →
    undoBlock deps cfg mutable x e = .ok x' → R (Prod.fst x') t₀

section

variable {deps : Deps} {cfg : Config} {C : Node → Call → Prop} {R : Tables → Tables → Prop}
  {l : List (Tables × (Nat × BlockHash × Block) × Tables)} {t : Tables}

/-! ## Histories -/

/-- The tables of a history are sourced. -/
theorem Blocks.sourced (hchain : ∀ t t', R t t' → SameChain t t') (h : Blocks deps cfg C R l t) :
    Sourced t ∧ ∀ e ∈ l, Sourced e.1 := by
  refine History.induct h Sourced.empty (fun s s' hR hs => (hchain _ _ hR).sourced hs) ?_
  rintro t₀ e t₁ hs ⟨run, hvalid, hsettled, -⟩
  exact run.sourced hvalid hsettled hs

/-- The stored blocks are those of the history. -/
theorem Blocks.entries (hchain : ∀ t t', R t t' → SameChain t t') (h : Blocks deps cfg C R l t) :
    t.blockByHeight.entries = l.map fun e => e.2.1 := by
  induction h with
  | nil hR => rw [(hchain _ _ hR).blocks]; rfl
  | @push l t₀ t₁ t a before step hR ih =>
    rw [(hchain _ _ hR).blocks, List.map_append]
    cases step with
    | @intro n n' call run hvalid hsettled hcond =>
      obtain ⟨log, htables⟩ := run.tables
      rw [htables]
      simp only
      rw [Table.entries_insert_last _ hvalid.later, ih]
      rfl

/-- Stored transactions stay stored along a history. -/
theorem Blocks.hasTx (hchain : ∀ t t', R t t' → SameChain t t') (h : Blocks deps cfg C R l t) {txid : Txid}
    {e : Tables × (Nat × BlockHash × Block) × Tables} (he : e ∈ l) (htx : e.1.HasTx txid) : t.HasTx txid := by
  induction h with
  | nil hR => cases he
  | @push l t₀ t₁ t a before step hR ih =>
    have hsame := (hchain _ _ hR).blocks
    unfold Tables.HasTx at ih ⊢
    rw [hsame]
    have hold : ∃ e ∈ t₀.blockByHeight.entries, txid ∈ txIds e.2.2 := by
      rcases List.mem_append.mp he with he | he
      · exact ih he
      · rw [List.mem_singleton.mp he] at htx
        exact htx
    cases step with
    | intro run hvalid hsettled hcond => exact run.hasTx hvalid (Or.inl hold)

/-! ## Memory -/

/-- What a memory gains does not contradict outputs of other transactions. -/
theorem Agrees.gained {mem mem' txos : Table TxoRef TxoBody} {block : Block} (h : Agrees mem txos)
    (hgain : ∀ ref body, mem'.get ref = some body → mem.get ref = some body ∨ ref.txid ∈ txIds block)
    (hother : ∀ ref body, txos.get ref = some body → ref.txid ∉ txIds block) : Agrees mem' txos := by
  intro ref body body' hmem htxos
  rcases hgain ref body hmem with hold | hnew
  · exact h ref body body' hold htxos
  · exact absurd hnew (hother ref body' htxos)

/-- The history behind a node, with which its memory agrees at every point. -/
structure Backed (deps : Deps) (cfg : Config) (C : Node → Call → Prop) (R : Tables → Tables → Prop)
    (l : List (Tables × (Nat × BlockHash × Block) × Tables)) (n : Node) : Prop where
  blocks : Blocks deps cfg C R l n.db.tables
  settled : Settled n.mem n.db.tables.txos
  agrees : ∀ e ∈ l, Agrees n.mem e.1.txos

variable {n : Node}

/-- Outputs at any point of the history are not of a valid block that follows. -/
theorem Backed.other (hR : Restores deps cfg C R) (h : Backed deps cfg C R l n) {height : Nat} {block : Block}
    (hvalid : ValidBlock n.db.tables height block) :
    (∀ ref body, n.db.tables.txos.get ref = some body → ref.txid ∉ txIds block) ∧
      ∀ e ∈ l, ∀ ref body, e.1.txos.get ref = some body → ref.txid ∉ txIds block := by
  obtain ⟨hsourced, hearlier⟩ := h.blocks.sourced hR.chain
  constructor
  · intro ref body hget hmem
    exact hvalid.not_hasTx hmem (hsourced.txos ref body hget)
  · intro e he ref body hget hmem
    exact hvalid.not_hasTx hmem (h.blocks.hasTx hR.chain he ((hearlier e he).txos ref body hget))

/-- A call leaves the database as it was, or stores its block; then its hash is the last one, unless the
flush fails. -/
inductive Outcome (deps : Deps) (cfg : Config) (n : Node) (call : Call) (n' : Node) :
    List (Tables × (Nat × BlockHash × Block) × Tables) → Prop
  | unchanged (hdb : n'.db = n.db) : Outcome deps cfg n call n' []
  | stored {m : Node} (run : Applied deps cfg n call.height call.block call.mutable m)
      (htables : n'.db.tables = m.db.tables) (hmem : n'.mem = m.mem)
      (hhash : n'.db.lastBlockHash = some call.block.hash ∨ (call.height % 5000 = 0 ∧ call.rocks.flush = false)) :
      Outcome deps cfg n call n' [(n.db.tables, (call.height, call.block.hash, call.block), m.db.tables)]

theorem apply_outcome (deps : Deps) (cfg : Config) (n : Node) (call : Call) :
    ∃ added, Outcome deps cfg n call
      (endState (applyBlockWithContext deps cfg call.rocks call.height call.block call.mutable n)) added := by
  rcases apply_cases deps cfg call.rocks call.height call.block call.mutable n with
    ⟨n', hrun, ⟨run⟩⟩ | ⟨e, n', hrun, hdb⟩ | ⟨hheight, hflush, n', ⟨run⟩, hrun⟩
  · rw [hrun]
    exact ⟨_, .stored run rfl rfl (Or.inl run.lastBlockHash)⟩
  · rw [hrun]
    exact ⟨_, .unchanged hdb⟩
  · rw [hrun]
    exact ⟨_, .stored run rfl rfl (Or.inr ⟨hheight, hflush⟩)⟩

/-- **A call of `apply_block_with_context`**, completed or not, leads from backed nodes to backed nodes. -/
theorem Backed.apply (hR : Restores deps cfg C R) (h : Backed deps cfg C R l n) {call : Call}
    (hvalid : ValidBlock n.db.tables call.height call.block) (hcond : C n call)
    {added : List (Tables × (Nat × BlockHash × Block) × Tables)}
    (houtcome : Outcome deps cfg n call
      (endState (applyBlockWithContext deps cfg call.rocks call.height call.block call.mutable n)) added) :
    Backed deps cfg C R (l ++ added)
      (endState (applyBlockWithContext deps cfg call.rocks call.height call.block call.mutable n)) := by
  obtain ⟨hother, hothers⟩ := h.other hR hvalid
  have hgain : ∀ ref body, (endState (applyBlockWithContext deps cfg call.rocks call.height call.block call.mutable
      n)).mem.get ref = some body → n.mem.get ref = some body ∨ ref.txid ∈ txIds call.block :=
    fun ref body => apply_gains
  revert houtcome hgain
  generalize endState (applyBlockWithContext deps cfg call.rocks call.height call.block call.mutable n) = n'
  intro houtcome hgain
  cases houtcome with
  | unchanged hdb =>
    rw [List.append_nil]
    refine ⟨?_, ?_, fun e he => (h.agrees e he).gained hgain (hothers e he)⟩
    · rw [hdb]
      exact h.blocks
    · rw [hdb]
      exact ⟨h.settled.agrees.gained hgain hother, h.settled.null⟩
  | stored run htables hmem hhash =>
    refine ⟨?_, ?_, ?_⟩
    · refine .push h.blocks (.intro run hvalid h.settled hcond) ?_
      rw [htables]
      exact hR.refl _
    · rw [htables, hmem]
      exact run.settled hvalid h.settled
    · intro e he
      rcases List.mem_append.mp he with he | he
      · exact (h.agrees e he).gained hgain (hothers e he)
      · rw [List.mem_singleton.mp he]
        exact h.settled.agrees.gained hgain hother

/-- The entries from a height on are those of the latest blocks of the history. -/
theorem Blocks.suffix (hchain : ∀ t t', R t t' → SameChain t t') (h : Blocks deps cfg C R l t) {height : Nat}
    {found : Nat × BlockHash × Block} {toRemove : List (Nat × BlockHash × Block)}
    (hscan : t.blockByHeight.entriesFrom height = found :: toRemove) :
    ∃ kept undone, l = kept ++ undone ∧ (kept.map fun e => e.2.1).getLast? = some found ∧
      (undone.map fun e => e.2.1) = toRemove := by
  obtain ⟨before, hsplit⟩ := t.blockByHeight.entriesFrom_suffix height
  rw [hscan, h.entries hchain] at hsplit
  rw [show before ++ found :: toRemove = (before ++ [found]) ++ toRemove by simp] at hsplit
  obtain ⟨kept, undone, hl, hkept, hundone⟩ := List.map_eq_append_iff.mp hsplit.symm
  exact ⟨kept, undone, hl, by rw [hkept]; simp, hundone⟩

/-- **A call of `rollback`**, completed or not, leads from backed nodes to backed nodes: nothing changes,
or the blocks above the point are gone. -/
theorem Backed.rollback (hR : Restores deps cfg C R) (h : Backed deps cfg C R l n) (rocks : Rocks) (height : Nat)
    (hash : BlockHash) (mutable : Bool) :
    ∃ kept undone, l = kept ++ undone ∧
      Backed deps cfg C R kept (endState (Compressor.rollback deps cfg rocks height hash mutable n)) ∧
      (undone = [] ∧ endState (Compressor.rollback deps cfg rocks height hash mutable n) = n ∨
        (endState (Compressor.rollback deps cfg rocks height hash mutable n)).db.lastBlockHash = some hash ∧
        ∃ block, (kept.map fun e => e.2.1).getLast? = some (height, hash, block)) := by
  rcases rollback_cases deps cfg rocks height hash mutable n with ⟨e, hrun⟩ |
    ⟨block, toRemove, t, w, log, w', hscan, hfold, hrun⟩
  · rw [hrun]
    exact ⟨l, [], (List.append_nil l).symm, h, Or.inl ⟨rfl, rfl⟩⟩
  · rw [hrun]
    obtain ⟨kept, undone, rfl, hlast, rfl⟩ := h.blocks.suffix hR.chain hscan
    have hblocks : Blocks deps cfg C R (kept ++ undone) (Prod.fst (n.db.tables, n.db.nextWalSeq)) := h.blocks
    obtain ⟨hkept, hhead⟩ := History.unwind hR.trans (hR.undo mutable) hblocks hfold
    refine ⟨kept, undone, rfl, ⟨hkept.congr hR.trans (hR.log t log), ?_,
      fun e he => h.agrees e (List.mem_append_left _ he)⟩, Or.inr ⟨rfl, block, hlast⟩⟩
    change Settled n.mem t.txos
    -- the outputs are those at the point of the history to which the rollback leads
    cases undone with
    | nil =>
      cases hfold
      exact h.settled
    | cons e undone =>
      obtain ⟨t₀, entry, t₁⟩ := e
      have hmem : (t₀, entry, t₁) ∈ kept ++ (t₀, entry, t₁) :: undone := List.mem_append_right _ List.mem_cons_self
      have hstep : Extends deps cfg C t₀ entry t₁ := History.mem_step h.blocks hmem
      rw [(hR.chain _ _ (hhead _ rfl)).txos]
      refine ⟨h.agrees _ hmem, ?_⟩
      cases hstep with
      | intro run hvalid hsettled hcond => exact hsettled.null

/-- **A reachable node has a history** of valid blocks. -/
theorem Reach.history (hR : Restores deps cfg C R) (h : Reach deps cfg C n) : ∃ l, Backed deps cfg C R l n := by
  induction h with
  | open_ memory =>
    refine ⟨[], .nil (hR.refl _), ⟨?_, rfl⟩, fun e he => (List.not_mem_nil he).elim⟩
    intro ref body body' _ htxos
    cases htxos
  | apply h call hvalid hcond ih =>
    obtain ⟨l, hl⟩ := ih
    obtain ⟨added, houtcome⟩ := apply_outcome deps cfg _ call
    exact ⟨_, hl.apply hR hvalid hcond houtcome⟩
  | rollback h rocks height hash mutable ih =>
    obtain ⟨l, hl⟩ := ih
    obtain ⟨kept, -, -, hkept, -⟩ := hl.rollback hR rocks height hash mutable
    exact ⟨kept, hkept⟩

end

/-- Outputs, blocks and partial inscriptions are restored. -/
theorem restores_sameChain (deps : Deps) (cfg : Config) (C : Node → Call → Prop) :
    Restores deps cfg C SameChain where
  refl := SameChain.refl
  trans _ _ _ := SameChain.trans
  chain _ _ := id
  log _ _ := ⟨rfl, rfl, rfl, rfl⟩
  undo := by
    rintro mutable l t₀ e t₁ x x' hblocks ⟨run, hvalid, hsettled, -⟩ hsame hundo
    exact run.undo_sameChain hvalid hsettled (Blocks.sourced (fun _ _ => id) hblocks).1 hsame hundo

end DogeIndexer.Compressor
