import DogeIndexer.Compressor.Mints

/-!
# The two counts of mints

The compressor counts a mint when edicts take some of it; polyphony's reducer
`mints_by_rune_id` counts the claims that the compressor reports as successful.

* `reduceBlock` — the reducer, over the indices that the compressor stores with a block.
* `mint_counts_agree` — the counts agree over runs in which every accepted claim is taken.
* `mint_reported_only` — a claim of a dune without a limit is reported and not counted.
-/

set_option autoImplicit false

namespace DogeIndexer.Compressor

open Fallible

/-! ## The reducer -/

/-- The outputs for one transaction: the claims at the reported indices. -/
def reduceTx (deps : Deps) (runeMintIdxs : List (Nat × Nat)) (e : Transaction × Nat) : List DuneId :=
  match Dunestone.fromTransaction deps e.1 with
  | none => []
  | some dunestone =>
    if dunestone.cenotaph then []
    else dunestone.claims.zipIdx.filterMap fun claim =>
      (DuneId.tryFrom claim.1).filter fun _ => runeMintIdxs.contains (e.2, claim.2)

/-- `Reducer::reduce_block`: the dunes of its `MintsByRuneId` outputs. -/
def reduceBlock (deps : Deps) (block : Block) (runeMintIdxs : List (Nat × Nat)) : List DuneId :=
  (block.txdata.zipIdx.filter fun e => (runeMintIdxs.map Prod.fst).contains e.2).flatMap
    (reduceTx deps runeMintIdxs)

/-- The reducer's outputs for the block of a call. -/
def Transition.mintOutputs (deps : Deps) (e : Transition) : List DuneId :=
  match e.after.db.tables.resolverByHeight.get e.call.height with
  | some entry => reduceBlock deps e.call.block entry.mints
  | none => []

/-- The reducer's outputs over a run. -/
def mintOutputs (deps : Deps) (l : List Transition) : List DuneId := l.flatMap (Transition.mintOutputs deps)

/-- Transactions without reported indices have no outputs. -/
theorem reduceTx_eq_nil {deps : Deps} {mints : List (Nat × Nat)} {e : Transaction × Nat}
    (h : ∀ m ∈ mints, m.1 ≠ e.2) : reduceTx deps mints e = [] := by
  unfold reduceTx
  split
  · rfl
  · split
    · rfl
    · refine List.filterMap_eq_nil_iff.mpr (fun claim hclaim => ?_)
      cases DuneId.tryFrom claim.1 with
      | none => rfl
      | some key =>
        rw [Option.filter_some, if_neg]
        simp only [List.contains_iff_mem]
        exact fun hmem => h _ hmem rfl

theorem reduceBlock_eq (deps : Deps) (block : Block) (mints : List (Nat × Nat)) :
    reduceBlock deps block mints = block.txdata.zipIdx.flatMap (reduceTx deps mints) := by
  unfold reduceBlock
  induction block.txdata.zipIdx with
  | nil => rfl
  | cons e l ih =>
    by_cases he : (mints.map Prod.fst).contains e.2
    · rw [List.filter_cons_of_pos (by simpa using he), List.flatMap_cons, List.flatMap_cons, ih]
    · rw [List.filter_cons_of_neg (by simpa using he), List.flatMap_cons, ih, reduceTx_eq_nil, List.nil_append]
      intro m hm heq
      refine he ?_
      rw [List.contains_iff_mem, ← heq]
      exact List.mem_map_of_mem hm

/-- Indices of other transactions do not matter. -/
theorem reduceTx_congr {deps : Deps} {mints mints' : List (Nat × Nat)} {e : Transaction × Nat}
    (h : ∀ c, (e.2, c) ∈ mints' ↔ (e.2, c) ∈ mints) : reduceTx deps mints' e = reduceTx deps mints e := by
  have hcontains : ∀ c, mints'.contains (e.2, c) = mints.contains (e.2, c) := by
    intro c
    rw [Bool.eq_iff_iff, List.contains_iff_mem, List.contains_iff_mem]
    exact h c
  unfold reduceTx
  simp only [hcontains]

/-! ## Claims that are taken -/

/-- A claim with something left and an edict to an output is taken. -/
theorem drawn_pos {outputs : Nat} {edicts : List Edict} {st : EdictState} {id balance : U128} {edict : Edict}
    (hbalance : st.mintable.get id = some balance) (hpos : 0 < balance) (hmem : edict ∈ edicts)
    (hclaim : claim edict.id = some id) (houtput : edict.output.val < 2 ^ 64 ∧ edict.output.val < outputs) :
    0 < drawn .mintable id (draws outputs st edicts) := by
  have hne : edict.id ≠ 0 := by
    intro hzero
    rw [hzero] at hclaim
    unfold claim at hclaim
    simp at hclaim
  have hdrawing : ∀ st : EdictState, st.mintable.get id = some balance →
      drawing outputs st edict = some (.mintable balance id) := by
    intro st hst
    unfold drawing purseOf
    rw [if_pos houtput, if_neg hne, hclaim]
    simp only [hst, Option.map_some]
  induction edicts generalizing st with
  | nil => cases hmem
  | cons first edicts ih =>
    unfold draws
    cases hpurse : drawing outputs st first with
    | none =>
      rcases List.mem_cons.mp hmem with rfl | hmem
      · rw [hdrawing st hbalance] at hpurse
        cases hpurse
      · exact ih hbalance hmem
    | some purse =>
      simp only [drawn_cons]
      by_cases heq : purse.pool = .mintable ∧ purse.id = id
      · have hpool := poolBalance_purse hpurse
        rw [heq.1, heq.2] at hpool
        simp only [poolBalance, Table.getD, hbalance, Option.getD_some] at hpool
        have hbal : 0 < purse.balance := by
          have : 0 < balance.val := hpos
          change 0 < purse.balance.val
          omega
        have htake : 0 < (first.take purse.balance).val := by
          unfold Edict.take
          split
          · exact hbal
          · rename_i hamount
            exact lt_min (Fin.pos_iff_ne_zero.mpr hamount) hbal
        rw [if_pos heq]
        omega
      · rw [if_neg heq, Nat.zero_add]
        have hsame : (purse.store (purse.balance - first.take purse.balance) st).mintable.get id = some balance := by
          cases purse with
          | issuance => exact hbalance
          | unallocated => exact hbalance
          | mintable b i =>
            have hi : id ≠ i := fun h => heq ⟨rfl, h.symm⟩
            simp only [Purse.store]
            rw [Table.get_insert, if_neg hi]
            exact hbalance
        rcases List.mem_cons.mp hmem with rfl | hmem
        · rw [hdrawing st hbalance] at hpurse
          cases hpurse
          exact absurd ⟨rfl, rfl⟩ heq
        · exact ih hsame hmem

/-- A claim with its index, when it is accepted, may mint something and has an edict to an output; the
index fits in 16 bits. -/
def ClaimTaken (step : RuneStep) (dunestone : Dunestone) (c : U128 × Nat) : Prop :=
  match accepted step.state.dunes step.height c.1 with
  | none => True
  | some limit => c.2 < 2 ^ 16 ∧ 0 < limit ∧ ∃ edict ∈ dunestone.edicts, claim edict.id = some c.1 ∧
      edict.output.val < 2 ^ 64 ∧ edict.output.val < step.tx.output.length

/-- All accepted claims of a transaction are taken. -/
def ClaimsTaken (deps : Deps) (cfg : Config) (step : RuneStep) : Prop :=
  match Dunestone.fromTransaction deps step.tx with
  | none => True
  | some dunestone => cfg.firstRuneHeight ≤ step.height → dunestone.cenotaph = false →
      ∀ c ∈ dunestone.claims.zipIdx, ClaimTaken step dunestone c

instance (step : RuneStep) (dunestone : Dunestone) (c : U128 × Nat) : Decidable (ClaimTaken step dunestone c) :=
  match h : accepted step.state.dunes step.height c.1 with
  | none => isTrue (by unfold ClaimTaken; rw [h]; trivial)
  | some limit => decidable_of_iff (c.2 < 2 ^ 16 ∧ 0 < limit ∧ ∃ edict ∈ dunestone.edicts, claim edict.id = some c.1 ∧
      edict.output.val < 2 ^ 64 ∧ edict.output.val < step.tx.output.length) (by unfold ClaimTaken; rw [h])

instance (deps : Deps) (cfg : Config) (step : RuneStep) : Decidable (ClaimsTaken deps cfg step) :=
  match h : Dunestone.fromTransaction deps step.tx with
  | none => isTrue (by unfold ClaimsTaken; rw [h]; trivial)
  | some dunestone => decidable_of_iff (cfg.firstRuneHeight ≤ step.height → dunestone.cenotaph = false →
      ∀ c ∈ dunestone.claims.zipIdx, ClaimTaken step dunestone c) (by unfold ClaimsTaken; rw [h])

/-- A taken claim is counted, and has an index of 16 bits. -/
theorem ClaimsTaken.drawn {deps : Deps} {cfg : Config} {step : RuneStep} (h : ClaimsTaken deps cfg step)
    {dunestone : Dunestone} (hheight : cfg.firstRuneHeight ≤ step.height)
    (hdunestone : Dunestone.fromTransaction deps step.tx = some dunestone) (hcen : dunestone.cenotaph = false)
    {c : U128 × Nat} (hc : c ∈ dunestone.claims.zipIdx) {limit : U128}
    (hacc : accepted step.state.dunes step.height c.1 = some limit) :
    c.2 < 2 ^ 16 ∧ 0 < Compressor.drawn .mintable c.1 (step.moved deps cfg) := by
  unfold ClaimsTaken at h
  rw [hdunestone] at h
  have htaken := h hheight hcen c hc
  unfold ClaimTaken at htaken
  rw [hacc] at htaken
  obtain ⟨hidx, hpos, edict, hedict, hclaim, houtput⟩ := htaken
  have hid : c.1 ∈ dunestone.claims := by
    rw [← List.zipIdx_map_fst 0 dunestone.claims]
    exact List.mem_map_of_mem hc
  unfold RuneStep.moved moved plan
  rw [if_pos hheight, hdunestone]
  simp only [hcen, Bool.false_eq_true, if_false]
  have hlimit : (startState deps cfg step.state.resolver step.idx step.tx step.height step.state.dunes
      dunestone).mintable.get c.1 = some limit := by
    simp only [startState]
    rw [acceptClaims_limits, if_pos hid, hacc]
  exact ⟨hidx, drawn_pos hlimit hpos hedict hclaim houtput⟩

theorem Dunestone.claims_nodup (dunestone : Dunestone) : dunestone.claims.Nodup := List.nodup_dedup _

/-- What a filter of distinct claims outputs for a dune. -/
theorem count_claims {claims : List (U128 × Nat)} (hnodup : (claims.map Prod.fst).Nodup) (p : U128 × Nat → Bool)
    (key : DuneId) :
    (claims.filterMap fun claim => (DuneId.tryFrom claim.1).filter fun _ => p claim).count key =
      if ∃ claim ∈ claims, DuneId.tryFrom claim.1 = some key ∧ p claim = true then 1 else 0 := by
  induction claims with
  | nil => simp
  | cons claim claims ih =>
    rw [List.map_cons, List.nodup_cons] at hnodup
    have hrest := ih hnodup.2
    by_cases hhead : DuneId.tryFrom claim.1 = some key ∧ p claim = true
    · have hnone : ¬ ∃ c ∈ claims, DuneId.tryFrom c.1 = some key ∧ p c = true := by
        rintro ⟨c, hc, hkey, -⟩
        exact hnodup.1 (by rw [DuneId.tryFrom_injective hhead.1 hkey]; exact List.mem_map_of_mem hc)
      rw [if_neg hnone] at hrest
      rw [List.filterMap_cons_some (b := key) (by rw [hhead.1, Option.filter_some, if_pos hhead.2]),
        List.count_cons_self, hrest, if_pos ⟨claim, List.mem_cons_self, hhead⟩]
    · have hcount : ((claim :: claims).filterMap fun claim =>
          (DuneId.tryFrom claim.1).filter fun _ => p claim).count key =
          (claims.filterMap fun claim => (DuneId.tryFrom claim.1).filter fun _ => p claim).count key := by
        rw [List.filterMap_cons]
        split
        · rfl
        · rename_i key' hkey'
          obtain ⟨hkey', hp⟩ := Option.filter_eq_some_iff.mp hkey'
          refine List.count_cons_of_ne ?_
          rintro rfl
          exact hhead ⟨hkey', hp⟩
      rw [hcount, hrest]
      refine if_congr ?_ rfl rfl
      constructor
      · rintro ⟨c, hc, hmatch⟩
        exact ⟨c, List.mem_cons_of_mem _ hc, hmatch⟩
      · rintro ⟨c, hc, hmatch⟩
        rcases List.mem_cons.mp hc with rfl | hc
        · exact absurd hmatch hhead
        · exact ⟨c, hc, hmatch⟩

/-- Reported indices of 16 bits are told apart. -/
theorem mem_reported {claims : List U128} {p : U128 × Nat → Bool} {c : U128 × Nat}
    (hidx : ∀ e ∈ claims.zipIdx, p e = true → e.2 < 2 ^ 16) (hc : c ∈ claims.zipIdx) :
    c.2 ∈ (claims.zipIdx.filter p).map (fun e => e.2 % 2 ^ 16) ↔ p c = true := by
  rw [List.mem_map]
  constructor
  · rintro ⟨e, he, heq⟩
    obtain ⟨he, hp⟩ := List.mem_filter.mp he
    rw [Nat.mod_eq_of_lt (hidx e he hp)] at heq
    have hget := List.mem_zipIdx_iff_getElem?.mp hc
    have hget' := List.mem_zipIdx_iff_getElem?.mp he
    rw [heq, hget] at hget'
    have hsame : e = c := Prod.ext (Option.some.inj hget').symm heq
    rw [← hsame]
    exact hp
  · intro hp
    exact ⟨c, List.mem_filter.mpr ⟨hc, hp⟩, Nat.mod_eq_of_lt (hidx c hc hp)⟩

/-- **One transaction**: where its accepted claims are taken, the count of a dune moves with the
reducer's outputs. -/
theorem RunesStep.counts {deps : Deps} {cfg : Config} {height idx : Nat} {tx : Transaction} {s : BlockState}
    {dunes : List Balances} {etches : List (Nat × U128)} {mints : List (Nat × Nat)} {t' : DuneTables}
    (h : RunesStep deps cfg height idx tx s.resolver s.dunes dunes etches mints t')
    (htaken : ClaimsTaken deps cfg ⟨height, idx, tx, s⟩) :
    (∀ m ∈ mints, m.1 = idx) ∧ ∀ key, (t'.mintsById.getD key 0).val =
      (s.dunes.mintsById.getD key 0).val + (reduceTx deps mints (tx, idx)).count key := by
  rcases h.cases with ⟨-, -, rfl, rfl, -⟩ | ⟨dunestone, etch, indices, hdunestone, hheight, -, rfl, ⟨step⟩⟩
  · refine ⟨fun m hm => (by cases hm), fun key => ?_⟩
    rw [reduceTx_eq_nil (fun m hm => by cases hm), List.count_nil, Nat.add_zero]
  · refine ⟨?_, fun key => ?_⟩
    · intro m hm
      obtain ⟨i, -, rfl⟩ := List.mem_map.mp hm
      rfl
    · have hcount : (reduceTx deps (indices.map fun m => (idx, m)) (tx, idx)).count key =
          if ∃ id, DuneId.tryFrom id = some key ∧
            0 < drawn .mintable id (moved deps cfg height idx tx s.resolver s.dunes) then 1 else 0 := by
        unfold reduceTx
        simp only [hdunestone]
        cases hcen : dunestone.cenotaph with
        | true =>
          rw [if_pos rfl, List.count_nil, if_neg]
          rintro ⟨id, -, hpos⟩
          unfold moved plan at hpos
          simp [hdunestone, hcen] at hpos
        | false =>
          rw [if_neg (by simp), count_claims (by rw [List.zipIdx_map_fst]; exact dunestone.claims_nodup)]
          refine if_congr ?_ rfl rfl
          have hreported := step.reported
          rw [hcen] at hreported
          simp only [Bool.false_eq_true, if_false] at hreported
          have hidx : ∀ e ∈ dunestone.claims.zipIdx, (accepted s.dunes height e.1).isSome = true → e.2 < 2 ^ 16 := by
            intro e he hsome
            obtain ⟨limit, hacc⟩ := Option.isSome_iff_exists.mp hsome
            exact (htaken.drawn hheight hdunestone hcen he hacc).1
          have hcontains : ∀ c ∈ dunestone.claims.zipIdx,
              (indices.map fun m => (idx, m)).contains (idx, c.2) = true ↔
                (accepted s.dunes height c.1).isSome = true := by
            intro c hc
            rw [List.contains_iff_mem, ← mem_reported (p := fun e => (accepted s.dunes height e.1).isSome) hidx hc,
              ← hreported]
            simp
          constructor
          · rintro ⟨c, hc, hkey, hp⟩
            obtain ⟨limit, hacc⟩ := Option.isSome_iff_exists.mp ((hcontains c hc).mp hp)
            exact ⟨c.1, hkey, (htaken.drawn hheight hdunestone hcen hc hacc).2⟩
          · rintro ⟨id, hkey, hpos⟩
            obtain ⟨limit, hacc, -, hclaims⟩ := moved_mintable hpos
            have hid := hclaims dunestone hdunestone
            rw [← List.zipIdx_map_fst 0 dunestone.claims] at hid
            obtain ⟨c, hc, rfl⟩ := List.mem_map.mp hid
            refine ⟨c, hc, hkey, (hcontains c hc).mpr ?_⟩
            rw [hacc]
            rfl
      rw [h.mints_val key, hcount]

/-! ## Blocks and runs -/

section

variable {deps : Deps} {cfg : Config} {n n' : Node} {height : Nat} {block : Block} {mutable : Bool}

/-- What a list of transactions gives for reported indices, with one more transaction and its indices. -/
theorem flatMap_reported {f : List (Nat × Nat) → Transaction × Nat → List DuneId}
    (hf : ∀ mints mints' e, (∀ i, (e.2, i) ∈ mints ↔ (e.2, i) ∈ mints') → f mints e = f mints' e)
    {txs : List Transaction} {tx : Transaction} {before added : List (Nat × Nat)}
    (hbefore : ∀ m ∈ before, m.1 < txs.length) (hadded : ∀ m ∈ added, m.1 = txs.length) :
    (txs ++ [tx]).zipIdx.flatMap (f (before ++ added)) =
      txs.zipIdx.flatMap (f before) ++ f added (tx, txs.length) := by
  have hdone : txs.zipIdx.flatMap (f (before ++ added)) = txs.zipIdx.flatMap (f before) := by
    refine List.flatMap_congr (fun e he => hf _ _ _ (fun i => ?_))
    have hlt := (List.mem_zipIdx he).2.1
    rw [List.mem_append, or_iff_left]
    intro hm
    have := hadded _ hm
    simp only at this
    omega
  have hlast : f (before ++ added) (tx, txs.length) = f added (tx, txs.length) := by
    refine hf _ _ _ (fun i => ?_)
    rw [List.mem_append, or_iff_right]
    intro hm
    exact absurd (hbefore _ hm) (Nat.lt_irrefl _)
  rw [List.zipIdx_append, List.flatMap_append, hdone, Nat.zero_add]
  simp only [List.zipIdx_cons, List.zipIdx_nil, List.flatMap_cons, List.flatMap_nil, List.append_nil, hlast]

/-- **One block**: the counts move with the reducer's outputs for the indices stored with it. -/
theorem Applied.counts (run : Applied deps cfg n height block mutable n')
    (htaken : ∀ step ∈ runeSteps deps cfg n height block, ClaimsTaken deps cfg ⟨height, step.1, step.2.1, step.2.2⟩)
    (key : DuneId) :
    (run.final.dunes.mintsById.getD key 0).val = (n.db.tables.dunes.mintsById.getD key 0).val +
      (reduceBlock deps block run.final.successfulMints).count key := by
  have hend := run.rune_induct (P := fun done t _ mints => (∀ m ∈ mints, m.1 < done.length) ∧
      (t.mintsById.getD key 0).val = (n.db.tables.dunes.mintsById.getD key 0).val +
        (((done.map fun step => step.2.1).zipIdx).flatMap (reduceTx deps mints)).count key) ⟨?_, ?_⟩ ?_
  · rw [run.runeSteps_tx] at hend
    rw [reduceBlock_eq]
    exact hend.2
  · intro m hm
    cases hm
  · simp
  · rintro done idx tx s dunes etches mints t hpre rfl - hrunes ⟨hbefore, hcount⟩
    obtain ⟨hidx, hstep⟩ := hrunes.counts (htaken (done.length, tx, s) (hpre.subset (by simp)))
    refine ⟨?_, ?_⟩
    · intro m hm
      rw [List.length_append, List.length_singleton]
      rcases List.mem_append.mp hm with hm | hm
      · exact Nat.lt_succ_of_lt (hbefore m hm)
      · rw [hidx m hm]
        exact Nat.lt_succ_self _
    · rw [List.map_append, List.map_singleton, flatMap_reported (fun _ _ _ => reduceTx_congr)
        (by rw [List.length_map]; exact hbefore) (by rw [List.length_map]; exact hidx), List.count_append,
        List.length_map, hstep key, hcount, Nat.add_assoc]

end

/-- **The two counts of mints agree** over every run whose accepted claims are all taken. -/
theorem mint_counts_agree {deps : Deps} {cfg : Config} {memory : Bool} {l : List Transition} {n : Node}
    (run : Run deps cfg (Node.open_ memory) l n)
    (htaken : ∀ step ∈ runeHistory deps cfg l, ClaimsTaken deps cfg step) (key : DuneId) :
    (mintOutputs deps l).count key = (n.db.tables.dunes.mintsById.getD key 0).val := by
  induction run with
  | nil => rfl
  | @snoc l n n' run call hcall ih =>
    obtain ⟨applied⟩ := apply_ok hcall
    rw [runeHistory_append] at htaken
    have hbefore := ih (fun step hstep => htaken step (List.mem_append_left _ hstep))
    have hblock := applied.counts (fun step hstep => htaken _ (List.mem_append_right _ (List.mem_map_of_mem hstep)))
      key
    obtain ⟨log, htables⟩ := applied.tables
    have houtputs : Transition.mintOutputs deps ⟨n, call, n'⟩ =
        reduceBlock deps call.block applied.final.successfulMints := by
      unfold Transition.mintOutputs
      rw [htables]
      simp only [Table.get_insert, if_true]
      rfl
    unfold mintOutputs at hbefore ⊢
    rw [List.flatMap_append, List.count_append, List.flatMap_singleton, houtputs, hbefore, htables]
    exact hblock.symm

/-- The one mint of an etched dune is reported and counted once. -/
theorem mint_counts_agree_once :
    ∃ l n, Run duneScripts fromFirstBlock (Node.open_ true) l n ∧ (mintOutputs duneScripts l).count ⟨1, 1⟩ = 1 := by
  have hsome : (runCalls duneScripts fromFirstBlock (Node.open_ true) (etchedAndMinted etchScript)).isSome = true := by
    decide +kernel
  refine ⟨_, _, Run.ofCalls hsome, ?_⟩
  rw [mint_counts_agree (Run.ofCalls hsome) (by decide +kernel)]
  decide +kernel

/-- A claim of a dune without terms is reported, and not counted. -/
theorem mint_reported_only :
    ∃ l n, Run duneScripts fromFirstBlock (Node.open_ true) l n ∧
      (∀ e ∈ l, ValidBlock e.before.db.tables e.call.height e.call.block) ∧
      (mintOutputs duneScripts l).count ⟨1, 1⟩ = 1 ∧ n.db.tables.dunes.mintsById.getD ⟨1, 1⟩ 0 = 0 := by
  have hsome : (runCalls duneScripts fromFirstBlock (Node.open_ true) (etchedAndMinted bareEtchScript)).isSome =
      true := by
    decide +kernel
  exact ⟨_, _, Run.ofCalls hsome, by decide +kernel, by decide +kernel, by decide +kernel⟩

end DogeIndexer.Compressor
