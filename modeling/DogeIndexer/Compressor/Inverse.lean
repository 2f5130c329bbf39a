import DogeIndexer.Compressor.Messages
import DogeIndexer.Compressor.MintCounts
import DogeIndexer.Compressor.Names

/-!
# Rollback inverts apply

A rollback to the point before some blocks leads back to what the tables read there, exactly when no claim
is reported that was not minted: `rollback` takes one mint back for every reported claim, `index_runes`
counts one for every claim of which something was taken.

* `subMints_ok`, `exists_subMints` — taking mints back.
* `Run.unwind` — undoing the blocks of a run.
* `GrowsBy` — the counts moved by what a rollback takes back.
* `rollback_inverts_iff` — the condition.
-/

set_option autoImplicit false

namespace DogeIndexer.Compressor

open Fallible Effect

/-! ## Taking mints back -/

theorem subMints_ok {t t' : Table DuneId U128} {keys : List DuneId} (h : subMints t keys = .ok t') (key : DuneId) :
    (t'.getD key 0).val + keys.count key = (t.getD key 0).val := by
  induction keys generalizing t with
  | nil =>
    cases h
    rfl
  | cons k keys ih =>
    obtain ⟨t₁, hone, hrest⟩ := foldlM_cons_eq_ok.mp h
    obtain ⟨newMints, hsub, rfl⟩ := map_eq_ok.mp hone
    have hsub' := orPanic_eq_ok.mp hsub
    unfold Machine.checkedSub at hsub'
    split at hsub'
    · rename_i hle
      have hval : newMints.val = (t.getD k 0).val - 1 := by
        rw [← Option.some.inj hsub', Fin.coe_sub_iff_le.mpr hle]
        rfl
      have hpos : 1 ≤ (t.getD k 0).val := hle
      have hrest' := ih hrest
      rw [Table.getD_insert] at hrest'
      rw [List.count_cons]
      split at hrest'
      · rename_i heq
        rw [heq] at hrest' ⊢
        simp only [beq_self_eq_true, if_true]
        omega
      · rename_i hne
        rw [if_neg (by simpa using fun heq : k = key => hne heq.symm)]
        exact hrest'
    · cases hsub'

theorem exists_subMints {t : Table DuneId U128} {keys : List DuneId}
    (h : ∀ key, keys.count key ≤ (t.getD key 0).val) : ∃ t', subMints t keys = .ok t' := by
  induction keys generalizing t with
  | nil => exact ⟨t, rfl⟩
  | cons k keys ih =>
    have hk := h k
    rw [List.count_cons_self] at hk
    have hone : (1 : U128).val = 1 := rfl
    have hsub : Machine.checkedSub (t.getD k 0) 1 = some _ := Machine.checkedSub_of_le (by omega)
    obtain ⟨t', ht'⟩ := ih (t := t.insert k ⟨(t.getD k 0).val - (1 : U128).val, by omega⟩) (fun key => by
      have hkey := h key
      rw [Table.getD_insert]
      split
      · rename_i heq
        rw [heq]
        simp only
        omega
      · rename_i hne
        rwa [List.count_cons_of_ne (fun heq => hne heq.symm)] at hkey)
    refine ⟨t', foldlM_cons_eq_ok.mpr ⟨_, ?_, ht'⟩⟩
    rw [hsub]
    rfl

/-! ## One block -/

/-- The tables read the same but for the counts of mints. -/
structure SameLedgers (t t' : Tables) : Prop extends SameNames t t' where
  counters : t.counters.getD Counters.default = t'.counters.getD Counters.default
  brc20 : t.brc20.Reads t'.brc20

theorem SameLedgers.refl (t : Tables) : SameLedgers t t :=
  ⟨⟨SameChain.refl t, DuneTables.SameNames.refl _⟩, rfl, Brc20Tables.Reads.refl _⟩

/-- The dunes whose mints are taken back with a block, by the indices reported for it. -/
def takenBack (deps : Deps) (block : Block) (mints : List (Nat × Nat)) : List DuneId :=
  block.txdata.zipIdx.reverse.flatMap (undoneClaims deps mints)

section

variable {deps : Deps} {cfg : Config} {n n' : Node} {height : Nat} {block : Block} {mutable : Bool}

/-- **Undo of an applied block**: all but the counts of mints is restored, and these are taken back. -/
theorem Applied.undo_ledgers (run : Applied deps cfg n height block mutable n')
    (hvalid : ValidBlock n.db.tables height block) (hsettled : Settled n.mem n.db.tables.txos)
    (hsourced : Sourced n.db.tables) (hheight : height < 2 ^ 32) (hnamed : n.db.tables.Named deps)
    (mutable' : Bool) {x : Tables × Nat} (hsame : SameLedgers x.1 n'.db.tables) :
    (∀ x', undoBlock deps cfg mutable' x (height, block.hash, block) = .ok x' → SameLedgers x'.1 n.db.tables ∧
      subMints x.1.dunes.mintsById (takenBack deps block run.final.successfulMints) = .ok x'.1.dunes.mintsById) ∧
    ∀ m, subMints x.1.dunes.mintsById (takenBack deps block run.final.successfulMints) = .ok m →
      ∃ x', undoBlock deps cfg mutable' x (height, block.hash, block) = .ok x' := by
  obtain ⟨t, w⟩ := x
  obtain ⟨log, w', heq⟩ := run.undoBlock_eq hvalid hsettled hsame.txos (by rw [hsame.resolvers]) mutable' w
  obtain ⟨counter, hcounter, hdunes⟩ := run.undoneDunes_eq hvalid hheight hnamed run.final.successfulMints hsame.dunes
  obtain ⟨brc20, hmessages, hreads⟩ := run.recorded.undone hsame.brc20
  constructor
  · intro x' hx'
    have hchain := run.undo_sameChain hvalid hsettled hsourced hsame.toSameChain hx'
    rw [heq, hmessages] at hx'
    obtain ⟨brc20', hbrc20', hx'⟩ := bind_eq_ok.mp hx'
    cases hbrc20'
    obtain ⟨dunes, hundone, rfl⟩ := map_eq_ok.mp hx'
    rw [hdunes] at hundone
    obtain ⟨m, hm, rfl⟩ := map_eq_ok.mp hundone
    exact ⟨⟨⟨hchain, ⟨rfl, rfl, hcounter⟩⟩, rfl, hreads⟩, hm⟩
  · intro m hm
    rw [heq, hmessages, hdunes]
    unfold takenBack at hm
    rw [hm]
    exact ⟨_, rfl⟩

end

/-! ## Runs -/

/-- The dunes whose mints are taken back with the block of a call. -/
def Transition.takenBack (deps : Deps) (e : Transition) : List DuneId :=
  match e.after.db.tables.resolverByHeight.get e.call.height with
  | some entry => Compressor.takenBack deps e.call.block entry.mints
  | none => []

/-- The entry of `BlockByHeightKV` for the block of a call. -/
def Transition.entry (e : Transition) : Nat × BlockHash × Block := (e.call.height, e.call.block.hash, e.call.block)

section

variable {deps : Deps} {cfg : Config} {n n' : Node} {l : List Transition}

theorem Applied.takenBack_eq {call : Call} (run : Applied deps cfg n call.height call.block call.mutable n') :
    Transition.takenBack deps ⟨n, call, n'⟩ = Compressor.takenBack deps call.block run.final.successfulMints := by
  obtain ⟨log, htables⟩ := run.tables
  unfold Transition.takenBack
  rw [htables]
  simp only [Table.get_insert, if_true]
  rfl

/-- The blocks of a run are read last. -/
theorem Run.entriesFrom (run : Run deps cfg n l n')
    (hvalid : ∀ e ∈ l, ValidBlock e.before.db.tables e.call.height e.call.block) {height : Nat}
    {point : BlockHash × Block} (hpoint : n.db.tables.blockByHeight.lastEntry = some (height, point)) :
    n'.db.tables.blockByHeight.entriesFrom height = (height, point) :: l.map Transition.entry := by
  induction run with
  | nil => exact Table.entriesFrom_lastEntry hpoint
  | @snoc l m m' run call hcall ih =>
    obtain ⟨applied⟩ := apply_ok hcall
    have hbefore := ih (fun e he => hvalid e (List.mem_append_left _ he))
    have hblock := hvalid _ (List.mem_append_right _ (List.mem_singleton_self _))
    have hmem : (height, point) ∈ m.db.tables.blockByHeight.entriesFrom height := by
      rw [hbefore]
      exact List.mem_cons_self
    have hlt := hblock.later _ (Table.mem_entries.mpr (Table.mem_entriesFrom.mp hmem).2)
    obtain ⟨log, htables⟩ := applied.tables
    rw [htables]
    simp only
    rw [Table.entriesFrom_insert_last _ hblock.later (Nat.le_of_lt hlt), hbefore, List.map_append]
    rfl

/-- **Undo of the blocks of a run**, last first. -/
theorem Run.unwind (run : Run deps cfg n l n') (hreach : Reach deps cfg (fun _ call => call.height < 2 ^ 32) n)
    (hvalid : ∀ e ∈ l, ValidBlock e.before.db.tables e.call.height e.call.block)
    (hheight : ∀ e ∈ l, e.call.height < 2 ^ 32) (mutable : Bool) {x : Tables × Nat}
    (hsame : SameLedgers x.1 n'.db.tables) :
    (∀ x', (l.map Transition.entry).reverse.foldlM (undoBlock deps cfg mutable) x = .ok x' →
      SameLedgers x'.1 n.db.tables ∧
      subMints x.1.dunes.mintsById (l.reverse.flatMap (Transition.takenBack deps)) = .ok x'.1.dunes.mintsById) ∧
    ∀ m, subMints x.1.dunes.mintsById (l.reverse.flatMap (Transition.takenBack deps)) = .ok m →
      ∃ x', (l.map Transition.entry).reverse.foldlM (undoBlock deps cfg mutable) x = .ok x' := by
  induction run generalizing x with
  | nil =>
    refine ⟨fun x' hx' => ?_, fun m _ => ⟨x, rfl⟩⟩
    cases hx'
    exact ⟨hsame, rfl⟩
  | @snoc l m m' run call hcall ih =>
    obtain ⟨applied⟩ := apply_ok hcall
    have hvalid' := fun e he => hvalid e (List.mem_append_left _ he)
    have hheight' := fun e he => hheight e (List.mem_append_left _ he)
    have hmem : Transition.mk m call m' ∈ l ++ [⟨m, call, m'⟩] := List.mem_append_right _ (List.mem_singleton_self _)
    obtain ⟨history, hbacked⟩ := (run.reach_from hreach hvalid' hheight').history
      (restores_sameNames deps cfg (fun _ _ => id))
    have hsourced := (hbacked.blocks.sourced (fun _ _ h => SameNames.toSameChain h)).1
    have hnamed := hbacked.blocks.named (fun _ _ => id) (fun _ _ => id)
    obtain ⟨hone, hexists⟩ := applied.undo_ledgers (hvalid _ hmem) hbacked.settled hsourced (hheight _ hmem) hnamed
      mutable hsame
    rw [← applied.takenBack_eq] at hone hexists
    rw [List.map_append, List.reverse_append, List.reverse_append, List.flatMap_append, List.map_singleton,
      List.reverse_singleton, List.reverse_singleton, List.flatMap_singleton]
    constructor
    · intro x' hx'
      obtain ⟨x₁, hx₁, hrest⟩ := foldlM_cons_eq_ok.mp hx'
      obtain ⟨hsame₁, hsub⟩ := hone x₁ hx₁
      obtain ⟨hsame', hsub'⟩ := (ih hvalid' hheight' hsame₁).1 x' hrest
      exact ⟨hsame', foldlM_append_eq_ok.mpr ⟨_, hsub, hsub'⟩⟩
    · intro t hsub
      obtain ⟨t₁, hsub₁, hsub₂⟩ := foldlM_append_eq_ok.mp hsub
      obtain ⟨x₁, hx₁⟩ := hexists t₁ hsub₁
      obtain ⟨hsame₁, hread⟩ := hone x₁ hx₁
      obtain rfl : _ = t₁ := Except.ok.inj (hread.symm.trans hsub₁)
      obtain ⟨x', hx'⟩ := (ih hvalid' hheight' hsame₁).2 t hsub₂
      exact ⟨x', foldlM_cons_eq_ok.mpr ⟨x₁, hx₁, hx'⟩⟩

end

/-! ## Claims that are reported and minted -/

/-- A claim is accepted, may mint something and has an edict to an output. -/
def Minted (step : RuneStep) (dunestone : Dunestone) (id : U128) : Prop :=
  match accepted step.state.dunes step.height id with
  | none => False
  | some limit => 0 < limit ∧ ∃ edict ∈ dunestone.edicts, claim edict.id = some id ∧
      edict.output.val < 2 ^ 64 ∧ edict.output.val < step.tx.output.length

/-- A claim has the index of an accepted one, in the 16 bits that are stored. -/
def Reported (step : RuneStep) (dunestone : Dunestone) (c : U128 × Nat) : Prop :=
  ∃ e ∈ dunestone.claims.zipIdx, (accepted step.state.dunes step.height e.1).isSome = true ∧
    e.2 % 2 ^ 16 = c.2 % 2 ^ 16

/-- Claims of a transaction that are reported are minted. -/
def ReportsMinted (deps : Deps) (cfg : Config) (step : RuneStep) : Prop :=
  match Dunestone.fromTransaction deps step.tx with
  | none => True
  | some dunestone => cfg.firstRuneHeight ≤ step.height → dunestone.cenotaph = false →
      ∀ c ∈ dunestone.claims.zipIdx, (DuneId.tryFrom c.1).isSome = true → Reported step dunestone c →
        Minted step dunestone c.1

instance (step : RuneStep) (dunestone : Dunestone) (id : U128) : Decidable (Minted step dunestone id) :=
  match h : accepted step.state.dunes step.height id with
  | none => isFalse (by unfold Minted; rw [h]; exact fun hf => hf)
  | some limit => decidable_of_iff (0 < limit ∧ ∃ edict ∈ dunestone.edicts, claim edict.id = some id ∧
      edict.output.val < 2 ^ 64 ∧ edict.output.val < step.tx.output.length) (by unfold Minted; rw [h])

instance (step : RuneStep) (dunestone : Dunestone) (c : U128 × Nat) : Decidable (Reported step dunestone c) :=
  inferInstanceAs (Decidable (∃ e ∈ dunestone.claims.zipIdx, (accepted step.state.dunes step.height e.1).isSome = true ∧
    e.2 % 2 ^ 16 = c.2 % 2 ^ 16))

instance (deps : Deps) (cfg : Config) (step : RuneStep) : Decidable (ReportsMinted deps cfg step) :=
  match h : Dunestone.fromTransaction deps step.tx with
  | none => isTrue (by unfold ReportsMinted; rw [h]; trivial)
  | some dunestone => decidable_of_iff (cfg.firstRuneHeight ≤ step.height → dunestone.cenotaph = false →
      ∀ c ∈ dunestone.claims.zipIdx, (DuneId.tryFrom c.1).isSome = true → Reported step dunestone c →
        Minted step dunestone c.1) (by unfold ReportsMinted; rw [h])

/-- What is drawn from the mints of a claim is drawn by an edict of that claim to an output. -/
theorem exists_edict {outputs : Nat} {edicts : List Edict} {st : EdictState} {id : U128}
    (h : 0 < drawn .mintable id (draws outputs st edicts)) :
    ∃ edict ∈ edicts, claim edict.id = some id ∧ edict.output.val < 2 ^ 64 ∧ edict.output.val < outputs := by
  induction edicts generalizing st with
  | nil => exact absurd h (Nat.lt_irrefl 0)
  | cons edict edicts ih =>
    unfold draws at h
    cases hpurse : drawing outputs st edict with
    | none =>
      rw [hpurse] at h
      obtain ⟨later, hmem, hlater⟩ := ih h
      exact ⟨later, List.mem_cons_of_mem _ hmem, hlater⟩
    | some purse =>
      rw [hpurse] at h
      simp only [drawn_cons] at h
      by_cases heq : purse.pool = .mintable ∧ purse.id = id
      · unfold drawing at hpurse
        split at hpurse
        · rename_i houtput
          refine ⟨edict, List.mem_cons_self, ?_, houtput⟩
          unfold purseOf at hpurse
          split at hpurse
          · obtain ⟨a, -, rfl⟩ := Option.map_eq_some_iff.mp hpurse
            exact absurd heq.1 (by simp [Purse.pool])
          · split at hpurse
            · rename_i claimed hclaim
              obtain ⟨b, -, rfl⟩ := Option.map_eq_some_iff.mp hpurse
              rw [hclaim, ← heq.2]
              rfl
            · obtain ⟨b, -, rfl⟩ := Option.map_eq_some_iff.mp hpurse
              exact absurd heq.1 (by simp [Purse.pool])
        · cases hpurse
      · rw [if_neg heq, Nat.zero_add] at h
        obtain ⟨later, hmem, hlater⟩ := ih h
        exact ⟨later, List.mem_cons_of_mem _ hmem, hlater⟩

/-- **A mint is counted exactly for the minted claims.** -/
theorem drawn_pos_iff {deps : Deps} {cfg : Config} (step : RuneStep) {dunestone : Dunestone} {id : U128}
    (hdunestone : Dunestone.fromTransaction deps step.tx = some dunestone)
    (hheight : cfg.firstRuneHeight ≤ step.height) (hcen : dunestone.cenotaph = false) (hid : id ∈ dunestone.claims) :
    0 < drawn .mintable id (step.moved deps cfg) ↔ Minted step dunestone id := by
  have hplan : step.moved deps cfg = draws step.tx.output.length
      (startState deps cfg step.state.resolver step.idx step.tx step.height step.state.dunes dunestone)
      dunestone.edicts := by
    unfold RuneStep.moved moved plan
    rw [if_pos hheight, hdunestone]
    simp only [hcen, Bool.false_eq_true, if_false]
  unfold Minted
  constructor
  · intro hpos
    obtain ⟨limit, hacc, hle, -⟩ := moved_mintable hpos
    rw [hacc]
    refine ⟨Fin.lt_def.mpr (Nat.lt_of_lt_of_le hpos hle), ?_⟩
    rw [hplan] at hpos
    exact exists_edict hpos
  · intro hminted
    split at hminted
    · exact hminted.elim
    · rename_i limit hacc
      obtain ⟨hpos, edict, hedict, hclaim, houtput⟩ := hminted
      have hlimit : (startState deps cfg step.state.resolver step.idx step.tx step.height step.state.dunes
          dunestone).mintable.get id = some limit := by
        simp only [startState]
        rw [acceptClaims_limits, if_pos hid, hacc]
      rw [hplan]
      exact drawn_pos hlimit hpos hedict hclaim houtput

/-! ## What is counted and what is taken back -/

/-- The counts grow by one for each of the dunes, at most. -/
def GrowsWithin (t t' : Table DuneId U128) (keys : List DuneId) : Prop :=
  ∀ key, (t'.getD key 0).val ≤ (t.getD key 0).val + keys.count key

/-- The counts grow by one for each of the dunes. -/
def GrowsBy (t t' : Table DuneId U128) (keys : List DuneId) : Prop :=
  ∀ key, (t'.getD key 0).val = (t.getD key 0).val + keys.count key

section

variable {t t' t'' : Table DuneId U128} {keys keys' : List DuneId}

theorem GrowsWithin.append (h : GrowsWithin t t' keys) (h' : GrowsWithin t' t'' keys') :
    GrowsWithin t t'' (keys ++ keys') := by
  intro key
  have hkey := h key
  have hkey' := h' key
  rw [List.count_append]
  omega

/-- Growth that is within bounds reaches the bound when each part does. -/
theorem GrowsWithin.exact_append (h : GrowsWithin t t' keys) (h' : GrowsWithin t' t'' keys') :
    GrowsBy t t'' (keys ++ keys') ↔ GrowsBy t t' keys ∧ GrowsBy t' t'' keys' := by
  constructor
  · intro hexact
    refine ⟨fun key => ?_, fun key => ?_⟩
    · have hkey := h key
      have hkey' := h' key
      have hall := hexact key
      rw [List.count_append] at hall
      omega
    · have hkey := h key
      have hkey' := h' key
      have hall := hexact key
      rw [List.count_append] at hall
      omega
  · rintro ⟨hkeys, hkeys'⟩ key
    rw [List.count_append, hkeys' key, hkeys key, Nat.add_assoc]

theorem GrowsWithin.perm (hperm : keys.Perm keys') (h : GrowsWithin t t' keys) : GrowsWithin t t' keys' := by
  intro key
  rw [← hperm.count_eq]
  exact h key

theorem growsBy_perm (hperm : keys.Perm keys') : GrowsBy t t' keys ↔ GrowsBy t t' keys' := by
  unfold GrowsBy
  refine forall_congr' (fun key => ?_)
  rw [hperm.count_eq]

end

theorem undoneClaims_congr {deps : Deps} {mints mints' : List (Nat × Nat)} {e : Transaction × Nat}
    (h : ∀ i, (e.2, i) ∈ mints ↔ (e.2, i) ∈ mints') : undoneClaims deps mints e = undoneClaims deps mints' e := by
  unfold undoneClaims
  refine List.filterMap_congr (fun c _ => ?_)
  have hsame : mints.contains (e.2, c.2 % 2 ^ 16) = mints'.contains (e.2, c.2 % 2 ^ 16) := by
    rw [Bool.eq_iff_iff, List.contains_iff_mem, List.contains_iff_mem]
    exact h _
  rw [hsame]

/-- The mints of a dune that are taken back with a transaction. -/
theorem count_undoneClaims (deps : Deps) (mints : List (Nat × Nat)) (tx : Transaction) (idx : Nat) (key : DuneId) :
    (undoneClaims deps mints (tx, idx)).count key =
      if ∃ c ∈ claimsOf deps tx, DuneId.tryFrom c.1 = some key ∧ (idx, c.2 % 2 ^ 16) ∈ mints then 1 else 0 := by
  unfold undoneClaims
  have hnodup : ((claimsOf deps tx).map Prod.fst).Nodup := by
    unfold claimsOf
    split
    · exact List.nodup_nil
    · rename_i dunestone _
      rw [List.zipIdx_map_fst]
      exact dunestone.claims_nodup
  rw [count_claims hnodup]
  simp only [List.contains_iff_mem]

section

variable {deps : Deps} {cfg : Config} {height idx : Nat} {tx : Transaction} {s : BlockState} {dunes : List Balances}
  {etches : List (Nat × U128)} {mints : List (Nat × Nat)} {t' : DuneTables}

/-- Indices are reported for the transaction itself. -/
theorem RunesStep.mints_idx (h : RunesStep deps cfg height idx tx s.resolver s.dunes dunes etches mints t') :
    ∀ m ∈ mints, m.1 = idx := by
  rcases h.cases with ⟨-, -, rfl, -, -⟩ | ⟨dunestone, etch, indices, -, -, -, rfl, -⟩
  · intro m hm
    cases hm
  · intro m hm
    obtain ⟨i, -, rfl⟩ := List.mem_map.mp hm
    rfl

/-- The indices that a transaction reports. -/
theorem RunesStep.mem_mints (h : RunesStep deps cfg height idx tx s.resolver s.dunes dunes etches mints t')
    {dunestone : Dunestone} (hdunestone : Dunestone.fromTransaction deps tx = some dunestone)
    {c : U128 × Nat} :
    (idx, c.2 % 2 ^ 16) ∈ mints ↔ cfg.firstRuneHeight ≤ height ∧ dunestone.cenotaph = false ∧
      Reported ⟨height, idx, tx, s⟩ dunestone c := by
  rcases h.cases with ⟨-, -, rfl, -, hnone⟩ | ⟨dunestone', etch, indices, hdunestone', hheight, -, rfl, ⟨step⟩⟩
  · refine ⟨fun hm => (by cases hm), fun hreported => ?_⟩
    rw [hnone hreported.1] at hdunestone
    cases hdunestone
  · rw [hdunestone] at hdunestone'
    cases hdunestone'
    have hindex : (idx, c.2 % 2 ^ 16) ∈ indices.map (fun m => (idx, m)) ↔ c.2 % 2 ^ 16 ∈ indices := by
      simp
    rw [hindex, step.reported]
    unfold Reported
    cases hcen : dunestone.cenotaph with
    | true => simp
    | false =>
      simp only [Bool.false_eq_true, if_false, List.mem_map, List.mem_filter]
      constructor
      · rintro ⟨e, ⟨he, hacc⟩, hmod⟩
        exact ⟨hheight, trivial, e, he, hacc, hmod⟩
      · rintro ⟨-, -, e, he, hacc, hmod⟩
        exact ⟨e, ⟨he, hacc⟩, hmod⟩

/-- Something is minted of accepted claims only. -/
theorem moved_claim {id : U128} (h : 0 < drawn .mintable id (moved deps cfg height idx tx s.resolver s.dunes)) :
    ∃ dunestone, Dunestone.fromTransaction deps tx = some dunestone ∧ cfg.firstRuneHeight ≤ height ∧
      dunestone.cenotaph = false ∧ id ∈ dunestone.claims ∧ (accepted s.dunes height id).isSome = true := by
  obtain ⟨limit, hacc, -, hclaims⟩ := moved_mintable h
  unfold moved plan at h
  split at h
  · rename_i hheight
    split at h
    · simp at h
    · rename_i dunestone hdunestone
      refine ⟨dunestone, hdunestone, hheight, ?_, hclaims dunestone hdunestone, by rw [hacc]; rfl⟩
      cases hcen : dunestone.cenotaph with
      | false => rfl
      | true => simp [hcen] at h
  · simp at h

theorem claimsOf_eq {dunestone : Dunestone} (h : Dunestone.fromTransaction deps tx = some dunestone) :
    claimsOf deps tx = dunestone.claims.zipIdx := by
  unfold claimsOf
  rw [h]

theorem mem_claims {claims : List U128} {c : U128 × Nat} (h : c ∈ claims.zipIdx) : c.1 ∈ claims := by
  rw [← List.zipIdx_map_fst 0 claims]
  exact List.mem_map_of_mem h

/-- What is counted is taken back. -/
theorem RunesStep.counted_back (h : RunesStep deps cfg height idx tx s.resolver s.dunes dunes etches mints t')
    {key : DuneId} (hcount : ∃ id, DuneId.tryFrom id = some key ∧
      0 < drawn .mintable id (moved deps cfg height idx tx s.resolver s.dunes)) :
    ∃ c ∈ claimsOf deps tx, DuneId.tryFrom c.1 = some key ∧ (idx, c.2 % 2 ^ 16) ∈ mints := by
  obtain ⟨id, hkey, hpos⟩ := hcount
  obtain ⟨dunestone, hdunestone, hheight, hcen, hid, hacc⟩ := moved_claim hpos
  rw [← List.zipIdx_map_fst 0 dunestone.claims] at hid
  obtain ⟨c, hc, rfl⟩ := List.mem_map.mp hid
  rw [claimsOf_eq hdunestone]
  exact ⟨c, hc, hkey, (h.mem_mints hdunestone).mpr ⟨hheight, hcen, c, hc, hacc, rfl⟩⟩

/-- What is taken back was counted, exactly when the reported claims are minted. -/
theorem RunesStep.back_counted_iff (h : RunesStep deps cfg height idx tx s.resolver s.dunes dunes etches mints t') :
    (∀ key, (∃ c ∈ claimsOf deps tx, DuneId.tryFrom c.1 = some key ∧ (idx, c.2 % 2 ^ 16) ∈ mints) →
      ∃ id, DuneId.tryFrom id = some key ∧
        0 < drawn .mintable id (moved deps cfg height idx tx s.resolver s.dunes)) ↔
      ReportsMinted deps cfg ⟨height, idx, tx, s⟩ := by
  unfold ReportsMinted
  split
  · rename_i hdunestone
    refine ⟨fun _ => trivial, fun _ key => ?_⟩
    rintro ⟨c, hc, -⟩
    unfold claimsOf at hc
    rw [hdunestone] at hc
    cases hc
  · rename_i dunestone hdunestone
    rw [claimsOf_eq hdunestone]
    constructor
    · intro himp hheight hcen c hc hsome hreported
      obtain ⟨key, hkey⟩ := Option.isSome_iff_exists.mp hsome
      obtain ⟨id, hid, hpos⟩ := himp key ⟨c, hc, hkey, (h.mem_mints hdunestone).mpr ⟨hheight, hcen, hreported⟩⟩
      rw [DuneId.tryFrom_injective hid hkey] at hpos
      exact (drawn_pos_iff ⟨height, idx, tx, s⟩ hdunestone hheight hcen (mem_claims hc)).mp hpos
    · rintro himp key ⟨c, hc, hkey, hmints⟩
      obtain ⟨hheight, hcen, hreported⟩ := (h.mem_mints hdunestone).mp hmints
      have hminted := himp hheight hcen c hc (by rw [hkey]; rfl) hreported
      exact ⟨c.1, hkey, (drawn_pos_iff ⟨height, idx, tx, s⟩ hdunestone hheight hcen (mem_claims hc)).mpr hminted⟩

/-- **One transaction**: at least what is counted is taken back, and no more exactly when its reported claims
are minted. -/
theorem RunesStep.takenBack (h : RunesStep deps cfg height idx tx s.resolver s.dunes dunes etches mints t') :
    GrowsWithin s.dunes.mintsById t'.mintsById (undoneClaims deps mints (tx, idx)) ∧
      (GrowsBy s.dunes.mintsById t'.mintsById (undoneClaims deps mints (tx, idx)) ↔
        ReportsMinted deps cfg ⟨height, idx, tx, s⟩) := by
  constructor
  · intro key
    rw [h.mints_val key, count_undoneClaims]
    by_cases hminted : ∃ id, DuneId.tryFrom id = some key ∧
        0 < drawn .mintable id (moved deps cfg height idx tx s.resolver s.dunes)
    · rw [if_pos hminted, if_pos (h.counted_back hminted)]
    · rw [if_neg hminted]
      omega
  · rw [← h.back_counted_iff]
    refine forall_congr' (fun key => ?_)
    rw [h.mints_val key, count_undoneClaims]
    by_cases hminted : ∃ id, DuneId.tryFrom id = some key ∧
        0 < drawn .mintable id (moved deps cfg height idx tx s.resolver s.dunes)
    · rw [if_pos hminted, if_pos (h.counted_back hminted)]
      exact ⟨fun _ _ => hminted, fun _ => rfl⟩
    · rw [if_neg hminted]
      split
      · rename_i hundone
        exact ⟨fun heq => absurd heq (by omega), fun himp => absurd (himp hundone) hminted⟩
      · rename_i hundone
        exact ⟨fun _ himp => absurd himp hundone, fun _ => rfl⟩

end

section

variable {deps : Deps} {cfg : Config} {n n' : Node} {l : List Transition}

/-- **One block.** -/
theorem Applied.takenBack {height : Nat} {block : Block} {mutable : Bool}
    (run : Applied deps cfg n height block mutable n') :
    GrowsWithin n.db.tables.dunes.mintsById n'.db.tables.dunes.mintsById
        (Compressor.takenBack deps block run.final.successfulMints) ∧
      (GrowsBy n.db.tables.dunes.mintsById n'.db.tables.dunes.mintsById
        (Compressor.takenBack deps block run.final.successfulMints) ↔
        ∀ step ∈ runeSteps deps cfg n height block, ReportsMinted deps cfg ⟨height, step.1, step.2.1, step.2.2⟩) := by
  have hend := run.rune_induct (P := fun done t _ mints => (∀ m ∈ mints, m.1 < done.length) ∧
    GrowsWithin n.db.tables.dunes.mintsById t.mintsById
      ((done.map fun step => step.2.1).zipIdx.flatMap (undoneClaims deps mints)) ∧
    (GrowsBy n.db.tables.dunes.mintsById t.mintsById
      ((done.map fun step => step.2.1).zipIdx.flatMap (undoneClaims deps mints)) ↔
      ∀ step ∈ done, ReportsMinted deps cfg ⟨height, step.1, step.2.1, step.2.2⟩)) ⟨?_, ?_, ?_⟩ ?_
  · obtain ⟨-, hwithin, hexact⟩ := hend
    rw [run.runeSteps_tx] at hwithin hexact
    obtain ⟨log, htables⟩ := run.tables
    have hperm : (block.txdata.zipIdx.flatMap (undoneClaims deps run.final.successfulMints)).Perm
        (Compressor.takenBack deps block run.final.successfulMints) :=
      (List.reverse_perm _).symm.flatMap_right _
    rw [htables, ← hexact]
    exact ⟨hwithin.perm hperm, growsBy_perm hperm.symm⟩
  · intro m hm
    cases hm
  · intro key
    exact Nat.le_refl _
  · exact ⟨fun _ step hstep => (List.not_mem_nil hstep).elim, fun _ key => rfl⟩
  · rintro done idx tx s dunes etches mints t hpre rfl - hrunes ⟨hbefore, hwithin, hexact⟩
    obtain ⟨hstep, hstepExact⟩ := hrunes.takenBack
    have hkeys : ((done ++ [(done.length, tx, s)]).map fun step => step.2.1).zipIdx.flatMap
        (undoneClaims deps (s.successfulMints ++ mints)) =
        (done.map fun step => step.2.1).zipIdx.flatMap (undoneClaims deps s.successfulMints) ++
          undoneClaims deps mints (tx, done.length) := by
      rw [List.map_append, List.map_singleton, flatMap_reported (fun _ _ _ => undoneClaims_congr)
        (by rw [List.length_map]; exact hbefore) (by rw [List.length_map]; exact hrunes.mints_idx), List.length_map]
    rw [hkeys]
    refine ⟨?_, hwithin.append hstep, ?_⟩
    · intro m hm
      rw [List.length_append, List.length_singleton]
      rcases List.mem_append.mp hm with hm | hm
      · exact Nat.lt_succ_of_lt (hbefore m hm)
      · rw [hrunes.mints_idx m hm]
        exact Nat.lt_succ_self _
    · rw [hwithin.exact_append hstep, hexact, hstepExact]
      simp only [List.forall_mem_append, List.forall_mem_singleton]

/-- **A run.** -/
theorem Run.takenBack (run : Run deps cfg n l n') :
    GrowsWithin n.db.tables.dunes.mintsById n'.db.tables.dunes.mintsById
        (l.reverse.flatMap (Transition.takenBack deps)) ∧
      (GrowsBy n.db.tables.dunes.mintsById n'.db.tables.dunes.mintsById
        (l.reverse.flatMap (Transition.takenBack deps)) ↔
        ∀ step ∈ runeHistory deps cfg l, ReportsMinted deps cfg step) := by
  induction run with
  | nil => exact ⟨fun key => Nat.le_refl _, fun _ step hstep => (List.not_mem_nil hstep).elim, fun _ key => rfl⟩
  | @snoc l m m' run call hcall ih =>
    obtain ⟨applied⟩ := apply_ok hcall
    obtain ⟨hwithin, hexact⟩ := applied.takenBack
    rw [← applied.takenBack_eq] at hwithin hexact
    have hperm : (l.reverse.flatMap (Transition.takenBack deps) ++ Transition.takenBack deps ⟨m, call, m'⟩).Perm
        ((l ++ [Transition.mk m call m']).reverse.flatMap (Transition.takenBack deps)) := by
      rw [List.reverse_append, List.flatMap_append, List.reverse_singleton, List.flatMap_singleton]
      exact List.perm_append_comm
    refine ⟨(ih.1.append hwithin).perm hperm, ?_⟩
    rw [← growsBy_perm hperm, ih.1.exact_append hwithin, ih.2, hexact, runeHistory_append]
    unfold Transition.runeSteps
    simp only [List.forall_mem_append, List.forall_mem_map]

end

/-! ## Rollback -/

/-- The tables read the same: an absent supply, balance, count of mints or counter of reserved names is 0, and
absent counters of inscriptions are the default ones. -/
structure Tables.Reads (t t' : Tables) : Prop extends SameLedgers t t' where
  mints : ∀ key, t.dunes.mintsById.getD key 0 = t'.dunes.mintsById.getD key 0

section

variable {deps : Deps} {cfg : Config} {n n' : Node} {l : List Transition}

theorem SameLedgers.withLog {t t' : Tables} (h : SameLedgers t t') (log : Table Nat Log) :
    SameLedgers { t with mutableKV := log } t' :=
  ⟨⟨⟨h.txos, h.blocks, h.resolvers, h.partials⟩, h.dunes⟩, h.counters, h.brc20⟩

/-- A rollback to a stored point whose blocks are undone completes. -/
theorem rollback_of_undone {rocks : Rocks} (hcommit : rocks.commit = true) {height : Nat} {hash : BlockHash}
    {block : Block} {toRemove : List (Nat × BlockHash × Block)} {mutable : Bool}
    (hscan : n.db.tables.blockByHeight.entriesFrom height = (height, hash, block) :: toRemove) {x : Tables × Nat}
    (hfold : toRemove.reverse.foldlM (undoBlock deps cfg mutable) (n.db.tables, n.db.nextWalSeq) = .ok x) :
    ∃ log w, rollback deps cfg rocks height hash mutable n =
      .ok () { n with db := ⟨{ x.1 with mutableKV := log }, w, some hash⟩ } := by
  obtain ⟨t, w⟩ := x
  unfold rollback
  rw [hscan]
  simp only [ne_eq, not_true_eq_false, or_self, if_false]
  rw [hfold]
  simp only [hcommit]
  cases mutable with
  | false => exact ⟨t.mutableKV, w, rfl⟩
  | true => exact ⟨t.mutableKV.insert w (.mark height hash block), w + 1, rfl⟩

/-- **Rollback inverts apply**, for a reachable node and blocks applied to it, exactly when the claims that are
reported for these blocks are minted. -/
theorem rollback_inverts_iff (hreach : Reach deps cfg (fun _ call => call.height < 2 ^ 32) n)
    (run : Run deps cfg n l n') (hvalid : ∀ e ∈ l, ValidBlock e.before.db.tables e.call.height e.call.block)
    (hheight : ∀ e ∈ l, e.call.height < 2 ^ 32) {height : Nat} {hash : BlockHash} {block : Block}
    (hpoint : n.db.tables.blockByHeight.lastEntry = some (height, hash, block)) {rocks : Rocks}
    (hcommit : rocks.commit = true) (mutable : Bool) :
    (∃ m, rollback deps cfg rocks height hash mutable n' = .ok ⟨⟩ m ∧ m.db.tables.Reads n.db.tables) ↔
      ∀ step ∈ runeHistory deps cfg l, ReportsMinted deps cfg step := by
  have hscan := run.entriesFrom hvalid hpoint
  obtain ⟨hone, hexists⟩ := run.unwind hreach hvalid hheight mutable (x := (n'.db.tables, n'.db.nextWalSeq))
    (SameLedgers.refl _)
  rw [← run.takenBack.2]
  constructor
  · rintro ⟨m, hrun, hreads⟩ key
    rcases rollback_cases deps cfg rocks height hash mutable n' with ⟨e, herror⟩ |
      ⟨block', toRemove, t, w, log, w', hscan', hfold, hok⟩
    · rw [herror] at hrun
      cases hrun
    · rw [hok] at hrun
      cases hrun
      rw [hscan] at hscan'
      cases hscan'
      have hback := subMints_ok (hone (t, w) hfold).2 key
      have hmints := congrArg Fin.val (hreads.mints key)
      simp only at hmints hback
      omega
  · intro hgrows
    have hle : ∀ key, (l.reverse.flatMap (Transition.takenBack deps)).count key ≤
        (n'.db.tables.dunes.mintsById.getD key 0).val := by
      intro key
      have := hgrows key
      omega
    obtain ⟨t', hsub⟩ := exists_subMints hle
    obtain ⟨x, hfold⟩ := hexists t' hsub
    obtain ⟨hsame, hsub'⟩ := hone x hfold
    obtain ⟨log, w, hrun⟩ := rollback_of_undone hcommit hscan hfold
    refine ⟨_, hrun, hsame.withLog log, fun key => Fin.ext ?_⟩
    have hback := subMints_ok hsub' key
    have := hgrows key
    simp only at hback ⊢
    omega

end

/-- The first block of a chain in which dune 1:1 is etched and minted, and the blocks after it. -/
def mintedAfterFirst (etching : Bytes) : Node × List Transition × Node :=
  let n := (performed duneScripts fromFirstBlock (Node.open_ true) ((etchedAndMinted etching).take 1)).2
  (n, performed duneScripts fromFirstBlock n ((etchedAndMinted etching).drop 1))

theorem mintedAfterFirst_runs (etching : Bytes)
    (hfirst : (runCalls duneScripts fromFirstBlock (Node.open_ true) ((etchedAndMinted etching).take 1)).isSome = true)
    (hvalid : ∀ e ∈ (performed duneScripts fromFirstBlock (Node.open_ true) ((etchedAndMinted etching).take 1)).1,
      ValidBlock e.before.db.tables e.call.height e.call.block ∧ e.call.height < 2 ^ 32)
    (hrest : (runCalls duneScripts fromFirstBlock (mintedAfterFirst etching).1 ((etchedAndMinted etching).drop 1)).isSome =
      true) :
    Reach duneScripts fromFirstBlock (fun _ call => call.height < 2 ^ 32) (mintedAfterFirst etching).1 ∧
      Run duneScripts fromFirstBlock (mintedAfterFirst etching).1 (mintedAfterFirst etching).2.1
        (mintedAfterFirst etching).2.2 :=
  ⟨(Run.ofCalls hfirst).reach _ (fun e he => (hvalid e he).1) (fun e he => (hvalid e he).2), Run.ofCalls hrest⟩

/-- The etching and the mint of a dune are undone. -/
theorem rollback_inverts_mint :
    ∃ n l n' m, Reach duneScripts fromFirstBlock (fun _ call => call.height < 2 ^ 32) n ∧
      Run duneScripts fromFirstBlock n l n' ∧ n'.db.tables.dunes.mintsById.getD ⟨1, 1⟩ 0 = 1 ∧
      rollback duneScripts fromFirstBlock ⟨true, true⟩ 0 1 true n' = .ok ⟨⟩ m ∧ m.db.tables.Reads n.db.tables := by
  obtain ⟨hreach, run⟩ := mintedAfterFirst_runs etchScript (by decide +kernel) (by decide +kernel) (by decide +kernel)
  have hcommit : (Rocks.mk true true).commit = true := rfl
  have hpoint : (mintedAfterFirst etchScript).1.db.tables.blockByHeight.lastEntry =
      some (0, 1, ⟨1, 0, [coinbaseTx 10 [2500000000, 2500000000]]⟩) := by
    decide +kernel
  obtain ⟨m, hrun, hreads⟩ := (rollback_inverts_iff hreach run (by decide +kernel) (by decide +kernel) hpoint hcommit
    true).mpr (by decide +kernel)
  exact ⟨_, _, _, m, hreach, run, by decide +kernel, hrun, hreads⟩

/-- A claim of a dune without terms is reported and not counted, and the rollback panics. -/
theorem rollback_panics :
    ∃ n l n', Reach duneScripts fromFirstBlock (fun _ call => call.height < 2 ^ 32) n ∧
      Run duneScripts fromFirstBlock n l n' ∧
      (∀ e ∈ l, ValidBlock e.before.db.tables e.call.height e.call.block ∧ e.call.height < 2 ^ 32) ∧
      (n.db.tables.blockByHeight.lastEntry.map fun e => (e.1, e.2.1)) = some (0, 1) ∧
      errorOf (rollback duneScripts fromFirstBlock ⟨true, true⟩ 0 1 true n') = some .panic := by
  obtain ⟨hreach, run⟩ := mintedAfterFirst_runs bareEtchScript (by decide +kernel) (by decide +kernel)
    (by decide +kernel)
  exact ⟨_, _, _, hreach, run, by decide +kernel, by decide +kernel, by decide +kernel⟩

end DogeIndexer.Compressor
