import DogeIndexer.Compressor.Applied
import DogeIndexer.Compressor.Edicts
import Mathlib.Algebra.Order.BigOperators.Group.List
import Mathlib.Algebra.Order.Group.Nat

/-!
# The ledger of a transaction's dunes

A completed `index_runes`: which claims are accepted and counted, what an etching enters, and how
the dunes on the inputs, the mints and the issuance are distributed.

* `indexRunes_ok` — a completed call is a ledger, `IndexedRunes`, and changes the dune tables by its
  dunestone, `DuneStep`.
* `assigned_sum` — what is directed to the outputs, or burned, is what the pools supply.
* `dunes_conserved_iff` — the amounts of a transaction add up exactly when they fit in 128 bits.
-/

set_option autoImplicit false

namespace DogeIndexer.Compressor

open Fallible

/-! ## Claims -/

/-- The limit of a claim that is accepted. -/
def accepted (t : DuneTables) (height : Nat) (id : U128) : Option U128 :=
  (DuneId.tryFrom id).bind fun key => mint t key height

/-- The limits of the accepted claims of a list. -/
def limitsOf (t : DuneTables) (height : Nat) (claims : List U128) (limits : Balances) : Balances :=
  claims.foldl (fun limits id =>
    match accepted t height id with
    | some limit => limits.insert id limit
    | none => limits) limits

theorem acceptClaims_eq (t : DuneTables) (height : Nat) (claims : List U128) :
    acceptClaims t height claims = (limitsOf t height claims Table.empty,
      (claims.zipIdx.filter fun e => (accepted t height e.1).isSome).map fun e => e.2 % 2 ^ 16) := by
  have hfold : ∀ f : Balances × List Nat → U128 × Nat → Balances × List Nat,
      (∀ acc e, f acc e = match accepted t height e.1 with
        | some limit => (acc.1.insert e.1 limit, acc.2 ++ [e.2 % 2 ^ 16])
        | none => acc) →
      ∀ (l : List (U128 × Nat)) (limits : Balances) (mints : List Nat), l.foldl f (limits, mints) =
        (limitsOf t height (l.map Prod.fst) limits,
          mints ++ (l.filter fun e => (accepted t height e.1).isSome).map fun e => e.2 % 2 ^ 16) := by
    intro f hf l
    induction l with
    | nil =>
      intro limits mints
      simp [limitsOf]
    | cons e l ih =>
      intro limits mints
      rw [List.foldl_cons, hf, List.map_cons]
      unfold limitsOf
      rw [List.foldl_cons]
      cases hacc : accepted t height e.1 with
      | none =>
        simp only
        rw [ih, List.filter_cons_of_neg (by simp [hacc])]
        rfl
      | some limit =>
        simp only
        rw [ih, List.filter_cons_of_pos (by simp [hacc])]
        simp [limitsOf]
  unfold acceptClaims
  rw [hfold _ ?_, List.zipIdx_map_fst, List.nil_append]
  rintro ⟨limits, mints⟩ ⟨id, idx⟩
  unfold accepted
  simp only
  cases DuneId.tryFrom id with
  | none => rfl
  | some key =>
    cases hmint : mint t key height <;> simp [hmint]

theorem acceptClaims_limits (t : DuneTables) (height : Nat) (claims : List U128) (id : U128) :
    (acceptClaims t height claims).1.get id = if id ∈ claims then accepted t height id else none := by
  have hfold : ∀ limits : Balances, (limitsOf t height claims limits).get id =
      if id ∈ claims then (accepted t height id).or (limits.get id) else limits.get id := by
    induction claims with
    | nil =>
      intro limits
      simp [limitsOf]
    | cons a claims ih =>
      intro limits
      change (limitsOf t height claims (match accepted t height a with
        | some limit => limits.insert a limit
        | none => limits)).get id = _
      rw [ih]
      by_cases hid : a = id
      · subst hid
        cases hacc : accepted t height a with
        | none => simp
        | some limit => simp
      · have hget : (match accepted t height a with
            | some limit => limits.insert a limit
            | none => limits).get id = limits.get id := by
          split
          · rw [Table.get_insert, if_neg (Ne.symm hid)]
          · rfl
        rw [hget]
        simp [Ne.symm hid]
  rw [acceptClaims_eq, hfold]
  simp

/-- Claims read the terms and the counts of mints only. -/
theorem acceptClaims_congr {t t' : DuneTables} (hterms : t'.termsById = t.termsById)
    (hmints : t'.mintsById = t.mintsById) (height : Nat) (claims : List U128) :
    acceptClaims t' height claims = acceptClaims t height claims := by
  have hmint : mint t' = mint t := by
    funext id h
    unfold mint
    rw [hterms, hmints]
  unfold acceptClaims
  rw [hmint]

/-- **Each claim of which something was taken is counted once.** -/
theorem countMints_ok {checks : Bool} {limits mintable : Balances} {t t' : DuneTables}
    (h : countMints checks limits mintable t = .ok t') :
    ∃ mints, t' = { t with mintsById := mints } ∧ ∀ key,
      mints.getD key 0 = t.mintsById.getD key 0 +
        if ∃ e ∈ mintable.entries, DuneId.tryFrom e.1 = some key ∧ limits.getD e.1 0 - e.2 > 0 then 1 else 0 := by
  have hnodup : (mintable.entries.map Prod.fst).Nodup := by
    unfold List.Nodup
    rw [List.pairwise_map]
    exact mintable.sorted.imp (fun hlt => ne_of_lt hlt)
  unfold countMints at h
  generalize mintable.entries = entries at h hnodup
  induction entries generalizing t with
  | nil =>
    cases h
    exact ⟨t'.mintsById, rfl, fun key => by simp⟩
  | cons e entries ih =>
    rw [List.map_cons, List.nodup_cons] at hnodup
    obtain ⟨t₁, h₁, h₂⟩ := foldlM_cons_eq_ok.mp h
    obtain ⟨limit, hlimit, h₁⟩ := bind_eq_ok.mp h₁
    obtain ⟨minted, hminted, h₁⟩ := bind_eq_ok.mp h₁
    have hval : limits.getD e.1 0 - e.2 = minted := by
      unfold Table.getD
      rw [orPanic_eq_ok.mp hlimit]
      exact (Machine.sub_eq_some (orPanic_eq_ok.mp hminted)).symm
    obtain ⟨mints, rfl, hmints⟩ := ih h₂ hnodup.2
    split at h₁
    · rename_i hpos
      obtain ⟨id, hid, h₁⟩ := bind_eq_ok.mp h₁
      obtain ⟨newMints, hnew, h₁⟩ := bind_eq_ok.mp h₁
      have hid := orPanic_eq_ok.mp hid
      have hnew := Machine.add_eq_some (orPanic_eq_ok.mp hnew)
      cases h₁
      refine ⟨mints, rfl, fun key => ?_⟩
      rw [hmints key]
      simp only [Table.getD_insert]
      by_cases hkey : key = id
      · subst hkey
        rw [if_pos rfl, if_neg, if_pos ⟨e, List.mem_cons_self, hid, by rw [hval]; exact hpos⟩, hnew, Fin.add_zero]
        rintro ⟨e', he', hid', -⟩
        exact hnodup.1 (by rw [DuneId.tryFrom_injective hid hid']; exact List.mem_map_of_mem he')
      · rw [if_neg hkey]
        congr 1
        refine if_congr ?_ rfl rfl
        constructor
        · rintro ⟨e', he', hmatch⟩
          exact ⟨e', List.mem_cons_of_mem _ he', hmatch⟩
        · rintro ⟨e', he', hmatch, hgt⟩
          rcases List.mem_cons.mp he' with rfl | he'
          · rw [hid] at hmatch
            cases hmatch
            exact absurd rfl hkey
          · exact ⟨e', he', hmatch, hgt⟩
    · rename_i hzero
      cases h₁
      refine ⟨mints, rfl, fun key => ?_⟩
      rw [hmints key]
      congr 1
      refine if_congr ?_ rfl rfl
      constructor
      · rintro ⟨e', he', hmatch⟩
        exact ⟨e', List.mem_cons_of_mem _ he', hmatch⟩
      · rintro ⟨e', he', hmatch, hgt⟩
        rcases List.mem_cons.mp he' with rfl | he'
        · rw [hval] at hgt
          exact absurd hgt hzero
        · exact ⟨e', he', hmatch, hgt⟩

/-! ## Etchings -/

/-- The issuance of an etching. -/
def issuanceOf (deps : Deps) (cfg : Config) (txIndex : Nat) (dunestone : Dunestone) (height : Nat) (t : DuneTables) :
    Option Allocation :=
  match allocationOf deps cfg txIndex dunestone height t with
  | .ok (allocation, _, _) => allocation
  | .error _ => none

/-- What an etching does: nothing, or a name is taken from the etching or from the reserved ones. -/
inductive Etches (cfg : Config) (txIndex : Nat) (dunestone : Dunestone) (height : Nat) (t : DuneTables) :
    Option Allocation → Option U128 → DuneTables → Prop
  | none : Etches cfg txIndex dunestone height t none none t
  | named {etching : Etching} {dune : U128} (hetching : dunestone.etching = some etching)
      (hname : etching.dune = some dune) (hreserved : dune.val < RESERVED) (hfree : t.idByName.get dune = Option.none) :
      Etches cfg txIndex dunestone height t
        (if txIndex < 2 ^ 16 then
          some ⟨Fin.ofNat (2 ^ 128) (2 ^ 128 - 1), DuneId.toU128 ⟨height, txIndex⟩, dune⟩ else Option.none)
        (some dune) t
  | reserved {etching : Etching} {counter : U64} (hetching : dunestone.etching = some etching)
      (hname : etching.dune = Option.none) (hcounter : Machine.add cfg.checks (t.reservedCounter.getD 0) 1 = some counter) :
      Etches cfg txIndex dunestone height t
        (if txIndex < 2 ^ 16 then
          some ⟨Fin.ofNat (2 ^ 128) (2 ^ 128 - 1), DuneId.toU128 ⟨height, txIndex⟩,
            Dune.reserved (t.reservedCounter.getD 0)⟩ else Option.none)
        (some (Dune.reserved (t.reservedCounter.getD 0))) { t with reservedCounter := some counter }

theorem allocationOf_ok {deps : Deps} {cfg : Config} {txIndex height : Nat} {dunestone : Dunestone} {t t' : DuneTables}
    {allocation : Option Allocation} {etch : Option U128}
    (h : allocationOf deps cfg txIndex dunestone height t = .ok (allocation, etch, t')) :
    Etches cfg txIndex dunestone height t allocation etch t' := by
  unfold allocationOf at h
  split at h
  · cases h
    exact .none
  · rename_i etching hetching
    obtain ⟨⟨name, t₁⟩, hetched, h⟩ := bind_eq_ok.mp h
    unfold etched at hetched
    cases hname : etching.dune with
    | some dune =>
      rw [hname] at hetched
      simp only at hetched
      split_ifs at hetched with hallowed
      · cases hetched
        cases h
        exact .none
      · cases hetched
        rw [not_or, not_or] at hallowed
        have hreserved : dune.val < RESERVED := by
          have := hallowed.2.1
          unfold Dune.isReserved at this
          simpa using this
        have hfree : t.idByName.get dune = none := by simpa using hallowed.2.2
        have hetches : Etches cfg txIndex dunestone height t _ _ _ := .named hetching hname hreserved hfree
        simp only at h
        split at h
        · rename_i hidx
          cases h
          rw [if_pos hidx] at hetches
          exact hetches
        · rename_i hidx
          cases h
          rw [if_neg hidx] at hetches
          exact hetches
    | none =>
      rw [hname] at hetched
      simp only at hetched
      obtain ⟨counter, hcounter, hetched⟩ := bind_eq_ok.mp hetched
      cases hetched
      have hetches : Etches cfg txIndex dunestone height t _ _ _ :=
        .reserved hetching hname (orPanic_eq_ok.mp hcounter)
      simp only at h
      split at h
      · rename_i hidx
        cases h
        rw [if_pos hidx] at hetches
        exact hetches
      · rename_i hidx
        cases h
        rw [if_neg hidx] at hetches
        exact hetches

/-- The issuance of an etching is everything, under the number of the transaction. -/
theorem Etches.allocated {cfg : Config} {txIndex height : Nat} {dunestone : Dunestone} {t t' : DuneTables}
    {allocation : Option Allocation} {etch : Option U128}
    (h : Etches cfg txIndex dunestone height t allocation etch t') {a : Allocation} (ha : allocation = some a) :
    a.balance.val = 2 ^ 128 - 1 ∧ a.id = DuneId.toU128 ⟨height, txIndex⟩ ∧ txIndex < 2 ^ 16 ∧ etch = some a.dune := by
  cases h with
  | none => cases ha
  | named =>
    split at ha
    · rename_i hidx
      cases ha
      exact ⟨rfl, rfl, hidx, rfl⟩
    · cases ha
  | reserved =>
    split at ha
    · rename_i hidx
      cases ha
      exact ⟨rfl, rfl, hidx, rfl⟩
    · cases ha

/-! ## The call -/

def isCenotaph (deps : Deps) (tx : Transaction) : Bool :=
  (Dunestone.fromTransaction deps tx).any Dunestone.cenotaph

/-- The output that receives what no edict takes. -/
def defaultOutput (deps : Deps) (tx : Transaction) : Option Nat :=
  (((Dunestone.fromTransaction deps tx).bind Dunestone.pointer).filter (· < tx.output.length)).or
    (firstDestination deps tx)

/-- The dunes on the inputs, added up with wrap-around. -/
def inputPool (tx : Transaction) (resolver : Table TxoRef TxoBody) : Balances :=
  (inputDunes tx resolver).foldl credited Table.empty

/-- The pools that the edicts of a dunestone draw on. -/
def startState (deps : Deps) (cfg : Config) (resolver : Table TxoRef TxoBody) (txIndex : Nat) (tx : Transaction)
    (height : Nat) (t : DuneTables) (dunestone : Dunestone) : EdictState where
  allocation := issuanceOf deps cfg txIndex dunestone height t
  mintable := (acceptClaims t height dunestone.claims).1
  unallocated := inputPool tx resolver
  allocated := tx.output.map fun _ => Table.empty
  premineAmount := 0

/-- The draws of a transaction. -/
def plan (deps : Deps) (cfg : Config) (resolver : Table TxoRef TxoBody) (txIndex : Nat) (tx : Transaction)
    (height : Nat) (t : DuneTables) : List Draw :=
  match Dunestone.fromTransaction deps tx with
  | none => []
  | some dunestone =>
    if dunestone.cenotaph then []
    else draws tx.output.length (startState deps cfg resolver txIndex tx height t dunestone) dunestone.edicts

/-- The entry of the etched dune, when there is one. -/
def enterDune (dunestone : Dunestone) (id : DuneId) (height : Nat) (t : DuneTables) : Option Allocation → DuneTables
  | none => t
  | some a => createRuneEntry dunestone id a.dune height t

/-- What a dunestone does to the dune tables, when its edicts draw `moved`. -/
structure DuneStep (deps : Deps) (cfg : Config) (txIndex height : Nat) (dunestone : Dunestone) (moved : List Draw)
    (t : DuneTables) (etch : Option U128) (mints : List Nat) (t' : DuneTables) where
  allocation : Option Allocation
  entered : DuneTables
  counts : Table DuneId U128
  id : DuneId
  allocates : allocationOf deps cfg txIndex dunestone height t = .ok (allocation, etch, entered)
  reported : mints = if dunestone.cenotaph then [] else
    (dunestone.claims.zipIdx.filter fun e => (accepted t height e.1).isSome).map fun e => e.2 % 2 ^ 16
  counted : ∀ key, counts.getD key 0 = t.mintsById.getD key 0 +
    if ∃ id, DuneId.tryFrom id = some key ∧ 0 < drawn .mintable id moved then 1 else 0
  identified : ∀ a, allocation = some a → DuneId.tryFrom a.id = some id
  tables : t' = enterDune dunestone id height { entered with mintsById := counts } allocation

theorem DuneStep.etches {deps : Deps} {cfg : Config} {txIndex height : Nat} {dunestone : Dunestone} {moved : List Draw}
    {t t' : DuneTables} {etch : Option U128} {mints : List Nat}
    (step : DuneStep deps cfg txIndex height dunestone moved t etch mints t') :
    Etches cfg txIndex dunestone height t step.allocation etch step.entered :=
  allocationOf_ok step.allocates

/-- An etching leaves the terms and the counts of mints alone. -/
theorem Etches.kept {cfg : Config} {txIndex height : Nat} {dunestone : Dunestone} {t t' : DuneTables}
    {allocation : Option Allocation} {etch : Option U128}
    (h : Etches cfg txIndex dunestone height t allocation etch t') :
    t'.termsById = t.termsById ∧ t'.mintsById = t.mintsById ∧ t'.idByName = t.idByName := by
  cases h <;> exact ⟨rfl, rfl, rfl⟩

/-- Taking from the mints of a claim is counting it. -/
theorem counted_iff {deps : Deps} {checks : Bool} {tx : Transaction} {edicts : List Edict} {st st' : EdictState}
    (h : edicts.foldlM (processEdict deps checks tx) st = .ok st') (key : DuneId) :
    (∃ e ∈ st'.mintable.entries, DuneId.tryFrom e.1 = some key ∧ st.mintable.getD e.1 0 - e.2 > 0) ↔
      ∃ id, DuneId.tryFrom id = some key ∧ 0 < drawn .mintable id (draws tx.output.length st edicts) := by
  obtain ⟨hkeys, hpools, -⟩ := processEdicts_ok h
  have hval : ∀ id b, st'.mintable.get id = some b → ((st.mintable.getD id 0 - b).val =
      drawn .mintable id (draws tx.output.length st edicts)) := by
    intro id b hb
    have hpool := hpools .mintable id
    simp only [poolBalance] at hpool
    have hb' : st'.mintable.getD id 0 = b := by
      unfold Table.getD
      rw [hb]
      rfl
    rw [hb'] at hpool
    rw [Fin.coe_sub_iff_le.mpr (Fin.le_def.mpr (by omega)), hpool, Nat.add_sub_cancel_left]
  constructor
  · rintro ⟨⟨id, b⟩, hmem, hid, hpos⟩
    refine ⟨id, hid, ?_⟩
    rw [← hval id b (Table.mem_entries.mp hmem)]
    exact hpos
  · rintro ⟨id, hid, hpos⟩
    have hpool := hpools .mintable id
    simp only [poolBalance] at hpool
    have hsome : (st.mintable.get id).isSome = true := by
      cases hg : st.mintable.get id with
      | some b => rfl
      | none =>
        have hzero : st.mintable.getD id 0 = 0 := by
          unfold Table.getD
          rw [hg]
          rfl
        rw [hzero] at hpool
        simp only [Fin.val_zero] at hpool
        omega
    rw [← hkeys.mintable] at hsome
    obtain ⟨b, hb⟩ := Option.isSome_iff_exists.mp hsome
    refine ⟨(id, b), Table.mem_entries.mpr hb, hid, ?_⟩
    have := hval id b hb
    change 0 < (st.mintable.getD id 0 - b).val
    omega

theorem applyDunestone_ok {deps : Deps} {cfg : Config} {txIndex height : Nat} {tx : Transaction}
    {dunestone : Dunestone} {resolver : Table TxoRef TxoBody} {t t' : DuneTables} {st : EdictState}
    {etch : Option U128} {mints : List Nat} (hdunestone : Dunestone.fromTransaction deps tx = some dunestone)
    (h : applyDunestone deps cfg txIndex tx height dunestone (inputPool tx resolver) t =
      .ok (st, etch, mints, t')) :
    Nonempty (DuneStep deps cfg txIndex height dunestone (plan deps cfg resolver txIndex tx height t) t etch mints t') ∧
    (dunestone.cenotaph = true → st.allocated = tx.output.map (fun _ => Table.empty) ∧
      st.unallocated = inputPool tx resolver) ∧
    (dunestone.cenotaph = false → dunestone.edicts.foldlM (processEdict deps cfg.checks tx)
      (startState deps cfg resolver txIndex tx height t dunestone) = .ok st) := by
  unfold applyDunestone at h
  obtain ⟨⟨allocation, etch', t₁⟩, hallocation, h⟩ := bind_eq_ok.mp h
  obtain ⟨⟨st₁, mints₁, t₂⟩, hrun, h⟩ := bind_eq_ok.mp h
  obtain ⟨hterms, hmintsKept, -⟩ := (allocationOf_ok hallocation).kept
  have hissuance : issuanceOf deps cfg txIndex dunestone height t = allocation := by
    unfold issuanceOf
    rw [hallocation]
  have hclaims := acceptClaims_congr hterms hmintsKept height dunestone.claims
  -- the edicts, with the tables before the entry of the etched dune
  obtain ⟨counts, ht₂, hreported, hcounted, hcenotaph, hedicts⟩ : ∃ counts, t₂ = { t₁ with mintsById := counts } ∧
      (mints₁ = if dunestone.cenotaph then [] else
        (dunestone.claims.zipIdx.filter fun e => (accepted t height e.1).isSome).map fun e => e.2 % 2 ^ 16) ∧
      (∀ key, counts.getD key 0 = t.mintsById.getD key 0 +
        if ∃ id, DuneId.tryFrom id = some key ∧
          0 < drawn .mintable id (plan deps cfg resolver txIndex tx height t) then 1 else 0) ∧
      (dunestone.cenotaph = true → st₁.allocated = tx.output.map (fun _ => Table.empty) ∧
        st₁.unallocated = inputPool tx resolver) ∧
      (dunestone.cenotaph = false → dunestone.edicts.foldlM (processEdict deps cfg.checks tx)
        (startState deps cfg resolver txIndex tx height t dunestone) = .ok st₁) := by
    unfold plan
    rw [hdunestone]
    cases hcen : dunestone.cenotaph with
    | true =>
      rw [hcen] at hrun
      simp only [if_true] at hrun
      cases hrun
      refine ⟨t₁.mintsById, rfl, rfl, fun key => ?_, fun _ => ⟨rfl, rfl⟩, fun hc => by cases hc⟩
      rw [hmintsKept, if_neg (by simp [hcen]), Fin.add_zero]
    | false =>
      rw [hcen] at hrun
      simp only [Bool.false_eq_true, if_false] at hrun
      unfold runEdicts at hrun
      rw [hclaims] at hrun
      rcases hacc : acceptClaims t height dunestone.claims with ⟨limits, reported⟩
      rw [hacc] at hrun
      obtain ⟨st₂, hedicts, hrun⟩ := bind_eq_ok.mp hrun
      obtain ⟨t₃, hcount, hrun⟩ := bind_eq_ok.mp hrun
      cases hrun
      obtain ⟨counts, rfl, hcounts⟩ := countMints_ok hcount
      have hlimits : (startState deps cfg resolver txIndex tx height t dunestone).mintable = limits := by
        simp only [startState, hacc]
      have hstart : dunestone.edicts.foldlM (processEdict deps cfg.checks tx)
          (startState deps cfg resolver txIndex tx height t dunestone) = .ok st₁ := by
        unfold startState
        rw [hissuance, hacc]
        exact hedicts
      refine ⟨counts, rfl, ?_, fun key => ?_, (fun hc => by cases hc), fun _ => hstart⟩
      · have hmints := congrArg Prod.snd hacc
        rw [acceptClaims_eq] at hmints
        exact hmints.symm
      · rw [hcounts key, hmintsKept]
        refine congrArg (t.mintsById.getD key 0 + ·) (if_congr ?_ rfl rfl)
        have hcounted := counted_iff hstart key
        rw [hlimits] at hcounted
        simp only [hcen, Bool.false_eq_true, if_false]
        exact hcounted
  cases allocation with
  | none =>
    cases h
    exact ⟨⟨⟨none, t₁, counts, ⟨0, 0⟩, hallocation, hreported, hcounted, fun a ha => (by cases ha), ht₂⟩⟩,
      hcenotaph, hedicts⟩
  | some a =>
    obtain ⟨id, hid, h⟩ := bind_eq_ok.mp h
    cases h
    refine ⟨⟨⟨some a, t₁, counts, id, hallocation, hreported, hcounted, ?_, ?_⟩⟩, hcenotaph, hedicts⟩
    · intro a' ha'
      cases ha'
      exact orPanic_eq_ok.mp hid
    · rw [ht₂]
      rfl

/-! ## The ledger of a transaction -/

/-- Draws never exceed their pool. -/
theorem drawn_le (outputs : Nat) (st : EdictState) (edicts : List Edict) (pool : Pool) (id : U128) :
    drawn pool id (draws outputs st edicts) ≤ poolBalance st pool id := by
  induction edicts generalizing st with
  | nil => exact Nat.zero_le _
  | cons edict edicts ih =>
    unfold draws
    cases hpurse : drawing outputs st edict with
    | none => exact ih st
    | some purse =>
      have hrest := ih (purse.store (purse.balance - edict.take purse.balance) st)
      have hle : (edict.take purse.balance).val ≤ purse.balance.val := edict.take_le purse.balance
      rw [poolBalance_store hpurse] at hrest
      simp only [drawn_cons]
      by_cases heq : purse.pool = pool ∧ purse.id = id
      · rw [if_pos heq, Fin.coe_sub_iff_le.mpr (edict.take_le purse.balance)] at hrest
        rw [if_pos heq]
        have hpool := poolBalance_purse hpurse
        rw [heq.1, heq.2] at hpool
        omega
      · rw [if_neg heq] at hrest
        rw [if_neg heq]
        omega

section

variable (deps : Deps) (cfg : Config) (resolver : Table TxoRef TxoBody) (txIndex : Nat) (tx : Transaction)
  (height : Nat) (t : DuneTables)

/-- What a claim of the transaction may mint of an id. -/
def mintLimit (id : U128) : Nat :=
  match Dunestone.fromTransaction deps tx with
  | none => 0
  | some dunestone => if id ∈ dunestone.claims then ((accepted t height id).getD 0).val else 0

/-- What the transaction may issue of an id: everything, of the dune etched here. -/
def issuanceLimit (id : U128) : Nat :=
  match Dunestone.fromTransaction deps tx with
  | none => 0
  | some dunestone =>
    if (issuanceOf deps cfg txIndex dunestone height t).any (fun a => a.id = id) then 2 ^ 128 - 1 else 0

/-- What edicts leave of an id on the inputs. -/
def leftOver (id : U128) : Nat :=
  ((inputPool tx resolver).getD id 0).val - drawn .unallocated id (plan deps cfg resolver txIndex tx height t)

/-- The amount of an id that is directed to an output, added up without bound. -/
def assigned (output : Nat) (id : U128) : Nat :=
  sentTo output id (plan deps cfg resolver txIndex tx height t) +
    if defaultOutput deps tx = some output then leftOver deps cfg resolver txIndex tx height t id else 0

/-- The amount of an id that the transaction has to distribute: the dunes on its inputs, what its
edicts mint and what they issue. -/
def supplied (id : U128) : Nat :=
  tally (inputDunes tx resolver) id + drawn .mintable id (plan deps cfg resolver txIndex tx height t) +
    drawn .issuance id (plan deps cfg resolver txIndex tx height t)

theorem issuanceOf_balance {deps : Deps} {cfg : Config} {txIndex height : Nat} {t : DuneTables} {dunestone : Dunestone}
    {a : Allocation} (h : issuanceOf deps cfg txIndex dunestone height t = some a) : a.balance.val = 2 ^ 128 - 1 := by
  unfold issuanceOf at h
  split at h
  · rename_i allocation etch t' hallocation
    exact ((allocationOf_ok hallocation).allocated h).1
  · cases h

/-- The edicts draw at most what the pools of the transaction hold. -/
theorem plan_le (id : U128) :
    drawn .unallocated id (plan deps cfg resolver txIndex tx height t) ≤ ((inputPool tx resolver).getD id 0).val ∧
    drawn .mintable id (plan deps cfg resolver txIndex tx height t) ≤ mintLimit deps tx height t id ∧
    drawn .issuance id (plan deps cfg resolver txIndex tx height t) ≤
      issuanceLimit deps cfg txIndex tx height t id := by
  unfold plan mintLimit issuanceLimit
  cases Dunestone.fromTransaction deps tx with
  | none => exact ⟨Nat.zero_le _, Nat.zero_le _, Nat.zero_le _⟩
  | some dunestone =>
    simp only
    split
    · exact ⟨Nat.zero_le _, Nat.zero_le _, Nat.zero_le _⟩
    · have hpool := drawn_le tx.output.length (startState deps cfg resolver txIndex tx height t dunestone)
        dunestone.edicts
      refine ⟨hpool .unallocated id, (hpool .mintable id).trans (le_of_eq ?_),
        (hpool .issuance id).trans (le_of_eq ?_)⟩
      · simp only [poolBalance, startState, Table.getD, acceptClaims_limits]
        split <;> rfl
      · simp only [poolBalance, startState]
        cases hissuance : issuanceOf deps cfg txIndex dunestone height t with
        | none => rfl
        | some a =>
          simp only [Option.map_some, Option.getD_some, Option.any_some, decide_eq_true_eq]
          rw [issuanceOf_balance hissuance]

theorem plan_output : ∀ d ∈ plan deps cfg resolver txIndex tx height t, d.output < tx.output.length := by
  intro d hd
  unfold plan at hd
  split at hd
  · cases hd
  · split at hd
    · cases hd
    · exact draws_output d hd

/-- A completed `index_runes` as a ledger. -/
structure IndexedRunes (r : IndexRunesResult) : Prop where
  length : r.outputDunes.length = tx.output.length
  inputs : cfg.checks = true → ∀ id, tally (inputDunes tx resolver) id < 2 ^ 128
  cenotaph : isCenotaph deps tx = true → r.outputDunes = tx.output.map fun _ => Table.empty
  outputs : isCenotaph deps tx = false → ∀ o id,
    (balanceAt r.outputDunes o id).val = assigned deps cfg resolver txIndex tx height t o id % 2 ^ 128 ∧
    (cfg.checks = true → assigned deps cfg resolver txIndex tx height t o id < 2 ^ 128)
  burned : isCenotaph deps tx = false → ∀ id, (r.burned.getD id 0).val =
    if defaultOutput deps tx = none then leftOver deps cfg resolver txIndex tx height t id else 0

end

theorem balanceAt_map_empty (l : List TxOut) (o : Nat) (id : U128) :
    balanceAt (l.map fun _ => Table.empty) o id = 0 := by
  unfold balanceAt
  rw [List.getElem?_map]
  cases l[o]? <;> rfl

theorem firstDestination_lt {deps : Deps} {tx : Transaction} {vout : Nat}
    (h : firstDestination deps tx = some vout) : vout < tx.output.length := by
  unfold firstDestination destinations at h
  obtain ⟨⟨output, i⟩, hfilter, rfl⟩ := List.mem_map.mp (List.mem_of_head? h)
  have hlt := (List.mem_zipIdx (List.mem_of_mem_filter hfilter)).2.1
  simpa using hlt

/-- What is not taken goes to the default output; without one it is burned. -/
theorem assignRest_ok {deps : Deps} {checks : Bool} {pointer : Option Nat} {tx : Transaction}
    {rest burned : Balances} {allocated allocated' : List Balances}
    (h : assignRest deps checks false pointer tx rest allocated = .ok (allocated', burned))
    (hlength : allocated.length = tx.output.length) :
    (∀ o id, (balanceAt allocated' o id).val = ((balanceAt allocated o id).val +
        if (pointer.filter (· < tx.output.length)).or (firstDestination deps tx) = some o then (rest.getD id 0).val
        else 0) % 2 ^ 128 ∧
      (checks = true → (balanceAt allocated o id).val +
        (if (pointer.filter (· < tx.output.length)).or (firstDestination deps tx) = some o then
          (rest.getD id 0).val else 0) < 2 ^ 128)) ∧
    ∀ id, (burned.getD id 0).val =
      if (pointer.filter (· < tx.output.length)).or (firstDestination deps tx) = none then (rest.getD id 0).val
      else 0 := by
  unfold assignRest at h
  simp only [Bool.false_eq_true, if_false, hlength] at h
  cases hdefault : (pointer.filter (· < tx.output.length)).or (firstDestination deps tx) with
  | some vout =>
    rw [hdefault] at h
    obtain ⟨map, hmap, h⟩ := bind_eq_ok.mp h
    obtain ⟨map', hcredit, h⟩ := bind_eq_ok.mp h
    cases h
    have hmap := orPanic_eq_ok.mp hmap
    have hlt := (List.getElem?_eq_some_iff.mp hmap).1
    obtain ⟨rfl, hfits⟩ := creditAll_ok (creditPositive_ok hcredit)
    refine ⟨fun o id => ?_, fun id => by simp [Table.getD]⟩
    unfold balanceAt
    by_cases ho : vout = o
    · subst ho
      rw [List.getElem?_set_self hlt, hmap]
      simp only [Option.getD_some, if_true]
      refine ⟨?_, fun hchecks => ?_⟩
      · rw [getD_creditAll, tally_filter_pos, tally_entries]
      · have := hfits hchecks id
        rw [tally_filter_pos, tally_entries] at this
        exact this
    · rw [List.getElem?_set_ne ho, if_neg (by simpa using ho), Nat.add_zero]
      exact ⟨(Nat.mod_eq_of_lt (Fin.isLt _)).symm, fun _ => Fin.isLt _⟩
  | none =>
    rw [hdefault] at h
    obtain ⟨burned', hcredit, h⟩ := bind_eq_ok.mp h
    cases h
    obtain ⟨rfl, -⟩ := creditAll_ok (creditPositive_ok hcredit)
    refine ⟨fun o id => ?_, fun id => ?_⟩
    · rw [if_neg (by simp), Nat.add_zero]
      exact ⟨(Nat.mod_eq_of_lt (Fin.isLt _)).symm, fun _ => Fin.isLt _⟩
    · rw [if_pos rfl, getD_creditAll, tally_filter_pos, tally_entries]
      simp [Table.getD, Nat.mod_eq_of_lt (Fin.isLt _)]

/-- The ledger of edicts and of what they leave. -/
theorem edicts_ledger {deps : Deps} {cfg : Config} {resolver : Table TxoRef TxoBody} {txIndex : Nat}
    {tx : Transaction} {height : Nat} {t : DuneTables} {dunestone : Dunestone} {st : EdictState}
    {allocated : List Balances} {burned : Balances}
    (hdunestone : Dunestone.fromTransaction deps tx = some dunestone) (hcen : dunestone.cenotaph = false)
    (hedicts : dunestone.edicts.foldlM (processEdict deps cfg.checks tx)
      (startState deps cfg resolver txIndex tx height t dunestone) = .ok st)
    (hlength : st.allocated.length = tx.output.length)
    (hrest : assignRest deps cfg.checks false dunestone.pointer tx st.unallocated st.allocated =
      .ok (allocated, burned)) :
    (∀ o id,
      (balanceAt allocated o id).val = assigned deps cfg resolver txIndex tx height t o id % 2 ^ 128 ∧
      (cfg.checks = true → assigned deps cfg resolver txIndex tx height t o id < 2 ^ 128)) ∧
    ∀ id, (burned.getD id 0).val =
      if defaultOutput deps tx = none then leftOver deps cfg resolver txIndex tx height t id else 0 := by
  obtain ⟨houts, hburned⟩ := assignRest_ok hrest hlength
  obtain ⟨-, hpools, hsent⟩ := processEdicts_ok hedicts
  have hplan : plan deps cfg resolver txIndex tx height t =
      draws tx.output.length (startState deps cfg resolver txIndex tx height t dunestone) dunestone.edicts := by
    unfold plan
    rw [hdunestone]
    simp [hcen]
  have hdefault : defaultOutput deps tx =
      (dunestone.pointer.filter (· < tx.output.length)).or (firstDestination deps tx) := by
    unfold defaultOutput
    rw [hdunestone]
    rfl
  have hleft : ∀ id, leftOver deps cfg resolver txIndex tx height t id = (st.unallocated.getD id 0).val := by
    intro id
    have hpool : ((inputPool tx resolver).getD id 0).val = (st.unallocated.getD id 0).val +
        drawn .unallocated id (draws tx.output.length (startState deps cfg resolver txIndex tx height t dunestone)
          dunestone.edicts) := hpools .unallocated id
    unfold leftOver
    rw [hplan, hpool, Nat.add_sub_cancel]
  constructor
  · intro o id
    obtain ⟨hsentEq, hsentFits⟩ := hsent o id
    obtain ⟨houtEq, houtFits⟩ := houts o id
    have hzero : (balanceAt (startState deps cfg resolver txIndex tx height t dunestone).allocated o id).val = 0 :=
      congrArg Fin.val (balanceAt_map_empty tx.output o id)
    rw [hzero, Nat.zero_add] at hsentEq hsentFits
    unfold assigned
    rw [hplan, hdefault, hleft]
    refine ⟨?_, fun hchecks => ?_⟩
    · rw [houtEq, hsentEq, Nat.mod_add_mod]
    · have hlt := houtFits hchecks
      rw [hsentEq, Nat.mod_eq_of_lt (hsentFits hchecks)] at hlt
      exact hlt
  · intro id
    rw [hdefault, hleft]
    exact hburned id

/-- **A completed `index_runes` is a ledger, and changes the dune tables by its dunestone.** -/
theorem indexRunes_ok {deps : Deps} {cfg : Config} {resolver : Table TxoRef TxoBody} {txIndex : Nat}
    {tx : Transaction} {height : Nat} {t t' : DuneTables} {r : IndexRunesResult}
    (h : indexRunes deps cfg resolver txIndex tx height t = .ok (r, t')) :
    IndexedRunes deps cfg resolver txIndex tx height t r ∧
    (Dunestone.fromTransaction deps tx = none → r.successfulEtch = none ∧ r.successfulMints = [] ∧ t' = t) ∧
    ∀ dunestone, Dunestone.fromTransaction deps tx = some dunestone →
      Nonempty (DuneStep deps cfg txIndex height dunestone (plan deps cfg resolver txIndex tx height t) t
        r.successfulEtch r.successfulMints t') := by
  have hlength := indexRunes_length h
  unfold indexRunes at h
  simp only at h
  obtain ⟨pool, hpool, h⟩ := bind_eq_ok.mp h
  obtain ⟨hpool, hfits⟩ := creditAll_ok (unallocated_ok hpool)
  have hpool : pool = inputPool tx resolver := hpool
  subst hpool
  have hinputs : cfg.checks = true → ∀ id, tally (inputDunes tx resolver) id < 2 ^ 128 := by
    intro hchecks id
    have := hfits hchecks id
    simpa [Table.getD] using this
  cases hdunestone : Dunestone.fromTransaction deps tx with
  | none =>
    rw [hdunestone] at h
    obtain ⟨⟨allocated, burned⟩, hrest, h⟩ := bind_eq_ok.mp h
    cases h
    obtain ⟨houts, hburned⟩ := assignRest_ok hrest (by rw [List.length_map])
    have hplan : plan deps cfg resolver txIndex tx height t = [] := by
      unfold plan
      rw [hdunestone]
    have hdefault : defaultOutput deps tx = firstDestination deps tx := by
      unfold defaultOutput
      rw [hdunestone]
      rfl
    have hleft : ∀ id, leftOver deps cfg resolver txIndex tx height t id =
        ((inputPool tx resolver).getD id 0).val := by
      intro id
      unfold leftOver
      rw [hplan]
      rfl
    refine ⟨⟨hlength, hinputs, ?_, fun _ o id => ?_, fun _ id => ?_⟩, fun _ => ⟨rfl, rfl, rfl⟩,
      fun d hd => by cases hd⟩
    · intro hcen
      unfold isCenotaph at hcen
      rw [hdunestone] at hcen
      cases hcen
    · have hout := houts o id
      unfold assigned
      rw [hplan, hdefault, hleft, sentTo_nil, Nat.zero_add]
      rw [balanceAt_map_empty, Fin.val_zero, Nat.zero_add] at hout
      exact hout
    · rw [hdefault, hleft]
      exact hburned id
  | some dunestone =>
    rw [hdunestone] at h
    obtain ⟨⟨st, etch, mints, t₁⟩, happly, h⟩ := bind_eq_ok.mp h
    obtain ⟨⟨allocated, burned⟩, hrest, h⟩ := bind_eq_ok.mp h
    cases h
    obtain ⟨hstep, hcenotaph, hedicts⟩ := applyDunestone_ok hdunestone happly
    have hcen : isCenotaph deps tx = dunestone.cenotaph := by
      unfold isCenotaph
      rw [hdunestone]
      rfl
    refine ⟨⟨hlength, hinputs, ?_, ?_, ?_⟩, ?_, ?_⟩
    · intro hc
      rw [hcen] at hc
      unfold assignRest at hrest
      rw [hc] at hrest
      simp only [if_true] at hrest
      obtain ⟨_, -, hrest⟩ := bind_eq_ok.mp hrest
      cases hrest
      exact (hcenotaph hc).1
    · intro hc
      rw [hcen] at hc
      rw [hc] at hrest
      exact (edicts_ledger hdunestone hc (hedicts hc) (applyDunestone_length happly) hrest).1
    · intro hc
      rw [hcen] at hc
      rw [hc] at hrest
      exact (edicts_ledger hdunestone hc (hedicts hc) (applyDunestone_length happly) hrest).2
    · intro hd
      cases hd
    · intro d hd
      cases hd
      exact hstep

/-! ## Conservation -/

/-- What the outputs receive of an id. -/
def received (r : IndexRunesResult) (id : U128) : Nat := (r.outputDunes.map fun m => (m.getD id 0).val).sum

section

variable (deps : Deps) (cfg : Config) (resolver : Table TxoRef TxoBody) (txIndex : Nat) (tx : Transaction)
  (height : Nat) (t : DuneTables)

/-- The dunes of a transaction are conserved: what its outputs receive and what is burned is what it
supplies, within its limits; a cenotaph gives nothing to its outputs. -/
def DunesConserved (r : IndexRunesResult) : Prop :=
  (isCenotaph deps tx = true → ∀ m ∈ r.outputDunes, m = Table.empty) ∧
  (isCenotaph deps tx = false → ∀ id,
    received r id + (r.burned.getD id 0).val = supplied deps cfg resolver txIndex tx height t id ∧
    (∀ m ∈ r.outputDunes, (m.getD id 0).val ≤ supplied deps cfg resolver txIndex tx height t id) ∧
    drawn .mintable id (plan deps cfg resolver txIndex tx height t) ≤ mintLimit deps tx height t id ∧
    drawn .issuance id (plan deps cfg resolver txIndex tx height t) ≤ issuanceLimit deps cfg txIndex tx height t id)

/-- Added up without bound, the dunes on the inputs and the dunes directed to each output fit in 128
bits. -/
def Fits : Prop :=
  ∀ id, tally (inputDunes tx resolver) id < 2 ^ 128 ∧
    ∀ o < tx.output.length, assigned deps cfg resolver txIndex tx height t o id < 2 ^ 128

theorem sum_mod_le {α : Type} (f : α → Nat) (m : Nat) (l : List α) :
    (l.map fun a => f a % m).sum ≤ (l.map f).sum :=
  List.sum_le_sum fun a _ => Nat.mod_le (f a) m

/-- Reducing the terms of a sum keeps it only when all are reduced already. -/
theorem lt_of_sum_mod {α : Type} {f : α → Nat} {m : Nat} {l : List α} (hm : 0 < m)
    (h : (l.map f).sum ≤ (l.map fun a => f a % m).sum) : ∀ a ∈ l, f a < m := by
  induction l with
  | nil =>
    intro a ha
    cases ha
  | cons a l ih =>
    rw [List.map_cons, List.map_cons, List.sum_cons, List.sum_cons] at h
    have hrest := sum_mod_le f m l
    have hfirst := Nat.mod_le (f a) m
    have hlt := Nat.mod_lt (f a) hm
    intro b hb
    rcases List.mem_cons.mp hb with rfl | hb
    · omega
    · exact ih (by omega) b hb

theorem inputPool_val (id : U128) :
    ((inputPool tx resolver).getD id 0).val = tally (inputDunes tx resolver) id % 2 ^ 128 := by
  unfold inputPool
  rw [getD_creditAll]
  simp [Table.getD]

theorem defaultOutput_lt {vout : Nat} (h : defaultOutput deps tx = some vout) : vout < tx.output.length := by
  unfold defaultOutput at h
  rcases Option.or_eq_some_iff.mp h with hpointer | ⟨-, hfirst⟩
  · have := (Option.filter_eq_some_iff.mp hpointer).2
    simpa using this
  · exact firstDestination_lt hfirst

/-- **What is directed to the outputs, or burned, is what the pools supply.** -/
theorem assigned_sum (id : U128) :
    ((List.range tx.output.length).map fun o => assigned deps cfg resolver txIndex tx height t o id).sum +
        (if defaultOutput deps tx = none then leftOver deps cfg resolver txIndex tx height t id else 0) =
      ((inputPool tx resolver).getD id 0).val +
        drawn .mintable id (plan deps cfg resolver txIndex tx height t) +
        drawn .issuance id (plan deps cfg resolver txIndex tx height t) := by
  have hsent : ((List.range tx.output.length).map fun o =>
      sentTo o id (plan deps cfg resolver txIndex tx height t)).sum = _ :=
    sentTo_sum (plan_output deps cfg resolver txIndex tx height t)
  have hle := (plan_le deps cfg resolver txIndex tx height t id).1
  have hrest : ((List.range tx.output.length).map fun o =>
        if defaultOutput deps tx = some o then leftOver deps cfg resolver txIndex tx height t id else 0).sum +
        (if defaultOutput deps tx = none then leftOver deps cfg resolver txIndex tx height t id else 0) =
      leftOver deps cfg resolver txIndex tx height t id := by
    cases hdefault : defaultOutput deps tx with
    | none => simp
    | some vout =>
      simp only [Option.some.injEq, reduceCtorEq, if_false, Nat.add_zero]
      rw [sum_range_single, if_pos (defaultOutput_lt deps tx hdefault)]
  unfold assigned
  rw [List.sum_map_add, hsent, Nat.add_assoc, hrest]
  unfold leftOver
  omega

end

theorem IndexedRunes.received_eq {deps : Deps} {cfg : Config} {resolver : Table TxoRef TxoBody} {txIndex : Nat}
    {tx : Transaction} {height : Nat} {t : DuneTables} {r : IndexRunesResult}
    (run : IndexedRunes deps cfg resolver txIndex tx height t r) (hcen : isCenotaph deps tx = false) (id : U128) :
    received r id = ((List.range tx.output.length).map fun o =>
      assigned deps cfg resolver txIndex tx height t o id % 2 ^ 128).sum := by
  unfold received
  congr 1
  refine List.ext_getElem (by simp [run.length]) (fun o h₁ h₂ => ?_)
  rw [List.getElem_map, List.getElem_map, List.getElem_range]
  rw [← (run.outputs hcen o id).1]
  unfold balanceAt
  rw [List.getElem?_eq_getElem (by simpa using h₁)]
  rfl

/-- Outputs receive no more than is supplied, whether the amounts fit or not. -/
theorem IndexedRunes.received_le {deps : Deps} {cfg : Config} {resolver : Table TxoRef TxoBody} {txIndex : Nat}
    {tx : Transaction} {height : Nat} {t : DuneTables} {r : IndexRunesResult}
    (run : IndexedRunes deps cfg resolver txIndex tx height t r) (id : U128) :
    received r id ≤ supplied deps cfg resolver txIndex tx height t id := by
  cases hcen : isCenotaph deps tx with
  | true =>
    have hzero : received r id = 0 := by
      unfold received
      rw [run.cenotaph hcen, List.map_map]
      exact List.sum_eq_zero fun n hn => by
        obtain ⟨_, -, rfl⟩ := List.mem_map.mp hn
        rfl
    omega
  | false =>
    have hsum := assigned_sum deps cfg resolver txIndex tx height t id
    have hmod := sum_mod_le (fun o => assigned deps cfg resolver txIndex tx height t o id) (2 ^ 128)
      (List.range tx.output.length)
    have hpool := Nat.mod_le (tally (inputDunes tx resolver) id) (2 ^ 128)
    rw [inputPool_val] at hsum
    rw [run.received_eq hcen]
    unfold supplied
    omega

/-- Amounts that fit add up. -/
theorem IndexedRunes.conserved {deps : Deps} {cfg : Config} {resolver : Table TxoRef TxoBody} {txIndex : Nat}
    {tx : Transaction} {height : Nat} {t : DuneTables} {r : IndexRunesResult}
    (run : IndexedRunes deps cfg resolver txIndex tx height t r) (hcen : isCenotaph deps tx = false)
    (hfits : Fits deps cfg resolver txIndex tx height t) (id : U128) :
    received r id + (r.burned.getD id 0).val = supplied deps cfg resolver txIndex tx height t id := by
  obtain ⟨hinputs, houts⟩ := hfits id
  have hreceived : received r id = ((List.range tx.output.length).map fun o =>
      assigned deps cfg resolver txIndex tx height t o id).sum := by
    rw [run.received_eq hcen]
    refine congrArg List.sum (List.map_congr_left fun o ho => ?_)
    exact Nat.mod_eq_of_lt (houts o (List.mem_range.mp ho))
  have hsum := assigned_sum deps cfg resolver txIndex tx height t id
  rw [inputPool_val, Nat.mod_eq_of_lt hinputs, ← hreceived, ← run.burned hcen] at hsum
  exact hsum

/-- **The dunes of a transaction are conserved exactly when its amounts fit**, or for a cenotaph. -/
theorem dunes_conserved_iff {deps : Deps} {cfg : Config} {resolver : Table TxoRef TxoBody} {txIndex : Nat}
    {tx : Transaction} {height : Nat} {t t' : DuneTables} {r : IndexRunesResult}
    (h : indexRunes deps cfg resolver txIndex tx height t = .ok (r, t')) :
    DunesConserved deps cfg resolver txIndex tx height t r ↔
      (isCenotaph deps tx = true ∨ Fits deps cfg resolver txIndex tx height t) := by
  obtain ⟨run, -⟩ := indexRunes_ok h
  cases hcen : isCenotaph deps tx with
  | true =>
    refine ⟨fun _ => Or.inl rfl, fun _ => ⟨fun _ m hm => ?_, fun hc => by rw [hcen] at hc; cases hc⟩⟩
    rw [run.cenotaph hcen] at hm
    obtain ⟨_, -, rfl⟩ := List.mem_map.mp hm
    rfl
  | false =>
    have hsum := assigned_sum deps cfg resolver txIndex tx height t
    have hbound := plan_le deps cfg resolver txIndex tx height t
    constructor
    · rintro ⟨-, hconserved⟩
      right
      intro id
      obtain ⟨heq, -⟩ := hconserved hcen id
      rw [run.received_eq hcen, run.burned hcen] at heq
      have hle := sum_mod_le (fun o => assigned deps cfg resolver txIndex tx height t o id) (2 ^ 128)
        (List.range tx.output.length)
      have hpool := inputPool_val resolver tx id
      have hid := hsum id
      have hmod := Nat.mod_le (tally (inputDunes tx resolver) id) (2 ^ 128)
      unfold supplied at heq
      refine ⟨by omega, fun o ho => ?_⟩
      exact lt_of_sum_mod (f := fun o => assigned deps cfg resolver txIndex tx height t o id) (by decide)
        (by omega) o (List.mem_range.mpr ho)
    · rintro (hc | hfits)
      · cases hc
      · refine ⟨fun hc => (by rw [hcen] at hc; cases hc), fun _ id => ?_⟩
        have hid := run.conserved hcen hfits id
        refine ⟨hid, fun m hm => ?_, (hbound id).2.1, (hbound id).2.2⟩
        have hmem : (m.getD id 0).val ≤ received r id :=
          List.single_le_sum (fun _ _ => Nat.zero_le _) _ (List.mem_map_of_mem hm)
        omega

/-- A build without overflow checks that indexes from the first block on. -/
def releaseBuild : Config := ⟨false, .dogecoin, 0, 0, some 10⟩

/-- Outputs 0 and 1 of a transaction with amounts of one dune on them. -/
def dunePair (a b : U128) : Table TxoRef TxoBody :=
  (Table.empty.insert ⟨1, 0⟩ ⟨5, ⟨100, []⟩, [(⟨1, 0⟩, a)], [], Table.empty⟩).insert ⟨1, 1⟩
    ⟨5, ⟨100, []⟩, [(⟨1, 0⟩, b)], [], Table.empty⟩

/-- A transaction that merges them. -/
def mergeTx : Transaction := ⟨2, [⟨⟨1, 0⟩, []⟩, ⟨⟨1, 1⟩, []⟩], [⟨200, []⟩]⟩

/-- Two amounts of a dune are merged on one output. -/
theorem dunes_conserved_merge :
    DunesConserved emptyScripts releaseBuild (dunePair 3 4) 1 mergeTx 6 DuneTables.empty
      ⟨[Table.empty.insert 65536 7], none, [], Table.empty⟩ := by
  have hcall : indexRunes emptyScripts releaseBuild (dunePair 3 4) 1 mergeTx 6 DuneTables.empty =
      .ok (⟨[Table.empty.insert 65536 7], none, [], Table.empty⟩, DuneTables.empty) := rfl
  refine (dunes_conserved_iff hcall).mpr (Or.inr fun id => ⟨?_, fun o _ => ?_⟩)
  · change (if (65536 : U128) = id then 3 else 0) + ((if (65536 : U128) = id then 4 else 0) + 0) < 2 ^ 128
    split <;> decide
  · have hleft : leftOver emptyScripts releaseBuild (dunePair 3 4) 1 mergeTx 6 DuneTables.empty id < 2 ^ 128 :=
      lt_of_le_of_lt (Nat.sub_le _ _) (Fin.isLt _)
    unfold assigned
    change 0 + (if _ then _ else 0) < 2 ^ 128
    split <;> omega

/-- Without overflow checks, two amounts that together exceed 128 bits are merged into less. -/
theorem dunes_lost : ∃ r t',
    indexRunes emptyScripts releaseBuild (dunePair (Fin.ofNat (2 ^ 128) (2 ^ 128 - 1)) 1) 1 mergeTx 6
      DuneTables.empty = .ok (r, t') ∧
    ¬ DunesConserved emptyScripts releaseBuild (dunePair (Fin.ofNat (2 ^ 128) (2 ^ 128 - 1)) 1) 1 mergeTx 6
      DuneTables.empty r := by
  refine ⟨⟨[Table.empty], none, [], Table.empty⟩, DuneTables.empty, rfl, ?_⟩
  rintro ⟨-, hconserved⟩
  have heq := (hconserved rfl 65536).1
  revert heq
  decide

end DogeIndexer.Compressor
