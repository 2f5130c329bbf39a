import DogeIndexer.Compressor.Mints

/-!
# Edicts to all outputs

An edict whose output is the number of outputs is meant for all of them.  `index_runes` has a branch that
distributes it, but skips every edict that does not name an output before it gets there.

* `shares` — what the outputs are to receive.
* `processEdict_beyond` — the edict is skipped.
* `distributed_iff` — so nothing is received, which is right exactly when there is nothing to give or nobody
  to receive it.
-/

set_option autoImplicit false

namespace DogeIndexer.Compressor

/-! ## What is to be received -/

/-- `k` outputs in turn receive `amount`, or what remains. -/
def inTurn (amount : Nat) : Nat → Nat → List Nat
  | 0, _ => []
  | k + 1, balance => min amount balance :: inTurn amount k (balance - min amount balance)

/-- What `k` outputs receive of a balance: equal parts, the first ones one more, or an amount each in turn. -/
def shares (k amount balance : Nat) : List Nat :=
  if amount = 0 then (List.range k).map fun i => if i < balance % k then balance / k + 1 else balance / k
  else inTurn amount k balance

/-- The edict completes, and the outputs that are not `OP_RETURN` receive their shares of the balance it draws on;
without such outputs nothing changes. -/
def Distributed (deps : Deps) (checks : Bool) (tx : Transaction) (st : EdictState) (edict : Edict) : Prop :=
  ∃ st', processEdict deps checks tx st edict = .ok st' ∧
    if destinations deps tx = [] then st' = st
    else ∀ purse, purseOf st edict = some purse → ∀ e ∈ (destinations deps tx).zip
        (shares (destinations deps tx).length edict.amount.val purse.balance.val),
      (balanceAt st'.allocated e.1 purse.id).val = (balanceAt st.allocated e.1 purse.id).val + e.2

theorem inTurn_zero (amount k : Nat) : ∀ n ∈ inTurn amount k 0, n = 0 := by
  induction k with
  | zero => exact fun n hn => (List.not_mem_nil hn).elim
  | succ k ih =>
    intro n hn
    rcases List.mem_cons.mp hn with rfl | hn
    · exact Nat.min_zero amount
    · rw [Nat.zero_sub] at hn
      exact ih n hn

/-- There is nothing to receive of nothing. -/
theorem shares_zero (k amount : Nat) : ∀ n ∈ shares k amount 0, n = 0 := by
  intro n hn
  unfold shares at hn
  split at hn
  · obtain ⟨i, -, rfl⟩ := List.mem_map.mp hn
    simp
  · exact inTurn_zero amount k n hn

/-- The first output receives something of something. -/
theorem shares_pos {k balance : Nat} (amount : Nat) (hk : 0 < k) (hbalance : 0 < balance) :
    ∃ first rest, shares k amount balance = first :: rest ∧ 0 < first := by
  obtain ⟨k, rfl⟩ : ∃ m, k = m + 1 := ⟨k - 1, by omega⟩
  unfold shares
  split
  · rw [List.range_succ_eq_map, List.map_cons]
    refine ⟨_, _, rfl, ?_⟩
    split
    · exact Nat.succ_pos _
    · rename_i hrest
      -- the balance is a positive multiple
      have hdiv := Nat.div_add_mod balance (k + 1)
      rw [Nat.eq_zero_of_not_pos hrest, Nat.add_zero] at hdiv
      refine Nat.pos_of_ne_zero fun hzero => ?_
      rw [hzero, Nat.mul_zero] at hdiv
      omega
  · rename_i hamount
    exact ⟨_, _, rfl, Nat.lt_min.mpr ⟨Nat.pos_of_ne_zero hamount, hbalance⟩⟩

/-! ## What the edict does -/

section

variable {deps : Deps} {checks : Bool} {tx : Transaction} {st : EdictState} {edict : Edict}

/-- An edict that does not name an output is skipped. -/
theorem processEdict_beyond (h : tx.output.length ≤ edict.output.val) :
    processEdict deps checks tx st edict = .ok st := by
  unfold processEdict
  simp only
  rw [if_pos (Or.inr h)]

/-- **An edict to all outputs is distributed exactly when there is nothing to distribute**: its balance is 0, or all
outputs are `OP_RETURN`. -/
theorem distributed_iff (deps : Deps) (checks : Bool) (tx : Transaction) (st : EdictState) (edict : Edict)
    (houtput : edict.output.val = tx.output.length) :
    Distributed deps checks tx st edict ↔
      ∀ purse, purseOf st edict = some purse → destinations deps tx = [] ∨ purse.balance = 0 := by
  have hskip : processEdict deps checks tx st edict = .ok st := processEdict_beyond (Nat.le_of_eq houtput.symm)
  constructor
  · rintro ⟨st', hst', hshares⟩ purse hpurse
    rw [hskip] at hst'
    cases hst'
    by_cases hnone : destinations deps tx = []
    · exact Or.inl hnone
    · rw [if_neg hnone] at hshares
      refine Or.inr ?_
      by_contra hbalance
      have hpos : 0 < purse.balance.val := Nat.pos_of_ne_zero fun hzero => hbalance (Fin.ext hzero)
      obtain ⟨first, rest, hfirst, hreceived⟩ :=
        shares_pos edict.amount.val (List.length_pos_iff.mpr hnone) hpos
      obtain ⟨output, others, hdest⟩ := List.exists_cons_of_ne_nil hnone
      have hmem : (output, first) ∈ (destinations deps tx).zip
          (shares (destinations deps tx).length edict.amount.val purse.balance.val) := by
        rw [hfirst, hdest]
        exact List.mem_cons_self
      have hone := hshares purse hpurse (output, first) hmem
      simp only at hone
      omega
  · intro h
    refine ⟨st, hskip, ?_⟩
    split
    · rfl
    · rename_i hsome
      intro purse hpurse e he
      have hzero : purse.balance.val = 0 := by
        rw [(h purse hpurse).resolve_left hsome]
        rfl
      rw [hzero] at he
      rw [shares_zero _ _ e.2 (List.of_mem_zip he).2, Nat.add_zero]

/-- `OP_RETURN "D"`: all of dune 1:1 goes to the three outputs of the transaction. -/
def splitScript : Bytes := [106, 1, 68, 6, 0, 130, 255, 1, 0, 3]

/-- The outputs are the dunestone's and two others. -/
def splitTx : Transaction := ⟨14, [⟨⟨12, 1⟩, []⟩], [⟨0, splitScript⟩, ⟨5, []⟩, ⟨5, []⟩]⟩

/-- The input carries 7 units of dune 1:1. -/
def splitResolver : Table TxoRef TxoBody :=
  Table.empty.insert ⟨12, 1⟩ ⟨1, ⟨10, []⟩, [(⟨1, 1⟩, 7)], [], Table.empty⟩

/-- The state of the edicts before the first one, with a balance of dune 1:1. -/
def splitState (balance : U128) : EdictState :=
  ⟨none, Table.empty, Table.empty.insert (DuneId.toU128 ⟨1, 1⟩) balance, splitTx.output.map fun _ => Table.empty, 0⟩

theorem splitState_purse (balance : U128) :
    purseOf (splitState balance) ⟨DuneId.toU128 ⟨1, 1⟩, 0, 3⟩ = some (.unallocated balance (DuneId.toU128 ⟨1, 1⟩)) :=
  rfl

/-- Nothing is distributed of a balance that is used up. -/
theorem distributed_nothing :
    Distributed duneScripts true splitTx (splitState 0) ⟨DuneId.toU128 ⟨1, 1⟩, 0, 3⟩ := by
  refine (distributed_iff _ _ _ _ _ (by decide)).mpr fun purse hpurse => Or.inr ?_
  rw [splitState_purse] at hpurse
  cases hpurse
  rfl

/-- Two outputs are to receive 4 and 3 of the 7 units.  The edict is skipped, and the first of them gets all. -/
theorem split_skipped :
    (Dunestone.fromTransaction duneScripts splitTx).map (fun d => (d.cenotaph, d.edicts)) =
        some (false, [⟨DuneId.toU128 ⟨1, 1⟩, 0, 3⟩]) ∧
      shares (destinations duneScripts splitTx).length 0 7 = [4, 3] ∧
      ¬ Distributed duneScripts true splitTx (splitState 7) ⟨DuneId.toU128 ⟨1, 1⟩, 0, 3⟩ ∧
      (match indexRunes duneScripts fromFirstBlock splitResolver 1 splitTx 2 DuneTables.empty with
        | .ok (r, _) => r.outputDunes.map Table.entries
        | .error _ => []) = [[], [(DuneId.toU128 ⟨1, 1⟩, 7)], []] := by
  refine ⟨by decide +kernel, by decide +kernel, fun hdistributed => ?_, by decide +kernel⟩
  obtain ⟨st', hst', hshares⟩ := hdistributed
  rw [processEdict_beyond (by decide)] at hst'
  cases hst'
  have hdest : destinations duneScripts splitTx ≠ [] := by decide +kernel
  rw [if_neg hdest] at hshares
  have hmem : (1, 4) ∈ (destinations duneScripts splitTx).zip
      (shares (destinations duneScripts splitTx).length 0 7) := by
    decide +kernel
  have hone := hshares (.unallocated 7 (DuneId.toU128 ⟨1, 1⟩)) (splitState_purse 7) (1, 4) hmem
  revert hone
  decide +kernel

end

end DogeIndexer.Compressor
