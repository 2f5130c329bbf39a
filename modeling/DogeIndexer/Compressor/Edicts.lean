import DogeIndexer.Compressor.Processed
import Mathlib.Algebra.BigOperators.Group.List.Basic

/-!
# What edicts move

The edicts of a dunestone draw on three pools: the issuance of an etching, the mints of accepted
claims and the dunes on the inputs.

* `creditAll_ok` — credits add up, with wrap-around in builds without overflow checks.
* `Draw`, `draws` — the amounts that edicts move, computed from the pools alone.
* `processEdicts_ok` — edicts leave every pool reduced, and every output increased, by its draws.
-/

set_option autoImplicit false

namespace DogeIndexer.Compressor

open Fallible

/-! ## Credits -/

/-- The amount of an id in a list of credits. -/
def tally (l : List (U128 × U128)) (id : U128) : Nat := (l.map fun e => if e.1 = id then e.2.val else 0).sum

@[simp] theorem tally_nil (id : U128) : tally [] id = 0 := rfl

@[simp] theorem tally_cons (e : U128 × U128) (l : List (U128 × U128)) (id : U128) :
    tally (e :: l) id = (if e.1 = id then e.2.val else 0) + tally l id := rfl

theorem tally_append (l₁ l₂ : List (U128 × U128)) (id : U128) :
    tally (l₁ ++ l₂) id = tally l₁ id + tally l₂ id := by
  simp [tally]

/-- A credit that wraps around. -/
def credited (balances : Balances) (e : U128 × U128) : Balances :=
  balances.insert e.1 (balances.getD e.1 0 + e.2)

theorem credit_ok {checks : Bool} {b b' : Balances} {id amount : U128}
    (h : credit checks b id amount = .ok b') :
    b' = credited b (id, amount) ∧ (checks = true → (b.getD id 0).val + amount.val < 2 ^ 128) := by
  unfold credit at h
  obtain ⟨balance, hadd, rfl⟩ := map_eq_ok.mp h
  have hadd := orPanic_eq_ok.mp hadd
  refine ⟨by rw [Machine.add_eq_some hadd]; rfl, ?_⟩
  rintro rfl
  unfold Machine.add at hadd
  split at hadd
  · cases hadd
  · rename_i hlt
    simpa using hlt

theorem getD_credited (b : Balances) (e : U128 × U128) (id : U128) :
    ((credited b e).getD id 0).val = ((b.getD id 0).val + if e.1 = id then e.2.val else 0) % 2 ^ 128 := by
  unfold credited
  rw [Table.getD_insert]
  by_cases hid : id = e.1
  · subst hid
    rw [if_pos rfl, if_pos rfl, Fin.val_add]
  · rw [if_neg hid, if_neg (fun h => hid h.symm), Nat.add_zero, Nat.mod_eq_of_lt (b.getD id 0).isLt]

theorem creditAll_ok {checks : Bool} {l : List (U128 × U128)} {b b' : Balances}
    (h : l.foldlM (fun b e => credit checks b e.1 e.2) b = .ok b') :
    b' = l.foldl credited b ∧ (checks = true → ∀ id, (b.getD id 0).val + tally l id < 2 ^ 128) := by
  induction l generalizing b with
  | nil =>
    cases h
    exact ⟨rfl, fun _ id => Fin.isLt _⟩
  | cons e l ih =>
    obtain ⟨b₁, h₁, h₂⟩ := foldlM_cons_eq_ok.mp h
    obtain ⟨rfl, hfits⟩ := credit_ok h₁
    obtain ⟨rfl, hrest⟩ := ih h₂
    refine ⟨rfl, fun hchecks id => ?_⟩
    have hid := hrest hchecks id
    have hval := getD_credited b (e.1, e.2) id
    rw [tally_cons]
    by_cases he : e.1 = id
    · have hfits := hfits hchecks
      rw [if_pos he] at hval ⊢
      rw [he] at hfits
      rw [Nat.mod_eq_of_lt hfits] at hval
      omega
    · rw [if_neg he] at hval ⊢
      rw [Nat.add_zero, Nat.mod_eq_of_lt (b.getD id 0).isLt] at hval
      omega

theorem getD_creditAll (l : List (U128 × U128)) (b : Balances) (id : U128) :
    ((l.foldl credited b).getD id 0).val = ((b.getD id 0).val + tally l id) % 2 ^ 128 := by
  induction l generalizing b with
  | nil => exact (Nat.mod_eq_of_lt (b.getD id 0).isLt).symm
  | cons e l ih =>
    rw [List.foldl_cons, ih, getD_credited, tally_cons, Nat.mod_add_mod, Nat.add_assoc]

/-- The amount of an id in the entries of a table is its balance. -/
theorem tally_entries (b : Balances) (id : U128) : tally b.entries id = (b.getD id 0).val := by
  have hothers : Table.total (fun k v => if k = id then v.val else 0) (b.erase id) = 0 := by
    refine List.sum_eq_zero ?_
    intro n hn
    obtain ⟨⟨k, v⟩, hmem, rfl⟩ := List.mem_map.mp hn
    have hget := Table.mem_entries.mp hmem
    rw [Table.get_erase] at hget
    split at hget
    · cases hget
    · rename_i hne
      exact if_neg hne
  have htotal := Table.total_erase (fun k (v : U128) => if k = id then v.val else 0) b id
  rw [hothers, Nat.zero_add] at htotal
  change Table.total (fun k (v : U128) => if k = id then v.val else 0) b = _
  rw [← htotal]
  unfold Table.weightAt Table.getD
  cases b.get id with
  | none => rfl
  | some v => exact if_pos rfl

/-- A zero credit changes no balance. -/
theorem tally_filter_pos (l : List (U128 × U128)) (id : U128) :
    tally (l.filter fun e => e.2 > 0) id = tally l id := by
  induction l with
  | nil => rfl
  | cons e l ih =>
    by_cases he : e.2 > 0
    · rw [List.filter_cons_of_pos (by simpa using he), tally_cons, tally_cons, ih]
    · have hzero : e.2.val = 0 := by
        have : ¬ (0 : Nat) < e.2.val := he
        omega
      rw [List.filter_cons_of_neg (by simpa using he), tally_cons, ih, hzero]
      simp

/-- Credits of the positive amounts only. -/
theorem creditPositive_ok {checks : Bool} {l : List (U128 × U128)} {b b' : Balances}
    (h : l.foldlM (fun b e => if e.2 > 0 then credit checks b e.1 e.2 else .ok b) b = .ok b') :
    (l.filter fun e => e.2 > 0).foldlM (fun b e => credit checks b e.1 e.2) b = .ok b' := by
  induction l generalizing b with
  | nil => exact h
  | cons e l ih =>
    obtain ⟨b₁, h₁, h₂⟩ := foldlM_cons_eq_ok.mp h
    by_cases he : e.2 > 0
    · rw [if_pos he] at h₁
      rw [List.filter_cons_of_pos (by simpa using he)]
      exact foldlM_cons_eq_ok.mpr ⟨b₁, h₁, ih h₂⟩
    · rw [if_neg he] at h₁
      cases h₁
      rw [List.filter_cons_of_neg (by simpa using he)]
      exact ih h₂

/-! ## Inputs -/

/-- The dunes on the inputs of a transaction. -/
def inputDunes (tx : Transaction) (resolver : Table TxoRef TxoBody) : List (U128 × U128) :=
  tx.input.flatMap fun txin =>
    if txin.previousOutput.isNull then []
    else
      match resolver.get txin.previousOutput with
      | none => []
      | some body => body.dunes.map fun e => (e.1.toU128, e.2)

theorem unallocated_ok {checks : Bool} {tx : Transaction} {resolver : Table TxoRef TxoBody} {b : Balances}
    (h : unallocated checks tx resolver = .ok b) :
    (inputDunes tx resolver).foldlM (fun b e => credit checks b e.1 e.2) Table.empty = .ok b := by
  unfold unallocated at h
  unfold inputDunes
  generalize (Table.empty : Balances) = start at h ⊢
  generalize tx.input = inputs at h ⊢
  induction inputs generalizing start with
  | nil => exact h
  | cons txin inputs ih =>
    obtain ⟨b₁, h₁, h₂⟩ := foldlM_cons_eq_ok.mp h
    rw [List.flatMap_cons]
    refine foldlM_append_eq_ok.mpr ⟨b₁, ?_, ih _ h₂⟩
    split at h₁
    · rename_i hnull
      rw [if_pos hnull]
      exact h₁
    · rename_i hnull
      rw [if_neg hnull]
      cases hbody : resolver.get txin.previousOutput with
      | none =>
        rw [hbody] at h₁
        cases h₁
      | some body =>
        rw [hbody] at h₁
        simp only [List.foldlM_map]
        exact h₁

/-! ## Draws -/

inductive Pool where
  | issuance
  | mintable
  | unallocated
  deriving DecidableEq

def Purse.pool : Purse → Pool
  | .issuance _ _ => .issuance
  | .mintable _ _ => .mintable
  | .unallocated _ _ => .unallocated

/-- An amount that an edict moves from a pool to an output. -/
structure Draw where
  pool : Pool
  id : U128
  amount : U128
  output : Nat

/-- What an edict takes of a balance: all of it for the amount zero. -/
def Edict.take (edict : Edict) (balance : U128) : U128 :=
  if edict.amount = 0 then balance else min edict.amount balance

theorem Edict.take_le (edict : Edict) (balance : U128) : edict.take balance ≤ balance := by
  unfold Edict.take
  split
  · exact le_rfl
  · exact min_le_right _ _

/-- The purse of an edict to one of the first `outputs` outputs. -/
def drawing (outputs : Nat) (st : EdictState) (edict : Edict) : Option Purse :=
  if edict.output.val < 2 ^ 64 ∧ edict.output.val < outputs then purseOf st edict else none

/-- The draws of edicts, one after the other. -/
def draws (outputs : Nat) : EdictState → List Edict → List Draw
  | _, [] => []
  | st, edict :: edicts =>
    match drawing outputs st edict with
    | none => draws outputs st edicts
    | some purse =>
      ⟨purse.pool, purse.id, edict.take purse.balance, edict.output.val⟩ ::
        draws outputs (purse.store (purse.balance - edict.take purse.balance) st) edicts

/-- What draws take of an id from a pool. -/
def drawn (pool : Pool) (id : U128) (l : List Draw) : Nat :=
  (l.map fun d => if d.pool = pool ∧ d.id = id then d.amount.val else 0).sum

/-- What draws give of an id to an output. -/
def sentTo (output : Nat) (id : U128) (l : List Draw) : Nat :=
  (l.map fun d => if d.output = output ∧ d.id = id then d.amount.val else 0).sum

@[simp] theorem drawn_nil (pool : Pool) (id : U128) : drawn pool id [] = 0 := rfl

@[simp] theorem drawn_cons (pool : Pool) (id : U128) (d : Draw) (l : List Draw) :
    drawn pool id (d :: l) = (if d.pool = pool ∧ d.id = id then d.amount.val else 0) + drawn pool id l := rfl

@[simp] theorem sentTo_nil (output : Nat) (id : U128) : sentTo output id [] = 0 := rfl

@[simp] theorem sentTo_cons (output : Nat) (id : U128) (d : Draw) (l : List Draw) :
    sentTo output id (d :: l) = (if d.output = output ∧ d.id = id then d.amount.val else 0) + sentTo output id l :=
  rfl

theorem sum_range_single (n k a : Nat) :
    ((List.range n).map fun o => if k = o then a else 0).sum = if k < n then a else 0 := by
  induction n with
  | zero => simp
  | succ n ih =>
    rw [List.range_succ, List.map_append, List.sum_append, ih]
    simp only [List.map_cons, List.map_nil, List.sum_cons, List.sum_nil, Nat.add_zero]
    by_cases hk : k = n
    · simp [hk]
    · by_cases hlt : k < n
      · simp [hk, hlt, Nat.lt_succ_of_lt hlt]
      · have hge : ¬ k < n + 1 := by omega
        simp [hk, hlt, hge]

/-- **Every draw is received by one output.** -/
theorem sentTo_sum {outputs : Nat} {id : U128} {l : List Draw} (h : ∀ d ∈ l, d.output < outputs) :
    ((List.range outputs).map fun output => sentTo output id l).sum =
      drawn .issuance id l + drawn .mintable id l + drawn .unallocated id l := by
  induction l with
  | nil => simp
  | cons d l ih =>
    have hrest := ih (fun x hx => h x (List.mem_cons_of_mem _ hx))
    have hone : ((List.range outputs).map fun output =>
        if d.output = output ∧ d.id = id then d.amount.val else 0).sum = if d.id = id then d.amount.val else 0 := by
      by_cases hid : d.id = id
      · simp only [hid, and_true, if_true]
        rw [sum_range_single, if_pos (h d List.mem_cons_self)]
      · simp [hid]
    simp only [sentTo_cons, List.sum_map_add, hone, hrest, drawn_cons]
    cases d.pool <;> simp <;> omega

theorem draws_output {outputs : Nat} {edicts : List Edict} {st : EdictState} :
    ∀ d ∈ draws outputs st edicts, d.output < outputs := by
  induction edicts generalizing st with
  | nil =>
    intro d hd
    cases hd
  | cons edict edicts ih =>
    intro d hd
    unfold draws at hd
    split at hd
    · exact ih d hd
    · rename_i purse hpurse
      rcases List.mem_cons.mp hd with rfl | hd
      · unfold drawing at hpurse
        split at hpurse
        · rename_i hlt
          exact hlt.2
        · cases hpurse
      · exact ih d hd

/-- The balance of an id on an output. -/
def balanceAt (allocated : List Balances) (output : Nat) (id : U128) : U128 :=
  (allocated[output]?.getD Table.empty).getD id 0

theorem allocate_ok {checks : Bool} {id amount balance balance' : U128} {allocated allocated' : List Balances}
    {output : Nat} (h : allocate checks id (balance, allocated) amount output = .ok (balance', allocated')) :
    (amount ≤ balance → balance' = balance - amount) ∧ ∀ o i,
      (balanceAt allocated' o i).val =
        ((balanceAt allocated o i).val + if output = o ∧ id = i then amount.val else 0) % 2 ^ 128 ∧
      (checks = true → (balanceAt allocated o i).val + (if output = o ∧ id = i then amount.val else 0) < 2 ^ 128) := by
  unfold allocate at h
  split at h
  · obtain ⟨balance₁, hsub, h⟩ := bind_eq_ok.mp h
    obtain ⟨map, hmap, h⟩ := bind_eq_ok.mp h
    obtain ⟨map', hcredit, h⟩ := bind_eq_ok.mp h
    cases h
    obtain ⟨rfl, hfits⟩ := credit_ok hcredit
    have hmap := orPanic_eq_ok.mp hmap
    have hlt := (List.getElem?_eq_some_iff.mp hmap).1
    refine ⟨fun _ => Machine.sub_eq_some (orPanic_eq_ok.mp hsub), fun o i => ?_⟩
    unfold balanceAt
    by_cases ho : output = o
    · subst ho
      rw [List.getElem?_set_self hlt, hmap]
      simp only [Option.getD_some, true_and]
      refine ⟨getD_credited map (id, amount) i, fun hchecks => ?_⟩
      split
      · rename_i hi
        rw [← hi]
        exact hfits hchecks
      · exact Fin.isLt _
    · rw [List.getElem?_set_ne ho]
      simp only [ho, false_and, if_false, Nat.add_zero]
      exact ⟨(Nat.mod_eq_of_lt (Fin.isLt _)).symm, fun _ => Fin.isLt _⟩
  · rename_i hzero
    cases h
    have hzero : amount.val = 0 := by
      have : ¬ (0 : Nat) < amount.val := hzero
      omega
    have hamount : amount = 0 := Fin.ext hzero
    refine ⟨fun _ => by rw [hamount]; exact (Machine.sub_zero _).symm, fun o i => ?_⟩
    rw [hzero]
    simp only [ite_self, Nat.add_zero]
    exact ⟨(Nat.mod_eq_of_lt (Fin.isLt _)).symm, fun _ => Fin.isLt _⟩

/-- One edict reduces its purse and increases its output; it changes nothing else. -/
theorem processEdict_ok {deps : Deps} {checks : Bool} {tx : Transaction} {st st' : EdictState} {edict : Edict}
    (h : processEdict deps checks tx st edict = .ok st') :
    (drawing tx.output.length st edict = none ∧ st' = st) ∨
    ∃ purse premineAmount allocated, drawing tx.output.length st edict = some purse ∧
      st' = purse.store (purse.balance - edict.take purse.balance)
        { st with premineAmount := premineAmount, allocated := allocated } ∧
      ∀ o i,
        (balanceAt allocated o i).val = ((balanceAt st.allocated o i).val +
          if edict.output.val = o ∧ purse.id = i then (edict.take purse.balance).val else 0) % 2 ^ 128 ∧
        (checks = true → (balanceAt st.allocated o i).val +
          (if edict.output.val = o ∧ purse.id = i then (edict.take purse.balance).val else 0) < 2 ^ 128) := by
  unfold processEdict at h
  simp only at h
  unfold drawing
  split at h
  · rename_i hskip
    cases h
    left
    exact ⟨if_neg (by omega), rfl⟩
  · rename_i hvalid
    rw [not_or] at hvalid
    rw [if_pos (by omega)]
    split at h
    · rename_i hnone
      cases h
      exact Or.inl ⟨hnone, rfl⟩
    · rename_i purse hpurse
      right
      obtain ⟨premineAmount, -, h⟩ := bind_eq_ok.mp h
      rw [if_neg (by omega)] at h
      obtain ⟨⟨balance, allocated⟩, hmove, h⟩ := bind_eq_ok.mp h
      cases h
      obtain ⟨hbalance, hout⟩ := allocate_ok hmove
      refine ⟨purse, premineAmount, allocated, hpurse, ?_, hout⟩
      rw [hbalance (edict.take_le purse.balance)]
      rfl

/-- The draws depend on the pools only. -/
theorem draws_congr {outputs : Nat} {edicts : List Edict} {st st' : EdictState}
    (ha : st'.allocation = st.allocation) (hm : st'.mintable = st.mintable)
    (hu : st'.unallocated = st.unallocated) : draws outputs st' edicts = draws outputs st edicts := by
  induction edicts generalizing st st' with
  | nil => rfl
  | cons edict edicts ih =>
    have hpurse : drawing outputs st' edict = drawing outputs st edict := by
      unfold drawing purseOf
      rw [ha, hm, hu]
    unfold draws
    rw [hpurse]
    cases drawing outputs st edict with
    | none => exact ih ha hm hu
    | some purse =>
      refine congrArg (List.cons _) (ih ?_ ?_ ?_) <;> cases purse <;> simp only [Purse.store, ha, hm, hu]

/-- The balance of an id in a pool. -/
def poolBalance (st : EdictState) (pool : Pool) (id : U128) : Nat :=
  match pool with
  | .issuance => (st.allocation.map fun a => if a.id = id then a.balance.val else 0).getD 0
  | .mintable => (st.mintable.getD id 0).val
  | .unallocated => (st.unallocated.getD id 0).val

/-- A purse is what its pool holds of its id. -/
theorem poolBalance_purse {outputs : Nat} {st : EdictState} {edict : Edict} {purse : Purse}
    (h : drawing outputs st edict = some purse) : poolBalance st purse.pool purse.id = purse.balance.val := by
  unfold drawing at h
  split at h
  · unfold purseOf at h
    split at h
    · obtain ⟨a, ha, rfl⟩ := Option.map_eq_some_iff.mp h
      simp [poolBalance, Purse.pool, Purse.id, Purse.balance, ha]
    · split at h
      · obtain ⟨b, hb, rfl⟩ := Option.map_eq_some_iff.mp h
        simp [poolBalance, Purse.pool, Purse.id, Purse.balance, Table.getD, hb]
      · obtain ⟨b, hb, rfl⟩ := Option.map_eq_some_iff.mp h
        simp [poolBalance, Purse.pool, Purse.id, Purse.balance, Table.getD, hb]
  · cases h

/-- What is stored in a purse is what its pool then holds. -/
theorem poolBalance_store {outputs : Nat} {st : EdictState} {edict : Edict} {purse : Purse}
    (h : drawing outputs st edict = some purse) (balance : U128) (pool : Pool) (id : U128) :
    poolBalance (purse.store balance st) pool id =
      if purse.pool = pool ∧ purse.id = id then balance.val else poolBalance st pool id := by
  unfold drawing at h
  split at h
  · unfold purseOf at h
    split at h
    · obtain ⟨a, ha, rfl⟩ := Option.map_eq_some_iff.mp h
      by_cases hid : a.id = id <;> cases pool <;> simp [poolBalance, Purse.pool, Purse.id, Purse.store, ha, hid]
    · split at h
      · rename_i claim hclaim
        obtain ⟨b, hb, rfl⟩ := Option.map_eq_some_iff.mp h
        by_cases hid : claim = id
        · cases pool <;> simp [poolBalance, Purse.pool, Purse.id, Purse.store, Table.getD_insert, hid]
        · cases pool <;>
            simp [poolBalance, Purse.pool, Purse.id, Purse.store, Table.getD_insert, hid, Ne.symm hid]
      · obtain ⟨b, hb, rfl⟩ := Option.map_eq_some_iff.mp h
        by_cases hid : edict.id = id
        · cases pool <;> simp [poolBalance, Purse.pool, Purse.id, Purse.store, Table.getD_insert, hid]
        · cases pool <;>
            simp [poolBalance, Purse.pool, Purse.id, Purse.store, Table.getD_insert, hid, Ne.symm hid]
  · cases h

/-- Purses keep their keys and the id of the issuance. -/
structure SameKeys (st st' : EdictState) : Prop where
  issuance : st'.allocation.map (fun a => (a.id, a.dune)) = st.allocation.map (fun a => (a.id, a.dune))
  mintable : ∀ id, (st'.mintable.get id).isSome = (st.mintable.get id).isSome
  unallocated : ∀ id, (st'.unallocated.get id).isSome = (st.unallocated.get id).isSome

theorem SameKeys.refl (st : EdictState) : SameKeys st st := ⟨rfl, fun _ => rfl, fun _ => rfl⟩

theorem SameKeys.trans {st st' st'' : EdictState} (h : SameKeys st st') (h' : SameKeys st' st'') :
    SameKeys st st'' :=
  ⟨h'.issuance.trans h.issuance, fun id => (h'.mintable id).trans (h.mintable id),
    fun id => (h'.unallocated id).trans (h.unallocated id)⟩

theorem SameKeys.store {outputs : Nat} {st : EdictState} {edict : Edict} {purse : Purse}
    (h : drawing outputs st edict = some purse) (balance premineAmount : U128) (allocated : List Balances) :
    SameKeys st (purse.store balance { st with premineAmount := premineAmount, allocated := allocated }) := by
  have hpresent : ∀ (t : Balances) (k b : U128), t.get k = some b →
      ∀ id, ((t.insert k balance).get id).isSome = (t.get id).isSome := by
    intro t k b hb id
    rw [Table.get_insert]
    split
    · rename_i hid
      rw [hid, hb]
      rfl
    · rfl
  unfold drawing at h
  split at h
  · unfold purseOf at h
    split at h
    · obtain ⟨a, ha, rfl⟩ := Option.map_eq_some_iff.mp h
      exact ⟨by simp [Purse.store, ha], fun _ => rfl, fun _ => rfl⟩
    · split at h
      · obtain ⟨b, hb, rfl⟩ := Option.map_eq_some_iff.mp h
        exact ⟨rfl, hpresent st.mintable _ b hb, fun _ => rfl⟩
      · obtain ⟨b, hb, rfl⟩ := Option.map_eq_some_iff.mp h
        exact ⟨rfl, fun _ => rfl, hpresent st.unallocated _ b hb⟩
  · cases h

/-- **The edicts move their draws**: out of the pools, into the outputs. -/
theorem processEdicts_ok {deps : Deps} {checks : Bool} {tx : Transaction} {edicts : List Edict}
    {st st' : EdictState} (h : edicts.foldlM (processEdict deps checks tx) st = .ok st') :
    SameKeys st st' ∧
    (∀ pool id, poolBalance st pool id =
      poolBalance st' pool id + drawn pool id (draws tx.output.length st edicts)) ∧
    ∀ o id, (balanceAt st'.allocated o id).val =
        ((balanceAt st.allocated o id).val + sentTo o id (draws tx.output.length st edicts)) % 2 ^ 128 ∧
      (checks = true →
        (balanceAt st.allocated o id).val + sentTo o id (draws tx.output.length st edicts) < 2 ^ 128) := by
  induction edicts generalizing st with
  | nil =>
    cases h
    refine ⟨SameKeys.refl _, fun _ _ => rfl, fun o id => ⟨?_, fun _ => Fin.isLt _⟩⟩
    exact (Nat.mod_eq_of_lt (Fin.isLt _)).symm
  | cons edict edicts ih =>
    obtain ⟨st₁, h₁, h₂⟩ := foldlM_cons_eq_ok.mp h
    obtain ⟨hkeys, hpools, houts⟩ := ih h₂
    unfold draws
    rcases processEdict_ok h₁ with ⟨hnone, rfl⟩ | ⟨purse, premineAmount, allocated, hpurse, rfl, hout⟩
    · rw [hnone]
      exact ⟨hkeys, hpools, houts⟩
    · rw [hpurse]
      have hsame : draws tx.output.length
          (purse.store (purse.balance - edict.take purse.balance)
            { st with premineAmount := premineAmount, allocated := allocated }) edicts =
          draws tx.output.length (purse.store (purse.balance - edict.take purse.balance) st) edicts := by
        refine draws_congr ?_ ?_ ?_ <;> cases purse <;> rfl
      rw [hsame] at hpools houts
      have hallocated : (purse.store (purse.balance - edict.take purse.balance)
          { st with premineAmount := premineAmount, allocated := allocated }).allocated = allocated := by
        cases purse <;> rfl
      rw [hallocated] at houts
      have hle := edict.take_le purse.balance
      have hsub : (purse.balance - edict.take purse.balance).val =
          purse.balance.val - (edict.take purse.balance).val := Fin.coe_sub_iff_le.mpr hle
      refine ⟨(SameKeys.store hpurse _ _ _).trans hkeys, fun pool id => ?_, fun o id => ?_⟩
      · have hpool := hpools pool id
        have hstore : poolBalance (purse.store (purse.balance - edict.take purse.balance)
            { st with premineAmount := premineAmount, allocated := allocated }) pool id =
            if purse.pool = pool ∧ purse.id = id then (purse.balance - edict.take purse.balance).val
            else poolBalance st pool id := by
          rw [← poolBalance_store hpurse]
          cases purse <;> cases pool <;> rfl
        rw [hstore] at hpool
        simp only [drawn_cons]
        split at hpool
        · rename_i heq
          rw [if_pos heq, ← heq.1, ← heq.2, poolBalance_purse hpurse]
          rw [hsub] at hpool
          have hle' : (edict.take purse.balance).val ≤ purse.balance.val := hle
          rw [← heq.1, ← heq.2] at hpool
          omega
        · rename_i hne
          rw [if_neg hne, Nat.zero_add]
          exact hpool
      · obtain ⟨hfirst, hfirstFits⟩ := hout o id
        obtain ⟨hrest, hrestFits⟩ := houts o id
        simp only [sentTo_cons]
        refine ⟨?_, fun hchecks => ?_⟩
        · rw [hrest, hfirst, Nat.mod_add_mod, Nat.add_assoc]
        · have hlt := hfirstFits hchecks
          have hlt' := hrestFits hchecks
          rw [hfirst, Nat.mod_eq_of_lt hlt] at hlt'
          omega

end DogeIndexer.Compressor
