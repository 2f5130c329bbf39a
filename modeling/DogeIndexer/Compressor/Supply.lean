import DogeIndexer.Compressor.Messages

/-!
# The supply of a ticker

What the recorded messages do to the supply of a DRC-20 ticker.  The supply is in balances or outside of
them, on outputs that carry a transfer inscription: mints add to the supply and to a balance, transfers
bring an amount from outside into a balance, and transfer inscriptions take it out again.

* `Recorded.bounded` — the supply stays within the maximum of the terms.
* `Recorded.covers` — the supply covers the balances and what is outside, and no credit overflows.
-/

set_option autoImplicit false

namespace DogeIndexer.Compressor

/-! ## Amounts -/

/-- The balances of a ticker over all scripts. -/
def balancesOf (balances : Table ScriptAndBRC20Kind U128) (tick : Ticker) : Nat :=
  balances.total fun key amt => if key.brc20Ticker = tick then amt.val else 0

/-- The maximal supply of a ticker, 0 when it is not deployed. -/
def Brc20Tables.maximum (t : Brc20Tables) (tick : Ticker) : U128 :=
  match t.terms.get tick with
  | some terms => terms.max
  | none => 0

/-- The supply is within its maximum. -/
def Brc20Tables.Bounded (t : Brc20Tables) : Prop := ∀ tick, t.supply.getD tick 0 ≤ t.maximum tick

/-- The supply is in the balances and in the amounts `outside`. -/
def Brc20Tables.Covers (t : Brc20Tables) (outside : Ticker → Nat) : Prop :=
  ∀ tick, (t.supply.getD tick 0).val = balancesOf t.balances tick + outside tick

/-- The amount of a ticker that a message brings into a balance from outside. -/
def BRC20Message.transferred (tick : Ticker) : BRC20Message → Nat
  | .transfer t amt _ _ => if t = tick then amt.val else 0
  | _ => 0

/-- The amount of a ticker that a message takes out of a balance. -/
def BRC20Message.reserved (tick : Ticker) : BRC20Message → Nat
  | .transferInit t amt _ => if t = tick then amt.val else 0
  | _ => 0

def transferred (messages : List (InscriptionId × BRC20Message)) (tick : Ticker) : Nat :=
  (messages.map fun m => m.2.transferred tick).sum

def reserved (messages : List (InscriptionId × BRC20Message)) (tick : Ticker) : Nat :=
  (messages.map fun m => m.2.reserved tick).sum

theorem transferred_append (l l' : List (InscriptionId × BRC20Message)) (tick : Ticker) :
    transferred (l ++ l') tick = transferred l tick + transferred l' tick := by
  unfold transferred
  rw [List.map_append, List.sum_append]

theorem reserved_append (l l' : List (InscriptionId × BRC20Message)) (tick : Ticker) :
    reserved (l ++ l') tick = reserved l tick + reserved l' tick := by
  unfold reserved
  rw [List.map_append, List.sum_append]

@[simp] theorem transferred_single (m : InscriptionId × BRC20Message) (tick : Ticker) :
    transferred [m] tick = m.2.transferred tick := by
  simp [transferred]

@[simp] theorem reserved_single (m : InscriptionId × BRC20Message) (tick : Ticker) :
    reserved [m] tick = m.2.reserved tick := by
  simp [reserved]

/-- A balance that is replaced. -/
theorem balancesOf_insert (balances : Table ScriptAndBRC20Kind U128) (receiver : ScriptHash) (tick : Ticker)
    (amt : U128) (tick' : Ticker) :
    balancesOf (balances.insert ⟨receiver, tick⟩ amt) tick' +
        (if tick = tick' then (balances.getD ⟨receiver, tick⟩ 0).val else 0) =
      balancesOf balances tick' + if tick = tick' then amt.val else 0 :=
  Table.total_insert_getD (fun key => by split <;> rfl) balances ⟨receiver, tick⟩ amt

/-- A balance is part of those of its ticker. -/
theorem balance_le (balances : Table ScriptAndBRC20Kind U128) (receiver : ScriptHash) (tick : Ticker) :
    (balances.getD ⟨receiver, tick⟩ 0).val ≤ balancesOf balances tick := by
  have hle := Table.getD_le_total (f := fun (key : ScriptAndBRC20Kind) (amt : U128) =>
    if key.brc20Ticker = tick then amt.val else 0) (d := 0) (fun key => by split <;> rfl) balances ⟨receiver, tick⟩
  rwa [if_pos rfl] at hle

/-- What is in and outside the balances reads the same in tables that read the same. -/
theorem Brc20Tables.Reads.covers {t t' : Brc20Tables} {outside : Ticker → Nat} (h : t'.Reads t)
    (hc : t.Covers outside) : t'.Covers outside := by
  intro tick
  have hsame : balancesOf t'.balances tick = balancesOf t.balances tick :=
    Table.total_of_getD (fun key => by split <;> rfl) h.balances
  rw [h.supply, hsame, hc tick]

theorem Brc20Tables.Reads.bounded {t t' : Brc20Tables} (h : t'.Reads t) (hb : t.Bounded) : t'.Bounded := by
  intro tick
  unfold maximum
  rw [h.supply, h.terms]
  exact hb tick

/-! ## Messages -/

section

variable {checks : Bool} {t t' : Brc20Tables} {message : BRC20Message}

/-- What a mint adds is what the terms leave. -/
theorem mint_supply {terms : BRC20Terms} {tick : Ticker} {left newSupply amt : U128}
    (hb : t.Bounded) (hterms : t.terms.get tick = some terms)
    (hleft : Machine.sub checks terms.max (t.supply.getD tick 0) = some left) (hamt : amt ≤ left)
    (hsupply : Machine.add checks (t.supply.getD tick 0) amt = some newSupply) :
    Machine.sub true terms.max (t.supply.getD tick 0) = some left ∧
      Machine.add true (t.supply.getD tick 0) amt = some newSupply ∧
      newSupply.val = (t.supply.getD tick 0).val + amt.val ∧ newSupply ≤ terms.max := by
  have hmaximum : t.maximum tick = terms.max := by
    unfold Brc20Tables.maximum
    rw [hterms]
  have hwithin : (t.supply.getD tick 0).val ≤ terms.max.val := by
    rw [← hmaximum]
    exact hb tick
  obtain ⟨hleft, hval⟩ := Machine.sub_checked hleft hwithin
  have hle : amt.val ≤ left.val := hamt
  have hmax := terms.max.isLt
  obtain ⟨hsupply, hnew⟩ := Machine.add_checked hsupply (by omega)
  exact ⟨hleft, hsupply, hnew, Fin.le_def.mpr (by omega)⟩

/-- **One message keeps the supply within its maximum.** -/
theorem MessageStep.bounded (h : MessageStep checks t message t') (hb : t.Bounded) : t'.Bounded := by
  cases h with
  | @deploy tick terms hfree =>
    intro tick'
    have hbefore := hb tick'
    unfold Brc20Tables.maximum at hbefore ⊢
    simp only
    rw [Table.get_insert]
    by_cases heq : tick' = tick
    · -- nothing is minted before the deployment
      rw [heq, hfree] at hbefore
      rw [if_pos heq, heq]
      exact hbefore.trans (Fin.zero_le _)
    · rw [if_neg heq]
      exact hbefore
  | @mint tick amt left newSupply newBalance receiver terms hterms hleft hamt hsupply =>
    obtain ⟨-, -, -, hle⟩ := mint_supply hb hterms hleft hamt hsupply
    intro tick'
    simp only [Table.getD_insert]
    split
    · rename_i heq
      unfold Brc20Tables.maximum
      simp only
      rw [heq, hterms]
      exact hle
    · exact hb tick'
  | transfer => exact hb
  | transferInit => exact hb

theorem Recorded.bounded {messages : List (InscriptionId × BRC20Message)} (h : Recorded checks t messages t')
    (hb : t.Bounded) : t'.Bounded := by
  induction h with
  | nil => exact hb
  | snoc before step ih => exact step.bounded ih

/-- **One message keeps the supply covered**, and completes with overflow checks. -/
theorem MessageStep.covers {outside : Ticker → Nat} (h : MessageStep checks t message t') (hb : t.Bounded)
    (hc : t.Covers outside) (hle : ∀ tick, message.transferred tick ≤ outside tick) :
    MessageStep true t message t' ∧
      t'.Covers fun tick => outside tick - message.transferred tick + message.reserved tick := by
  cases h with
  | deploy terms hfree => exact ⟨.deploy terms hfree, fun tick => hc tick⟩
  | @mint tick amt left newSupply newBalance receiver terms hterms hleft hamt hsupply hbalance hpositive hlimit =>
    obtain ⟨hleft', hsupply', hnew, hmax⟩ := mint_supply hb hterms hleft hamt hsupply
    have hlt := newSupply.isLt
    have hpart := balance_le t.balances receiver tick
    have hcovered := hc tick
    obtain ⟨hbalance', hval⟩ := Machine.add_checked hbalance (by omega)
    refine ⟨.mint terms hterms hleft' hamt hsupply' hbalance' hpositive hlimit, fun tick' => ?_⟩
    have hbalances := balancesOf_insert t.balances receiver tick newBalance tick'
    have hcovered' := hc tick'
    simp only [Table.getD_insert, BRC20Message.transferred, BRC20Message.reserved]
    by_cases heq : tick' = tick
    · subst heq
      simp only [if_true] at hbalances ⊢
      omega
    · rw [if_neg (Ne.symm heq), if_neg (Ne.symm heq)] at hbalances
      rw [if_neg heq]
      omega
  | @transfer tick amt newBalance outpoint receiver hbalance =>
    have hpart := balance_le t.balances receiver tick
    have hcovered := hc tick
    have hin := hle tick
    have hlt := (t.supply.getD tick 0).isLt
    simp only [BRC20Message.transferred, if_true] at hin
    obtain ⟨hbalance', hval⟩ := Machine.add_checked hbalance (by omega)
    refine ⟨.transfer hbalance', fun tick' => ?_⟩
    have hbalances := balancesOf_insert t.balances receiver tick newBalance tick'
    have hcovered' := hc tick'
    simp only [BRC20Message.transferred, BRC20Message.reserved]
    by_cases heq : tick = tick'
    · subst heq
      simp only [if_true] at hbalances ⊢
      omega
    · rw [if_neg heq, if_neg heq] at hbalances
      rw [if_neg heq]
      omega
  | @transferInit tick amt newBalance receiver hamt hbalance =>
    obtain ⟨hbalance', hval⟩ := Machine.sub_checked hbalance hamt
    refine ⟨.transferInit hamt hbalance', fun tick' => ?_⟩
    have hbalances := balancesOf_insert t.balances receiver tick newBalance tick'
    have hcovered' := hc tick'
    have hle : amt.val ≤ (t.balances.getD ⟨receiver, tick⟩ 0).val := hamt
    simp only [BRC20Message.transferred, BRC20Message.reserved]
    by_cases heq : tick = tick'
    · subst heq
      simp only [if_true] at hbalances ⊢
      omega
    · rw [if_neg heq, if_neg heq] at hbalances
      rw [if_neg heq]
      omega

/-- **Recorded messages keep the supply covered** when no more is transferred than is outside; then they
complete with overflow checks. -/
theorem Recorded.covers {outside : Ticker → Nat} {messages : List (InscriptionId × BRC20Message)}
    (h : Recorded checks t messages t') (hb : t.Bounded) (hc : t.Covers outside)
    (hle : ∀ tick, transferred messages tick ≤ outside tick) :
    Recorded true t messages t' ∧
      t'.Covers fun tick => outside tick - transferred messages tick + reserved messages tick := by
  induction h with
  | nil => exact ⟨.nil, fun tick => hc tick⟩
  | @snoc messages t₁ t₂ message before step ih =>
    have hsum : ∀ tick, transferred messages tick + message.2.transferred tick ≤ outside tick := by
      intro tick
      have hall := hle tick
      rwa [transferred_append, transferred_single] at hall
    obtain ⟨hbefore, hcovered⟩ := ih fun tick => (Nat.le_add_right _ _).trans (hsum tick)
    obtain ⟨hstep, hafter⟩ := step.covers (before.bounded hb) hcovered fun tick => by
      have hin := hsum tick
      omega
    refine ⟨.snoc hbefore hstep, fun tick => ?_⟩
    have hcovered := hafter tick
    have hin := hsum tick
    simp only [transferred_append, reserved_append, transferred_single, reserved_single] at hcovered ⊢
    omega

end

end DogeIndexer.Compressor
