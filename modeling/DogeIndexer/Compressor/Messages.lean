import DogeIndexer.Compressor.Undo

/-!
# Recorded DRC-20 messages

The messages that a transaction records describe what it does to the DRC-20 tables: each of them is one
step, and `rollback` takes the steps back.

* `MessageStep` — what a recorded message does.
* `InscriptionsStep.recorded` — a transaction does what its recorded messages say.
* `Recorded.undone` — recorded messages are undone.
-/

set_option autoImplicit false

namespace DogeIndexer.Compressor

open Fallible

/-! ## Steps -/

/-- A recorded message leads from tables to tables. -/
inductive MessageStep (checks : Bool) (t : Brc20Tables) : BRC20Message → Brc20Tables → Prop
  | deploy {tick : Ticker} (terms : BRC20Terms) (hfree : t.terms.get tick = none) :
      MessageStep checks t (.deploy tick) { t with terms := t.terms.insert tick terms }
  | mint {tick : Ticker} {amt left newSupply newBalance : U128} {receiver : ScriptHash} (terms : BRC20Terms)
      (hterms : t.terms.get tick = some terms)
      (hleft : Machine.sub checks terms.max (t.supply.getD tick 0) = some left) (hamt : amt ≤ left)
      (hsupply : Machine.add checks (t.supply.getD tick 0) amt = some newSupply)
      (hbalance : Machine.add checks (t.balances.getD ⟨receiver, tick⟩ 0) amt = some newBalance)
      (hpositive : 0 < amt) (hlimit : amt ≤ terms.mintAmtLimit) :
      MessageStep checks t (.mint tick amt receiver) { t with
        supply := t.supply.insert tick newSupply
        balances := t.balances.insert ⟨receiver, tick⟩ newBalance }
  | transfer {tick : Ticker} {amt newBalance : U128} {outpoint : OutPoint} {receiver : ScriptHash}
      (hbalance : Machine.add checks (t.balances.getD ⟨receiver, tick⟩ 0) amt = some newBalance) :
      MessageStep checks t (.transfer tick amt outpoint receiver) { t with
        balances := t.balances.insert ⟨receiver, tick⟩ newBalance }
  | transferInit {tick : Ticker} {amt newBalance : U128} {receiver : ScriptHash}
      (hle : amt ≤ t.balances.getD ⟨receiver, tick⟩ 0)
      (hbalance : Machine.sub checks (t.balances.getD ⟨receiver, tick⟩ 0) amt = some newBalance) :
      MessageStep checks t (.transferInit tick amt receiver) { t with
        balances := t.balances.insert ⟨receiver, tick⟩ newBalance }

/-- Recorded messages, oldest first, lead from tables to tables. -/
inductive Recorded (checks : Bool) (t : Brc20Tables) : List (InscriptionId × BRC20Message) → Brc20Tables → Prop
  | nil : Recorded checks t [] t
  | snoc {messages : List (InscriptionId × BRC20Message)} {t' t'' : Brc20Tables} {message : InscriptionId × BRC20Message}
      (before : Recorded checks t messages t') (step : MessageStep checks t' message.2 t'') :
      Recorded checks t (messages ++ [message]) t''

theorem Recorded.append {checks : Bool} {t t' t'' : Brc20Tables} {l l' : List (InscriptionId × BRC20Message)}
    (h : Recorded checks t l t') (h' : Recorded checks t' l' t'') : Recorded checks t (l ++ l') t'' := by
  induction h' with
  | nil =>
    rw [List.append_nil]
    exact h
  | snoc before step ih =>
    rw [← List.append_assoc]
    exact .snoc ih step

/-- What is recorded between two states of an accumulator describes the way between them. -/
def Records (checks : Bool) (s s' : Brc20Tables × List (InscriptionId × BRC20Message)) : Prop :=
  ∃ added, s'.2 = s.2 ++ added ∧ Recorded checks s.1 added s'.1

section

variable {checks : Bool} {s s' s'' : Brc20Tables × List (InscriptionId × BRC20Message)}

theorem Records.refl (s : Brc20Tables × List (InscriptionId × BRC20Message)) : Records checks s s :=
  ⟨[], (List.append_nil _).symm, .nil⟩

theorem Records.trans (h : Records checks s s') (h' : Records checks s' s'') : Records checks s s'' := by
  obtain ⟨added, hlist, hsteps⟩ := h
  obtain ⟨added', hlist', hsteps'⟩ := h'
  exact ⟨added ++ added', by rw [hlist', hlist, List.append_assoc], hsteps.append hsteps'⟩

theorem Records.one {t t' : Brc20Tables} {valid : List (InscriptionId × BRC20Message)}
    {message : InscriptionId × BRC20Message} (step : MessageStep checks t message.2 t') :
    Records checks (t, valid) (t', valid ++ [message]) :=
  ⟨[message], rfl, .snoc .nil step⟩

/-- A fold whose steps are recorded is recorded. -/
theorem Records.foldlM {α : Type} {f : Brc20Tables × List (InscriptionId × BRC20Message) → α →
    Except Err (Brc20Tables × List (InscriptionId × BRC20Message))}
    (hf : ∀ s a s', f s a = .ok s' → Records checks s s') {l : List α} (h : l.foldlM f s = .ok s') :
    Records checks s s' :=
  foldlM_induct (P := fun _ x => Records checks s x) (fun a _ b b' hb hstep => hb.trans (hf b a b' hstep))
    (Records.refl s) h

/-! ## Transfers -/

theorem creditTransfer_records {t : Brc20Tables} {valid : List (InscriptionId × BRC20Message)} {id : InscriptionId}
    {transfer : UnusedTransfer} {receiver : ScriptHash}
    (h : creditTransfer checks t valid id transfer receiver = .ok s') : Records checks (t, valid) s' := by
  unfold creditTransfer at h
  obtain ⟨t', hcredit, h⟩ := bind_eq_ok.mp h
  cases h
  unfold creditBalance at hcredit
  obtain ⟨balance, hbalance, hcredit⟩ := bind_eq_ok.mp hcredit
  cases hcredit
  exact Records.one (.transfer (orPanic_eq_ok.mp hbalance))

theorem returnTransfers_records {unused : Table InscriptionId UnusedTransfer} {left : List Flotsam}
    (h : returnTransfers checks unused s left = .ok s') : Records checks s s' := by
  refine Records.foldlM ?_ h
  rintro ⟨t, valid⟩ flotsam s' hstep
  simp only at hstep
  split at hstep
  · exact creditTransfer_records hstep
  · cases hstep
    exact Records.refl _

theorem creditOutgoing_records {scripts : Table OutPoint ScriptHash} {unused : Table InscriptionId UnusedTransfer}
    {outgoing : List (SatPoint × InscriptionId)} (h : creditOutgoing checks scripts unused s outgoing = .ok s') :
    Records checks s s' := by
  refine Records.foldlM ?_ h
  rintro ⟨t, valid⟩ ⟨satpoint, id⟩ s' hstep
  simp only at hstep
  split at hstep
  · obtain ⟨receiver, -, hstep⟩ := bind_eq_ok.mp hstep
    exact creditTransfer_records hstep
  · cases hstep
    exact Records.refl _

/-! ## Messages -/

/-- A deployment is of the ticker it is looked up under. -/
theorem deploy_ticker {deps : Deps} {raw : RawProtocolMessage} {deploy : BRC20.DeployAction}
    (h : BRC20.DeployAction.parse deps raw = some deploy) : deploy.ticker = deps.toLowercase raw.tick := by
  unfold BRC20.DeployAction.parse at h
  split at h
  · cases h
  · split at h
    · cases h
    · obtain ⟨dec, -, h⟩ := Option.bind_eq_some_iff.mp h
      obtain ⟨max, -, h⟩ := Option.bind_eq_some_iff.mp h
      obtain ⟨max', -, h⟩ := Option.bind_eq_some_iff.mp h
      split at h
      · cases h
      · obtain ⟨limit, -, h⟩ := Option.bind_eq_some_iff.mp h
        cases h
        rfl

theorem mint_ticker {deps : Deps} {raw : RawProtocolMessage} {terms : BRC20Terms} {action : BRC20.AmountAction}
    (h : BRC20.MintAction.parse deps raw terms = some action) : action.ticker = deps.toLowercase raw.tick := by
  unfold BRC20.MintAction.parse at h
  split at h
  · cases h
  · obtain ⟨amt, -, h⟩ := Option.bind_eq_some_iff.mp h
    obtain ⟨amt', -, h⟩ := Option.bind_eq_some_iff.mp h
    split at h
    · cases h
    · split at h
      · cases h
      · cases h
        rfl

/-- A mint is of a positive amount within the limit. -/
theorem mint_amount {deps : Deps} {raw : RawProtocolMessage} {terms : BRC20Terms} {action : BRC20.AmountAction}
    (h : BRC20.MintAction.parse deps raw terms = some action) : 0 < action.amt ∧ action.amt ≤ terms.mintAmtLimit := by
  unfold BRC20.MintAction.parse at h
  split at h
  · cases h
  · obtain ⟨amt, -, h⟩ := Option.bind_eq_some_iff.mp h
    obtain ⟨amt', -, h⟩ := Option.bind_eq_some_iff.mp h
    split at h
    · cases h
    · rename_i hlimit
      split at h
      · cases h
      · rename_i hzero
        cases h
        exact ⟨Fin.pos_iff_ne_zero.mpr hzero, not_lt.mp hlimit⟩

theorem applyMint_records {m m' : MessageState} {id : InscriptionId} {receiver : Option ScriptHash}
    {terms : BRC20Terms} {action : BRC20.AmountAction} (hterms : m.brc20.terms.get action.ticker = some terms)
    (hamount : 0 < action.amt ∧ action.amt ≤ terms.mintAmtLimit)
    (h : applyMint checks m id receiver terms action = .ok m') :
    Records checks (m.brc20, m.valid) (m'.brc20, m'.valid) := by
  unfold applyMint at h
  simp only at h
  split at h
  · cases h
    exact Records.refl _
  · split at h
    · cases h
      exact Records.refl _
    · rename_i hopen
      obtain ⟨left, hleft, h⟩ := bind_eq_ok.mp h
      obtain ⟨newSupply, hsupply, h⟩ := bind_eq_ok.mp h
      obtain ⟨t, hcredit, h⟩ := bind_eq_ok.mp h
      cases h
      unfold creditBalance at hcredit
      obtain ⟨balance, hbalance, hcredit⟩ := bind_eq_ok.mp hcredit
      cases hcredit
      have hleft := orPanic_eq_ok.mp hleft
      -- at another supply than the maximal one something is left
      have hpositive : 0 < left := by
        refine Fin.pos_iff_ne_zero.mpr fun hzero => hopen ?_
        have hback := Machine.add_eq_some (Machine.sub_add hleft)
        rw [hzero, Fin.zero_add] at hback
        exact hback.symm
      exact Records.one (.mint terms hterms hleft (min_le_right _ _) (orPanic_eq_ok.mp hsupply)
        (orPanic_eq_ok.mp hbalance) (lt_min hamount.1 hpositive) ((min_le_left _ _).trans hamount.2))

theorem applyTransferInit_records {m m' : MessageState} {id : InscriptionId} {receiver : Option ScriptHash}
    {action : BRC20.AmountAction} (h : applyTransferInit checks m id receiver action = .ok m') :
    Records checks (m.brc20, m.valid) (m'.brc20, m'.valid) := by
  unfold applyTransferInit at h
  split at h
  · cases h
    exact Records.refl _
  · rename_i receiver
    simp only at h
    split at h
    · cases h
      exact Records.refl _
    · rename_i balance hget
      have hread : m.brc20.balances.getD ⟨receiver, action.ticker⟩ 0 = balance := by
        unfold Table.getD
        rw [hget, Option.getD_some]
      split at h
      · cases h
        exact Records.refl _
      · rename_i hle
        obtain ⟨newBalance, hbalance, h⟩ := bind_eq_ok.mp h
        cases h
        refine Records.one (.transferInit ?_ ?_)
        · rw [hread]
          exact not_lt.mp hle
        · rw [hread]
          exact orPanic_eq_ok.mp hbalance

theorem processMessage_records {deps : Deps} {scripts : Table InscriptionId ScriptHash} {m m' : MessageState}
    {message : InscriptionId × RawProtocolMessage} (h : processMessage deps checks scripts m message = .ok m') :
    Records checks (m.brc20, m.valid) (m'.brc20, m'.valid) := by
  obtain ⟨id, raw⟩ := message
  unfold processMessage at h
  simp only at h
  split at h
  · rename_i deploy hparse
    split at h
    · rename_i hfree
      cases h
      refine Records.one (.deploy _ ?_)
      rw [deploy_ticker hparse]
      exact Option.isNone_iff_eq_none.mp hfree
    · cases h
      exact Records.refl _
  · split at h
    · cases h
      exact Records.refl _
    · rename_i terms hterms
      split at h
      · rename_i action hparse
        exact applyMint_records (by rw [mint_ticker hparse]; exact hterms) (mint_amount hparse) h
      · split at h
        · exact applyTransferInit_records h
        · cases h
          exact Records.refl _

end

section

variable {deps : Deps} {cfg : Config} {height : Nat} {tx : Transaction} {resolver : Table TxoRef TxoBody}
  {s s' : InscriptionState}

theorem Indexed.recorded {txid : Txid} {r : IndexInscriptionsResult}
    (run : Indexed deps cfg resolver tx txid height s r s') :
    Recorded cfg.checks s.brc20 r.brc20Resolver s'.brc20 := by
  have hrest : Records cfg.checks (s.brc20, []) run.located.brc20 := by
    rcases run.rest_cases with ⟨-, -, hbrc, -⟩ | ⟨-, -, hreturn, -⟩
    · rw [hbrc]
      exact Records.refl _
    · exact returnTransfers_records hreturn
  have hmessages : Records cfg.checks run.credited (run.final.brc20, run.final.valid) :=
    foldlM_induct (P := fun _ (m : MessageState) => Records cfg.checks run.credited (m.brc20, m.valid))
      (fun _ _ _ _ hm hstep => hm.trans (processMessage_records hstep)) (Records.refl _) run.processes
  obtain ⟨added, hlist, hsteps⟩ := (hrest.trans (creditOutgoing_records run.credits)).trans hmessages
  simp only [List.nil_append] at hlist
  have hstate := congrArg InscriptionState.brc20 run.state
  simp only at hstate
  rw [run.resolved, hstate, hlist]
  exact hsteps

/-- **A transaction does what its recorded messages say.** -/
theorem InscriptionsStep.recorded {placed : List (List (U64 × InscriptionId))}
    {transfers : Table InscriptionId (Ticker × U128)} {messages : List (InscriptionId × BRC20Message)}
    (h : InscriptionsStep deps cfg height tx resolver s placed transfers messages s') :
    Recorded cfg.checks s.brc20 messages s'.brc20 := by
  cases h with
  | skipped => exact .nil
  | indexed hheight hindex =>
    obtain ⟨run⟩ := indexInscriptions_ok hindex
    exact run.recorded

/-- The messages of a block lead to its tables. -/
theorem Applied.recorded {n n' : Node} {block : Block} {mutable : Bool}
    (run : Applied deps cfg n height block mutable n') :
    Recorded cfg.checks n.db.tables.brc20 run.final.brc20Resolver n'.db.tables.brc20 := by
  obtain ⟨log, htables⟩ := run.tables
  rw [htables]
  refine run.inscriptions_induct (P := fun _ messages i => Recorded cfg.checks n.db.tables.brc20 messages i.brc20)
    .nil ?_
  intro done tx s placed transfers messages i _ _ hstep hP
  exact hP.append hstep.recorded

end

/-! ## Undo -/

/-- The tables read the same, where an absent supply or balance is 0. -/
structure Brc20Tables.Reads (t t' : Brc20Tables) : Prop where
  terms : t.terms = t'.terms
  supply : ∀ tick, t.supply.getD tick 0 = t'.supply.getD tick 0
  balances : ∀ key, t.balances.getD key 0 = t'.balances.getD key 0

theorem Brc20Tables.Reads.refl (t : Brc20Tables) : t.Reads t := ⟨rfl, fun _ => rfl, fun _ => rfl⟩

theorem Brc20Tables.Reads.trans {t t' t'' : Brc20Tables} (h : t.Reads t') (h' : t'.Reads t'') : t.Reads t'' :=
  ⟨h.terms.trans h'.terms, fun tick => (h.supply tick).trans (h'.supply tick),
    fun key => (h.balances key).trans (h'.balances key)⟩

/-- An amount that goes back to what it was reads as before. -/
theorem getD_insert_back {K : Type} [LinearOrder K] {b t : Table K U128} {k : K} {new old : U128}
    (h : ∀ k', b.getD k' 0 = (t.insert k new).getD k' 0) (hold : old = t.getD k 0) (k' : K) :
    (b.insert k old).getD k' 0 = t.getD k' 0 := by
  rw [Table.getD_insert]
  split
  · rename_i heq
    rw [hold, heq]
  · rename_i hne
    rw [h k', Table.getD_insert, if_neg hne]

/-- The amount that a step left. -/
theorem getD_insert_new {K : Type} [LinearOrder K] {b t : Table K U128} {k : K} {new : U128}
    (h : ∀ k', b.getD k' 0 = (t.insert k new).getD k' 0) : b.getD k 0 = new := by
  rw [h k, Table.getD_insert, if_pos rfl]

/-- **Undo of one recorded message.** -/
theorem MessageStep.undone {checks : Bool} {t t' b : Brc20Tables} {message : BRC20Message}
    (h : MessageStep checks t message t') (hb : b.Reads t') :
    ∃ b', undoMessage checks b message = .ok b' ∧ b'.Reads t := by
  cases h with
  | @deploy tick terms hfree =>
    refine ⟨{ b with terms := b.terms.erase tick }, rfl, ?_, hb.supply, hb.balances⟩
    simp only [hb.terms]
    exact Table.erase_insert hfree
  | @mint tick amt left newSupply newBalance receiver terms hterms hleft hamt hsupply hbalance hpositive hlimit =>
    refine ⟨{ b with
      supply := b.supply.insert tick (t.supply.getD tick 0)
      balances := b.balances.insert ⟨receiver, tick⟩ (t.balances.getD ⟨receiver, tick⟩ 0) }, ?_, hb.terms,
      getD_insert_back hb.supply rfl, getD_insert_back hb.balances rfl⟩
    unfold undoMessage
    simp only
    rw [getD_insert_new hb.supply, getD_insert_new hb.balances, Machine.add_sub hsupply, Machine.add_sub hbalance]
    rfl
  | @transfer tick amt newBalance outpoint receiver hbalance =>
    refine ⟨{ b with balances := b.balances.insert ⟨receiver, tick⟩ (t.balances.getD ⟨receiver, tick⟩ 0) }, ?_,
      hb.terms, hb.supply, getD_insert_back hb.balances rfl⟩
    unfold undoMessage
    simp only
    rw [getD_insert_new hb.balances, Machine.add_sub hbalance]
    rfl
  | @transferInit tick amt newBalance receiver hle hbalance =>
    refine ⟨{ b with balances := b.balances.insert ⟨receiver, tick⟩ (t.balances.getD ⟨receiver, tick⟩ 0) }, ?_,
      hb.terms, hb.supply, getD_insert_back hb.balances rfl⟩
    unfold undoMessage
    simp only
    rw [getD_insert_new hb.balances, Machine.sub_add hbalance]
    rfl

/-- **Undo of recorded messages**, last first. -/
theorem Recorded.undone {checks : Bool} {t t' b : Brc20Tables} {messages : List (InscriptionId × BRC20Message)}
    (h : Recorded checks t messages t') (hb : b.Reads t') :
    ∃ b', undoneMessages checks messages b = .ok b' ∧ b'.Reads t := by
  induction h generalizing b with
  | nil => exact ⟨b, rfl, hb⟩
  | snoc before step ih =>
    obtain ⟨b₁, hone, hb₁⟩ := step.undone hb
    obtain ⟨b', hrest, hb'⟩ := ih hb₁
    refine ⟨b', ?_, hb'⟩
    unfold undoneMessages at hrest ⊢
    rw [List.map_append, List.reverse_append]
    exact foldlM_cons_eq_ok.mpr ⟨b₁, hone, hrest⟩

end DogeIndexer.Compressor
