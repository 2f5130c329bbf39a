import DogeIndexer.Compressor.Conservation
import DogeIndexer.Compressor.Reveals
import DogeIndexer.Compressor.Subtractions

/-!
# The subtractions of DRC-20 amounts

The operands of every subtraction of a DRC-20 amount: what the terms leave to a mint, a balance less a
transfer inscription, and what `rollback` takes back from supplies and balances.

* `blockDebits_le` — applying a block never underflows.
* `Recorded.within` — recorded mints are positive and within the limit.
* `supply_in_order` — in every reachable node the supplies are within their terms, and no subtraction of a
  block or of a rollback underflows, unless an inscription is revealed twice in a build without overflow checks.
-/

set_option autoImplicit false

namespace DogeIndexer.Compressor

open Fallible

/-! ## Operands -/

/-- What is left to a mint: the maximum less the supply. -/
def mintDebits (t : Brc20Tables) (receiver : Option ScriptHash) (terms : BRC20Terms) (action : BRC20.AmountAction) :
    List (U128 × U128) :=
  let supply := t.supply.getD action.ticker 0
  match receiver with
  | none => []
  | some _ => if supply = terms.max then [] else [(terms.max, supply)]

/-- The balance less the amount of a transfer inscription. -/
def transferInitDebits (t : Brc20Tables) (receiver : Option ScriptHash) (action : BRC20.AmountAction) :
    List (U128 × U128) :=
  match receiver with
  | none => []
  | some receiver =>
    match t.balances.get ⟨receiver, action.ticker⟩ with
    | none => []
    | some balance => if balance < action.amt then [] else [(balance, action.amt)]

/-- The subtractions of one DRC-20 message. -/
def messageDebits (deps : Deps) (idToScript : Table InscriptionId ScriptHash) (t : Brc20Tables)
    (message : InscriptionId × RawProtocolMessage) : List (U128 × U128) :=
  let (id, raw) := message
  match BRC20.DeployAction.parse deps raw with
  | some _ => []
  | none =>
    match t.terms.get (deps.toLowercase raw.tick) with
    | none => []
    | some terms =>
      match BRC20.MintAction.parse deps raw terms with
      | some action => mintDebits t (idToScript.get id) terms action
      | none =>
        match BRC20.TransferAction.parse deps raw terms with
        | some action => transferInitDebits t (idToScript.get id) action
        | none => []

/-- Those of the messages of a transaction, as far as their processing gets. -/
def messagesDebits (deps : Deps) (checks : Bool) (idToScript : Table InscriptionId ScriptHash) :
    MessageState → List (InscriptionId × RawProtocolMessage) → List (U128 × U128)
  | _, [] => []
  | s, message :: rest =>
    messageDebits deps idToScript s.brc20 message ++ match processMessage deps checks idToScript s message with
      | .ok s' => messagesDebits deps checks idToScript s' rest
      | .error _ => []

/-- Those of `index_inscriptions`. -/
def txDebits (deps : Deps) (cfg : Config) (resolver : Table TxoRef TxoBody) (tx : Transaction) (height : Nat)
    (s : InscriptionState) : Except Err (List (U128 × U128)) := do
  let (inputs, messages, s) ← floatingInscriptions deps cfg.checks resolver height tx tx.txid s
  let located ← locate cfg.checks tx tx.txid inputs s
  let scripts := outpointToScript deps tx.txid tx.output
  let (t, valid) ← creditOutgoing cfg.checks scripts inputs.unused located.brc20 located.outgoing
  return messagesDebits deps cfg.checks (inscriptionIdToScript scripts located.outgoing) ⟨t, valid, Table.empty⟩ messages

/-- Those of a block, as far as its processing gets. -/
def blockDebits (deps : Deps) (cfg : Config) (n : Node) (height : Nat) (block : Block) : List (U128 × U128) :=
  if cfg.firstInscriptionHeight ≤ height then
    (blockSteps deps cfg n height block).flatMap fun step =>
      match txDebits deps cfg step.2.resolver step.1 height step.2.inscriptions with
      | .ok l => l
      | .error _ => []
  else []

/-- The subtractions that undo a recorded message. -/
def undoDebits (t : Brc20Tables) : BRC20Message → List (U128 × U128)
  | .deploy _ => []
  | .mint tick amt receiver => [(t.supply.getD tick 0, amt), (t.balances.getD ⟨receiver, tick⟩ 0, amt)]
  | .transfer tick amt _ receiver => [(t.balances.getD ⟨receiver, tick⟩ 0, amt)]
  | .transferInit _ _ _ => []

/-- Those of messages in the order in which they are undone. -/
def undoneDebits (checks : Bool) : Brc20Tables → List BRC20Message → List (U128 × U128)
  | _, [] => []
  | t, message :: rest =>
    undoDebits t message ++ match undoMessage checks t message with
      | .ok t' => undoneDebits checks t' rest
      | .error _ => []

/-- Those of the undo of a block. -/
def undoBlockDebits (cfg : Config) (t : Tables) (entry : Nat × BlockHash × Block) : List (U128 × U128) :=
  match t.resolverByHeight.get entry.1 with
  | none => []
  | some resolver =>
    if resolver.hash ≠ entry.2.1 then []
    else undoneDebits cfg.checks t.brc20 (resolver.brc20Resolver.map Prod.snd).reverse

/-- Those of blocks in the order in which they are undone. -/
def undoBlocksDebits (deps : Deps) (cfg : Config) (mutable : Bool) :
    Tables × Nat → List (Nat × BlockHash × Block) → List (U128 × U128)
  | _, [] => []
  | s, entry :: rest =>
    undoBlockDebits cfg s.1 entry ++ match undoBlock deps cfg mutable s entry with
      | .ok s' => undoBlocksDebits deps cfg mutable s' rest
      | .error _ => []

/-- Those of `rollback`. -/
def rollbackDebits (deps : Deps) (cfg : Config) (n : Node) (rbHeight : Nat) (rbHash : BlockHash) (mutable : Bool) :
    List (U128 × U128) :=
  match n.db.tables.blockByHeight.entriesFrom rbHeight with
  | [] => []
  | (foundHeight, foundHash, _) :: toRemove =>
    if rbHeight ≠ foundHeight ∨ rbHash ≠ foundHash then []
    else undoBlocksDebits deps cfg mutable (n.db.tables, n.db.nextWalSeq) toRemove.reverse

/-! ## Messages -/

section

variable {deps : Deps} {checks : Bool} {idToScript : Table InscriptionId ScriptHash}

/-- A supply is within the maximum of its terms. -/
theorem Brc20Tables.Bounded.le {t : Brc20Tables} (hb : t.Bounded) {tick : Ticker} {terms : BRC20Terms}
    (hterms : t.terms.get tick = some terms) : t.supply.getD tick 0 ≤ terms.max := by
  have hle := hb tick
  unfold Brc20Tables.maximum at hle
  rwa [hterms] at hle

theorem mintDebits_le {t : Brc20Tables} {receiver : Option ScriptHash} {terms : BRC20Terms}
    {action : BRC20.AmountAction} (hb : t.Bounded) (hterms : t.terms.get action.ticker = some terms) :
    ∀ p ∈ mintDebits t receiver terms action, p.2 ≤ p.1 := by
  intro p hp
  unfold mintDebits at hp
  cases receiver with
  | none => cases hp
  | some receiver =>
    simp only at hp
    split at hp
    · cases hp
    · rw [List.mem_singleton.mp hp]
      exact hb.le hterms

theorem transferInitDebits_le (t : Brc20Tables) (receiver : Option ScriptHash) (action : BRC20.AmountAction) :
    ∀ p ∈ transferInitDebits t receiver action, p.2 ≤ p.1 := by
  intro p hp
  unfold transferInitDebits at hp
  split at hp
  · cases hp
  · split at hp
    · cases hp
    · split at hp
      · cases hp
      · rename_i hle
        rw [List.mem_singleton.mp hp]
        exact not_lt.mp hle

/-- **One message never underflows.** -/
theorem messageDebits_le {t : Brc20Tables} (hb : t.Bounded) (message : InscriptionId × RawProtocolMessage) :
    ∀ p ∈ messageDebits deps idToScript t message, p.2 ≤ p.1 := by
  obtain ⟨id, raw⟩ := message
  intro p hp
  unfold messageDebits at hp
  simp only at hp
  split at hp
  · cases hp
  · split at hp
    · cases hp
    · rename_i terms hterms
      split at hp
      · rename_i action hparse
        exact mintDebits_le hb (by rw [mint_ticker hparse]; exact hterms) p hp
      · split at hp
        · exact transferInitDebits_le t _ _ p hp
        · cases hp

theorem Records.bounded {s s' : Brc20Tables × List (InscriptionId × BRC20Message)} (h : Records checks s s')
    (hb : s.1.Bounded) : s'.1.Bounded := by
  obtain ⟨added, -, hsteps⟩ := h
  exact hsteps.bounded hb

theorem messagesDebits_le {s : MessageState} (hb : s.brc20.Bounded)
    (messages : List (InscriptionId × RawProtocolMessage)) :
    ∀ p ∈ messagesDebits deps checks idToScript s messages, p.2 ≤ p.1 := by
  induction messages generalizing s with
  | nil => exact fun p hp => (List.not_mem_nil hp).elim
  | cons message rest ih =>
    intro p hp
    rcases List.mem_append.mp hp with hp | hp
    · exact messageDebits_le hb message p hp
    · split at hp
      · rename_i s' hrun
        exact ih ((processMessage_records hrun).bounded hb) p hp
      · cases hp

end

/-! ## A block -/

section

variable {deps : Deps} {cfg : Config} {n n' : Node} {height : Nat} {block : Block} {mutable : Bool}

/-- Before the messages a transaction keeps the supplies bounded, so they do not underflow. -/
theorem txDebits_le {resolver : Table TxoRef TxoBody} {tx : Transaction} {s : InscriptionState}
    {l : List (U128 × U128)} (hb : s.brc20.Bounded) (h : txDebits deps cfg resolver tx height s = .ok l) :
    ∀ p ∈ l, p.2 ≤ p.1 := by
  unfold txDebits at h
  obtain ⟨⟨inputs, messages, s₁⟩, hfloat, h⟩ := bind_eq_ok.mp h
  obtain ⟨located, hlocate, h⟩ := bind_eq_ok.mp h
  obtain ⟨⟨t, valid⟩, hcredit, h⟩ := bind_eq_ok.mp h
  cases h
  obtain ⟨collected, revealed, after, hcollect, ⟨total, -, hreveal⟩, -, rfl⟩ := floatingInscriptions_ok hfloat
  have hafter : after.brc20 = s.brc20 := by
    split at hreveal
    · rename_i hall
      exact (reveal_outcome hcollect hall hreveal).frame.1
    · cases hreveal
      rfl
  unfold locate at hlocate
  obtain ⟨⟨placed, left, outputValue⟩, -, hlocate⟩ := bind_eq_ok.mp hlocate
  obtain ⟨counters, -, hrest⟩ := bind_eq_ok.mp hlocate
  have hlocated : located.brc20.1.Bounded := by
    rcases locateRest_ok hrest with ⟨-, lost, counters', lostSats, -, hloc⟩ | ⟨-, brc20, reward, hreturn, -, hloc⟩
    · rw [hloc, hafter]
      exact hb
    · rw [hloc]
      exact (returnTransfers_records hreturn).bounded (by rw [hafter]; exact hb)
  exact messagesDebits_le ((creditOutgoing_records hcredit).bounded hlocated) messages

/-- The supplies are bounded at every step that the processing of a block comes to. -/
theorem StepReached.bounded {step : Transaction × BlockState} (r : StepReached deps cfg n height block step)
    (hb : n.db.tables.brc20.Bounded) : step.2.inscriptions.brc20.Bounded := by
  refine ProcessedTxs.induct (P := fun _ _ s => s.inscriptions.brc20.Bounded) r.processes [] ?_ ?_
  · intro done tx idx rest later s s₁ _ _ ptx _ hs
    rw [ptx.inscriptions_eq]
    exact ptx.inscriptions.recorded.bounded hs
  · rw [r.inscriptions]
    exact hb

/-- **Applying a block never underflows.** -/
theorem blockDebits_le (hb : n.db.tables.brc20.Bounded) (height : Nat) (block : Block) :
    ∀ p ∈ blockDebits deps cfg n height block, p.2 ≤ p.1 := by
  intro p hp
  unfold blockDebits at hp
  split at hp
  · obtain ⟨step, hstep, hp⟩ := List.mem_flatMap.mp hp
    obtain ⟨r⟩ := mem_blockSteps hstep
    split at hp
    · rename_i l hl
      exact txDebits_le (r.bounded hb) hl p hp
    · cases hp
  · cases hp

end

/-! ## Undo -/

section

variable {deps : Deps} {cfg : Config} {checks : Bool} {t t' b : Brc20Tables}

/-- What completes with overflow checks completes without them. -/
theorem MessageStep.unchecked {message : BRC20Message} (h : MessageStep true t message t') :
    MessageStep checks t message t' := by
  cases h with
  | deploy terms hfree => exact .deploy terms hfree
  | mint terms hterms hleft hamt hsupply hbalance hpositive hlimit =>
    exact .mint terms hterms (Machine.sub_unchecked hleft) hamt (Machine.add_unchecked hsupply)
      (Machine.add_unchecked hbalance) hpositive hlimit
  | transfer hbalance => exact .transfer (Machine.add_unchecked hbalance)
  | transferInit hle hbalance => exact .transferInit hle (Machine.sub_unchecked hbalance)

/-- **Undo of one message never underflows** when it completes with overflow checks. -/
theorem MessageStep.undoDebits_le {message : BRC20Message} (h : MessageStep true t message t') (hb : b.Reads t') :
    ∀ p ∈ undoDebits b message, p.2 ≤ p.1 := by
  intro p hp
  cases h with
  | deploy => cases hp
  | mint terms hterms hleft hamt hsupply hbalance =>
    rcases List.mem_cons.mp hp with rfl | hp
    · simp only [getD_insert_new hb.supply]
      exact Machine.le_of_add hsupply
    · rw [List.mem_singleton.mp hp]
      simp only [getD_insert_new hb.balances]
      exact Machine.le_of_add hbalance
  | transfer hbalance =>
    rw [List.mem_singleton.mp hp]
    simp only [getD_insert_new hb.balances]
    exact Machine.le_of_add hbalance
  | transferInit => cases hp

/-- **Undo of recorded messages never underflows** when they complete with overflow checks. -/
theorem Recorded.undoneDebits_le {messages : List (InscriptionId × BRC20Message)} (h : Recorded true t messages t')
    (hb : b.Reads t') : ∀ p ∈ undoneDebits checks b (messages.map Prod.snd).reverse, p.2 ≤ p.1 := by
  induction h generalizing b with
  | nil => exact fun p hp => (List.not_mem_nil hp).elim
  | snoc before step ih =>
    intro p hp
    rw [List.map_append, List.reverse_append] at hp
    rcases List.mem_append.mp hp with hp | hp
    · exact step.undoDebits_le hb p hp
    · have hstep : MessageStep checks _ _ _ := step.unchecked
      obtain ⟨b', hundo, hb'⟩ := hstep.undone hb
      rw [hundo] at hp
      exact ih hb' p hp

/-- The undo of a block never underflows when its messages complete with overflow checks. -/
theorem Applied.undoBlockDebits_le {n n' : Node} {height : Nat} {block : Block} {mutable : Bool}
    (run : Applied deps cfg n height block mutable n')
    (hchecked : Recorded true n.db.tables.brc20 run.final.brc20Resolver n'.db.tables.brc20) {t : Tables}
    (hsame : SameSupplies t n'.db.tables) : ∀ p ∈ undoBlockDebits cfg t (height, block.hash, block), p.2 ≤ p.1 := by
  intro p hp
  obtain ⟨log, htables⟩ := run.tables
  have hget : t.resolverByHeight.get height = some (resolverEntry n.db.tables block run.final run.staged) := by
    rw [hsame.resolvers, htables]
    simp only [Table.get_insert, if_true]
  unfold undoBlockDebits at hp
  simp only [hget] at hp
  rw [if_neg (by simp [resolverEntry])] at hp
  exact hchecked.undoneDebits_le hsame.brc20 p hp

end

/-! ## Mints -/

/-- A recorded mint is of a positive amount within the limit of its terms. -/
def BRC20Message.Within (terms : Table Ticker BRC20Terms) : BRC20Message → Prop
  | .mint tick amt _ => ∃ found, terms.get tick = some found ∧ 0 < amt ∧ amt ≤ found.mintAmtLimit
  | _ => True

theorem BRC20Message.Within.mono {terms terms' : Table Ticker BRC20Terms} {message : BRC20Message}
    (hkept : ∀ tick found, terms.get tick = some found → terms'.get tick = some found) (h : message.Within terms) :
    message.Within terms' := by
  cases message with
  | mint tick amt receiver =>
    obtain ⟨found, hget, hamount⟩ := h
    exact ⟨found, hkept tick found hget, hamount⟩
  | deploy => trivial
  | transfer => trivial
  | transferInit => trivial

section

variable {checks : Bool} {t t' : Brc20Tables}

/-- Terms stay: a ticker is deployed once. -/
theorem MessageStep.terms_kept {message : BRC20Message} (h : MessageStep checks t message t') {tick : Ticker}
    {found : BRC20Terms} (hget : t.terms.get tick = some found) : t'.terms.get tick = some found := by
  cases h with
  | @deploy tick' terms hfree =>
    simp only [Table.get_insert]
    rw [if_neg]
    · exact hget
    · rintro rfl
      rw [hfree] at hget
      cases hget
  | mint => exact hget
  | transfer => exact hget
  | transferInit => exact hget

theorem Recorded.terms_kept {messages : List (InscriptionId × BRC20Message)} (h : Recorded checks t messages t')
    {tick : Ticker} {found : BRC20Terms} (hget : t.terms.get tick = some found) : t'.terms.get tick = some found := by
  induction h with
  | nil => exact hget
  | snoc before step ih => exact step.terms_kept ih

theorem MessageStep.within {message : BRC20Message} (h : MessageStep checks t message t') :
    message.Within t'.terms := by
  cases h with
  | mint terms hterms hleft hamt hsupply hbalance hpositive hlimit => exact ⟨terms, hterms, hpositive, hlimit⟩
  | deploy => trivial
  | transfer => trivial
  | transferInit => trivial

/-- **Recorded mints are positive and within the limit.** -/
theorem Recorded.within {messages : List (InscriptionId × BRC20Message)} (h : Recorded checks t messages t') :
    ∀ m ∈ messages, m.2.Within t'.terms := by
  induction h with
  | nil => exact fun m hm => (List.not_mem_nil hm).elim
  | snoc before step ih =>
    intro m hm
    rcases List.mem_append.mp hm with hm | hm
    · exact (ih m hm).mono fun tick found => step.terms_kept
    · rw [List.mem_singleton.mp hm]
      exact step.within

end

/-! ## Ids -/

/-- The id under which a transaction reveals an inscription, read off the state before it. -/
def revealedId (deps : Deps) (cfg : Config) (height : Nat) (step : Transaction × BlockState) : Option InscriptionId :=
  match outcomeOf deps cfg height step with
  | some (chain, .complete _) => some ⟨rootOf chain step.1.txid, 0⟩
  | _ => none

/-- The ids that a block reveals. -/
def revealedIds (deps : Deps) (cfg : Config) (n : Node) (height : Nat) (block : Block) : List InscriptionId :=
  (blockSteps deps cfg n height block).filterMap (revealedId deps cfg height)

/-- The build checks for overflows, or the block reveals no inscription that is revealed already. -/
def RevealsOnce (deps : Deps) (cfg : Config) (n : Node) (call : Call) : Prop :=
  cfg.checks = true ∨
    (n.db.tables.records.map NewInscriptionInfo.id ++ revealedIds deps cfg n call.height call.block).Nodup

instance (deps : Deps) (cfg : Config) (n : Node) (call : Call) : Decidable (RevealsOnce deps cfg n call) :=
  inferInstanceAs (Decidable (_ ∨ _))

section

variable {deps : Deps} {cfg : Config} {n n' : Node} {height : Nat} {block : Block} {mutable : Bool}

/-- One step records the id that it reveals. -/
theorem InscriptionsStep.ids {tx : Transaction} {s : BlockState} {placed : List (List (U64 × InscriptionId))}
    {transfers : Table InscriptionId (Ticker × U128)} {messages : List (InscriptionId × BRC20Message)}
    {i : InscriptionState}
    (h : InscriptionsStep deps cfg height tx s.resolver s.inscriptions placed transfers messages i) :
    i.newInscriptions.map NewInscriptionInfo.id =
      s.inscriptions.newInscriptions.map NewInscriptionInfo.id ++ (revealedId deps cfg height (tx, s)).toList := by
  cases h with
  | skipped hheight =>
    unfold revealedId outcomeOf
    rw [if_neg (by omega)]
    exact (List.append_nil _).symm
  | indexed hheight hindex =>
    obtain ⟨run⟩ := indexInscriptions_ok hindex
    have hout := run.outcome
    rw [run.records_eq.1]
    unfold revealedId outcomeOf
    rw [if_pos hheight]
    generalize run.revealed = revealed at hout
    generalize run.messages = messages at hout
    generalize run.after = after at hout
    cases hout with
    | none hparsed =>
      cases hp : parsed deps cfg.checks s.resolver height tx s.inscriptions.partials with
      | none => exact (List.append_nil _).symm
      | some e =>
        have hnone := hparsed e hp
        obtain ⟨chain, outcome⟩ := e
        simp only at hnone
        rw [hnone]
        exact (List.append_nil _).symm
    | partial_ hfirst hchain hparsed =>
      rw [hparsed]
      exact (List.append_nil _).symm
    | complete info hfirst hchain hparsed hid =>
      rw [hparsed, List.map_append]
      simp only [List.map_cons, List.map_nil, hid, Option.toList_some]
      rfl

/-- A block records the ids that it reveals. -/
theorem Applied.ids (run : Applied deps cfg n height block mutable n') :
    run.final.inscriptions.newInscriptions.map NewInscriptionInfo.id = revealedIds deps cfg n height block := by
  refine run.inscriptions_induct (P := fun done _ i =>
    i.newInscriptions.map NewInscriptionInfo.id = done.filterMap (revealedId deps cfg height)) rfl ?_
  intro done tx s placed transfers messages i _ _ hstep hP
  rw [hstep.ids, hP, List.filterMap_append]
  cases hid : revealedId deps cfg height (tx, s) with
  | none => simp [hid]
  | some id => simp [hid]

end

/-! ## Reachable nodes -/

section

variable {deps : Deps} {cfg : Config} {C : Node → Call → Prop} {t : Tables}
  {l : List (Tables × (Nat × BlockHash × Block) × Tables)}

/-- The supplies of a history are within their terms. -/
theorem Blocks.bounded (h : Blocks deps cfg C SameSupplies l t) : t.brc20.Bounded := by
  refine (History.induct (P := fun t => t.brc20.Bounded) h (Tables.Conserved.empty cfg).bounded ?_ ?_).1
  · exact fun s s' hsame hs => hsame.brc20.bounded hs
  · rintro t₀ e t₁ h₀ ⟨run, hvalid, hsettled, -⟩
    exact run.recorded.bounded h₀

/-- The mints recorded for the stored blocks of a history are positive and within the limit. -/
theorem Blocks.within (h : Blocks deps cfg C SameSupplies l t) :
    ∀ e ∈ t.resolverByHeight.entries, ∀ m ∈ e.2.brc20Resolver, m.2.Within t.brc20.terms := by
  have hall := History.induct (P := fun t => Sourced t ∧
    ∀ e ∈ t.resolverByHeight.entries, ∀ m ∈ e.2.brc20Resolver, m.2.Within t.brc20.terms) h
    ⟨Sourced.empty, fun e he => (List.not_mem_nil he).elim⟩ ?_ ?_
  · exact hall.1.2
  · rintro s s' hsame ⟨hsourced, hs⟩
    refine ⟨hsame.toSameChain.sourced hsourced, ?_⟩
    rw [hsame.resolvers, hsame.brc20.terms]
    exact hs
  · rintro t₀ e t₁ ⟨hsourced, h₀⟩ ⟨run, hvalid, hsettled, -⟩
    refine ⟨run.sourced hvalid hsettled hsourced, fun e he m hm => ?_⟩
    rw [run.resolver_entries hvalid hsourced] at he
    rcases List.mem_append.mp he with he | he
    · exact (h₀ e he m hm).mono fun tick found => run.recorded.terms_kept
    · rw [List.mem_singleton.mp he] at hm
      exact run.recorded.within m hm

/-- **Every stored block completes with overflow checks.** -/
theorem Blocks.checked {n n' : Node} {call : Call}
    (h : Blocks deps cfg (RevealsOnce deps cfg) SameSupplies l n.db.tables)
    (run : Applied deps cfg n call.height call.block call.mutable n')
    (hvalid : ValidBlock n.db.tables call.height call.block) (hsettled : Settled n.mem n.db.tables.txos)
    (honce : RevealsOnce deps cfg n call) :
    Recorded true n.db.tables.brc20 run.final.brc20Resolver n'.db.tables.brc20 := by
  rcases honce with hchecks | hnodup
  · rw [← hchecks]
    exact run.recorded
  · have hsourced := (Blocks.sourced (fun _ _ h => SameSupplies.toSameChain h) h).1
    refine ((h.conserved (List.nodup_append.mp hnodup).1).apply run hvalid hsettled hsourced ?_).2
    rw [run.records_append hvalid hsourced, List.map_append, run.ids]
    exact hnodup

/-- **Undoing the latest blocks never underflows.** -/
theorem Blocks.undoBlocksDebits_le {mutable : Bool} {undone : List (Tables × (Nat × BlockHash × Block) × Tables)}
    {x : Tables × Nat} (h : Blocks deps cfg (RevealsOnce deps cfg) SameSupplies (l ++ undone) x.1) :
    ∀ p ∈ undoBlocksDebits deps cfg mutable x (undone.map fun e => e.2.1).reverse, p.2 ≤ p.1 := by
  induction undone using List.reverseRecOn generalizing x with
  | nil => exact fun p hp => (List.not_mem_nil hp).elim
  | append_singleton undone e ih =>
    intro p hp
    obtain ⟨t₀, entry, t₁⟩ := e
    rw [← List.append_assoc] at h
    obtain ⟨hbefore, hstep, hsame⟩ := h.last
    rw [List.map_append, List.reverse_append] at hp
    rcases List.mem_append.mp hp with hp | hp
    · cases hstep with
      | intro run hvalid hsettled honce =>
        exact run.undoBlockDebits_le (Blocks.checked hbefore run hvalid hsettled honce) hsame p hp
    · split at hp
      · rename_i x' hundo
        have hx' := (restores_sameSupplies deps cfg _).undo mutable _ _ _ _ _ _ hbefore hstep hsame hundo
        exact ih (hbefore.congr (restores_sameSupplies deps cfg (RevealsOnce deps cfg)).trans hx') p hp
      · cases hp

/-- DRC-20 amounts of a database in order. -/
structure InOrder (deps : Deps) (cfg : Config) (n : Node) : Prop where
  supply : ∀ tick, 0 < n.db.tables.brc20.supply.getD tick 0 → ∃ terms,
    n.db.tables.brc20.terms.get tick = some terms ∧ n.db.tables.brc20.supply.getD tick 0 ≤ terms.max
  mints : ∀ e ∈ n.db.tables.resolverByHeight.entries, ∀ m ∈ e.2.brc20Resolver, m.2.Within n.db.tables.brc20.terms
  apply : ∀ height block, ValidBlock n.db.tables height block → ∀ p ∈ blockDebits deps cfg n height block, p.2 ≤ p.1
  rollback : ∀ height hash mutable, ∀ p ∈ rollbackDebits deps cfg n height hash mutable, p.2 ≤ p.1

/-- **DRC-20 supplies are bounded by the deployment** in every node that valid blocks, applied in any order with
rollbacks, lead to: the supplies are within their terms, recorded mints are within the limit, and neither a
valid block nor a rollback tried next underflows. -/
theorem supply_in_order {n : Node} (h : Reach deps cfg (RevealsOnce deps cfg) n) : InOrder deps cfg n := by
  obtain ⟨l, hl⟩ := h.history (restores_sameSupplies deps cfg _)
  have hb : n.db.tables.brc20.Bounded := Blocks.bounded hl.blocks
  refine ⟨fun tick hpositive => ?_, Blocks.within hl.blocks, fun height block _ => blockDebits_le hb height block,
    fun height hash mutable p hp => ?_⟩
  · cases hterms : n.db.tables.brc20.terms.get tick with
    | some terms => exact ⟨terms, rfl, hb.le hterms⟩
    | none =>
      -- nothing is minted before the deployment
      have hle := hb tick
      unfold Brc20Tables.maximum at hle
      rw [hterms] at hle
      exact absurd hpositive (not_lt.mpr hle)
  · unfold rollbackDebits at hp
    split at hp
    · cases hp
    · rename_i foundHeight foundHash block toRemove hscan
      split at hp
      · cases hp
      · obtain ⟨kept, undone, rfl, -, rfl⟩ := hl.blocks.suffix (fun _ _ h => h.toSameChain) hscan
        exact Blocks.undoBlocksDebits_le hl.blocks p hp

end

/-- A mint and a transfer inscription in a build without overflow checks. -/
theorem supply_in_order_transfer :
    ∃ n, Reach dogiScripts uncheckedFromFirst (RevealsOnce dogiScripts uncheckedFromFirst) n ∧
      InOrder dogiScripts uncheckedFromFirst n ∧ (rollbackDebits dogiScripts uncheckedFromFirst n 0 1 true).length = 2 := by
  have hsome : (runCalls dogiScripts uncheckedFromFirst (Node.open_ true) dogiCalls).isSome = true := by decide +kernel
  have hreach := (Run.ofCalls hsome).reach (RevealsOnce dogiScripts uncheckedFromFirst) (by decide +kernel)
    (by decide +kernel)
  exact ⟨_, hreach, supply_in_order hreach, by decide +kernel⟩

/-- Ticker `dogi` with the largest maximal supply, 2^64 - 1. -/
def deployLargest : RawProtocolMessage :=
  { deployDogi with
    max := some (ascii ['1', '8', '4', '4', '6', '7', '4', '4', '0', '7', '3', '7', '0', '9', '5', '5', '1', '6', '1', '5']) }

def mintLargest : RawProtocolMessage :=
  mintDogi ['1', '8', '4', '4', '6', '7', '4', '4', '0', '7', '3', '7', '0', '9', '5', '5', '1', '6', '1', '5']

/-- All but 18 of it. -/
def transferMost : RawProtocolMessage :=
  transferDogi ['1', '8', '4', '4', '6', '7', '4', '4', '0', '7', '3', '7', '0', '9', '5', '5', '1', '5', '9', '7']

def largestScripts : Deps := messageScripts [deployLargest, mintLargest, transferDogi ['1'], transferMost]

/-- The first of two pieces of an inscription of a message. -/
def messageStart (m : RawProtocolMessage) : Bytes :=
  [3] ++ ascii ['o', 'r', 'd'] ++ [82, 10] ++ BRC20.textPlain ++ [81, 20] ++ m.json.take 20

/-- The second piece. -/
def messageEnd (m : RawProtocolMessage) : Bytes := [0, Fin.ofNat 256 (m.json.length - 20)] ++ m.json.drop 20

/-- Transaction 14 starts a transfer inscription and has 19 outputs; each of them is spent by a transaction that
completes it, the last one with most of the supply.  Transaction 34 moves all of them. -/
def repeatedTransfer : List Call := [
  callOf 0 1 0 [coinbaseTx 10 [2000000000, 1500000000, 1500000000]],
  callOf 1 2 1 ([coinbaseTx 11 [5000000000], spendTx 12 ⟨10, 0⟩ (messageScript deployLargest) [2000000000],
      spendTx 13 ⟨10, 1⟩ (messageScript mintLargest) [1500000000],
      spendTx 14 ⟨10, 2⟩ (messageStart transferMost) (List.replicate 19 10)] ++
    ((List.range 19).map fun i => spendTx (Fin.ofNat (2 ^ 256) (15 + i)) ⟨14, i⟩
      (messageEnd (if i = 18 then transferMost else transferDogi ['1'])) [10]) ++
    [⟨34, (List.range 19).map fun i => ⟨⟨Fin.ofNat (2 ^ 256) (15 + i), 0⟩, []⟩, [⟨190, []⟩]⟩])]

/-- **Credits wrap around**: the transfer inscription is revealed 19 times, the amount of its last reveal is
credited 19 times, and a rollback subtracts it from what is left beyond 2^128. -/
theorem repeated_transfer_underflows :
    ∃ n, Reach largestScripts uncheckedFromFirst (fun _ _ => True) n ∧ ¬ InOrder largestScripts uncheckedFromFirst n := by
  obtain ⟨hsome, hvalid, hwrap⟩ :
      (runCalls largestScripts uncheckedFromFirst (Node.open_ true) repeatedTransfer).isSome = true ∧
      (∀ e ∈ (performed largestScripts uncheckedFromFirst (Node.open_ true) repeatedTransfer).1,
        ValidBlock e.before.db.tables e.call.height e.call.block) ∧
      ((rollbackDebits largestScripts uncheckedFromFirst
        (performed largestScripts uncheckedFromFirst (Node.open_ true) repeatedTransfer).2 0 1 true).any
          fun p => p.1 < p.2) = true := by
    decide +kernel
  obtain ⟨p, hp, hlt⟩ := List.any_eq_true.mp hwrap
  exact ⟨_, (Run.ofCalls hsome).reach (fun _ _ => True) hvalid fun _ _ => trivial,
    fun h => absurd (h.rollback 0 1 true p hp) (not_le.mpr (of_decide_eq_true hlt))⟩

end DogeIndexer.Compressor
