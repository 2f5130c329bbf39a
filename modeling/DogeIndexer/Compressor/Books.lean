import DogeIndexer.Compressor.Amounts
import Mathlib.Algebra.Order.BigOperators.Group.List
import Mathlib.Algebra.Order.Group.Nat
import Mathlib.Algebra.Ring.Int.Defs

/-!
# The books of a block

What the recorded messages do to one script: to its balance of a ticker, and to the unused transfers on its outputs.
The books of a block list its transactions in the order in which they are processed, the coinbase last.

* `Recorded.balance` — the balance moves by what the messages say.
* `Indexed.unusedAt` — so do the unused transfers on the outputs of a script.
* `Applied.booked` — a block, whose books balance after each of its transactions.
-/

set_option autoImplicit false

namespace DogeIndexer.Compressor

open Fallible

/-! ## Balances of a script -/

/-- The balance of a script, 0 when there is none. -/
def Brc20Tables.balance (t : Brc20Tables) (owner : ScriptHash) (tick : Ticker) : Nat :=
  (t.balances.getD ⟨owner, tick⟩ 0).val

namespace BRC20Message

variable (owner : ScriptHash) (tick : Ticker)

/-- What a message adds to the balance of a script. -/
def available : BRC20Message → Int
  | .deploy _ => 0
  | .mint t amt receiver => if receiver = owner ∧ t = tick then amt.val else 0
  | .transfer t amt _ receiver => if receiver = owner ∧ t = tick then amt.val else 0
  | .transferInit t amt receiver => -if receiver = owner ∧ t = tick then (amt.val : Int) else 0

/-- What a message adds to the unused transfers on the outputs of a script. -/
def unused (sender : OutPoint → Option ScriptHash) : BRC20Message → Int
  | .transfer t amt outpoint _ => -if sender outpoint = some owner ∧ t = tick then (amt.val : Int) else 0
  | .transferInit t amt receiver => if receiver = owner ∧ t = tick then amt.val else 0
  | _ => 0

/-- What a message adds to the supply. -/
def minted : BRC20Message → Nat
  | .mint t amt _ => if t = tick then amt.val else 0
  | _ => 0

end BRC20Message

def availableOf (messages : List (InscriptionId × BRC20Message)) (owner : ScriptHash) (tick : Ticker) : Int :=
  (messages.map fun m => m.2.available owner tick).sum

def unusedOf (sender : OutPoint → Option ScriptHash) (messages : List (InscriptionId × BRC20Message))
    (owner : ScriptHash) (tick : Ticker) : Int :=
  (messages.map fun m => m.2.unused owner tick sender).sum

def mintedOf (messages : List (InscriptionId × BRC20Message)) (tick : Ticker) : Nat :=
  (messages.map fun m => m.2.minted tick).sum

section

variable {t t' : Brc20Tables} {message : BRC20Message}

theorem balance_insert (balances : Table ScriptAndBRC20Kind U128) (receiver : ScriptHash) (t : Ticker) (amt : U128)
    (owner : ScriptHash) (tick : Ticker) : ((balances.insert ⟨receiver, t⟩ amt).getD ⟨owner, tick⟩ 0).val =
      if receiver = owner ∧ t = tick then amt.val else (balances.getD ⟨owner, tick⟩ 0).val := by
  rw [Table.getD_insert]
  by_cases h : receiver = owner ∧ t = tick
  · rw [if_pos h, if_pos (by rw [h.1, h.2])]
  · rw [if_neg h, if_neg fun heq => h ⟨(congrArg ScriptAndBRC20Kind.script heq).symm,
      (congrArg ScriptAndBRC20Kind.brc20Ticker heq).symm⟩]

/-- **One message moves the balance** by what it says. -/
theorem MessageStep.balance (h : MessageStep true t message t') (owner : ScriptHash) (tick : Ticker) :
    (t'.balance owner tick : Int) = t.balance owner tick + message.available owner tick := by
  unfold Brc20Tables.balance BRC20Message.available
  cases h with
  | deploy => exact (Int.add_zero _).symm
  | mint _ _ _ _ _ hbalance =>
    have hval := Machine.add_exact hbalance
    simp only [balance_insert]
    split
    · rename_i heq
      rw [← heq.1, ← heq.2, hval]
      exact Int.natCast_add _ _
    · exact (Int.add_zero _).symm
  | transfer hbalance =>
    have hval := Machine.add_exact hbalance
    simp only [balance_insert]
    split
    · rename_i heq
      rw [← heq.1, ← heq.2, hval]
      exact Int.natCast_add _ _
    · exact (Int.add_zero _).symm
  | @transferInit tick' amt newBalance receiver hle hbalance =>
    obtain ⟨-, hval⟩ := Machine.sub_checked hbalance hle
    have hle : amt.val ≤ (t.balances.getD ⟨receiver, tick'⟩ 0).val := hle
    simp only [balance_insert]
    split
    · rename_i heq
      rw [← heq.1, ← heq.2]
      omega
    · omega

/-- One message moves the supply. -/
theorem MessageStep.supply (h : MessageStep true t message t') (tick : Ticker) :
    (t'.supply.getD tick 0).val = (t.supply.getD tick 0).val + message.minted tick := by
  unfold BRC20Message.minted
  cases h with
  | @mint tick' amt left newSupply newBalance receiver terms hterms hleft hamt hsupply =>
    have hval := Machine.add_exact hsupply
    simp only [Table.getD_insert]
    by_cases heq : tick = tick'
    · rw [if_pos heq, if_pos heq.symm, hval, heq]
    · rw [if_neg heq, if_neg (Ne.symm heq), Nat.add_zero]
  | _ => rfl

variable {messages : List (InscriptionId × BRC20Message)}

/-- **Recorded messages move the balance.** -/
theorem Recorded.balance (h : Recorded true t messages t') (owner : ScriptHash) (tick : Ticker) :
    (t'.balance owner tick : Int) = t.balance owner tick + availableOf messages owner tick := by
  induction h with
  | nil => exact (Int.add_zero _).symm
  | snoc before step ih =>
    rw [step.balance, ih]
    unfold availableOf
    rw [List.map_append, List.sum_append, List.map_singleton, List.sum_singleton, Int.add_assoc]

theorem Recorded.supply (h : Recorded true t messages t') (tick : Ticker) :
    (t'.supply.getD tick 0).val = (t.supply.getD tick 0).val + mintedOf messages tick := by
  induction h with
  | nil => rfl
  | snoc before step ih =>
    rw [step.supply, ih]
    unfold mintedOf
    rw [List.map_append, List.sum_append, List.map_singleton, List.sum_singleton, Nat.add_assoc]

end

/-! ## Unused transfers of a script -/

/-- The script of an output. -/
def TxoBody.owner (deps : Deps) (body : TxoBody) : ScriptHash := deps.scriptHash body.raw.scriptPubkey

/-- The amount of a ticker in the unused transfers of an output of a script. -/
def TxoBody.unusedTo (deps : Deps) (owner : ScriptHash) (tick : Ticker) (body : TxoBody) : Nat :=
  if body.owner deps = owner then body.unusedOf tick else 0

/-- The amount of a ticker in the unused transfers on the outputs of a script. -/
def unusedAt (deps : Deps) (live : Table TxoRef TxoBody) (owner : ScriptHash) (tick : Ticker) : Nat :=
  live.total fun _ body => body.unusedTo deps owner tick

theorem unusedAt_le (deps : Deps) (live : Table TxoRef TxoBody) (owner : ScriptHash) (tick : Ticker) :
    unusedAt deps live owner tick ≤ unusedOn live tick := by
  refine List.sum_le_sum fun e _ => ?_
  unfold TxoBody.unusedTo
  beta_reduce
  split
  · exact Nat.le_refl _
  · exact Nat.zero_le _

/-- The scripts of outputs. -/
def senderOf (deps : Deps) (txos : Table TxoRef TxoBody) (ref : OutPoint) : Option ScriptHash :=
  (txos.get ref).map (TxoBody.owner deps)

/-- What transfers move off the outputs of a script. -/
def sentFrom (sender : OutPoint → Option ScriptHash) (owner : ScriptHash) (tick : Ticker)
    (moved : List (InscriptionId × Move)) : Nat :=
  (moved.map fun e => if sender e.2.2.2 = some owner ∧ e.2.1 = tick then e.2.2.1.val else 0).sum

/-- What transfer inscriptions bring onto the outputs of a script. -/
def BRC20Message.reservedTo (owner : ScriptHash) (tick : Ticker) : BRC20Message → Nat
  | .transferInit t amt receiver => if receiver = owner ∧ t = tick then amt.val else 0
  | _ => 0

def reservedTo (messages : List (InscriptionId × BRC20Message)) (owner : ScriptHash) (tick : Ticker) : Nat :=
  (messages.map fun m => m.2.reservedTo owner tick).sum

theorem unusedOf_eq (sender : OutPoint → Option ScriptHash) (messages : List (InscriptionId × BRC20Message))
    (owner : ScriptHash) (tick : Ticker) : unusedOf sender messages owner tick =
      reservedTo (opened messages) owner tick - sentFrom sender owner tick (moves messages) := by
  induction messages with
  | nil => rfl
  | cons m messages ih =>
    have hcons : unusedOf sender (m :: messages) owner tick =
        m.2.unused owner tick sender + unusedOf sender messages owner tick := by
      unfold unusedOf
      rw [List.map_cons, List.sum_cons]
    obtain ⟨id, message⟩ := m
    rw [hcons, ih]
    unfold reservedTo sentFrom opened moves
    rw [List.filter_cons, List.filterMap_cons]
    cases message <;>
      simp only [BRC20Message.unused, BRC20Message.move, BRC20Message.reservedTo, Option.isNone_none, Option.isNone_some,
        Option.map_none, Option.map_some, if_true, Bool.false_eq_true, if_false, List.map_cons, List.sum_cons]
    · omega
    · omega
    · split <;> omega
    · split <;> omega

/-! ## One transaction at one script -/

theorem transfersOf_sent (deps : Deps) (previousOutput : OutPoint) {body : TxoBody} (hnodup : body.ids.Nodup)
    (hcarries : body.Carries) (owner : ScriptHash) (tick : Ticker) :
    ((transfersOf deps previousOutput body).map fun e => if e.2.sender = owner then e.2.amountOf tick else 0).sum =
      body.unusedTo deps owner tick := by
  unfold TxoBody.unusedTo
  by_cases howner : body.owner deps = owner
  · rw [if_pos howner, ← transfersOf_amount deps previousOutput hnodup hcarries]
    refine congrArg List.sum (List.map_congr_left fun e he => ?_)
    obtain ⟨-, -, hsender, -⟩ := mem_transfersOf he
    exact if_pos (hsender.trans howner)
  · rw [if_neg howner]
    refine List.sum_eq_zero fun v hv => ?_
    obtain ⟨e, he, rfl⟩ := List.mem_map.mp hv
    obtain ⟨-, -, hsender, -⟩ := mem_transfersOf he
    exact if_neg fun heq => howner (hsender.symm.trans heq)

theorem BRC20Message.reservedTo_le (owner : ScriptHash) (tick : Ticker) (message : BRC20Message) :
    message.reservedTo owner tick ≤ message.reserved tick := by
  cases message with
  | transferInit t amt receiver =>
    simp only [BRC20Message.reservedTo, BRC20Message.reserved]
    by_cases h : t = tick
    · rw [if_pos h]
      split
      · exact Nat.le_refl _
      · exact Nat.zero_le _
    · rw [if_neg h, if_neg fun hboth => h hboth.2]
  | _ => exact Nat.le_refl _

section

variable {deps : Deps} {cfg : Config} {resolver : Table TxoRef TxoBody} {tx : Transaction} {height : Nat}
  {s s' : InscriptionState} {r : IndexInscriptionsResult} {live live' : Table TxoRef TxoBody} {bodies : List TxoBody}

/-- The unused transfers of the inputs leave the scripts of the spent outputs. -/
theorem inputTransfers_sent {inputs : List TxIn} (hnodup : ((inputBodies resolver inputs).flatMap TxoBody.ids).Nodup)
    (hcarries : ∀ body ∈ inputBodies resolver inputs, body.Carries) (owner : ScriptHash) (tick : Ticker) :
    sentFrom (senderOf deps resolver) owner tick ((inputTransfers deps resolver inputs).map fun e => (e.1, e.2.move)) =
      ((inputBodies resolver inputs).map (TxoBody.unusedTo deps owner tick)).sum := by
  unfold sentFrom
  rw [List.map_map, ← inputTransfers_sum
    (f := fun transfer => if transfer.sender = owner then transfer.amountOf tick else 0) fun ref body hbody =>
    transfersOf_sent deps ref ((List.nodup_flatMap.mp hnodup).1 body hbody) (hcarries body hbody) owner tick]
  refine congrArg List.sum (List.map_congr_left fun e he => ?_)
  obtain ⟨txin, -, -, body, hget, he⟩ := mem_inputTransfers he
  obtain ⟨-, -, hsender, houtpoint⟩ := mem_transfersOf he
  have howner : senderOf deps resolver e.2.originalPoint.outpoint = some e.2.sender := by
    unfold senderOf
    rw [houtpoint, hget, hsender]
    rfl
  unfold UnusedTransfer.amountOf UnusedTransfer.move
  simp only [Function.comp_apply, howner, Option.some.injEq]
  by_cases hs : e.2.sender = owner
  · simp only [hs, true_and, if_true]
  · simp only [hs, false_and, if_false]

/-- An inscription on an output has been placed there. -/
theorem Indexed.mem_placed (run : Indexed deps cfg resolver tx tx.txid height s r s') (hlen : tx.output.length < 2 ^ 32)
    {i : Nat} {l : List (U64 × InscriptionId)} (hl : r.outputInscriptions[i]? = some l) {id : InscriptionId}
    (hid : id ∈ l.map Prod.snd) : ∃ e ∈ run.placedAt, e.1.outpoint.vout = i ∧ e.2 = id := by
  have hplaces := run.places
  unfold placeOutputs at hplaces
  obtain ⟨-, -, hget⟩ := placeOutputs_get hplaces
  obtain ⟨hsplit, -, -⟩ := run.outgoing_split hlen
  rw [hsplit] at hget
  rw [hget i] at hl
  obtain ⟨empty, hempty, rfl⟩ := Option.map_eq_some_iff.mp hl
  have hnil : empty = [] := List.eq_of_mem_replicate (List.mem_of_getElem? hempty)
  rw [hnil, List.nil_append, List.map_map] at hid
  obtain ⟨e, he, rfl⟩ := List.mem_map.mp hid
  obtain ⟨hmem, hvout⟩ := List.mem_filter.mp he
  exact ⟨e, hmem, of_decide_eq_true hvout, rfl⟩

/-- The inscription of a transfer inscription is on an output of its receiver. -/
theorem Indexed.owner_eq (run : Indexed deps cfg resolver tx tx.txid height s r s') (hlen : tx.output.length < 2 ^ 32)
    (honce : (run.placedIds ++ run.leftIds).Nodup)
    (hproduced : Produced height tx r.outputInscriptions r.newUnusedBrc20Transfers bodies) {id : InscriptionId}
    {receiver : ScriptHash}
    (hreceiver : (inscriptionIdToScript (outpointToScript deps tx.txid tx.output) run.located.outgoing).get id =
      some receiver) {body : TxoBody} (hbody : body ∈ bodies) (hid : id ∈ body.ids) : body.owner deps = receiver := by
  obtain ⟨e, he, heid, output, houtput, hscript⟩ := run.receiver_placed hlen hreceiver
  obtain ⟨i, hi⟩ := List.mem_iff_getElem?.mp hbody
  have hl : r.outputInscriptions[i]? = some body.inscriptions := by
    rw [← hproduced.inscriptions, List.getElem?_map, hi]
    rfl
  have hraw : tx.output[i]? = some body.raw := by
    rw [← hproduced.raw, List.getElem?_map, hi]
    rfl
  obtain ⟨e', he', hvout, heid'⟩ := run.mem_placed hlen hl hid
  have hnodup : (run.placedAt.map Prod.snd).Nodup := by
    have hids := (List.nodup_append.mp honce).1
    unfold Indexed.placedIds at hids
    unfold Indexed.placedAt
    rw [List.map_map]
    exact hids
  have hsame : e = e' := List.inj_on_of_nodup_map hnodup he he' (heid.trans heid'.symm)
  rw [hsame, hvout, hraw] at houtput
  cases houtput
  exact hscript

/-- **What a transaction's transfer inscription brings onto the outputs of a script.** -/
theorem Indexed.reservedTo_eq (run : Indexed deps cfg resolver tx tx.txid height s r s') (hlen : tx.output.length < 2 ^ 32)
    (honce : (run.placedIds ++ run.leftIds).Nodup)
    (hproduced : Produced height tx r.outputInscriptions r.newUnusedBrc20Transfers bodies) (owner : ScriptHash)
    (tick : Ticker) :
    (bodies.map (TxoBody.unusedTo deps owner tick)).sum = reservedTo (opened r.brc20Resolver) owner tick := by
  have howned : (bodies.map (TxoBody.unusedTo deps owner tick)).sum =
      ((bodies.filter fun b => b.owner deps = owner).map (TxoBody.unusedOf tick)).sum := by
    unfold TxoBody.unusedTo
    rw [List.sum_map_ite]
    simp
  rw [howned, hproduced.unusedOf_some fun _ hb => (List.mem_filter.mp hb).1]
  have hsingle : ∀ m : InscriptionId × BRC20Message, reservedTo [m] owner tick = m.2.reservedTo owner tick :=
    fun m => Nat.add_zero _
  rcases run.opened_cases with ⟨hnone, hunused⟩ | ⟨message, recorded, -, hone, hreserved, hunused⟩ |
    ⟨message, tick', amt, receiver, -, hone, hunused, hreceiver⟩
  · rw [hnone, hunused]
    rfl
  · rw [hone, hunused, hsingle]
    exact (Nat.le_zero.mp ((hreserved tick) ▸ recorded.reservedTo_le owner tick)).symm
  · obtain ⟨-, hplaced⟩ := run.reserved_eq hlen
    have hget : r.newUnusedBrc20Transfers.get message.1 = some (tick', amt) := by
      rw [hunused, Table.get_insert, if_pos rfl]
    have hcount : (bodies.flatMap TxoBody.ids).count message.1 = 1 := by
      rw [(run.outputs_ids hlen hproduced).count_eq]
      exact List.count_eq_one_of_mem (List.nodup_append.mp honce).1 (hplaced _ _ hget)
    have howner : (bodies.filter fun b => b.owner deps = owner).countP (fun b => b.ids.contains message.1) =
        if receiver = owner then 1 else 0 := by
      rw [List.countP_filter]
      by_cases hreceives : receiver = owner
      · rw [if_pos hreceives, ← countP_of_count_one hcount]
        refine List.countP_congr fun b hb => ?_
        rw [Bool.and_eq_true]
        refine ⟨fun h => h.1, fun h => ⟨h, decide_eq_true ?_⟩⟩
        rw [run.owner_eq hlen honce hproduced hreceiver hb (List.contains_iff_mem.mp h), hreceives]
      · rw [if_neg hreceives]
        refine List.countP_eq_zero.mpr fun b hb h => ?_
        obtain ⟨hmem, howner⟩ := (Bool.and_eq_true _ _).mp h
        exact hreceives ((run.owner_eq hlen honce hproduced hreceiver hb (List.contains_iff_mem.mp hmem)).symm.trans
          (of_decide_eq_true howner))
    have htotal := Table.total_insert (fun (id : InscriptionId) (transfer : Ticker × U128) =>
      ((bodies.filter fun b => b.owner deps = owner).countP fun b => b.ids.contains id) *
        if transfer.1 = tick then transfer.2.val else 0) Table.empty message.1 (tick', amt)
    rw [hunused, hone, hsingle]
    refine (Nat.add_zero _).symm.trans (htotal.trans ?_)
    rw [howner, Table.total_empty, Nat.zero_add]
    simp only [BRC20Message.reservedTo]
    by_cases hreceives : receiver = owner
    · simp only [hreceives, true_and, if_true, Nat.one_mul]
    · simp only [hreceives, false_and, if_false, Nat.zero_mul]

/-- A message is of an inscription that the transaction records. -/
theorem Indexed.message_record (run : Indexed deps cfg resolver tx tx.txid height s r s')
    {message : InscriptionId × RawProtocolMessage} (h : run.messages = [message]) :
    ∃ info ∈ s'.newInscriptions, info.id = message.1 ∧ info.txHash = tx.txid := by
  obtain ⟨hrecords, -⟩ := run.records_eq
  have hout := run.outcome
  rw [h] at hout
  rw [hrecords]
  generalize run.revealed = revealed at hout
  generalize run.after = after at hout
  generalize hmessages : [message] = messages at hout
  cases hout with
  | none => cases hmessages
  | partial_ => cases hmessages
  | @complete first chain txs inscription fee info _ _ _ _ _ htxHash =>
    refine ⟨info, List.mem_append_right _ List.mem_cons_self, ?_, htxHash⟩
    cases hparsed : BRC20.unparsedMessage deps inscription with
    | none =>
      rw [hparsed] at hmessages
      cases hmessages
    | some raw =>
      rw [hparsed] at hmessages
      cases hmessages
      rfl

/-- **What a transaction does to the unused transfers of a script** is what its messages say. -/
theorem Indexed.unusedAt_moved (run : Indexed deps cfg resolver tx tx.txid height s r s')
    (hresolved : Resolved resolver tx.input) (honce : (run.placedIds ++ run.leftIds).Nodup)
    (hcarries : ∀ body ∈ inputBodies resolver tx.input, body.Carries)
    (hproduced : Produced height tx r.outputInscriptions r.newUnusedBrc20Transfers bodies)
    (hreplaced : Replaced live live' (inputBodies resolver tx.input) bodies) (hlen : tx.output.length < 2 ^ 32)
    (owner : ScriptHash) (tick : Ticker) :
    (unusedAt deps live' owner tick : Int) =
      unusedAt deps live owner tick + unusedOf (senderOf deps resolver) r.brc20Resolver owner tick := by
  obtain ⟨revealed, -, hperm⟩ := run.ids_perm hresolved
  have hinputs := (List.nodup_append.mp (List.nodup_append.mp (hperm.nodup_iff.mp honce)).1).1
  have hsent : sentFrom (senderOf deps resolver) owner tick (moves r.brc20Resolver) =
      ((inputBodies resolver tx.input).map (TxoBody.unusedTo deps owner tick)).sum := by
    rw [← inputTransfers_sent hinputs hcarries owner tick]
    exact ((run.moves_perm hresolved honce).map _).sum_eq
  obtain ⟨kept, hbefore, hafter⟩ := hreplaced.weights (TxoBody.unusedTo deps owner tick)
  rw [← hsent] at hbefore
  rw [run.reservedTo_eq hlen honce hproduced] at hafter
  rw [unusedOf_eq]
  unfold unusedAt
  omega

end

/-! ## Items -/

/-- A processed transaction: what it recorded, and the outputs of its block, which has been completed. -/
structure Item where
  tx : Transaction
  messages : List (InscriptionId × BRC20Message)
  txos : Table TxoRef TxoBody

/-- The amounts of a ticker that messages add and take, a transfer on both sides. -/
def volume (messages : List (InscriptionId × BRC20Message)) (tick : Ticker) : Nat :=
  2 * transferred messages tick + reserved messages tick + mintedOf messages tick

namespace Item

/-- What a transaction adds to the balance of a script. -/
def available (owner : ScriptHash) (tick : Ticker) (item : Item) : Int := availableOf item.messages owner tick

/-- What it adds to the balance and to the unused transfers on the outputs of the script. -/
def total (deps : Deps) (owner : ScriptHash) (tick : Ticker) (item : Item) : Int :=
  availableOf item.messages owner tick + unusedOf (senderOf deps item.txos) item.messages owner tick

/-- The recorded messages are of the transaction: transfers move inscriptions off its inputs, and the other messages
are of an inscription that it records. -/
structure Sound (records : List NewInscriptionInfo) (item : Item) : Prop where
  short : ShortMessages item.messages
  volume : ∀ tick, volume item.messages tick < 2 ^ 126
  inputs : ∀ ref ∈ spent item.tx, ref ≠ OutPoint.null → ∃ body, item.txos.get ref = some body
  once : ((inputBodies item.txos item.tx.input).flatMap TxoBody.ids).Nodup
  moved : ∀ e ∈ moves item.messages, e.2.2.2 ∈ spent item.tx ∧ e.2.2.2 ≠ OutPoint.null ∧
    ∃ body, item.txos.get e.2.2.2 = some body ∧ e.1 ∈ body.ids
  revealed : ∀ m ∈ opened item.messages, ∃ info ∈ records, info.id = m.1 ∧ info.txHash = item.tx.txid

theorem Sound.mono {records records' : List NewInscriptionInfo} {item : Item} (h : item.Sound records)
    (hsub : records ⊆ records') : item.Sound records' := by
  refine ⟨h.short, h.volume, h.inputs, h.once, h.moved, fun m hm => ?_⟩
  obtain ⟨info, hinfo, hid⟩ := h.revealed m hm
  exact ⟨info, hsub hinfo, hid⟩

end Item

/-- The outputs carry unused transfers of short tickers. -/
def ShortOutputs (live : Table TxoRef TxoBody) : Prop :=
  ∀ ref body, live.get ref = some body → ShortTransfers body.unusedBrc20Transfers

/-- **A transaction that is booked**: its messages are its own, and say what has become of every script. -/
structure Posted (deps : Deps) (live live' : Table TxoRef TxoBody) (s s' : InscriptionState) (item : Item) : Prop where
  modest : s'.brc20.Modest
  short : ShortOutputs live'
  sound : item.Sound s'.newInscriptions
  available : ∀ owner tick, (s'.brc20.balance owner tick : Int) = s.brc20.balance owner tick + item.available owner tick
  total : ∀ owner tick, ((s'.brc20.balance owner tick + unusedAt deps live' owner tick : Nat) : Int) =
    (s.brc20.balance owner tick + unusedAt deps live owner tick : Nat) + item.total deps owner tick

section

variable {deps : Deps} {cfg : Config} {resolver final : Table TxoRef TxoBody} {tx : Transaction} {height : Nat}
  {s s' : InscriptionState} {r : IndexInscriptionsResult} {live live' : Table TxoRef TxoBody} {bodies : List TxoBody}
  {recorded : List InscriptionId}

/-- What a script has is part of a supply. -/
theorem Conserved.balance_lt (h : Conserved live s recorded) (hmodest : s.brc20.Modest) (owner : ScriptHash)
    (tick : Ticker) : s.brc20.balance owner tick + unusedAt deps live owner tick < 2 ^ 124 := by
  have hbalance := balance_le s.brc20.balances owner tick
  have hunused := unusedAt_le deps live owner tick
  have hcovers := h.covers tick
  have hbounded : (s.brc20.supply.getD tick 0).val ≤ (s.brc20.maximum tick).val := h.bounded tick
  have hmaximum := hmodest.maximum_lt tick
  unfold Brc20Tables.balance
  omega

/-- New outputs carry unused transfers of short tickers. -/
theorem Replaced.shortOutputs {spent : List TxoBody} {placed : List (List (U64 × InscriptionId))}
    {transfers : Table InscriptionId (Ticker × U128)} (h : Replaced live live' spent bodies)
    (hproduced : Produced height tx placed transfers bodies) (hlive : ShortOutputs live)
    (htransfers : ShortTransfers transfers) : ShortOutputs live' := by
  intro ref body hget
  rcases h.produced ref body hget with ⟨ref', hold⟩ | hnew
  · exact hlive ref' body hold
  · intro id transfer hid
    rw [hproduced.unused body hnew, Table.get_filter, Option.filter_eq_some_iff] at hid
    exact htransfers id transfer hid.1

/-- The outputs of a completed block say the same of what a transaction has spent. -/
theorem inputBodies_congr (hfinal : ∀ ref ∈ spent tx, ref ≠ OutPoint.null → final.get ref = resolver.get ref) :
    inputBodies final tx.input = inputBodies resolver tx.input := by
  refine List.filterMap_congr fun txin htxin => ?_
  by_cases hnull : txin.previousOutput.isNull = true
  · rw [if_pos hnull, if_pos hnull]
  · rw [if_neg hnull, if_neg hnull, hfinal _ (List.mem_map_of_mem htxin) fun heq => hnull (decide_eq_true heq)]

/-- What a script's outputs lose is read off the completed block. -/
theorem unusedOf_congr (deps : Deps) {messages : List (InscriptionId × BRC20Message)}
    (hmoved : ∀ e ∈ moves messages, final.get e.2.2.2 = resolver.get e.2.2.2) (owner : ScriptHash) (tick : Ticker) :
    unusedOf (senderOf deps final) messages owner tick = unusedOf (senderOf deps resolver) messages owner tick := by
  have hsent : sentFrom (senderOf deps final) owner tick (moves messages) =
      sentFrom (senderOf deps resolver) owner tick (moves messages) := by
    unfold sentFrom senderOf
    exact congrArg List.sum (List.map_congr_left fun e he => by rw [hmoved e he])
  rw [unusedOf_eq, unusedOf_eq, hsent]

/-- No inscription is on two inputs. -/
theorem Conserved.inputs_once (h : Conserved live s recorded)
    (hreplaced : Replaced live live' (inputBodies resolver tx.input) bodies) (hnodup : recorded.Nodup) :
    ((inputBodies resolver tx.input).flatMap TxoBody.ids).Nodup := by
  refine List.nodup_iff_count_le_one.mpr fun id => ?_
  obtain ⟨kept, hbefore, -⟩ := hreplaced.weights fun body => body.ids.count id
  have hids := h.ids id
  have hone := List.nodup_iff_count_le_one.mp hnodup id
  have hcount : ((inputBodies resolver tx.input).flatMap TxoBody.ids).count id =
      ((inputBodies resolver tx.input).map fun body => body.ids.count id).sum := List.count_flatMap ..
  unfold idsOn at hids
  omega

/-- The inputs are on the outputs of the completed block. -/
theorem resolved_final (h : Resolved resolver tx.input)
    (hfinal : ∀ ref ∈ spent tx, ref ≠ OutPoint.null → final.get ref = resolver.get ref) :
    ∀ ref ∈ spent tx, ref ≠ OutPoint.null → ∃ body, final.get ref = some body := by
  intro ref href hne
  obtain ⟨txin, htxin, rfl⟩ := List.mem_map.mp href
  rw [hfinal _ href hne]
  exact (h txin htxin).resolve_left fun hnull => hne (of_decide_eq_true hnull)

/-- **An indexed transaction is booked.** -/
theorem Indexed.posted (run : Indexed deps cfg resolver tx tx.txid height s r s') {earlier : List InscriptionId}
    (h : Conserved live s (earlier ++ s.newInscriptions.map NewInscriptionInfo.id))
    (hresolved : Resolved resolver tx.input)
    (hproduced : Produced height tx r.outputInscriptions r.newUnusedBrc20Transfers bodies)
    (hreplaced : Replaced live live' (inputBodies resolver tx.input) bodies) (hlen : tx.output.length < 2 ^ 32)
    (hnodup : (earlier ++ s'.newInscriptions.map NewInscriptionInfo.id).Nodup) (hlower : LowersShort deps)
    (hmodest : s.brc20.Modest) (hlive : ShortOutputs live)
    (hfinal : ∀ ref ∈ spent tx, ref ≠ OutPoint.null → final.get ref = resolver.get ref) :
    Posted deps live live' s s' ⟨tx, r.brc20Resolver, final⟩ := by
  have honce := run.once h hresolved hreplaced hnodup
  have hcarries := h.spent_carries hreplaced
  obtain ⟨hconserved, hrecorded⟩ := run.conserved h hresolved hproduced hreplaced hlen hnodup
  obtain ⟨hmodest', hmessages, htransfers⟩ := run.modest hlower hmodest fun body hbody => by
    obtain ⟨ref, hget⟩ := hreplaced.spent body hbody
    exact hlive ref body hget
  -- a transfer moves an inscription off an input
  have hmoved : ∀ e ∈ moves r.brc20Resolver, e.2.2.2 ∈ spent tx ∧ e.2.2.2 ≠ OutPoint.null ∧
      ∃ body, resolver.get e.2.2.2 = some body ∧ e.1 ∈ body.ids := by
    intro e he
    obtain ⟨x, hx, rfl⟩ := List.mem_map.mp ((run.moves_perm hresolved honce).mem_iff.mp he)
    obtain ⟨txin, htxin, hnull, body, hget, hx⟩ := mem_inputTransfers hx
    obtain ⟨-, hid, -, houtpoint⟩ := mem_transfersOf hx
    have houtpoint : (x.2.move).2.2 = txin.previousOutput := houtpoint
    simp only [houtpoint]
    exact ⟨List.mem_map_of_mem htxin, of_decide_eq_false hnull, body, hget, hid⟩
  have hsame : ∀ e ∈ moves r.brc20Resolver, final.get e.2.2.2 = resolver.get e.2.2.2 :=
    fun e he => hfinal _ (hmoved e he).1 (hmoved e he).2.1
  have havailable : ∀ owner tick, (s'.brc20.balance owner tick : Int) =
      s.brc20.balance owner tick + availableOf r.brc20Resolver owner tick :=
    fun owner tick => hrecorded.balance owner tick
  refine ⟨hmodest', hreplaced.shortOutputs hproduced hlive htransfers, ⟨hmessages, fun tick => ?_, ?_, ?_, ?_, ?_⟩,
    havailable, fun owner tick => ?_⟩
  · -- each part of the volume is within a supply
    obtain ⟨kept, hbefore, hafter⟩ := run.unusedOn_parts hresolved honce hcarries hproduced hreplaced hlen tick
    have hcovers := h.covers tick
    have hcovers' := hconserved.covers tick
    have hsupply := hrecorded.supply tick
    have hbounded : (s'.brc20.supply.getD tick 0).val ≤ (s'.brc20.maximum tick).val := hconserved.bounded tick
    have hmaximum := hmodest'.maximum_lt tick
    unfold Compressor.volume
    simp only
    omega
  · exact resolved_final hresolved hfinal
  · obtain ⟨revealed, hrecords, -⟩ := run.floats_count hresolved
    rw [hrecords, ← List.append_assoc] at hnodup
    simp only [inputBodies_congr hfinal]
    exact h.inputs_once hreplaced (List.nodup_append.mp hnodup).1
  · intro e he
    obtain ⟨hspent, hne, hbody⟩ := hmoved e he
    exact ⟨hspent, hne, by rw [hsame e he]; exact hbody⟩
  · intro m hm
    rcases run.opened_cases with ⟨hnone, -⟩ | ⟨message, recorded, hmessage, hone, -⟩ |
      ⟨message, tick, amt, receiver, hmessage, hone, -⟩
    · rw [hnone] at hm
      cases hm
    · rw [hone, List.mem_singleton] at hm
      rw [hm]
      exact run.message_record hmessage
    · rw [hone, List.mem_singleton] at hm
      rw [hm]
      exact run.message_record hmessage
  · have hunused := run.unusedAt_moved hresolved honce hcarries hproduced hreplaced hlen owner tick
    have hbalance := havailable owner tick
    have hread := unusedOf_congr deps hsame owner tick
    unfold Item.total
    simp only
    omega

/-- **Every transaction is booked.** -/
theorem Conserved.posted {earlier : List InscriptionId} {placed : List (List (U64 × InscriptionId))}
    {transfers : Table InscriptionId (Ticker × U128)} {messages : List (InscriptionId × BRC20Message)}
    (h : Conserved live s (earlier ++ s.newInscriptions.map NewInscriptionInfo.id))
    (hstep : InscriptionsStep deps cfg height tx resolver s placed transfers messages s')
    (hresolved : Resolved resolver tx.input) (hproduced : Produced height tx placed transfers bodies)
    (hreplaced : Replaced live live' (inputBodies resolver tx.input) bodies) (hlen : tx.output.length < 2 ^ 32)
    (hnodup : (earlier ++ s'.newInscriptions.map NewInscriptionInfo.id).Nodup)
    (hquiet : height < cfg.firstInscriptionHeight → ∀ tick, unusedOn live tick = 0) (hlower : LowersShort deps)
    (hmodest : s.brc20.Modest) (hlive : ShortOutputs live)
    (hfinal : ∀ ref ∈ spent tx, ref ≠ OutPoint.null → final.get ref = resolver.get ref) :
    Posted deps live live' s s' ⟨tx, messages, final⟩ := by
  obtain ⟨-, -, hquiet'⟩ := h.step hstep hresolved hproduced hreplaced hlen hnodup hquiet
  cases hstep with
  | indexed hheight hindex =>
    obtain ⟨run⟩ := indexInscriptions_ok hindex
    exact run.posted h hresolved hproduced hreplaced hlen hnodup hlower hmodest hlive hfinal
  | skipped hheight =>
    have hnone : ∀ id transfer, (Table.empty : Table InscriptionId (Ticker × U128)).get id = some transfer →
        Short transfer.1 := fun id transfer hget => by cases hget
    refine ⟨hmodest, hreplaced.shortOutputs hproduced hlive hnone,
      ⟨fun m hm => (List.not_mem_nil hm).elim, fun tick => Nat.two_pow_pos 126, resolved_final hresolved hfinal, ?_,
        fun e he => (List.not_mem_nil he).elim, fun m hm => (List.not_mem_nil hm).elim⟩,
      fun owner tick => (Int.add_zero _).symm, fun owner tick => ?_⟩
    · simp only [inputBodies_congr hfinal]
      exact h.inputs_once hreplaced hnodup
    · -- before the first inscription no output carries a transfer
      have hbefore := unusedAt_le deps live owner tick
      have hafter := unusedAt_le deps live' owner tick
      rw [hquiet hheight tick] at hbefore
      rw [hquiet' hheight tick] at hafter
      rw [Nat.le_zero.mp hbefore, Nat.le_zero.mp hafter]
      exact (Int.add_zero _).symm

end

/-! ## Balanced books -/

/-- The amounts along items, beginning with `v`, stay within those of a maximal supply. -/
def InBounds (f : Item → Int) : Int → List Item → Prop
  | v, [] => 0 ≤ v ∧ v < 2 ^ 124
  | v, item :: items => (0 ≤ v ∧ v < 2 ^ 124) ∧ InBounds f (v + f item) items

theorem InBounds.head {f : Item → Int} {v : Int} {items : List Item} (h : InBounds f v items) : 0 ≤ v ∧ v < 2 ^ 124 := by
  cases items with
  | nil => exact h
  | cons item items => exact h.1

theorem inBounds_append {f : Item → Int} {v : Int} {items items' : List Item} :
    InBounds f v (items ++ items') ↔ InBounds f v items ∧ InBounds f (v + (items.map f).sum) items' := by
  induction items generalizing v with
  | nil =>
    rw [List.nil_append, List.map_nil, List.sum_nil, Int.add_zero]
    exact ⟨fun h => ⟨h.head, h⟩, fun h => h.2⟩
  | cons item items ih =>
    rw [List.map_cons, List.sum_cons, ← Int.add_assoc]
    constructor
    · intro h
      obtain ⟨hleft, hright⟩ := ih.mp h.2
      exact ⟨⟨h.1, hleft⟩, hright⟩
    · rintro ⟨⟨hhead, hleft⟩, hright⟩
      exact ⟨hhead, ih.mpr ⟨hleft, hright⟩⟩

/-- The items lead from one amount to another within bounds. -/
structure LeadsTo (f : Item → Int) (v : Nat) (items : List Item) (v' : Nat) : Prop where
  bounds : InBounds f v items
  sum : (v' : Int) = v + (items.map f).sum

theorem LeadsTo.refl {f : Item → Int} {v : Nat} (h : v < 2 ^ 124) : LeadsTo f v [] v :=
  ⟨⟨Int.natCast_nonneg v, by omega⟩, (Int.add_zero _).symm⟩

theorem LeadsTo.trans {f : Item → Int} {v v' v'' : Nat} {items items' : List Item} (h : LeadsTo f v items v')
    (h' : LeadsTo f v' items' v'') : LeadsTo f v (items ++ items') v'' := by
  refine ⟨inBounds_append.mpr ⟨h.bounds, ?_⟩, ?_⟩
  · rw [← h.sum]
    exact h'.bounds
  · rw [h'.sum, h.sum, List.map_append, List.sum_append, Int.add_assoc]

theorem LeadsTo.concat {f : Item → Int} {v v' v'' : Nat} {items : List Item} {item : Item} (h : LeadsTo f v items v')
    (hsum : (v'' : Int) = v' + f item) (hv : v' < 2 ^ 124) (hv' : v'' < 2 ^ 124) : LeadsTo f v (items ++ [item]) v'' := by
  refine h.trans ⟨⟨⟨Int.natCast_nonneg v', by omega⟩, ?_⟩, ?_⟩
  · rw [← hsum]
    exact ⟨Int.natCast_nonneg v'', by omega⟩
  · rw [hsum, List.map_singleton, List.sum_singleton]

/-- The items account for what every script has. -/
structure Balanced (deps : Deps) (live : Table TxoRef TxoBody) (t : Brc20Tables) (items : List Item)
    (live' : Table TxoRef TxoBody) (t' : Brc20Tables) : Prop where
  available : ∀ owner tick, LeadsTo (Item.available owner tick) (t.balance owner tick) items (t'.balance owner tick)
  total : ∀ owner tick, LeadsTo (Item.total deps owner tick) (t.balance owner tick + unusedAt deps live owner tick) items
    (t'.balance owner tick + unusedAt deps live' owner tick)

theorem Balanced.trans {deps : Deps} {live live' live'' : Table TxoRef TxoBody} {t t' t'' : Brc20Tables}
    {items items' : List Item} (h : Balanced deps live t items live' t') (h' : Balanced deps live' t' items' live'' t'') :
    Balanced deps live t (items ++ items') live'' t'' :=
  ⟨fun owner tick => (h.available owner tick).trans (h'.available owner tick),
    fun owner tick => (h.total owner tick).trans (h'.total owner tick)⟩

/-! ## A block -/

section

variable {deps : Deps} {cfg : Config} {n n' : Node} {height : Nat} {block : Block} {mutable : Bool}

/-- The books between the transactions of a block, `txs` being those that have been processed. -/
structure BookedAfter (deps : Deps) (n : Node) (final : Table TxoRef TxoBody) (txs : List Transaction)
    (live : Table TxoRef TxoBody) (messages : List (InscriptionId × BRC20Message)) (i : InscriptionState)
    (items : List Item) : Prop where
  txs : items.map Item.tx = txs
  messages : messages = items.flatMap Item.messages
  sound : ∀ item ∈ items, item.txos = final ∧ item.Sound i.newInscriptions
  balanced : Balanced deps n.db.tables.txos n.db.tables.brc20 items live i.brc20
  modest : i.brc20.Modest
  short : ShortOutputs live

theorem BookedAfter.concat {final live live' : Table TxoRef TxoBody} {txs : List Transaction} {items : List Item}
    {done messages : List (InscriptionId × BRC20Message)} {i i' : InscriptionState} {tx : Transaction}
    {recorded recorded' : List InscriptionId} (h : BookedAfter deps n final txs live done i items)
    (hposted : Posted deps live live' i i' ⟨tx, messages, final⟩) (hconserved : Conserved live i recorded)
    (hconserved' : Conserved live' i' recorded') (hrecords : i.newInscriptions ⊆ i'.newInscriptions) :
    BookedAfter deps n final (txs ++ [tx]) live' (done ++ messages) i' (items ++ [⟨tx, messages, final⟩]) := by
  have hbefore : ∀ owner tick, i.brc20.balance owner tick + unusedAt deps live owner tick < 2 ^ 124 :=
    fun owner tick => hconserved.balance_lt h.modest owner tick
  have hafter : ∀ owner tick, i'.brc20.balance owner tick + unusedAt deps live' owner tick < 2 ^ 124 :=
    fun owner tick => hconserved'.balance_lt hposted.modest owner tick
  refine ⟨?_, ?_, ?_, ⟨fun owner tick => ?_, fun owner tick => ?_⟩, hposted.modest, hposted.short⟩
  · rw [List.map_append, h.txs]
    rfl
  · rw [List.flatMap_append, ← h.messages, List.flatMap_singleton]
  · intro item hitem
    rcases List.mem_append.mp hitem with hitem | hitem
    · exact ⟨(h.sound item hitem).1, (h.sound item hitem).2.mono hrecords⟩
    · rw [List.mem_singleton.mp hitem]
      exact ⟨rfl, hposted.sound⟩
  · exact (h.balanced.available owner tick).concat (hposted.available owner tick)
      (lt_of_le_of_lt (Nat.le_add_right _ _) (hbefore owner tick))
      (lt_of_le_of_lt (Nat.le_add_right _ _) (hafter owner tick))
  · exact (h.balanced.total owner tick).concat (hposted.total owner tick) (hbefore owner tick) (hafter owner tick)

/-- The books between transactions, as long as the inscriptions revealed before and in the block are distinct. -/
def BooksAfter (deps : Deps) (cfg : Config) (n : Node) (height : Nat) (earlier : List InscriptionId)
    (final : Table TxoRef TxoBody) (txs : List Transaction) (live : Table TxoRef TxoBody)
    (messages : List (InscriptionId × BRC20Message)) (i : InscriptionState) : Prop :=
  ConservedAfter cfg n height earlier live messages i ∧ ((earlier ++ i.newInscriptions.map NewInscriptionInfo.id).Nodup →
    ∃ items, BookedAfter deps n final txs live messages i items)

theorem BooksAfter.step {earlier : List InscriptionId} {final live live' : Table TxoRef TxoBody} {tx : Transaction}
    {txs : List Transaction} {resolver : Table TxoRef TxoBody} {s s' : InscriptionState}
    {placed : List (List (U64 × InscriptionId))} {transfers : Table InscriptionId (Ticker × U128)}
    {done messages : List (InscriptionId × BRC20Message)} {bodies : List TxoBody}
    (h : BooksAfter deps cfg n height earlier final txs live done s)
    (hstep : InscriptionsStep deps cfg height tx resolver s placed transfers messages s')
    (hresolved : Resolved resolver tx.input) (hproduced : Produced height tx placed transfers bodies)
    (hreplaced : Replaced live live' (inputBodies resolver tx.input) bodies) (hlen : tx.output.length < 2 ^ 32)
    (hlower : LowersShort deps)
    (hfinal : ∀ ref ∈ spent tx, ref ≠ OutPoint.null → final.get ref = resolver.get ref) :
    BooksAfter deps cfg n height earlier final (txs ++ [tx]) live' (done ++ messages) s' := by
  have hafter := h.1.step hstep hresolved hproduced hreplaced hlen
  refine ⟨hafter, fun hnodup => ?_⟩
  obtain ⟨revealed, hrecords⟩ := hstep.records
  have hbefore : (earlier ++ s.newInscriptions.map NewInscriptionInfo.id).Nodup := by
    rw [hrecords, List.map_append, ← List.append_assoc] at hnodup
    exact (List.nodup_append.mp hnodup).1
  obtain ⟨hconserved, -, hquiet⟩ := h.1 hbefore
  obtain ⟨items, hitems⟩ := h.2 hbefore
  have hposted := hconserved.posted hstep hresolved hproduced hreplaced hlen hnodup hquiet hlower hitems.modest
    hitems.short hfinal
  refine ⟨_, hitems.concat hposted hconserved (hafter hnodup).1 ?_⟩
  rw [hrecords]
  exact List.subset_append_left _ _

/-- **A block is booked**: its transactions, the coinbase last, account for what every script has. -/
theorem Applied.booked (run : Applied deps cfg n height block mutable n')
    (hvalid : ValidBlock n.db.tables height block) (hsettled : Settled n.mem n.db.tables.txos)
    (hsourced : Sourced n.db.tables) (h : n.db.tables.Conserved cfg) (hmodest : n.db.tables.brc20.Modest)
    (hshort : ShortOutputs n.db.tables.txos) (hlower : LowersShort deps)
    (hnodup : (n'.db.tables.records.map NewInscriptionInfo.id).Nodup) :
    ∃ items, BookedAfter deps n run.final.resolver (block.txdata.drop 1 ++ block.txdata.take 1) n'.db.tables.txos
      run.final.brc20Resolver run.final.inscriptions items := by
  obtain ⟨hcbSpent, hothers⟩ := hvalid.coinbase.not_null run.processed.txdata
  obtain ⟨hinscriptions, hmessages⟩ := run.processed.started_inscriptions
  have hquiet : height < cfg.firstInscriptionHeight → ∀ tick, unusedOn n.db.tables.txos tick = 0 := by
    intro hlow
    rcases h.quiet with hzero | ⟨e, he, hfirst⟩
    · exact hzero
    · exact absurd (hvalid.later e he) (by omega)
  have hstart : Conserved n.db.tables.txos (initialState deps n.db.tables height n.memory).inscriptions
      (n.db.tables.records.map NewInscriptionInfo.id) := ⟨fun id => h.ids id, h.carries, h.bounded, h.covers⟩
  have hend := run.live_induct hvalid hsettled.agrees hsettled.null
    (P := fun live done s => BooksAfter deps cfg n height (n.db.tables.records.map NewInscriptionInfo.id)
      run.final.resolver (done.map Prod.fst) live s.brc20Resolver s.inscriptions) ?_ ?_
  · obtain ⟨live, hlive, hfresh, htxos⟩ := hend
    obtain ⟨hresolved, hnone⟩ := coinbase_inputs hcbSpent run.processed.closed.resolver
    have htxs : block.txdata.drop 1 ++ block.txdata.take 1 =
        run.processed.steps.map Prod.fst ++ [run.processed.coinbase] := by
      rw [run.processed.processes.map_fst, run.processed.txdata, List.zipIdx_map_fst]
      rfl
    rw [run.processed.inscriptions_eq, congrArg BlockState.brc20Resolver run.processed.state, htxos, htxs]
    refine (hlive.step run.processed.inscriptions hresolved run.processed.produced ?_ ?_ hlower ?_).2 ?_
    · rw [hnone]
      exact replaced_coinbase hfresh _
    · exact hvalid.outputs _ (by rw [run.processed.txdata]; exact List.mem_cons_self)
    · intro ref href hne
      rw [hcbSpent] at href
      exact absurd (List.mem_singleton.mp href) hne
    · rw [run.records_append hvalid hsourced, List.map_append] at hnodup
      rw [← run.processed.inscriptions_eq]
      exact hnodup
  · rw [hinscriptions, hmessages]
    have hlt : ∀ owner tick, n.db.tables.brc20.balance owner tick + unusedAt deps n.db.tables.txos owner tick < 2 ^ 124 :=
      fun owner tick => hstart.balance_lt hmodest owner tick
    refine ⟨fun _ => ⟨?_, .nil, hquiet⟩, fun _ => ⟨[], rfl, rfl, fun item hitem => (List.not_mem_nil hitem).elim,
      ⟨fun owner tick => .refl (lt_of_le_of_lt (Nat.le_add_right _ _) (hlt owner tick)),
        fun owner tick => .refl (hlt owner tick)⟩, hmodest, hshort⟩⟩
    change Conserved _ _ (_ ++ [])
    rw [List.append_nil]
    exact hstart
  · intro live done tx idx s s₁ ptx hidx hpre hliveTx hresolvedTx hP
    have htx : tx ∈ run.processed.txs := List.fst_mem_of_mem_zipIdx hidx
    rw [ptx.inscriptions_eq, congrArg BlockState.brc20Resolver ptx.state, List.map_append]
    refine hP.step ptx.inscriptions hliveTx.resolved ptx.produced (hliveTx.replaced (hothers tx htx) ptx.bodies) ?_ hlower
      fun ref href _ => hresolvedTx.inputs ref href
    exact hvalid.outputs _ (by rw [run.processed.txdata]; exact List.mem_cons_of_mem _ htx)

end

end DogeIndexer.Compressor
