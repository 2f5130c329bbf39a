import DogeIndexer.Compressor.Satoshis
import DogeIndexer.Compressor.Supply

/-!
# What a transaction transfers

The messages that a transaction records transfer the unused transfers on its inputs, each of them once, and
reserve what the transfer inscriptions on its outputs carry, as long as no inscription floats twice.

* `Indexed.transferred_eq` — the transferred amounts are those on the inputs.
* `Indexed.reserved_eq` — the reserved amounts are those on the outputs.
-/

set_option autoImplicit false

namespace DogeIndexer.Compressor

open Fallible

/-! ## Amounts on outputs -/

/-- The inscriptions on an output. -/
def TxoBody.ids (body : TxoBody) : List InscriptionId := body.inscriptions.map Prod.snd

/-- The amount of a ticker in the unused transfers of an output. -/
def TxoBody.unusedOf (tick : Ticker) (body : TxoBody) : Nat :=
  body.unusedBrc20Transfers.total fun _ transfer => if transfer.1 = tick then transfer.2.val else 0

/-- The amount of a ticker in a transfer on an input. -/
def UnusedTransfer.amountOf (tick : Ticker) (transfer : UnusedTransfer) : Nat :=
  if transfer.tick = tick then transfer.amt.val else 0

/-- The outputs that inputs spend. -/
def inputBodies (resolver : Table TxoRef TxoBody) (inputs : List TxIn) : List TxoBody :=
  inputs.filterMap fun txin => if txin.previousOutput.isNull then none else resolver.get txin.previousOutput

/-- The unused transfers of an output are of inscriptions on it. -/
def TxoBody.Carries (body : TxoBody) : Prop :=
  ∀ id transfer, body.unusedBrc20Transfers.get id = some transfer → id ∈ body.ids

section

variable {deps : Deps} {resolver : Table TxoRef TxoBody}

theorem transfersOf_keys (deps : Deps) (previousOutput : OutPoint) (body : TxoBody) :
    ((transfersOf deps previousOutput body).map Prod.fst).Sublist body.ids := by
  unfold transfersOf TxoBody.ids
  induction body.inscriptions with
  | nil => exact List.Sublist.slnil
  | cons e l ih =>
    rw [List.filterMap_cons, List.map_cons]
    cases body.unusedBrc20Transfers.get e.2 with
    | none => exact ih.cons _
    | some transfer => exact ih.cons_cons _

/-- An unused transfer of an output is of an inscription on it, and remembers its script. -/
theorem mem_transfersOf {previousOutput : OutPoint} {body : TxoBody} {e : InscriptionId × UnusedTransfer}
    (h : e ∈ transfersOf deps previousOutput body) :
    body.unusedBrc20Transfers.get e.1 = some (e.2.tick, e.2.amt) ∧ e.1 ∈ body.ids ∧
      e.2.sender = deps.scriptHash body.raw.scriptPubkey ∧ e.2.originalPoint.outpoint = previousOutput := by
  obtain ⟨x, hx, h⟩ := List.mem_filterMap.mp h
  obtain ⟨transfer, htransfer, rfl⟩ := Option.map_eq_some_iff.mp h
  exact ⟨htransfer, List.mem_map_of_mem hx, rfl, rfl⟩

/-- The unused transfers of an output hold its amounts. -/
theorem transfersOf_amount (deps : Deps) (previousOutput : OutPoint) {body : TxoBody} (hnodup : body.ids.Nodup)
    (hcarries : body.Carries) (tick : Ticker) :
    ((transfersOf deps previousOutput body).map fun e => e.2.amountOf tick).sum = body.unusedOf tick := by
  unfold TxoBody.unusedOf
  rw [Table.total_of_keys _ hnodup hcarries]
  unfold transfersOf TxoBody.ids
  induction body.inscriptions with
  | nil => rfl
  | cons e l ih =>
    rw [List.filterMap_cons, List.map_cons, List.map_cons, List.sum_cons, ← ih]
    unfold Table.weightAt
    cases body.unusedBrc20Transfers.get e.2 with
    | none => exact (Nat.zero_add _).symm
    | some transfer => rfl

variable {inputs : List TxIn} {height : Nat}

/-- An input is null or spends a resolved output. -/
def Resolved (resolver : Table TxoRef TxoBody) (inputs : List TxIn) : Prop :=
  ∀ txin ∈ inputs, txin.previousOutput.isNull = true ∨ ∃ body, resolver.get txin.previousOutput = some body

/-- The inscriptions that float are those of the spent outputs. -/
theorem inputFloats_ids (h : Resolved resolver inputs) (total : U64) :
    (inputFloats deps resolver height total inputs).map Flotsam.inscriptionId =
      (inputBodies resolver inputs).flatMap TxoBody.ids := by
  induction inputs generalizing total with
  | nil => rfl
  | cons txin inputs ih =>
    have ih := ih fun x hx => h x (List.mem_cons_of_mem _ hx)
    unfold inputFloats inputBodies
    rw [List.filterMap_cons]
    by_cases hnull : txin.previousOutput.isNull = true
    · rw [if_pos hnull, if_pos hnull]
      exact ih _
    · obtain ⟨body, hget⟩ := (h txin List.mem_cons_self).resolve_left hnull
      rw [if_neg hnull, if_neg hnull, hget]
      simp only
      rw [List.map_append, List.flatMap_cons, ih]
      refine congrArg₂ _ ?_ rfl
      unfold floatsOf TxoBody.ids
      rw [List.map_map]
      rfl

theorem inputTransfers_keys (deps : Deps) (resolver : Table TxoRef TxoBody) (inputs : List TxIn) :
    ((inputTransfers deps resolver inputs).map Prod.fst).Sublist
      ((inputBodies resolver inputs).flatMap TxoBody.ids) := by
  induction inputs with
  | nil => exact List.Sublist.slnil
  | cons txin inputs ih =>
    unfold inputTransfers inputBodies at ih ⊢
    rw [List.flatMap_cons, List.filterMap_cons]
    by_cases hnull : txin.previousOutput.isNull = true
    · rw [if_pos hnull, if_pos hnull, List.nil_append]
      exact ih
    · rw [if_neg hnull, if_neg hnull]
      cases resolver.get txin.previousOutput with
      | none => exact ih
      | some body =>
        rw [List.map_append, List.flatMap_cons]
        exact (transfersOf_keys deps txin.previousOutput body).append ih

theorem mem_inputTransfers {e : InscriptionId × UnusedTransfer} (h : e ∈ inputTransfers deps resolver inputs) :
    ∃ txin ∈ inputs, txin.previousOutput.isNull = false ∧ ∃ body, resolver.get txin.previousOutput = some body ∧
      e ∈ transfersOf deps txin.previousOutput body := by
  obtain ⟨txin, htxin, h⟩ := List.mem_flatMap.mp h
  split at h
  · cases h
  · rename_i hnull
    split at h
    · cases h
    · rename_i body hget
      exact ⟨txin, htxin, Bool.eq_false_iff.mpr hnull, body, hget, h⟩

theorem mem_inputBodies {txin : TxIn} {body : TxoBody} (htxin : txin ∈ inputs) (hnull : txin.previousOutput.isNull = false)
    (hget : resolver.get txin.previousOutput = some body) : body ∈ inputBodies resolver inputs := by
  refine List.mem_filterMap.mpr ⟨txin, htxin, ?_⟩
  rw [if_neg (by simp [hnull]), hget]

/-- What the unused transfers of the inputs add up to, output by output. -/
theorem inputTransfers_sum {f : UnusedTransfer → Nat} {g : TxoBody → Nat}
    (hone : ∀ ref, ∀ body ∈ inputBodies resolver inputs, ((transfersOf deps ref body).map fun e => f e.2).sum = g body) :
    ((inputTransfers deps resolver inputs).map fun e => f e.2).sum = ((inputBodies resolver inputs).map g).sum := by
  induction inputs with
  | nil => rfl
  | cons txin inputs ih =>
    unfold inputTransfers
    unfold inputBodies at hone ih ⊢
    rw [List.filterMap_cons] at hone ⊢
    rw [List.flatMap_cons]
    by_cases hnull : txin.previousOutput.isNull = true
    · rw [if_pos hnull] at hone ⊢
      rw [if_pos hnull, List.nil_append]
      exact ih hone
    · rw [if_neg hnull] at hone ⊢
      rw [if_neg hnull]
      cases hget : resolver.get txin.previousOutput with
      | none =>
        rw [hget] at hone
        exact ih hone
      | some body =>
        rw [hget] at hone
        rw [List.map_append, List.sum_append, List.map_cons, List.sum_cons, hone _ body List.mem_cons_self]
        exact congrArg _ (ih fun ref b hb => hone ref b (List.mem_cons_of_mem _ hb))

/-- The unused transfers of the inputs hold the amounts of the spent outputs. -/
theorem inputTransfers_amount (hnodup : ((inputBodies resolver inputs).flatMap TxoBody.ids).Nodup)
    (hcarries : ∀ body ∈ inputBodies resolver inputs, body.Carries) (tick : Ticker) :
    ((inputTransfers deps resolver inputs).map fun e => e.2.amountOf tick).sum =
      ((inputBodies resolver inputs).map (TxoBody.unusedOf tick)).sum :=
  inputTransfers_sum fun ref body hbody =>
    transfersOf_amount deps ref ((List.nodup_flatMap.mp hnodup).1 body hbody) (hcarries body hbody) tick

end

/-! ## Recorded transfers -/

/-- What a transfer moves: an amount of a ticker, off an output. -/
abbrev Move := Ticker × U128 × OutPoint

def BRC20Message.move : BRC20Message → Option Move
  | .transfer tick amt outpoint _ => some (tick, amt, outpoint)
  | _ => none

def UnusedTransfer.move (transfer : UnusedTransfer) : Move :=
  (transfer.tick, transfer.amt, transfer.originalPoint.outpoint)

/-- The transfers among messages. -/
def moves (messages : List (InscriptionId × BRC20Message)) : List (InscriptionId × Move) :=
  messages.filterMap fun m => m.2.move.map fun move => (m.1, move)

/-- The messages that are not transfers. -/
def opened (messages : List (InscriptionId × BRC20Message)) : List (InscriptionId × BRC20Message) :=
  messages.filter fun m => m.2.move.isNone

theorem moves_append (l l' : List (InscriptionId × BRC20Message)) : moves (l ++ l') = moves l ++ moves l' :=
  List.filterMap_append ..

theorem opened_append (l l' : List (InscriptionId × BRC20Message)) : opened (l ++ l') = opened l ++ opened l' :=
  List.filter_append ..

theorem transferred_eq_moves (messages : List (InscriptionId × BRC20Message)) (tick : Ticker) :
    transferred messages tick = ((moves messages).map fun e => if e.2.1 = tick then e.2.2.1.val else 0).sum := by
  induction messages with
  | nil => rfl
  | cons m messages ih =>
    have hcons : transferred (m :: messages) tick = m.2.transferred tick + transferred messages tick := rfl
    rw [hcons, ih]
    unfold moves
    rw [List.filterMap_cons]
    obtain ⟨id, message⟩ := m
    cases message with
    | transfer => rfl
    | _ => exact Nat.zero_add _

theorem reserved_eq_opened (messages : List (InscriptionId × BRC20Message)) (tick : Ticker) :
    reserved messages tick = reserved (opened messages) tick := by
  induction messages with
  | nil => rfl
  | cons m messages ih =>
    have hcons : ∀ l, reserved (m :: l) tick = m.2.reserved tick + reserved l tick := fun _ => rfl
    unfold opened at ih ⊢
    rw [hcons, ih, List.filter_cons]
    obtain ⟨id, message⟩ := m
    cases message with
    | transfer => exact Nat.zero_add _
    | _ => rfl

section

variable {checks : Bool} {unused : Table InscriptionId UnusedTransfer}
  {s s' : Brc20Tables × List (InscriptionId × BRC20Message)}

/-- The unused transfers of inscriptions. -/
def movesOf (unused : Table InscriptionId UnusedTransfer) (ids : List InscriptionId) : List (InscriptionId × Move) :=
  ids.filterMap fun id => (unused.get id).map fun transfer => (id, transfer.move)

/-- The transfers of the listed inscriptions have been recorded. -/
structure Transfers (unused : Table InscriptionId UnusedTransfer) (ids : List InscriptionId)
    (s s' : Brc20Tables × List (InscriptionId × BRC20Message)) : Prop where
  moves : moves s'.2 = moves s.2 ++ movesOf unused ids
  opened : opened s'.2 = opened s.2

theorem Transfers.trans {ids ids' : List InscriptionId} {s'' : Brc20Tables × List (InscriptionId × BRC20Message)}
    (h : Transfers unused ids s s') (h' : Transfers unused ids' s' s'') : Transfers unused (ids ++ ids') s s'' := by
  refine ⟨?_, h'.opened.trans h.opened⟩
  rw [h'.moves, h.moves, List.append_assoc]
  exact congrArg _ (List.filterMap_append ..).symm

theorem Transfers.refl (unused : Table InscriptionId UnusedTransfer)
    (s : Brc20Tables × List (InscriptionId × BRC20Message)) : Transfers unused [] s s :=
  ⟨(List.append_nil _).symm, rfl⟩

/-- One transfer that takes place. -/
theorem Transfers.one {t : Brc20Tables} {valid : List (InscriptionId × BRC20Message)} {id : InscriptionId}
    {transfer : UnusedTransfer} {receiver : ScriptHash} (hget : unused.get id = some transfer)
    (h : creditTransfer checks t valid id transfer receiver = .ok s') : Transfers unused [id] (t, valid) s' := by
  unfold creditTransfer at h
  obtain ⟨t', -, h⟩ := bind_eq_ok.mp h
  cases h
  have hof : movesOf unused [id] = [(id, transfer.move)] := by
    unfold movesOf
    rw [List.filterMap_cons, hget]
    rfl
  refine ⟨?_, ?_⟩
  · rw [moves_append, hof]
    rfl
  · rw [opened_append]
    exact List.append_nil _

/-- An inscription without an unused transfer. -/
theorem Transfers.skip {id : InscriptionId} (hget : unused.get id = none)
    (s : Brc20Tables × List (InscriptionId × BRC20Message)) : Transfers unused [id] s s := by
  refine ⟨?_, rfl⟩
  unfold movesOf
  rw [List.filterMap_cons, hget]
  exact (List.append_nil _).symm

/-- A fold over inscriptions whose steps record their transfers. -/
theorem Transfers.foldlM {α : Type} {key : α → InscriptionId}
    {f : Brc20Tables × List (InscriptionId × BRC20Message) → α →
      Except Err (Brc20Tables × List (InscriptionId × BRC20Message))}
    (hf : ∀ s a s', f s a = .ok s' → Transfers unused [key a] s s') {l : List α} (h : l.foldlM f s = .ok s') :
    Transfers unused (l.map key) s s' := by
  induction l generalizing s with
  | nil =>
    cases h
    exact Transfers.refl unused _
  | cons a l ih =>
    obtain ⟨s₁, h₁, h₂⟩ := foldlM_cons_eq_ok.mp h
    exact (hf s a s₁ h₁).trans (ih h₂)

theorem returnTransfers_transfers {left : List Flotsam} (h : returnTransfers checks unused s left = .ok s') :
    Transfers unused (left.map Flotsam.inscriptionId) s s' := by
  refine Transfers.foldlM ?_ h
  rintro ⟨t, valid⟩ flotsam s' hstep
  simp only at hstep
  split at hstep
  · rename_i transfer hget
    exact Transfers.one hget hstep
  · rename_i hget
    cases hstep
    exact Transfers.skip hget _

theorem creditOutgoing_transfers {scripts : Table OutPoint ScriptHash} {outgoing : List (SatPoint × InscriptionId)}
    (h : creditOutgoing checks scripts unused s outgoing = .ok s') : Transfers unused (outgoing.map Prod.snd) s s' := by
  refine Transfers.foldlM ?_ h
  rintro ⟨t, valid⟩ ⟨satpoint, id⟩ s' hstep
  simp only at hstep
  split at hstep
  · rename_i transfer hget
    obtain ⟨receiver, -, hstep⟩ := bind_eq_ok.mp hstep
    exact Transfers.one hget hstep
  · rename_i hget
    cases hstep
    exact Transfers.skip hget _

/-- **The unused transfers of distinct inscriptions**, when every transfer's inscription is among them. -/
theorem movesOf_perm {l : List (InscriptionId × UnusedTransfer)} {ids : List InscriptionId}
    (hkeys : (l.map Prod.fst).Nodup) (hids : ids.Nodup) (hsub : ∀ e ∈ l, e.1 ∈ ids) :
    (movesOf (Table.empty.insertAll l) ids).Perm (l.map fun e => (e.1, e.2.move)) := by
  have hget : ∀ id transfer, (Table.empty.insertAll l).get id = some transfer ↔ (id, transfer) ∈ l := by
    intro id transfer
    refine ⟨fun h => ?_, fun h => Table.get_insertAll_of_mem hkeys h⟩
    rcases Table.get_insertAll h with hmem | ⟨-, hnone⟩
    · exact hmem
    · cases hnone
  have hheld : (ids.filterMap fun id => ((Table.empty.insertAll l).get id).map fun transfer => (id, transfer)).Perm l := by
    refine (List.perm_ext_iff_of_nodup ?_ hkeys.of_map).mpr fun e => ?_
    · refine hids.filterMap ?_
      intro id id' e he he'
      obtain ⟨transfer, -, rfl⟩ := Option.map_eq_some_iff.mp he
      obtain ⟨transfer', -, heq⟩ := Option.map_eq_some_iff.mp he'
      exact (Prod.mk.inj heq).1.symm
    · rw [List.mem_filterMap]
      constructor
      · rintro ⟨id, -, h⟩
        obtain ⟨transfer, htransfer, rfl⟩ := Option.map_eq_some_iff.mp h
        exact (hget _ _).mp htransfer
      · intro he
        exact ⟨e.1, hsub e he, by rw [(hget e.1 e.2).mpr he]; rfl⟩
  have hmap := hheld.map fun e => (e.1, e.2.move)
  rw [List.map_filterMap] at hmap
  refine (List.Perm.of_eq ?_).trans hmap
  unfold movesOf
  refine List.filterMap_congr fun id _ => ?_
  rw [Option.map_map]
  rfl

/-! ## Recorded messages of inscriptions -/

/-- What one message of an inscription does: it records nothing, a message that reserves nothing, or a new unused
transfer of an inscription with a receiver. -/
inductive Opens (receivers : Table InscriptionId ScriptHash) (id : InscriptionId) (m m' : MessageState) : Prop
  | nothing (hvalid : m'.valid = m.valid) (hunused : m'.newUnused = m.newUnused) : Opens receivers id m m'
  | message (message : BRC20Message) (hmove : message.move = none) (hreserved : ∀ tick, message.reserved tick = 0)
      (hvalid : m'.valid = m.valid ++ [(id, message)]) (hunused : m'.newUnused = m.newUnused) : Opens receivers id m m'
  | transferInit (tick : Ticker) (amt : U128) {receiver : ScriptHash} (hreceiver : receivers.get id = some receiver)
      (hvalid : m'.valid = m.valid ++ [(id, .transferInit tick amt receiver)])
      (hunused : m'.newUnused = m.newUnused.insert id (tick, amt)) : Opens receivers id m m'

theorem Opens.refl (receivers : Table InscriptionId ScriptHash) (id : InscriptionId) (m : MessageState) :
    Opens receivers id m m := .nothing rfl rfl

theorem applyMint_opens {receivers : Table InscriptionId ScriptHash} {id : InscriptionId} {m m' : MessageState}
    {receiver : Option ScriptHash} {terms : BRC20Terms} {action : BRC20.AmountAction}
    (h : applyMint checks m id receiver terms action = .ok m') : Opens receivers id m m' := by
  unfold applyMint at h
  simp only at h
  split at h
  · cases h
    exact Opens.refl _ _ _
  · split at h
    · cases h
      exact Opens.refl _ _ _
    · obtain ⟨left, -, h⟩ := bind_eq_ok.mp h
      obtain ⟨newSupply, -, h⟩ := bind_eq_ok.mp h
      obtain ⟨t, -, h⟩ := bind_eq_ok.mp h
      cases h
      exact .message _ rfl (fun _ => rfl) rfl rfl

theorem applyTransferInit_opens {receivers : Table InscriptionId ScriptHash} {id : InscriptionId}
    {m m' : MessageState} {action : BRC20.AmountAction}
    (h : applyTransferInit checks m id (receivers.get id) action = .ok m') : Opens receivers id m m' := by
  unfold applyTransferInit at h
  split at h
  · cases h
    exact Opens.refl _ _ _
  · rename_i receiver hreceiver
    simp only at h
    split at h
    · cases h
      exact Opens.refl _ _ _
    · split at h
      · cases h
        exact Opens.refl _ _ _
      · obtain ⟨newBalance, -, h⟩ := bind_eq_ok.mp h
        cases h
        exact .transferInit action.ticker action.amt hreceiver rfl rfl

theorem processMessage_opens {deps : Deps} {receivers : Table InscriptionId ScriptHash} {m m' : MessageState}
    {message : InscriptionId × RawProtocolMessage} (h : processMessage deps checks receivers m message = .ok m') :
    Opens receivers message.1 m m' := by
  obtain ⟨id, raw⟩ := message
  unfold processMessage at h
  simp only at h
  split at h
  · split at h
    · cases h
      exact .message _ rfl (fun _ => rfl) rfl rfl
    · cases h
      exact Opens.refl _ _ _
  · split at h
    · cases h
      exact Opens.refl _ _ _
    · split at h
      · exact applyMint_opens h
      · split at h
        · exact applyTransferInit_opens h
        · cases h
          exact Opens.refl _ _ _

end

/-! ## Receivers -/

/-- Scripts are of outputs of the transaction. -/
theorem get_outpointToScript {deps : Deps} {txid : Txid} {outputs : List TxOut} {outpoint : OutPoint}
    {script : ScriptHash} (h : (outpointToScript deps txid outputs).get outpoint = some script) :
    outpoint.txid = txid ∧
      ∃ output, outputs[outpoint.vout]? = some output ∧ deps.scriptHash output.scriptPubkey = script := by
  unfold outpointToScript at h
  revert outpoint script h
  -- one output after the other
  refine List.foldlRecOn (motive := fun t : Table OutPoint ScriptHash =>
    ∀ {o script}, t.get o = some script → o.txid = txid ∧
      ∃ output, outputs[o.vout]? = some output ∧ deps.scriptHash output.scriptPubkey = script) _ _
    (fun ho => by cases ho) ?_
  intro t ht e he o script ho
  simp only at ho
  rw [Table.get_insert] at ho
  split at ho
  · rename_i heq
    rw [heq]
    exact ⟨rfl, e.1, List.mem_zipIdx_iff_getElem?.mp he, Option.some.inj ho⟩
  · exact ht ho

/-- A receiver is the script of an output that the inscription is on. -/
theorem get_inscriptionIdToScript {scripts : Table OutPoint ScriptHash} {outgoing : List (SatPoint × InscriptionId)}
    {id : InscriptionId} {script : ScriptHash} (h : (inscriptionIdToScript scripts outgoing).get id = some script) :
    ∃ e ∈ outgoing, e.2 = id ∧ scripts.get e.1.outpoint = some script := by
  unfold inscriptionIdToScript at h
  revert id script h
  -- one inscription after the other
  refine List.foldlRecOn (motive := fun t : Table InscriptionId ScriptHash =>
    ∀ {id script}, t.get id = some script →
      ∃ e ∈ outgoing, e.2 = id ∧ scripts.get e.1.outpoint = some script) _ _ (fun hid => by cases hid) ?_
  intro t ht e he id script hid
  simp only at hid
  split at hid
  · rename_i script' hscript
    rw [Table.get_insert] at hid
    split at hid
    · rename_i heq
      cases hid
      exact ⟨e, he, heq.symm, hscript⟩
    · exact ht hid
  · exact ht hid

/-! ## A transaction -/

/-- An inscription that is on the outputs once is on one of them. -/
theorem countP_of_count_one {bodies : List TxoBody} {id : InscriptionId}
    (h : (bodies.flatMap TxoBody.ids).count id = 1) : (bodies.countP fun b => b.ids.contains id) = 1 := by
  induction bodies with
  | nil => cases h
  | cons b bodies ih =>
    rw [List.flatMap_cons, List.count_append] at h
    rw [List.countP_cons]
    by_cases hmem : id ∈ b.ids
    · have hpos := List.count_pos_iff.mpr hmem
      have hnone : (bodies.countP fun b => b.ids.contains id) = 0 := by
        refine List.countP_eq_zero.mpr fun b' hb' hcontains => ?_
        have hlater : id ∈ bodies.flatMap TxoBody.ids :=
          List.mem_flatMap.mpr ⟨b', hb', List.contains_iff_mem.mp hcontains⟩
        have := List.count_pos_iff.mpr hlater
        omega
      rw [hnone, if_pos (List.contains_iff_mem.mpr hmem)]
    · rw [List.count_eq_zero_of_not_mem hmem, Nat.zero_add] at h
      rw [ih h, if_neg (fun hcontains => hmem (List.contains_iff_mem.mp hcontains))]

/-- The unused transfers on some outputs of a transaction are of the inscriptions on them. -/
theorem Produced.unusedOf_some {height : Nat} {tx : Transaction} {placed : List (List (U64 × InscriptionId))}
    {transfers : Table InscriptionId (Ticker × U128)} {bodies l : List TxoBody}
    (h : Produced height tx placed transfers bodies) (hl : ∀ b ∈ l, b ∈ bodies) (tick : Ticker) :
    (l.map (TxoBody.unusedOf tick)).sum = transfers.total fun id transfer =>
      (l.countP fun b => b.ids.contains id) * if transfer.1 = tick then transfer.2.val else 0 := by
  induction l with
  | nil =>
    refine (List.sum_eq_zero fun v hv => ?_).symm
    obtain ⟨e, -, rfl⟩ := List.mem_map.mp hv
    exact Nat.zero_mul _
  | cons b l ih =>
    rw [List.map_cons, List.sum_cons, ih fun x hx => hl x (List.mem_cons_of_mem _ hx)]
    unfold TxoBody.unusedOf
    rw [h.unused b (hl b List.mem_cons_self), Table.total_filter, ← Table.total_add]
    refine Table.total_congr fun id transfer _ => ?_
    rw [List.countP_cons, Nat.add_mul, Nat.add_comm]
    refine congrArg₂ _ rfl ?_
    unfold TxoBody.ids
    split <;> simp

/-- The unused transfers of the inscriptions on each output of a transaction: each is on one of them. -/
theorem Produced.unusedOf_sum {height : Nat} {tx : Transaction} {placed : List (List (U64 × InscriptionId))}
    {transfers : Table InscriptionId (Ticker × U128)} {bodies : List TxoBody}
    (h : Produced height tx placed transfers bodies)
    (hone : ∀ id transfer, transfers.get id = some transfer → (bodies.flatMap TxoBody.ids).count id = 1)
    (tick : Ticker) :
    (bodies.map (TxoBody.unusedOf tick)).sum =
      transfers.total fun _ transfer => if transfer.1 = tick then transfer.2.val else 0 := by
  rw [h.unusedOf_some (fun _ hb => hb)]
  refine Table.total_congr fun id transfer hget => ?_
  rw [countP_of_count_one (hone id transfer hget), Nat.one_mul]

section

variable {deps : Deps} {cfg : Config} {resolver : Table TxoRef TxoBody} {tx : Transaction} {txid : Txid}
  {height : Nat} {s s' : InscriptionState} {r : IndexInscriptionsResult}

/-- The inscriptions that a transaction places on its outputs, and those it leaves. -/
def Indexed.placedIds (run : Indexed deps cfg resolver tx txid height s r s') : List InscriptionId :=
  run.placed.map fun e => e.2.inscriptionId

def Indexed.leftIds (run : Indexed deps cfg resolver tx txid height s r s') : List InscriptionId :=
  run.left.map Flotsam.inscriptionId

/-- **What floats is on the inputs, revealed, or carried to the coinbase.** -/
theorem Indexed.ids_perm (run : Indexed deps cfg resolver tx txid height s r s') (hresolved : Resolved resolver tx.input) :
    ∃ revealed, s'.newInscriptions.map NewInscriptionInfo.id = s.newInscriptions.map NewInscriptionInfo.id ++ revealed ∧
      (run.placedIds ++ run.leftIds).Perm ((inputBodies resolver tx.input).flatMap TxoBody.ids ++ revealed ++
        (if isCoinbase tx then s.cbInscriptions else []).map Flotsam.inscriptionId) := by
  obtain ⟨revealed, hrecords, hlocated⟩ := run.revealed_records
  refine ⟨revealed.map NewInscriptionInfo.id, by rw [hrecords, List.map_append], ?_⟩
  have hids : run.revealed.map Flotsam.inscriptionId = revealed.map NewInscriptionInfo.id := by
    have hfst := congrArg (List.map Prod.fst) hlocated
    rw [List.map_map, List.map_map] at hfst
    exact hfst
  obtain ⟨-, hfloat, -⟩ := run.inputs_eq
  have hperm := run.floating_perm.map Flotsam.inscriptionId
  rw [List.map_append, List.map_map, List.map_append, List.map_append, hfloat, inputFloats_ids hresolved, hids] at hperm
  exact hperm

/-- A list is read through its positions. -/
theorem flatMap_range {α β : Type} (l : List (List α)) (f : α → β) :
    ((List.range l.length).flatMap fun i => (l[i]?.getD []).map f) = l.flatMap (List.map f) := by
  induction l with
  | nil => rfl
  | cons a l ih =>
    rw [List.length_cons, List.range_succ_eq_map, List.flatMap_cons, List.flatMap_map, List.flatMap_cons, ← ih]
    rfl

/-- The inscriptions of the bodies are the placed ones. -/
theorem Indexed.outputs_ids (run : Indexed deps cfg resolver tx txid height s r s') (hlen : tx.output.length < 2 ^ 32)
    {transfers : Table InscriptionId (Ticker × U128)} {bodies : List TxoBody}
    (hproduced : Produced height tx r.outputInscriptions transfers bodies) :
    (bodies.flatMap TxoBody.ids).Perm run.placedIds := by
  obtain ⟨hsplit, -, -⟩ := run.outgoing_split hlen
  have hperm := placeOutputs_perm run.places fun _ e => e.2
  rw [hsplit] at hperm
  have hlists : (List.range tx.output.length).flatMap (fun i => (r.outputInscriptions[i]?.getD []).map Prod.snd) =
      bodies.flatMap TxoBody.ids := by
    rw [← placeOutputs_length run.places, flatMap_range, ← hproduced.inscriptions, List.flatMap_map]
    rfl
  rw [hlists] at hperm
  refine hperm.trans (List.Perm.of_eq ?_)
  unfold Indexed.placedAt Indexed.placedIds
  rw [List.map_map]
  rfl

/-- The transfers of the placed inscriptions and of those left are recorded first. -/
theorem Indexed.credited_transfers (run : Indexed deps cfg resolver tx txid height s r s') :
    ∃ ids, ids.Perm (run.placedIds ++ run.leftIds) ∧ Transfers run.inputs.unused ids (s.brc20, []) run.credited := by
  have hplaced : run.placedAt.map Prod.snd = run.placedIds := by
    unfold Indexed.placedAt Indexed.placedIds
    rw [List.map_map]
    rfl
  have houtgoing := creditOutgoing_transfers run.credits
  rcases run.rest_cases with ⟨-, -, hbrc, -, lost, hout, hids, -⟩ | ⟨-, -, hreturn, -, hout, -⟩
  · rw [hbrc, hout, List.map_append, hplaced, hids] at houtgoing
    exact ⟨_, List.Perm.refl _, houtgoing⟩
  · have hall := (returnTransfers_transfers hreturn).trans houtgoing
    rw [hout, hplaced] at hall
    exact ⟨_, List.perm_append_comm, hall⟩

/-- A transaction has at most one message. -/
theorem Indexed.messages_cases (run : Indexed deps cfg resolver tx txid height s r s') :
    run.messages = [] ∨ ∃ message, run.messages = [message] := by
  have hout := run.outcome
  generalize run.revealed = revealed at hout
  generalize run.messages = messages at hout
  generalize run.after = after at hout
  cases hout with
  | none => exact Or.inl rfl
  | partial_ => exact Or.inl rfl
  | @complete first chain txs inscription fee info =>
    cases BRC20.unparsedMessage deps inscription with
    | none => exact Or.inl rfl
    | some message => exact Or.inr ⟨(info.id, message), rfl⟩

/-- What is recorded of the transaction's own message, after the transfers. -/
theorem Indexed.opens (run : Indexed deps cfg resolver tx txid height s r s') :
    (run.messages = [] ∧ run.final = ⟨run.credited.1, run.credited.2, Table.empty⟩) ∨
      ∃ message, run.messages = [message] ∧
        Opens (inscriptionIdToScript (outpointToScript deps txid tx.output) run.located.outgoing) message.1
          ⟨run.credited.1, run.credited.2, Table.empty⟩ run.final := by
  have hprocesses := run.processes
  rcases run.messages_cases with hnone | ⟨message, hone⟩
  · rw [hnone] at hprocesses
    exact Or.inl ⟨hnone, (Except.ok.inj hprocesses).symm⟩
  · rw [hone] at hprocesses
    obtain ⟨m, hstep, hrest⟩ := foldlM_cons_eq_ok.mp hprocesses
    have hfinal : run.final = m := (Except.ok.inj hrest).symm
    rw [hfinal]
    exact Or.inr ⟨message, hone, processMessage_opens hstep⟩

/-- **What is recorded beside transfers**: nothing, a message that reserves nothing, or a transfer inscription, whose
amount the new unused transfers carry. -/
theorem Indexed.opened_cases (run : Indexed deps cfg resolver tx txid height s r s') :
    (opened r.brc20Resolver = [] ∧ r.newUnusedBrc20Transfers = Table.empty) ∨
      (∃ message recorded, run.messages = [message] ∧ opened r.brc20Resolver = [(message.1, recorded)] ∧
        (∀ tick, recorded.reserved tick = 0) ∧ r.newUnusedBrc20Transfers = Table.empty) ∨
      ∃ message tick amt receiver, run.messages = [message] ∧
        opened r.brc20Resolver = [(message.1, .transferInit tick amt receiver)] ∧
        r.newUnusedBrc20Transfers = Table.empty.insert message.1 (tick, amt) ∧
        (inscriptionIdToScript (outpointToScript deps txid tx.output) run.located.outgoing).get message.1 =
          some receiver := by
  obtain ⟨ids, -, hcredited⟩ := run.credited_transfers
  have hnone : opened run.credited.2 = [] := hcredited.opened
  rw [run.resolved, run.transfers]
  rcases run.opens with ⟨-, hfinal⟩ | ⟨message, hmessage, hopens⟩
  · rw [hfinal]
    exact Or.inl ⟨hnone, rfl⟩
  · cases hopens with
    | nothing hvalid hunused =>
      rw [hvalid, hunused]
      exact Or.inl ⟨hnone, rfl⟩
    | message recorded hmove hreserved hvalid hunused =>
      refine Or.inr (Or.inl ⟨message, recorded, hmessage, ?_, hreserved, hunused⟩)
      rw [hvalid, opened_append, hnone, List.nil_append]
      exact List.filter_eq_self.mpr fun m hm => by rw [List.mem_singleton.mp hm, hmove]; rfl
    | transferInit tick amt hreceiver hvalid hunused =>
      refine Or.inr (Or.inr ⟨message, tick, amt, _, hmessage, ?_, hunused, hreceiver⟩)
      rw [hvalid, opened_append, hnone]
      rfl

/-- A receiver is the script of the output that the inscription is placed on. -/
theorem Indexed.receiver_placed (run : Indexed deps cfg resolver tx txid height s r s') (hlen : tx.output.length < 2 ^ 32)
    {id : InscriptionId} {receiver : ScriptHash}
    (h : (inscriptionIdToScript (outpointToScript deps txid tx.output) run.located.outgoing).get id = some receiver) :
    ∃ e ∈ run.placedAt, e.2 = id ∧ ∃ output, tx.output[e.1.outpoint.vout]? = some output ∧
      deps.scriptHash output.scriptPubkey = receiver := by
  obtain ⟨e, hmem, hid, hscript⟩ := get_inscriptionIdToScript h
  obtain ⟨htxid, houtput⟩ := get_outpointToScript hscript
  obtain ⟨hsplit, -, -⟩ := run.outgoing_split hlen
  refine ⟨e, ?_, hid, houtput⟩
  rw [← hsplit]
  exact List.mem_filter.mpr ⟨hmem, by simp [htxid]⟩

/-- **What a transaction reserves is carried by the new unused transfers**, which are of placed inscriptions. -/
theorem Indexed.reserved_eq (run : Indexed deps cfg resolver tx txid height s r s') (hlen : tx.output.length < 2 ^ 32) :
    (∀ tick, reserved r.brc20Resolver tick =
      r.newUnusedBrc20Transfers.total fun _ transfer => if transfer.1 = tick then transfer.2.val else 0) ∧
    ∀ id transfer, r.newUnusedBrc20Transfers.get id = some transfer → id ∈ run.placedIds := by
  have hopened := fun tick => reserved_eq_opened r.brc20Resolver tick
  rcases run.opened_cases with ⟨hnone, hunused⟩ | ⟨message, recorded, -, hone, hreserved, hunused⟩ |
    ⟨message, tick, amt, receiver, -, hone, hunused, hreceiver⟩
  · rw [hunused]
    exact ⟨fun tick => by rw [hopened, hnone]; rfl, fun id transfer hget => by cases hget⟩
  · rw [hunused]
    refine ⟨fun tick => ?_, fun id transfer hget => by cases hget⟩
    rw [hopened, hone, reserved_single, hreserved]
    rfl
  · rw [hunused]
    refine ⟨fun tick' => ?_, fun id transfer hget => ?_⟩
    · rw [hopened, hone, reserved_single]
      have htotal := Table.total_insert (fun (_ : InscriptionId) (transfer : Ticker × U128) =>
        if transfer.1 = tick' then transfer.2.val else 0) Table.empty message.1 (tick, amt)
      exact (Nat.zero_add _).symm.trans htotal.symm
    · rw [Table.get_insert] at hget
      split at hget
      · rename_i heq
        obtain ⟨e, he, hid, -⟩ := run.receiver_placed hlen hreceiver
        obtain ⟨x, hx, rfl⟩ := List.mem_map.mp he
        exact List.mem_map.mpr ⟨x, hx, hid.trans heq.symm⟩
      · cases hget

/-- **The recorded transfers are the unused transfers on the inputs**, when nothing floats twice. -/
theorem Indexed.moves_perm (run : Indexed deps cfg resolver tx txid height s r s')
    (hresolved : Resolved resolver tx.input) (hnodup : (run.placedIds ++ run.leftIds).Nodup) :
    (moves r.brc20Resolver).Perm ((inputTransfers deps resolver tx.input).map fun e => (e.1, e.2.move)) := by
  obtain ⟨revealed, -, hperm⟩ := run.ids_perm hresolved
  obtain ⟨-, -, hunused⟩ := run.inputs_eq
  obtain ⟨ids, hids, hcredited⟩ := run.credited_transfers
  have hinputs := (List.nodup_append.mp (List.nodup_append.mp (hperm.nodup_iff.mp hnodup)).1).1
  have hkeys := inputTransfers_keys deps resolver tx.input
  have hmoves : moves r.brc20Resolver = movesOf run.inputs.unused ids := by
    have hfirst : moves run.credited.2 = movesOf run.inputs.unused ids := hcredited.moves
    rw [run.resolved, ← hfirst]
    rcases run.opens with ⟨-, hfinal⟩ | ⟨message, -, hopens⟩
    · rw [hfinal]
    · cases hopens with
      | nothing hvalid => rw [hvalid]
      | message recorded hmove _ hvalid =>
        rw [hvalid, moves_append]
        unfold moves
        rw [List.filterMap_cons, hmove]
        exact List.append_nil _
      | transferInit _ _ _ hvalid =>
        rw [hvalid, moves_append]
        exact List.append_nil _
  rw [hmoves, hunused]
  refine movesOf_perm (hinputs.sublist hkeys) (hids.nodup_iff.mpr hnodup) fun e he => ?_
  refine hids.mem_iff.mpr (hperm.mem_iff.mpr (List.mem_append_left _ (List.mem_append_left _ (hkeys.subset ?_))))
  exact List.mem_map_of_mem he

/-- **What a transaction transfers is carried by the outputs that it spends**, when nothing floats twice. -/
theorem Indexed.transferred_eq (run : Indexed deps cfg resolver tx txid height s r s')
    (hresolved : Resolved resolver tx.input) (hnodup : (run.placedIds ++ run.leftIds).Nodup)
    (hcarries : ∀ body ∈ inputBodies resolver tx.input, body.Carries) (tick : Ticker) :
    transferred r.brc20Resolver tick = ((inputBodies resolver tx.input).map (TxoBody.unusedOf tick)).sum := by
  obtain ⟨revealed, -, hperm⟩ := run.ids_perm hresolved
  have hinputs := (List.nodup_append.mp (List.nodup_append.mp (hperm.nodup_iff.mp hnodup)).1).1
  have hmoved := ((run.moves_perm hresolved hnodup).map fun e => if e.2.1 = tick then e.2.2.1.val else 0).sum_eq
  rw [List.map_map] at hmoved
  rw [transferred_eq_moves, hmoved]
  exact inputTransfers_amount hinputs hcarries tick

end

end DogeIndexer.Compressor
