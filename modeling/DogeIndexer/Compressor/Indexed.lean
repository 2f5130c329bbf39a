import DogeIndexer.Compressor.ChainDB

/-!
# A completed `index_inscriptions`, phase by phase

`Indexed` records the intermediate results of a completed call; the facts about its phases are
stated for them and used by all results on inscriptions.

* `indexInscriptions_ok` — a completed call has such a record.
* `Indexed.floating_perm` — placed and left flotsam is the floating flotsam.
* `reveal_outcome` — what a reveal does to the state.
-/

set_option autoImplicit false

namespace DogeIndexer.Compressor

open Fallible

theorem orPanic_eq_ok {α : Type} {o : Option α} {a : α} : orPanic o = .ok a ↔ o = some a := by
  cases o with
  | none =>
    constructor
    · intro h
      cases h
    · intro h
      cases h
  | some b =>
    constructor
    · intro h
      cases h
      rfl
    · intro h
      cases h
      rfl

theorem add64_eq_ok {checks : Bool} {a b c : U64} (h : add64 checks a b = .ok c) : c = a + b :=
  Machine.add_eq_some (orPanic_eq_ok.mp h)

theorem sub64_eq_ok {checks : Bool} {a b c : U64} (h : sub64 checks a b = .ok c) : c = a - b :=
  Machine.sub_eq_some (orPanic_eq_ok.mp h)

/-- A completed call of `index_inscriptions` and what it computed on the way. -/
structure Indexed (deps : Deps) (cfg : Config) (resolver : Table TxoRef TxoBody) (tx : Transaction)
    (txid : Txid) (height : Nat) (s : InscriptionState) (r : IndexInscriptionsResult)
    (s' : InscriptionState) where
  inputs : InputState
  revealed : List Flotsam
  messages : List (InscriptionId × RawProtocolMessage)
  /-- The state after a reveal. -/
  after : InscriptionState
  placed : List (SatPoint × Flotsam)
  left : List Flotsam
  outputValue : U64
  counters : Counters
  located : Located
  credited : Brc20Tables × List (InscriptionId × BRC20Message)
  final : MessageState
  collect : collectInputs deps cfg.checks resolver height tx = .ok inputs
  reveals : ∃ total, totalOutputValue cfg.checks tx = .ok total ∧
    (if inputs.floating.all (fun flotsam => flotsam.offset ≠ 0) then
      reveal deps cfg.checks tx txid inputs.totalInputValue total s
    else .ok ([], [], s)) = .ok (revealed, messages, after)
  sweeps : sweep cfg.checks txid 0 0 (sortFlotsam (inputs.floating ++ revealed ++
    (if isCoinbase tx then after.cbInscriptions else []))) tx.output = .ok (placed, left, outputValue)
  counts : placed.foldlM (fun counters (e : SatPoint × Flotsam) =>
    updateInscriptionLocation cfg.checks counters e.2) after.counters = .ok counters
  rest : locateRest cfg.checks (isCoinbase tx) inputs
    (placed.map fun e => (e.1, e.2.inscriptionId)) left outputValue
    { after with
      cbInscriptions := if isCoinbase tx then [] else after.cbInscriptions
      counters := counters } = .ok located
  credits : creditOutgoing cfg.checks (outpointToScript deps txid tx.output) inputs.unused located.brc20
    located.outgoing = .ok credited
  processes : messages.foldlM (processMessage deps cfg.checks
      (inscriptionIdToScript (outpointToScript deps txid tx.output) located.outgoing))
    ⟨credited.1, credited.2, Table.empty⟩ = .ok final
  places : placeOutputs txid tx.output.length located.outgoing = .ok r.outputInscriptions
  lost : r.lostOrUnboundInscriptions = located.outgoing.filter (fun e => e.1.outpoint.txid ≠ txid)
  resolved : r.brc20Resolver = final.valid
  transfers : r.newUnusedBrc20Transfers = final.newUnused
  state : s' = { located.state with brc20 := final.brc20 }

section

variable {deps : Deps} {cfg : Config} {resolver : Table TxoRef TxoBody} {tx : Transaction}
  {txid : Txid} {height : Nat} {s s' : InscriptionState} {r : IndexInscriptionsResult}

/-- The floating inscriptions, inverted. -/
theorem floatingInscriptions_ok {checks : Bool} {inputs : InputState}
    {messages : List (InscriptionId × RawProtocolMessage)}
    (h : floatingInscriptions deps checks resolver height tx txid s = .ok (inputs, messages, s')) :
    ∃ (collected : InputState) (revealed : List Flotsam) (after : InscriptionState),
      collectInputs deps checks resolver height tx = .ok collected ∧
      (∃ total, totalOutputValue checks tx = .ok total ∧
        (if collected.floating.all (fun flotsam => flotsam.offset ≠ 0) then
          reveal deps checks tx txid collected.totalInputValue total s
        else .ok ([], [], s)) = .ok (revealed, messages, after)) ∧
      inputs = { collected with
        floating := collected.floating ++ revealed ++ (if isCoinbase tx then after.cbInscriptions else []) } ∧
      s' = { after with cbInscriptions := if isCoinbase tx then [] else after.cbInscriptions } := by
  unfold floatingInscriptions at h
  obtain ⟨total, htotal, h⟩ := bind_eq_ok.mp h
  obtain ⟨collected, hcollect, h⟩ := bind_eq_ok.mp h
  obtain ⟨⟨revealed, messages', after⟩, hreveal, h⟩ := bind_eq_ok.mp h
  refine ⟨collected, revealed, after, hcollect, ?_⟩
  cases hcb : isCoinbase tx with
  | true =>
    rw [hcb] at h
    cases h
    exact ⟨⟨total, htotal, hreveal⟩, rfl, rfl⟩
  | false =>
    rw [hcb] at h
    cases h
    exact ⟨⟨total, htotal, hreveal⟩, by simp, rfl⟩

/-- **A completed call has a record.** -/
theorem indexInscriptions_ok
    (h : indexInscriptions deps cfg resolver tx txid height s = .ok (r, s')) :
    Nonempty (Indexed deps cfg resolver tx txid height s r s') := by
  unfold indexInscriptions at h
  obtain ⟨⟨inputs, messages, s₁⟩, hfloat, h⟩ := bind_eq_ok.mp h
  obtain ⟨collected, revealed, after, hcollect, hreveal, rfl, rfl⟩ := floatingInscriptions_ok hfloat
  obtain ⟨located, hlocate, h⟩ := bind_eq_ok.mp h
  unfold locate at hlocate
  obtain ⟨⟨placed, left, outputValue⟩, hsweep, hlocate⟩ := bind_eq_ok.mp hlocate
  obtain ⟨counters, hcounts, hrest⟩ := bind_eq_ok.mp hlocate
  obtain ⟨credited, hcredit, h⟩ := bind_eq_ok.mp h
  obtain ⟨final, hmessages, h⟩ := bind_eq_ok.mp h
  obtain ⟨outputInscriptions, hplace, h⟩ := bind_eq_ok.mp h
  cases h
  refine ⟨⟨collected, revealed, messages, after, placed, left, outputValue, counters, located, credited,
    final, hcollect, hreveal, hsweep, hcounts, ?_, hcredit, hmessages, hplace, rfl, rfl, rfl, rfl⟩⟩
  rw [← hrest]
  unfold locateRest
  rfl

/-! ## Inputs -/

/-- The inscriptions of an input that starts at `total`. -/
def floatsOf (previousOutput : OutPoint) (body : TxoBody) (total : U64) : List Flotsam :=
  body.inscriptions.map fun e => ⟨e.2, total + e.1, .old ⟨previousOutput, e.1⟩⟩

/-- The unused transfers among them. -/
def transfersOf (deps : Deps) (previousOutput : OutPoint) (body : TxoBody) :
    List (InscriptionId × UnusedTransfer) :=
  body.inscriptions.filterMap fun e => (body.unusedBrc20Transfers.get e.2).map fun t =>
    (e.2, ⟨t.1, t.2, deps.scriptHash body.raw.scriptPubkey, ⟨previousOutput, e.1⟩⟩)

/-- The inscriptions of a list of inputs, the first of which starts at `total`. -/
def inputFloats (deps : Deps) (resolver : Table TxoRef TxoBody) (height : Nat) :
    U64 → List TxIn → List Flotsam
  | _, [] => []
  | total, txin :: inputs =>
    if txin.previousOutput.isNull then
      inputFloats deps resolver height (total + deps.subsidy (height % 2 ^ 32)) inputs
    else
      match resolver.get txin.previousOutput with
      | none => []
      | some body => floatsOf txin.previousOutput body total ++
          inputFloats deps resolver height (total + body.raw.value) inputs

/-- The unused transfers of a list of inputs. -/
def inputTransfers (deps : Deps) (resolver : Table TxoRef TxoBody) (inputs : List TxIn) :
    List (InscriptionId × UnusedTransfer) :=
  inputs.flatMap fun txin =>
    if txin.previousOutput.isNull then []
    else
      match resolver.get txin.previousOutput with
      | none => []
      | some body => transfersOf deps txin.previousOutput body

/-- The value of the inputs. -/
def inputValue (deps : Deps) (resolver : Table TxoRef TxoBody) (height : Nat) (inputs : List TxIn) : Nat :=
  (inputs.map fun txin =>
    if txin.previousOutput.isNull then (deps.subsidy (height % 2 ^ 32)).val
    else ((resolver.get txin.previousOutput).map fun body => body.raw.value.val).getD 0).sum

theorem collectInscriptions_ok {checks : Bool} {previousOutput : OutPoint} {body : TxoBody}
    {i i' : InputState} {l : List (U64 × InscriptionId)}
    (h : l.foldlM (collectInscription deps checks previousOutput body) i = .ok i') :
    i'.totalInputValue = i.totalInputValue ∧
      i'.floating = i.floating ++ l.map (fun e => ⟨e.2, i.totalInputValue + e.1, .old ⟨previousOutput, e.1⟩⟩) ∧
      i'.unused = i.unused.insertAll (l.filterMap fun e => (body.unusedBrc20Transfers.get e.2).map fun t =>
        (e.2, ⟨t.1, t.2, deps.scriptHash body.raw.scriptPubkey, ⟨previousOutput, e.1⟩⟩)) := by
  induction l generalizing i with
  | nil =>
    cases h
    exact ⟨rfl, by simp, rfl⟩
  | cons e l ih =>
    obtain ⟨i₁, h₁, h₂⟩ := foldlM_cons_eq_ok.mp h
    obtain ⟨htotal, hfloating, hunused⟩ := ih h₂
    unfold collectInscription at h₁
    obtain ⟨offset, id⟩ := e
    simp only at h₁
    obtain ⟨total, hadd, h₁⟩ := bind_eq_ok.mp h₁
    have hadd := add64_eq_ok hadd
    cases hget : body.unusedBrc20Transfers.get id with
    | none =>
      rw [hget] at h₁
      cases h₁
      refine ⟨htotal, ?_, ?_⟩
      · rw [hfloating, hadd]
        simp
      · rw [hunused]
        simp [hget]
    | some t =>
      rw [hget] at h₁
      obtain ⟨tick, amt⟩ := t
      cases h₁
      refine ⟨htotal, ?_, ?_⟩
      · rw [hfloating, hadd]
        simp
      · rw [hunused, List.filterMap_cons]
        simp only [hget, Option.map_some]
        rfl

theorem collectFrom_ok {checks : Bool} {i i' : InputState} {inputs : List TxIn}
    (h : inputs.foldlM (collectInput deps checks resolver height) i = .ok i') :
    i'.totalInputValue.val = (i.totalInputValue.val + inputValue deps resolver height inputs) % 2 ^ 64 ∧
      i'.floating = i.floating ++ inputFloats deps resolver height i.totalInputValue inputs ∧
      i'.unused = i.unused.insertAll (inputTransfers deps resolver inputs) := by
  induction inputs generalizing i with
  | nil =>
    have hlt := i.totalInputValue.isLt
    cases h
    refine ⟨?_, by simp [inputFloats], rfl⟩
    show _ = (_ + 0) % 2 ^ 64
    rw [Nat.add_zero, Nat.mod_eq_of_lt hlt]
  | cons txin inputs ih =>
    obtain ⟨i₁, h₁, h₂⟩ := foldlM_cons_eq_ok.mp h
    obtain ⟨htotal, hfloating, hunused⟩ := ih h₂
    unfold collectInput at h₁
    unfold inputValue at htotal ⊢
    unfold inputFloats
    unfold inputTransfers at hunused ⊢
    rw [List.map_cons, List.sum_cons, List.flatMap_cons]
    split at h₁
    · rename_i hnull
      obtain ⟨total, hadd, h₁⟩ := bind_eq_ok.mp h₁
      cases h₁
      have hadd := add64_eq_ok hadd
      rw [if_pos hnull, if_pos hnull, if_pos hnull]
      refine ⟨?_, ?_, hunused⟩
      · rw [htotal]
        simp only [hadd, Fin.val_add]
        rw [Nat.mod_add_mod, Nat.add_assoc]
      · rw [hfloating, hadd]
    · rename_i hnull
      rw [if_neg hnull, if_neg hnull, if_neg hnull]
      split at h₁
      · cases h₁
      · rename_i body hget
        obtain ⟨i₂, hcollect, h₁⟩ := bind_eq_ok.mp h₁
        obtain ⟨total, hadd, h₁⟩ := bind_eq_ok.mp h₁
        cases h₁
        have hadd := add64_eq_ok hadd
        obtain ⟨htotal₂, hfloating₂, hunused₂⟩ := collectInscriptions_ok hcollect
        rw [hget]
        refine ⟨?_, ?_, ?_⟩
        · rw [htotal]
          simp only [hadd, htotal₂, Fin.val_add, Option.map_some, Option.getD_some]
          rw [Nat.mod_add_mod, Nat.add_assoc]
        · rw [hfloating, hadd, htotal₂]
          simp only [hfloating₂, List.append_assoc]
          rfl
        · rw [hunused]
          simp only [hunused₂]
          unfold Table.insertAll transfersOf
          rw [List.foldl_append]

/-- **The collected inputs.** -/
theorem Indexed.inputs_eq (run : Indexed deps cfg resolver tx txid height s r s') :
    run.inputs.totalInputValue.val = inputValue deps resolver height tx.input % 2 ^ 64 ∧
      run.inputs.floating = inputFloats deps resolver height 0 tx.input ∧
      run.inputs.unused = Table.empty.insertAll (inputTransfers deps resolver tx.input) := by
  obtain ⟨htotal, hfloating, hunused⟩ := collectFrom_ok run.collect
  refine ⟨?_, ?_, hunused⟩
  · rw [htotal]
    simp
  · rw [hfloating]
    rfl

/-! ## Reveals -/

/-- What a transaction's first inputs parse to, when it may reveal an inscription: no inscription
on its inputs is at offset 0.  With it the txids of the partial inscription that the first input
continues. -/
def parsed (deps : Deps) (checks : Bool) (resolver : Table TxoRef TxoBody) (height : Nat) (tx : Transaction)
    (partials : PartialTables) : Option (List Txid × ParsedInscription) :=
  match collectInputs deps checks resolver height tx with
  | .error _ => none
  | .ok inputs =>
    if inputs.floating.all (fun flotsam => flotsam.offset ≠ 0) then
      match tx.input.head? with
      | none => none
      | some first =>
        match previousPartials partials first.previousOutput.txid with
        | .error _ => none
        | .ok (chain, txs) => some (chain, Inscription.fromTransactions (txs ++ [tx]))
    else none

/-- The outcome of a transaction that may reveal an inscription. -/
inductive RevealOutcome (deps : Deps) (checks : Bool) (resolver : Table TxoRef TxoBody) (height : Nat)
    (tx : Transaction) (txid : Txid) (s : InscriptionState) :
    List Flotsam → List (InscriptionId × RawProtocolMessage) → InscriptionState → Prop
  | none (hparsed : ∀ e, parsed deps checks resolver height tx s.partials = some e → e.2 = .none) :
      RevealOutcome deps checks resolver height tx txid s [] [] s
  | partial_ {first : TxIn} {chain : List Txid} {txs : List Transaction}
      (hfirst : tx.input.head? = some first)
      (hchain : previousPartials s.partials first.previousOutput.txid = .ok (chain, txs))
      (hparsed : parsed deps checks resolver height tx s.partials = some (chain, .partial_)) :
      RevealOutcome deps checks resolver height tx txid s [] [] { s with partials :=
        ⟨s.partials.txids.insert txid (chain ++ [txid]), s.partials.bytes.insert txid tx⟩ }
  | complete {first : TxIn} {chain : List Txid} {txs : List Transaction} {inscription : Inscription}
      {fee : U64} (info : NewInscriptionInfo) (hfirst : tx.input.head? = some first)
      (hchain : previousPartials s.partials first.previousOutput.txid = .ok (chain, txs))
      (hparsed : parsed deps checks resolver height tx s.partials = some (chain, .complete inscription))
      (hid : info.id = ⟨(chain ++ [txid]).headD txid, 0⟩)
      (hnumber : info.number = s.counters.nextSequenceNum) (htxHash : info.txHash = txid) :
      RevealOutcome deps checks resolver height tx txid s [⟨info.id, 0, .new fee⟩]
        ((BRC20.unparsedMessage deps inscription).map fun m => (info.id, m)).toList
        { s with newInscriptions := s.newInscriptions ++ [info] }

theorem reveal_outcome {checks : Bool} {tin tout : U64} {revealed : List Flotsam}
    {messages : List (InscriptionId × RawProtocolMessage)} {after : InscriptionState} {inputs : InputState}
    (hcollect : collectInputs deps checks resolver height tx = .ok inputs)
    (hall : inputs.floating.all (fun flotsam => flotsam.offset ≠ 0) = true)
    (h : reveal deps checks tx txid tin tout s = .ok (revealed, messages, after)) :
    RevealOutcome deps checks resolver height tx txid s revealed messages after := by
  unfold reveal at h
  obtain ⟨first, hfirst, h⟩ := bind_eq_ok.mp h
  obtain ⟨⟨chain, txs⟩, hchain, h⟩ := bind_eq_ok.mp h
  have hfirst := orPanic_eq_ok.mp hfirst
  have hparsed : parsed deps checks resolver height tx s.partials =
      some (chain, Inscription.fromTransactions (txs ++ [tx])) := by
    unfold parsed
    rw [hcollect]
    simp only [hall, if_true, hfirst, hchain]
  simp only at h
  cases hparse : Inscription.fromTransactions (txs ++ [tx]) with
  | none =>
    rw [hparse] at h hparsed
    cases h
    refine .none (fun e he => ?_)
    rw [hparsed] at he
    cases he
    rfl
  | partial_ =>
    rw [hparse] at h hparsed
    cases h
    exact .partial_ hfirst hchain hparsed
  | complete inscription =>
    rw [hparse] at h hparsed
    obtain ⟨fee, hfee, h⟩ := bind_eq_ok.mp h
    cases h
    exact .complete ⟨txid, ⟨(chain ++ [txid]).headD txid, 0⟩, s.counters.nextSequenceNum,
      inscription.body, inscription.contentTypeStr.getD []⟩ hfirst hchain hparsed rfl rfl rfl

/-- Whether or not a reveal is tried, its outcome is one of three. -/
theorem Indexed.outcome (run : Indexed deps cfg resolver tx txid height s r s') :
    RevealOutcome deps cfg.checks resolver height tx txid s run.revealed run.messages run.after := by
  obtain ⟨total, -, h⟩ := run.reveals
  split at h
  · rename_i hall
    exact reveal_outcome run.collect hall h
  · rename_i hall
    obtain ⟨hr, hm, ha⟩ : [] = run.revealed ∧ [] = run.messages ∧ s = run.after := by
      simpa using h
    rw [← hr, ← hm, ← ha]
    refine .none (fun e he => ?_)
    unfold parsed at he
    rw [run.collect] at he
    simp only [hall] at he
    cases he

/-- A reveal leaves the balances, counters and carried inscriptions alone. -/
theorem RevealOutcome.frame {revealed : List Flotsam}
    {messages : List (InscriptionId × RawProtocolMessage)} {after : InscriptionState}
    (h : RevealOutcome deps cfg.checks resolver height tx txid s revealed messages after) :
    after.brc20 = s.brc20 ∧ after.counters = s.counters ∧ after.reward = s.reward ∧
      after.cbInscriptions = s.cbInscriptions := by
  cases h <;> exact ⟨rfl, rfl, rfl, rfl⟩

/-! ## Locations -/

/-- A flotsam of a new inscription. -/
def Flotsam.isNew (f : Flotsam) : Bool :=
  match f.origin with
  | .new _ => true
  | .old _ => false

/-- The number of new inscriptions. -/
def newCount (l : List Flotsam) : Nat := l.countP Flotsam.isNew

theorem newCount_append (l l' : List Flotsam) : newCount (l ++ l') = newCount l + newCount l' :=
  List.countP_append

theorem newCount_perm {l l' : List Flotsam} (h : l.Perm l') : newCount l = newCount l' := h.countP_eq _

theorem updateInscriptionLocation_ok {checks : Bool} {c c' : Counters} {f : Flotsam}
    (h : updateInscriptionLocation checks c f = .ok c') :
    c'.nextSequenceNum.val = (c.nextSequenceNum.val + newCount [f]) % 2 ^ 64 ∧
      c'.lostSats = c.lostSats := by
  unfold updateInscriptionLocation at h
  cases ho : f.origin with
  | old p =>
    rw [ho] at h
    cases h
    have hlt := c.nextSequenceNum.isLt
    have hcount : newCount [f] = 0 := by simp [newCount, Flotsam.isNew, ho]
    rw [hcount, Nat.add_zero, Nat.mod_eq_of_lt hlt]
    exact ⟨rfl, rfl⟩
  | new fee =>
    rw [ho] at h
    obtain ⟨blessed, -, h⟩ := bind_eq_ok.mp h
    obtain ⟨next, hnext, h⟩ := bind_eq_ok.mp h
    cases h
    have hcount : newCount [f] = 1 := by simp [newCount, Flotsam.isNew, ho]
    rw [hcount]
    refine ⟨?_, rfl⟩
    show next.val = _
    rw [add64_eq_ok hnext, Fin.val_add]
    rfl

/-- Locating a list of inscriptions counts the new ones. -/
theorem countPlaced_ok {checks : Bool} {placed : List (SatPoint × Flotsam)} {c c' : Counters}
    (h : placed.foldlM (fun counters (e : SatPoint × Flotsam) =>
      updateInscriptionLocation checks counters e.2) c = .ok c') :
    c'.nextSequenceNum.val = (c.nextSequenceNum.val + newCount (placed.map Prod.snd)) % 2 ^ 64 ∧
      c'.lostSats = c.lostSats := by
  induction placed generalizing c with
  | nil =>
    have hlt := c.nextSequenceNum.isLt
    cases h
    refine ⟨?_, rfl⟩
    show _ = (_ + 0) % 2 ^ 64
    rw [Nat.add_zero, Nat.mod_eq_of_lt hlt]
  | cons e placed ih =>
    obtain ⟨c₁, h₁, h₂⟩ := foldlM_cons_eq_ok.mp h
    obtain ⟨hn₁, hl₁⟩ := updateInscriptionLocation_ok h₁
    obtain ⟨hn₂, hl₂⟩ := ih h₂
    refine ⟨?_, by rw [hl₂, hl₁]⟩
    have hsplit : newCount ((e :: placed).map Prod.snd) = newCount [e.2] + newCount (placed.map Prod.snd) :=
      newCount_append [e.2] _
    rw [hn₂, hn₁, hsplit, Nat.mod_add_mod, Nat.add_assoc]

/-- What the coinbase loses is counted too, and goes to the null outpoint. -/
theorem locateAllLost_ok {checks : Bool} {outputValue : U64} {c c' : Counters} {l : List Flotsam}
    {lost : List (SatPoint × InscriptionId)}
    (h : locateAllLost checks outputValue c l = .ok (lost, c')) :
    c'.nextSequenceNum.val = (c.nextSequenceNum.val + newCount l) % 2 ^ 64 ∧
      lost.map Prod.snd = l.map Flotsam.inscriptionId ∧ (∀ e ∈ lost, e.1.outpoint = OutPoint.null) := by
  induction l generalizing c lost with
  | nil =>
    have hlt := c.nextSequenceNum.isLt
    cases h
    refine ⟨?_, rfl, fun e he => by cases he⟩
    show _ = (_ + 0) % 2 ^ 64
    rw [Nat.add_zero, Nat.mod_eq_of_lt hlt]
  | cons f l ih =>
    unfold locateAllLost at h
    obtain ⟨⟨satpoint, c₁⟩, h₁, h⟩ := bind_eq_ok.mp h
    obtain ⟨⟨others, c₂⟩, h₂, h⟩ := bind_eq_ok.mp h
    cases h
    unfold locateLost at h₁
    obtain ⟨sum, -, h₁⟩ := bind_eq_ok.mp h₁
    obtain ⟨offset, -, h₁⟩ := bind_eq_ok.mp h₁
    obtain ⟨c₃, h₃, h₁⟩ := bind_eq_ok.mp h₁
    cases h₁
    obtain ⟨hn₁, -⟩ := updateInscriptionLocation_ok h₃
    obtain ⟨hn₂, hids, hnull⟩ := ih h₂
    refine ⟨?_, ?_, ?_⟩
    · have hsplit : newCount (f :: l) = newCount [f] + newCount l := newCount_append [f] l
      rw [hn₂, hn₁, hsplit, Nat.mod_add_mod, Nat.add_assoc]
    · simp [hids]
    · intro e he
      rcases List.mem_cons.mp he with rfl | he
      · rfl
      · exact hnull e he

/-! ## The sweep -/

theorem sweepOutput_ok {checks : Bool} {vout : Nat} {outputValue stop : U64} {l left : List Flotsam}
    {placed : List (SatPoint × Flotsam)}
    (h : sweepOutput checks txid vout outputValue stop l = .ok (placed, left)) :
    l = placed.map Prod.snd ++ left ∧
      (∀ e ∈ placed, e.1.outpoint = ⟨txid, vout⟩ ∧ e.1.offset = e.2.offset - outputValue ∧
        e.2.offset < stop) ∧
      (∀ f, left.head? = some f → stop ≤ f.offset) := by
  induction l generalizing placed left with
  | nil =>
    cases h
    exact ⟨rfl, fun e he => (List.not_mem_nil he).elim, fun f hf => by cases hf⟩
  | cons f l ih =>
    unfold sweepOutput at h
    split at h
    · rename_i hge
      cases h
      refine ⟨rfl, fun e he => (List.not_mem_nil he).elim, fun g hg => ?_⟩
      cases hg
      exact hge
    · rename_i hlt
      obtain ⟨offset, hoffset, h⟩ := bind_eq_ok.mp h
      obtain ⟨⟨placed', left'⟩, hrest, h⟩ := bind_eq_ok.mp h
      cases h
      obtain ⟨hl, hplaced, hleft⟩ := ih hrest
      refine ⟨by rw [hl]; rfl, ?_, hleft⟩
      intro e he
      rcases List.mem_cons.mp he with rfl | he
      · exact ⟨rfl, sub64_eq_ok hoffset, lt_of_not_ge hlt⟩
      · exact hplaced e he

/-- The sweep keeps the flotsam in order. -/
theorem sweep_split {checks : Bool} {vout : Nat} {outputValue out : U64} {l left : List Flotsam}
    {outputs : List TxOut} {placed : List (SatPoint × Flotsam)}
    (h : sweep checks txid vout outputValue l outputs = .ok (placed, left, out)) :
    l = placed.map Prod.snd ++ left := by
  induction outputs generalizing vout outputValue l placed with
  | nil =>
    cases h
    rfl
  | cons o outputs ih =>
    unfold sweep at h
    obtain ⟨stop, -, h⟩ := bind_eq_ok.mp h
    obtain ⟨⟨p₁, l₁⟩, h₁, h⟩ := bind_eq_ok.mp h
    obtain ⟨⟨p₂, l₂, out₂⟩, h₂, h⟩ := bind_eq_ok.mp h
    cases h
    obtain ⟨hl, -, -⟩ := sweepOutput_ok h₁
    rw [hl, ih h₂, List.map_append, List.append_assoc]

/-- Outputs are numbered from `vout` on. -/
theorem sweep_outpoint {checks : Bool} {vout : Nat} {outputValue out : U64} {l left : List Flotsam}
    {outputs : List TxOut} {placed : List (SatPoint × Flotsam)}
    (h : sweep checks txid vout outputValue l outputs = .ok (placed, left, out)) :
    ∀ e ∈ placed, ∃ i, i < outputs.length ∧ e.1.outpoint = ⟨txid, vout + i⟩ := by
  induction outputs generalizing vout outputValue l placed with
  | nil =>
    cases h
    exact fun e he => (List.not_mem_nil he).elim
  | cons o outputs ih =>
    unfold sweep at h
    obtain ⟨stop, -, h⟩ := bind_eq_ok.mp h
    obtain ⟨⟨p₁, l₁⟩, h₁, h⟩ := bind_eq_ok.mp h
    obtain ⟨⟨p₂, l₂, out₂⟩, h₂, h⟩ := bind_eq_ok.mp h
    cases h
    obtain ⟨-, hplaced, -⟩ := sweepOutput_ok h₁
    intro e he
    rcases List.mem_append.mp he with he | he
    · exact ⟨0, by simp, (hplaced e he).1⟩
    · obtain ⟨i, hi, hpoint⟩ := ih h₂ e he
      refine ⟨i + 1, by simp; omega, ?_⟩
      rw [hpoint]
      congr 1
      omega

theorem sortFlotsam_perm (l : List Flotsam) : (sortFlotsam l).Perm l := List.perm_insertionSort _ l

/-- **Placed and left flotsam is the floating flotsam.** -/
theorem Indexed.floating_perm (run : Indexed deps cfg resolver tx txid height s r s') :
    (run.placed.map Prod.snd ++ run.left).Perm (run.inputs.floating ++ run.revealed ++
      (if isCoinbase tx then s.cbInscriptions else [])) := by
  have hsplit := sweep_split run.sweeps
  rw [← hsplit, run.outcome.frame.2.2.2]
  exact sortFlotsam_perm _

/-! ## Counting new inscriptions -/

theorem newCount_inputFloats (deps : Deps) (resolver : Table TxoRef TxoBody) (height : Nat) (total : U64)
    (inputs : List TxIn) : newCount (inputFloats deps resolver height total inputs) = 0 := by
  induction inputs generalizing total with
  | nil => rfl
  | cons txin inputs ih =>
    unfold inputFloats
    split
    · exact ih _
    · split
      · rfl
      · rw [newCount_append, ih, Nat.add_zero]
        refine List.countP_eq_zero.mpr (fun f hf => ?_)
        obtain ⟨e, -, rfl⟩ := List.mem_map.mp hf
        simp [Flotsam.isNew]

/-- What a transaction other than the coinbase leaves is carried with its origin. -/
theorem carried_ok {checks : Bool} {reward outputValue : U64} {left carried : List Flotsam}
    (h : (left.mapM fun flotsam => do
      let sum ← add64 checks reward flotsam.offset
      let offset ← sub64 checks sum outputValue
      return { flotsam with offset := offset }) = .ok carried) :
    carried = left.map fun flotsam => { flotsam with offset := reward + flotsam.offset - outputValue } := by
  induction left generalizing carried with
  | nil =>
    cases h
    rfl
  | cons f left ih =>
    rw [List.mapM_cons] at h
    obtain ⟨g, hg, h⟩ := bind_eq_ok.mp h
    obtain ⟨rest, hrest, h⟩ := bind_eq_ok.mp h
    cases h
    obtain ⟨sum, hsum, hg⟩ := bind_eq_ok.mp hg
    obtain ⟨offset, hoffset, hg⟩ := bind_eq_ok.mp hg
    cases hg
    rw [ih hrest, sub64_eq_ok hoffset, add64_eq_ok hsum]
    rfl

/-- What the rest of a transaction does: the coinbase loses it, the others carry it. -/
theorem locateRest_ok {checks coinbase : Bool} {inputs : InputState}
    {outgoing : List (SatPoint × InscriptionId)} {left : List Flotsam} {outputValue : U64}
    {located : Located}
    (h : locateRest checks coinbase inputs outgoing left outputValue s = .ok located) :
    (coinbase = true ∧ ∃ lost counters lostSats, locateAllLost checks outputValue s.counters left = .ok (lost, counters) ∧
        located = ⟨outgoing ++ lost, (s.brc20, []), { s with counters := { counters with lostSats := lostSats } }⟩) ∨
      (coinbase = false ∧ ∃ brc20 reward, returnTransfers checks inputs.unused (s.brc20, []) left = .ok brc20 ∧
        reward = s.reward + (inputs.totalInputValue - outputValue) ∧
        located = ⟨outgoing, brc20, { s with
          cbInscriptions := s.cbInscriptions ++
            left.map fun flotsam => { flotsam with offset := s.reward + flotsam.offset - outputValue }
          reward := reward }⟩) := by
  unfold locateRest at h
  cases coinbase with
  | true =>
    obtain ⟨⟨lost, counters⟩, hlost, h⟩ := bind_eq_ok.mp h
    obtain ⟨sats, -, h⟩ := bind_eq_ok.mp h
    obtain ⟨lostSats, -, h⟩ := bind_eq_ok.mp h
    cases h
    exact Or.inl ⟨rfl, lost, counters, lostSats, hlost, rfl⟩
  | false =>
    obtain ⟨brc20, hbrc, h⟩ := bind_eq_ok.mp h
    obtain ⟨carried, hcarried, h⟩ := bind_eq_ok.mp h
    obtain ⟨fee, hfee, h⟩ := bind_eq_ok.mp h
    obtain ⟨reward, hreward, h⟩ := bind_eq_ok.mp h
    cases h
    rw [carried_ok hcarried]
    exact Or.inr ⟨rfl, brc20, reward, hbrc, by rw [add64_eq_ok hreward, sub64_eq_ok hfee], rfl⟩

/-- Locations of the placed inscriptions. -/
def Indexed.placedAt (run : Indexed deps cfg resolver tx txid height s r s') :
    List (SatPoint × InscriptionId) := run.placed.map fun e => (e.1, e.2.inscriptionId)

/-- What is carried to the coinbase. -/
def Indexed.carried (run : Indexed deps cfg resolver tx txid height s r s') : List Flotsam :=
  run.left.map fun flotsam => { flotsam with offset := s.reward + flotsam.offset - run.outputValue }

theorem Indexed.newCount_carried (run : Indexed deps cfg resolver tx txid height s r s') :
    newCount run.carried = newCount run.left := by
  unfold newCount Indexed.carried
  rw [List.countP_map]
  rfl

/-- **The rest of a transaction**: the coinbase loses it, the others carry it to the coinbase. -/
theorem Indexed.rest_cases (run : Indexed deps cfg resolver tx txid height s r s') :
    (isCoinbase tx = true ∧ s'.cbInscriptions = [] ∧ run.located.brc20 = (s.brc20, []) ∧
      s'.counters.nextSequenceNum.val = (run.counters.nextSequenceNum.val + newCount run.left) % 2 ^ 64 ∧
      ∃ lost, run.located.outgoing = run.placedAt ++ lost ∧
        lost.map Prod.snd = run.left.map Flotsam.inscriptionId ∧ ∀ e ∈ lost, e.1.outpoint = OutPoint.null) ∨
    (isCoinbase tx = false ∧ s'.cbInscriptions = s.cbInscriptions ++ run.carried ∧
      returnTransfers cfg.checks run.inputs.unused (s.brc20, []) run.left = .ok run.located.brc20 ∧
      s'.counters = run.counters ∧ run.located.outgoing = run.placedAt ∧
      s'.reward = s.reward + (run.inputs.totalInputValue - run.outputValue)) := by
  obtain ⟨hbrc, -, hreward, hcb⟩ := run.outcome.frame
  have hstate := congrArg InscriptionState.cbInscriptions run.state
  have hcounters := congrArg InscriptionState.counters run.state
  have hrew := congrArg InscriptionState.reward run.state
  simp only at hstate hcounters hrew
  rcases locateRest_ok run.rest with ⟨hcoin, lost, counters, lostSats, hlost, hloc⟩ |
    ⟨hcoin, brc20, reward, hreturn, hreq, hloc⟩
  · left
    rw [hloc] at hstate hcounters
    simp only [hcoin, if_true] at hstate
    obtain ⟨hcount, hids, hnull⟩ := locateAllLost_ok hlost
    rw [hloc, ← hbrc]
    refine ⟨hcoin, hstate, rfl, ?_, lost, rfl, hids, hnull⟩
    rw [hcounters]
    exact hcount
  · right
    rw [hloc] at hstate hcounters hrew
    simp only [hcoin, Bool.false_eq_true, if_false] at hstate
    rw [hloc]
    rw [hcb, hreward] at hstate
    refine ⟨hcoin, hstate, ?_, hcounters, rfl, ?_⟩
    · rw [← hbrc]
      exact hreturn
    · rw [hrew, hreq, ← hreward]

/-- **New inscriptions are counted when they are located**: the next number and the pending new
inscriptions together grow by what is revealed. -/
theorem Indexed.counted (run : Indexed deps cfg resolver tx txid height s r s') :
    (s'.counters.nextSequenceNum.val + newCount s'.cbInscriptions) % 2 ^ 64 =
      (s.counters.nextSequenceNum.val + newCount s.cbInscriptions + newCount run.revealed) % 2 ^ 64 := by
  obtain ⟨-, hfloat, -⟩ := run.inputs_eq
  obtain ⟨-, hcounters, -, -⟩ := run.outcome.frame
  have hperm := newCount_perm run.floating_perm
  rw [newCount_append, newCount_append, newCount_append, hfloat, newCount_inputFloats] at hperm
  obtain ⟨hplaced, -⟩ := countPlaced_ok run.counts
  rw [hcounters] at hplaced
  have hnil : newCount ([] : List Flotsam) = 0 := rfl
  rcases run.rest_cases with ⟨hcoin, hcb, -, hcount, -⟩ | ⟨hcoin, hcb, -, hcount, -, -⟩
  · simp only [hcoin, if_true] at hperm
    rw [hcb, hcount, hplaced, hnil, Nat.add_zero, Nat.mod_mod, Nat.mod_add_mod]
    congr 1
    omega
  · simp only [hcoin, Bool.false_eq_true, if_false] at hperm
    rw [hcb, hcount, hplaced, newCount_append, run.newCount_carried, Nat.mod_add_mod]
    congr 1
    omega

/-- Records and partial inscriptions change by the reveal only. -/
theorem Indexed.records_eq (run : Indexed deps cfg resolver tx txid height s r s') :
    s'.newInscriptions = run.after.newInscriptions ∧ s'.partials = run.after.partials := by
  have hrecords := congrArg InscriptionState.newInscriptions run.state
  have hpartials := congrArg InscriptionState.partials run.state
  simp only at hrecords hpartials
  rcases locateRest_ok run.rest with ⟨-, lost, counters, lostSats, -, hloc⟩ | ⟨-, brc20, reward, -, -, hloc⟩
  · rw [hloc] at hrecords hpartials
    exact ⟨hrecords, hpartials⟩
  · rw [hloc] at hrecords hpartials
    exact ⟨hrecords, hpartials⟩

/-! ## Where new inscriptions go -/

theorem sortFlotsam_sorted (l : List Flotsam) :
    (sortFlotsam l).Pairwise (fun a b => a.offset ≤ b.offset) := List.pairwise_insertionSort _ l

/-- An output of non-zero value takes all that floats at offset 0. -/
theorem sweep_zero {checks : Bool} {vout : Nat} {out : U64} {l left : List Flotsam} {outputs : List TxOut}
    {placed : List (SatPoint × Flotsam)} (hsorted : l.Pairwise (fun a b => a.offset ≤ b.offset))
    (h : sweep checks txid vout 0 l outputs = .ok (placed, left, out))
    (hvalue : ∃ o ∈ outputs, o.value ≠ 0) : ∀ f ∈ left, f.offset ≠ 0 := by
  induction outputs generalizing vout l placed with
  | nil =>
    obtain ⟨o, ho, -⟩ := hvalue
    cases ho
  | cons o outputs ih =>
    unfold sweep at h
    obtain ⟨stop, hstop, h⟩ := bind_eq_ok.mp h
    obtain ⟨⟨p₁, l₁⟩, h₁, h⟩ := bind_eq_ok.mp h
    obtain ⟨⟨p₂, l₂, out₂⟩, h₂, h⟩ := bind_eq_ok.mp h
    cases h
    have hstop := add64_eq_ok hstop
    rw [Fin.zero_add] at hstop
    obtain ⟨hl, -, hhead⟩ := sweepOutput_ok h₁
    have hsorted₁ : l₁.Pairwise (fun a b => a.offset ≤ b.offset) := by
      rw [hl] at hsorted
      exact (List.pairwise_append.mp hsorted).2.1
    by_cases ho : o.value = 0
    · rw [ho] at hstop
      rw [hstop] at h₂
      refine ih hsorted₁ h₂ ?_
      obtain ⟨o', ho', hne⟩ := hvalue
      rcases List.mem_cons.mp ho' with rfl | ho'
      · exact absurd ho hne
      · exact ⟨o', ho', hne⟩
    · -- nothing at offset 0 is left by this output, and the rest of the sweep only takes more away
      intro f hf
      have hmem : f ∈ l₁ := by
        rw [sweep_split h₂]
        exact List.mem_append_right _ hf
      have hle : stop ≤ f.offset := by
        cases hl₁ : l₁ with
        | nil =>
          rw [hl₁] at hmem
          cases hmem
        | cons g rest =>
          have hg := hhead g (by simp [hl₁])
          rw [hl₁] at hmem hsorted₁
          rcases List.mem_cons.mp hmem with rfl | hmem
          · exact hg
          · exact le_trans hg ((List.pairwise_cons.mp hsorted₁).1 f hmem)
      intro hzero
      rw [hzero, hstop] at hle
      exact ho (Fin.le_zero_iff.mp hle)

/-- A transaction other than the coinbase leaves a new inscription pending only if all its outputs
are of value 0. -/
theorem Indexed.pending (run : Indexed deps cfg resolver tx txid height s r s')
    (hcoin : isCoinbase tx = false) (h : newCount run.revealed = 0 ∨ ∃ o ∈ tx.output, o.value ≠ 0) :
    newCount s'.cbInscriptions = newCount s.cbInscriptions := by
  obtain ⟨-, hfloat, -⟩ := run.inputs_eq
  have hperm := newCount_perm run.floating_perm
  rw [newCount_append, newCount_append, newCount_append, hfloat, newCount_inputFloats] at hperm
  simp only [hcoin, Bool.false_eq_true, if_false] at hperm
  have hleft : newCount run.left = 0 := by
    rcases h with h | h
    · have hnil : newCount ([] : List Flotsam) = 0 := rfl
      omega
    · have hzero := sweep_zero (sortFlotsam_sorted _) run.sweeps h
      refine List.countP_eq_zero.mpr (fun f hf hnew => hzero f hf ?_)
      have hmem : f ∈ inputFloats deps resolver height 0 tx.input ++ run.revealed := by
        have hboth := run.floating_perm.mem_iff.mp (List.mem_append_right _ hf)
        simpa [hcoin, hfloat] using hboth
      rcases List.mem_append.mp hmem with hmem | hmem
      · exact absurd hnew (List.countP_eq_zero.mp (newCount_inputFloats deps resolver height 0 tx.input) f hmem)
      · have hout := run.outcome
        revert hmem
        generalize run.revealed = revealed at hout
        generalize run.messages = messages at hout
        generalize run.after = after at hout
        intro hmem
        cases hout with
        | none => cases hmem
        | partial_ => cases hmem
        | complete =>
          rw [List.mem_singleton] at hmem
          rw [hmem]
  rcases run.rest_cases with ⟨htrue, -⟩ | ⟨-, hcb', -⟩
  · rw [hcoin] at htrue
    cases htrue
  · rw [hcb', newCount_append, run.newCount_carried, hleft, Nat.add_zero]

end

end DogeIndexer.Compressor
