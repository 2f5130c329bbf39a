import DogeIndexer.Compressor.Conservation
import DogeIndexer.Lib.Digits

/-!
# Tickers and amounts

What the parsers of deployments, mints and transfers let through: the length of a ticker, when lower-casing four
characters does not make it too long, and the size of a maximal supply.

* `parseDecimal_lt` — a decimal of at most 18 places is less than 2^124.
* `Modest` — the terms, the recorded messages and the unused transfers of a state keep these bounds.
* `Indexed.modest` — one transaction.
-/

set_option autoImplicit false

namespace DogeIndexer.Compressor

open Fallible

/-! ## Decimals -/

namespace BRC20

theorem digitsVal_append (l : Bytes) (b : Byte) : digitsVal (l ++ [b]) = digitsVal l * 10 + (b.val - 48) := by
  unfold digitsVal
  rw [List.foldl_append]
  rfl

theorem digitsVal_lt {l : Bytes} (h : ∀ b ∈ l, isDigit b = true) : digitsVal l < 10 ^ l.length := by
  induction l using List.reverseRecOn with
  | nil => exact Nat.one_pos
  | append_singleton l b ih =>
    have hdigit := h b (List.mem_append_right _ List.mem_cons_self)
    have hl := ih fun x hx => h x (List.mem_append_left _ hx)
    unfold isDigit at hdigit
    rw [Bool.and_eq_true, decide_eq_true_iff, decide_eq_true_iff] at hdigit
    rw [digitsVal_append, List.length_append, List.length_singleton, Nat.pow_succ]
    omega

theorem parseUnsigned_lt {bound n : Nat} {l : Bytes} (h : parseUnsigned bound l = some n) : n < bound := by
  unfold parseUnsigned at h
  split at h
  · cases h
  · split at h
    · rename_i hlt
      cases h
      exact hlt
    · cases h

/-- A decimal is less than a power of ten more than its integer part allows. -/
theorem parseDecimal_lt {m : Bytes} {dec : Nat} {v : U128} (h : parseDecimal m dec = some v) :
    v.val < 2 ^ 64 * 10 ^ dec := by
  unfold parseDecimal at h
  split at h
  · cases h
  · rename_i hchars
    split at h
    · cases h
    · split at h
      · rename_i integer hsplit
        obtain ⟨i, hi, rfl⟩ := Option.map_eq_some_iff.mp h
        refine lt_of_le_of_lt (Nat.mod_le _ _) ?_
        exact Nat.mul_lt_mul_of_pos_right (parseUnsigned_lt hi) (Nat.pow_pos (by decide))
      · rename_i integer decimal hsplit
        obtain ⟨i, hi, h⟩ := Option.bind_eq_some_iff.mp h
        split at h
        · cases h
        · rename_i hlen
          cases h
          refine lt_of_le_of_lt (Nat.mod_le _ _) ?_
          have hdigits : ∀ b ∈ decimal, isDigit b = true := by
            intro b hb
            rcases Digits.splitOn_cases 46 m with ⟨-, hone⟩ | ⟨x, y, htext, -, hdot, htwo⟩ | ⟨-, hlong⟩
            · rw [hsplit] at hone
              cases hone
            · rw [hsplit] at htwo
              cases htwo
              have hchar : b ∈ m := by
                rw [htext]
                exact List.mem_append_right _ (List.mem_cons_of_mem _ hb)
              by_contra hnot
              refine hchars (List.any_eq_true.mpr ⟨b, hchar, ?_⟩)
              have hne : b ≠ 46 := fun heq => hdot (heq ▸ hb)
              rw [Bool.eq_false_iff.mpr hnot, decide_eq_false hne]
              rfl
            · rw [hsplit] at hlong
              exact absurd hlong (Nat.lt_irrefl 2)
          have hfrac := digitsVal_lt hdigits
          have hscale : 10 ^ decimal.length * 10 ^ (dec - decimal.length) = 10 ^ dec := by
            rw [← Nat.pow_add]
            congr 1
            omega
          have hpart : digitsVal decimal * 10 ^ (dec - decimal.length) < 10 ^ dec := by
            rw [← hscale]
            exact Nat.mul_lt_mul_of_pos_right hfrac (Nat.pow_pos (by decide))
          have hwhole : (i + 1) * 10 ^ dec ≤ 2 ^ 64 * 10 ^ dec :=
            Nat.mul_le_mul_right _ (parseUnsigned_lt hi)
          rw [Nat.add_mul, Nat.one_mul] at hwhole
          omega
      · cases h

theorem deployDec_le {raw : RawProtocolMessage} {dec : Nat} (h : deployDec raw = some dec) : dec ≤ 18 := by
  unfold deployDec at h
  simp only at h
  split at h
  · cases h
  · exact of_decide_eq_true (Option.filter_eq_some_iff.mp h).2

/-- A deployment is of a ticker of four characters, and its maximal supply leaves room in 128 bits. -/
theorem DeployAction.parse_bounds {deps : Deps} {raw : RawProtocolMessage} {deploy : DeployAction}
    (h : DeployAction.parse deps raw = some deploy) : raw.tick.length = 4 ∧ deploy.max.val < 2 ^ 124 := by
  unfold DeployAction.parse at h
  split at h
  · cases h
  · split at h
    · cases h
    · rename_i hlength
      obtain ⟨dec, hdec, h⟩ := Option.bind_eq_some_iff.mp h
      obtain ⟨max, -, h⟩ := Option.bind_eq_some_iff.mp h
      obtain ⟨max', hmax, h⟩ := Option.bind_eq_some_iff.mp h
      split at h
      · cases h
      · obtain ⟨limit, -, h⟩ := Option.bind_eq_some_iff.mp h
        cases h
        refine ⟨not_ne_iff.mp hlength, (parseDecimal_lt hmax).trans_le ?_⟩
        have hscale : 10 ^ dec ≤ 10 ^ 18 := Nat.pow_le_pow_right (by decide) (deployDec_le hdec)
        have hbound : 2 ^ 64 * 10 ^ 18 ≤ 2 ^ 124 := by decide
        exact (Nat.mul_le_mul_left _ hscale).trans hbound

theorem TransferAction.parse_ticker {deps : Deps} {raw : RawProtocolMessage} {terms : BRC20Terms} {action : AmountAction}
    (h : TransferAction.parse deps raw terms = some action) : action.ticker = deps.toLowercase raw.tick := by
  unfold TransferAction.parse at h
  split at h
  · cases h
  · obtain ⟨amt, -, h⟩ := Option.bind_eq_some_iff.mp h
    obtain ⟨amt', -, h⟩ := Option.bind_eq_some_iff.mp h
    split at h
    · cases h
    · cases h
      rfl

end BRC20

/-! ## Short tickers -/

/-- The ticker fits a string with one byte of length. -/
def Short (tick : Ticker) : Prop := tick.length ≤ 255

/-- Lower-casing four bytes leaves a ticker short. -/
def LowersShort (deps : Deps) : Prop := ∀ tick : Bytes, tick.length = 4 → Short (deps.toLowercase tick)

def BRC20Message.tick : BRC20Message → Ticker
  | .deploy tick => tick
  | .mint tick _ _ => tick
  | .transfer tick _ _ _ => tick
  | .transferInit tick _ _ => tick

/-- The terms are of short tickers, and their maximal supplies leave room in 128 bits. -/
structure Brc20Tables.Modest (t : Brc20Tables) : Prop where
  short : ∀ tick terms, t.terms.get tick = some terms → Short tick
  max : ∀ tick terms, t.terms.get tick = some terms → terms.max.val < 2 ^ 124

theorem Brc20Tables.Modest.maximum_lt {t : Brc20Tables} (h : t.Modest) (tick : Ticker) :
    (t.maximum tick).val < 2 ^ 124 := by
  unfold maximum
  split
  · rename_i terms hterms
    exact h.max tick terms hterms
  · exact Nat.two_pow_pos 124

/-- The recorded messages are of short tickers. -/
def ShortMessages (messages : List (InscriptionId × BRC20Message)) : Prop := ∀ m ∈ messages, Short m.2.tick

/-- Unused transfers are of short tickers. -/
def ShortTransfers (transfers : Table InscriptionId (Ticker × U128)) : Prop :=
  ∀ id transfer, transfers.get id = some transfer → Short transfer.1

theorem ShortMessages.concat {messages : List (InscriptionId × BRC20Message)} {m : InscriptionId × BRC20Message}
    (h : ShortMessages messages) (hm : Short m.2.tick) : ShortMessages (messages ++ [m]) := by
  intro x hx
  rcases List.mem_append.mp hx with hx | hx
  · exact h x hx
  · rw [List.mem_singleton.mp hx]
    exact hm

/-! ## Credits -/

section

variable {checks : Bool} {unused : Table InscriptionId UnusedTransfer}
  {s s' : Brc20Tables × List (InscriptionId × BRC20Message)}

/-- A state between credits. -/
def ModestCredits (s : Brc20Tables × List (InscriptionId × BRC20Message)) : Prop := s.1.Modest ∧ ShortMessages s.2

theorem creditTransfer_modest {t : Brc20Tables} {valid : List (InscriptionId × BRC20Message)} {id : InscriptionId}
    {transfer : UnusedTransfer} {receiver : ScriptHash} (h : ModestCredits (t, valid)) (hshort : Short transfer.tick)
    (hcredit : creditTransfer checks t valid id transfer receiver = .ok s') : ModestCredits s' := by
  unfold creditTransfer creditBalance at hcredit
  obtain ⟨t', hbalance, hcredit⟩ := bind_eq_ok.mp hcredit
  obtain ⟨balance, -, hbalance⟩ := bind_eq_ok.mp hbalance
  cases hbalance
  cases hcredit
  exact ⟨⟨h.1.short, h.1.max⟩, h.2.concat hshort⟩

variable (hunused : ∀ id transfer, unused.get id = some transfer → Short transfer.tick)

include hunused

theorem returnTransfers_modest {left : List Flotsam} (h : ModestCredits s)
    (hreturn : returnTransfers checks unused s left = .ok s') : ModestCredits s' := by
  refine foldlM_induct (P := fun _ s => ModestCredits s) ?_ h hreturn
  rintro flotsam _ ⟨t, valid⟩ s' hs hstep
  simp only at hstep
  split at hstep
  · rename_i transfer hget
    exact creditTransfer_modest hs (hunused _ _ hget) hstep
  · cases hstep
    exact hs

theorem creditOutgoing_modest {scripts : Table OutPoint ScriptHash} {outgoing : List (SatPoint × InscriptionId)}
    (h : ModestCredits s) (hcredit : creditOutgoing checks scripts unused s outgoing = .ok s') : ModestCredits s' := by
  refine foldlM_induct (P := fun _ s => ModestCredits s) ?_ h hcredit
  rintro ⟨satpoint, id⟩ _ ⟨t, valid⟩ s' hs hstep
  simp only at hstep
  split at hstep
  · rename_i transfer hget
    obtain ⟨receiver, -, hstep⟩ := bind_eq_ok.mp hstep
    exact creditTransfer_modest hs (hunused _ _ hget) hstep
  · cases hstep
    exact hs

end

/-! ## Messages -/

/-- A state between messages. -/
structure MessageState.Modest (m : MessageState) : Prop where
  brc20 : m.brc20.Modest
  valid : ShortMessages m.valid
  newUnused : ShortTransfers m.newUnused

section

variable {checks : Bool} {deps : Deps} {m m' : MessageState} {id : InscriptionId}

theorem applyDeploy_modest (hlower : LowersShort deps) {raw : RawProtocolMessage} {deploy : BRC20.DeployAction}
    (hparse : BRC20.DeployAction.parse deps raw = some deploy) (h : m.Modest) : (applyDeploy m id deploy).Modest := by
  obtain ⟨hlength, hmax⟩ := BRC20.DeployAction.parse_bounds hparse
  have hshort : Short deploy.ticker := by
    rw [deploy_ticker hparse]
    exact hlower _ hlength
  refine ⟨⟨fun tick terms hget => ?_, fun tick terms hget => ?_⟩, h.valid.concat hshort, h.newUnused⟩
  · unfold applyDeploy at hget
    rw [Table.get_insert] at hget
    split at hget
    · rename_i heq
      rw [heq]
      exact hshort
    · exact h.brc20.short tick terms hget
  · unfold applyDeploy at hget
    rw [Table.get_insert] at hget
    split at hget
    · cases hget
      exact hmax
    · exact h.brc20.max tick terms hget

theorem applyMint_modest {receiver : Option ScriptHash} {terms : BRC20Terms} {action : BRC20.AmountAction}
    (hshort : Short action.ticker) (h : m.Modest) (hmint : applyMint checks m id receiver terms action = .ok m') :
    m'.Modest := by
  unfold applyMint creditBalance at hmint
  simp only at hmint
  split at hmint
  · cases hmint
    exact h
  · split at hmint
    · cases hmint
      exact h
    · obtain ⟨left, -, hmint⟩ := bind_eq_ok.mp hmint
      obtain ⟨newSupply, -, hmint⟩ := bind_eq_ok.mp hmint
      obtain ⟨t, hcredit, hmint⟩ := bind_eq_ok.mp hmint
      obtain ⟨balance, -, hcredit⟩ := bind_eq_ok.mp hcredit
      cases hcredit
      cases hmint
      exact ⟨⟨h.brc20.short, h.brc20.max⟩, h.valid.concat hshort, h.newUnused⟩

theorem applyTransferInit_modest {receiver : Option ScriptHash} {action : BRC20.AmountAction}
    (hshort : Short action.ticker) (h : m.Modest) (hinit : applyTransferInit checks m id receiver action = .ok m') :
    m'.Modest := by
  unfold applyTransferInit at hinit
  split at hinit
  · cases hinit
    exact h
  · simp only at hinit
    split at hinit
    · cases hinit
      exact h
    · split at hinit
      · cases hinit
        exact h
      · obtain ⟨balance, -, hinit⟩ := bind_eq_ok.mp hinit
        cases hinit
        refine ⟨⟨h.brc20.short, h.brc20.max⟩, h.valid.concat hshort, fun id' transfer hget => ?_⟩
        rw [Table.get_insert] at hget
        split at hget
        · cases hget
          exact hshort
        · exact h.newUnused id' transfer hget

/-- **One message keeps the bounds**: it deploys a ticker within them, or is of a deployed one. -/
theorem processMessage_modest (hlower : LowersShort deps) {receivers : Table InscriptionId ScriptHash}
    {message : InscriptionId × RawProtocolMessage} (h : m.Modest)
    (hprocess : processMessage deps checks receivers m message = .ok m') : m'.Modest := by
  obtain ⟨id, raw⟩ := message
  unfold processMessage at hprocess
  simp only at hprocess
  split at hprocess
  · rename_i deploy hparse
    split at hprocess
    · cases hprocess
      exact applyDeploy_modest hlower hparse h
    · cases hprocess
      exact h
  · split at hprocess
    · cases hprocess
      exact h
    · rename_i terms hterms
      have hshort := h.brc20.short _ _ hterms
      split at hprocess
      · rename_i action hparse
        exact applyMint_modest (by rw [mint_ticker hparse]; exact hshort) h hprocess
      · split at hprocess
        · rename_i action hparse
          exact applyTransferInit_modest (by rw [BRC20.TransferAction.parse_ticker hparse]; exact hshort) h hprocess
        · cases hprocess
          exact h

end

/-! ## A transaction -/

section

variable {deps : Deps} {cfg : Config} {resolver : Table TxoRef TxoBody} {tx : Transaction} {txid : Txid}
  {height : Nat} {s s' : InscriptionState} {r : IndexInscriptionsResult}

/-- The unused transfers of the inputs are those of the spent outputs. -/
theorem inputTransfers_short (h : ∀ body ∈ inputBodies resolver tx.input, ShortTransfers body.unusedBrc20Transfers) :
    ∀ e ∈ inputTransfers deps resolver tx.input, Short e.2.tick := by
  intro e he
  obtain ⟨txin, htxin, hnull, body, hget, he⟩ := mem_inputTransfers he
  obtain ⟨htransfer, -⟩ := mem_transfersOf he
  exact h body (mem_inputBodies htxin hnull hget) _ _ htransfer

/-- **One transaction keeps the bounds.** -/
theorem Indexed.modest (run : Indexed deps cfg resolver tx txid height s r s') (hlower : LowersShort deps)
    (h : s.brc20.Modest)
    (hinputs : ∀ body ∈ inputBodies resolver tx.input, ShortTransfers body.unusedBrc20Transfers) :
    s'.brc20.Modest ∧ ShortMessages r.brc20Resolver ∧ ShortTransfers r.newUnusedBrc20Transfers := by
  have hunused : ∀ id transfer, run.inputs.unused.get id = some transfer → Short transfer.tick := by
    intro id transfer hget
    obtain ⟨-, -, heq⟩ := run.inputs_eq
    rw [heq] at hget
    rcases Table.get_insertAll hget with hmem | ⟨-, hget⟩
    · exact inputTransfers_short hinputs _ hmem
    · cases hget
  have hstart : ModestCredits (s.brc20, []) := ⟨h, fun m hm => by cases hm⟩
  have hlocated : ModestCredits run.located.brc20 := by
    rcases run.rest_cases with ⟨-, -, hbrc, -⟩ | ⟨-, -, hreturn, -⟩
    · rw [hbrc]
      exact hstart
    · exact returnTransfers_modest hunused hstart hreturn
  have hcredited := creditOutgoing_modest hunused hlocated run.credits
  have hfinal : run.final.Modest := foldlM_induct (P := fun _ (m : MessageState) => m.Modest)
    (fun message _ m m' hm hstep => processMessage_modest hlower hm hstep)
    ⟨hcredited.1, hcredited.2, fun id transfer hget => by cases hget⟩ run.processes
  have hstate := congrArg InscriptionState.brc20 run.state
  simp only at hstate
  rw [hstate, run.resolved, run.transfers]
  exact ⟨hfinal.brc20, hfinal.valid, hfinal.newUnused⟩

end

end DogeIndexer.Compressor
