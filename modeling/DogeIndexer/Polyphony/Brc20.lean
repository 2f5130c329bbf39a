import DogeIndexer.Compressor.Books
import DogeIndexer.Polyphony.Configured
import DogeIndexer.Polyphony.Netted
import Mathlib.Data.List.Pairwise

/-!
# Reducers of DRC-20 balances

Model of `brc20_balances_by_script_hash` and `balances_by_brc20`
(`polyphony-xdg/src/reducers/`), which read the messages that the context lists under an inscription:
a transfer where its output is consumed, the other messages where the inscription is revealed.

* `Brc20Reducer.reduce` — the storage actions of a block.
* `Accounted.reduceTx_perm`, `Accounted.reduceBlock_eq` — when the books of the block are kept, what a transaction
  signals is what its messages do, in some order.
-/

set_option autoImplicit false

namespace DogeIndexer.Polyphony.Reducers

open Compressor (Bytes Txid ScriptHash OutPoint InscriptionId BRC20Message Transaction Block Ticker TxoBody Item TxoRef
  Deps Short ResolverEntry NewInscriptionInfo Inscription ParsedInscription)
open Timbre (Namespace Ty)
open StorageAction (Family)

/-! ## The loop over a block -/

namespace Brc20

section

variable {α : Type} (scriptHash : Bytes → ScriptHash) (policy : RuntimePolicy) (ctx : BlockContext)
  (transferred : ScriptHash → Ticker → U128 → ScriptHash → List α) (revealed : BRC20Message → List α)

/-- A message of an inscription on a consumed output, whose script is the sender. -/
def consumedMessage (input : OutPoint) (sender : ScriptHash) : BRC20Message → List α
  | .transfer tick amt op receiver => if op = input then transferred sender tick amt receiver else []
  | _ => []

def processConsumedTxo (input : OutPoint) : Option (List α) :=
  match ctx.utxoInscriptions input with
  | none => some []
  | some inscriptions => do
    match ← applyPolicy policy (ctx.findUtxo input) with
    | some utxo =>
      let sender := scriptHash utxo.txo.scriptPubkey
      return inscriptions.flatMap fun inscription =>
        ((ctx.inscriptionBrc20s inscription.2).getD []).flatMap (consumedMessage transferred input sender)
    | none => return []

/-- The messages of an inscription that the transaction reveals alone: more than one transaction are not detected. -/
def processRevealed (tx : Transaction) : List α :=
  match Inscription.fromTransactions [tx] with
  | .complete _ => ((ctx.inscriptionBrc20s ⟨tx.txid, 0⟩).getD []).flatMap revealed
  | _ => []

def reduceTx (tx : Transaction) : Option (List α) := do
  let consumed ← if isCoinbase tx then some [] else
    collect (processConsumedTxo scriptHash policy ctx transferred) (inputs tx)
  return consumed ++ processRevealed ctx revealed tx

def reduceBlock (block : Block) : Option (List α) :=
  collect (reduceTx scriptHash policy ctx transferred revealed) block.txdata

end

/-- `ShortByteString::try_from`. -/
def shortByteString (ticker : Ticker) : Option Timbre.Ty.shortByteString.Val :=
  if ticker.length ≤ 255 then some ticker else none

theorem shortByteString_eq {ticker : Ticker} (h : Short ticker) : shortByteString ticker = some ticker := if_pos h

end Brc20

/-! ## The reducers -/

namespace Brc20BalancesByScriptHash

structure Output where
  scriptHash : ScriptHash
  brcTicker : Ticker
  totalDelta : IncrOrDecr U128
  availableDelta : IncrOrDecr U128

/-- The total balance of the sender decreases, its available balance is unchanged. -/
def transferred (sender : ScriptHash) (tick : Ticker) (amt : U128) (receiver : ScriptHash) : List Output :=
  [⟨sender, tick, .decrement amt, .increment 0⟩, ⟨receiver, tick, .increment amt, .increment amt⟩]

def revealed : BRC20Message → List Output
  | .deploy _ => []
  | .mint ticker amt receiver => [⟨receiver, ticker, .increment amt, .increment amt⟩]
  | .transferInit ticker amt receiver => [⟨receiver, ticker, .increment 0, .decrement amt⟩]
  | .transfer _ _ _ _ => []

def reduceBlock (scriptHash : Bytes → ScriptHash) (policy : RuntimePolicy) (block : Block) (ctx : BlockContext) :
    Option (List Output) :=
  Brc20.reduceBlock scriptHash policy ctx transferred revealed block

end Brc20BalancesByScriptHash

namespace BalancesByBrc20

structure Output where
  brcTicker : Ticker
  scriptHash : ScriptHash
  totalDelta : IncrOrDecr U128

def transferred (sender : ScriptHash) (tick : Ticker) (amt : U128) (receiver : ScriptHash) : List Output :=
  [⟨tick, sender, .decrement amt⟩, ⟨tick, receiver, .increment amt⟩]

def revealed : BRC20Message → List Output
  | .deploy _ => []
  | .mint ticker amt receiver => [⟨ticker, receiver, .increment amt⟩]
  | .transferInit _ _ _ => []
  | .transfer _ _ _ _ => []

def reduceBlock (scriptHash : Bytes → ScriptHash) (policy : RuntimePolicy) (block : Block) (ctx : BlockContext) :
    Option (List Output) :=
  Brc20.reduceBlock scriptHash policy ctx transferred revealed block

end BalancesByBrc20

/-! ## Storage actions -/

section

variable (ns : Namespace)

def brc20TotalBalanceKey (scriptHash : ScriptHash) (ticker : Ticker) : Key :=
  ns.data .brc20TotalBalanceByScriptHash Timbre.Brc20BalancesByScriptHash.key (array20 scriptHash, ticker)

def brc20AvailableBalanceKey (scriptHash : ScriptHash) (ticker : Ticker) : Key :=
  ns.data .brc20AvailableBalanceByScriptHash Timbre.Brc20BalancesByScriptHash.key (array20 scriptHash, ticker)

def balancesByBrc20Key (scriptHash : ScriptHash) (ticker : Ticker) : Key :=
  ns.data .balancesByBrc20 Timbre.BalancesByBrc20.key (ticker, array20 scriptHash)

/-- A ticker that is too long for the key is a panic. -/
def Brc20BalancesByScriptHash.Output.toStorageOps (o : Brc20BalancesByScriptHash.Output) :
    Option (List StorageAction) := do
  let ticker ← Brc20.shortByteString o.brcTicker
  let totalBalanceKey := brc20TotalBalanceKey ns o.scriptHash ticker
  let availableBalanceKey := brc20AvailableBalanceKey ns o.scriptHash ticker
  return [o.totalDelta.toStorageAction (.incrementU128 totalBalanceKey) (.decrementU128NoDelete totalBalanceKey),
    o.availableDelta.toStorageAction (.incrementU128 availableBalanceKey) (.decrementU128NoDelete availableBalanceKey)]

def BalancesByBrc20.Output.toStorageOps (o : BalancesByBrc20.Output) : Option (List StorageAction) := do
  let ticker ← Brc20.shortByteString o.brcTicker
  let totalBalanceKey := balancesByBrc20Key ns o.scriptHash ticker
  return [o.totalDelta.toStorageAction (.incrementU128 totalBalanceKey) (.decrementU128 totalBalanceKey)]

end

inductive Brc20Reducer where
  | balancesByBrc20
  | brc20BalancesByScriptHash
  deriving DecidableEq

namespace Brc20Reducer

def tags : Brc20Reducer → List Timbre.Reducer
  | balancesByBrc20 => [.balancesByBrc20]
  | brc20BalancesByScriptHash => [.brc20TotalBalanceByScriptHash, .brc20AvailableBalanceByScriptHash]

/-- The storage actions of a block. -/
def reduce (scriptHash : Bytes → ScriptHash) (policy : RuntimePolicy) (ns : Namespace) (b : EnrichedBlock) :
    Brc20Reducer → Option (List StorageAction)
  | balancesByBrc20 => do
    let outputs ← BalancesByBrc20.reduceBlock scriptHash policy b.block b.ctx
    collect (BalancesByBrc20.Output.toStorageOps ns) outputs
  | brc20BalancesByScriptHash => do
    let outputs ← Brc20BalancesByScriptHash.reduceBlock scriptHash policy b.block b.ctx
    collect (Brc20BalancesByScriptHash.Output.toStorageOps ns) outputs

end Brc20Reducer

/-! ## Messages of a block -/

section

variable {α β γ : Type}

theorem filter_append_perm {l : List α} {p q : α → Bool} (h : ∀ a ∈ l, p a = true → q a = false) :
    (l.filter p ++ l.filter q).Perm (l.filter fun a => p a || q a) := by
  induction l with
  | nil => exact .refl _
  | cons a l ih =>
    have ih := ih fun x hx => h x (List.mem_cons_of_mem _ hx)
    rw [List.filter_cons, List.filter_cons, List.filter_cons]
    cases hp : p a with
    | true =>
      rw [h a List.mem_cons_self hp]
      exact ih.cons a
    | false =>
      cases hq : q a with
      | true => exact List.perm_middle.trans (ih.cons a)
      | false => exact ih

/-- What is looked up under distinct keys, one after another. -/
theorem flatMap_filter_perm [DecidableEq β] {keys : List β} (hkeys : keys.Nodup) (key : α → Option β) (l : List α) :
    (keys.flatMap fun k => l.filter fun a => key a = some k).Perm
      (l.filter fun a => (key a).any fun k => decide (k ∈ keys)) := by
  induction keys with
  | nil =>
    refine List.Perm.of_eq (List.filter_eq_nil_iff.mpr fun a _ => ?_).symm
    cases key a <;> simp
  | cons k keys ih =>
    obtain ⟨hk, hrest⟩ := List.nodup_cons.mp hkeys
    rw [List.flatMap_cons]
    refine ((ih hrest).append_left _).trans ((filter_append_perm fun a _ ha => ?_).trans (List.Perm.of_eq ?_))
    · rw [of_decide_eq_true ha]
      exact decide_eq_false hk
    · refine List.filter_congr fun a _ => ?_
      cases key a with
      | none => rfl
      | some k' => by_cases heq : k' = k <;> simp [heq]

/-- Only one of distinct elements contributes. -/
theorem flatMap_eq_of_unique {l : List α} {key : α → β} (hkeys : (l.map key).Nodup) {a : α} (ha : a ∈ l)
    {f : α → List γ} (h : ∀ b ∈ l, key b ≠ key a → f b = []) : l.flatMap f = f a := by
  obtain ⟨l₁, l₂, rfl⟩ := List.append_of_mem ha
  rw [List.map_append, List.map_cons] at hkeys
  obtain ⟨-, hright, hdisjoint⟩ := List.nodup_append.mp hkeys
  have hleft : l₁.flatMap f = [] := List.flatMap_eq_nil_iff.mpr fun b hb =>
    h b (List.mem_append_left _ hb) (hdisjoint _ (List.mem_map_of_mem hb) _ List.mem_cons_self)
  have hlast : l₂.flatMap f = [] := List.flatMap_eq_nil_iff.mpr fun b hb =>
    h b (List.mem_append_right _ (List.mem_cons_of_mem _ hb)) fun heq =>
      (List.nodup_cons.mp hright).1 (heq ▸ List.mem_map_of_mem hb)
  rw [List.flatMap_append, List.flatMap_cons, hleft, hlast, List.nil_append, List.append_nil]

end

theorem collect_map {α β γ : Type} {f : β → Option (List γ)} {m : α → β} {g : α → List γ} {l : List α}
    (h : ∀ a ∈ l, f (m a) = some (g a)) : collect f (l.map m) = some (l.flatMap g) := by
  induction l with
  | nil => rfl
  | cons a l ih =>
    rw [List.map_cons, collect, h a List.mem_cons_self, ih fun a' ha' => h a' (List.mem_cons_of_mem _ ha')]
    rfl

/-- The messages that a block lists under an inscription. -/
theorem getD_inscriptionBrc20s (entry : ResolverEntry) (id : InscriptionId) :
    ((contextOf entry).inscriptionBrc20s id).getD [] = (entry.brc20Resolver.filter fun m => m.1 = id).map Prod.snd := by
  have hall : ∀ (l : List (InscriptionId × BRC20Message)) (t : Table InscriptionId (List BRC20Message)),
      ((l.foldl (fun t e => t.insert e.1 (t.getD e.1 [] ++ [e.2])) t).get id).getD [] =
        t.getD id [] ++ (l.filter fun m => m.1 = id).map Prod.snd := by
    intro l
    induction l with
    | nil => exact fun t => (List.append_nil _).symm
    | cons e l ih =>
      intro t
      rw [List.foldl_cons, ih, Table.getD_insert, List.filter_cons]
      by_cases he : e.1 = id
      · rw [if_pos he.symm, if_pos (decide_eq_true he), List.map_cons, he, List.append_assoc]
        rfl
      · rw [if_neg (Ne.symm he), if_neg (by simpa using he)]
  exact (hall entry.brc20Resolver Table.empty).trans (List.nil_append _)

/-- A stored block whose books are kept: its entry lists what its transactions recorded. -/
structure Accounted (block : Block) (entry : ResolverEntry) (final : Table TxoRef TxoBody) (items : List Item) :
    Prop where
  of : EntryOf final block entry
  coinbase : Compressor.CoinbaseFirst block
  spent : ((block.txdata.drop 1).flatMap Compressor.spent).Nodup
  txs : items.map Item.tx = block.txdata.drop 1 ++ block.txdata.take 1
  messages : entry.brc20Resolver = items.flatMap Item.messages
  sound : ∀ item ∈ items, item.txos = final ∧ item.Sound entry.newInscriptions

/-- Each inscription with a DRC-20 message is revealed by a single transaction of the block. -/
def RevealedAlone (block : Block) (entry : ResolverEntry) : Prop :=
  ∀ info ∈ entry.newInscriptions, (∃ m ∈ entry.brc20Resolver, m.1 = info.id) →
    ∃ tx ∈ block.txdata, info.txHash = tx.txid ∧ info.id = ⟨tx.txid, 0⟩ ∧
      ∃ inscription, Inscription.fromTransactions [tx] = .complete inscription

instance (parsed : ParsedInscription) : Decidable (∃ inscription, parsed = .complete inscription) :=
  match parsed with
  | .complete inscription => isTrue ⟨inscription, rfl⟩
  | .none => isFalse fun h => nomatch h
  | .partial_ => isFalse fun h => nomatch h

instance (block : Block) (entry : ResolverEntry) : Decidable (RevealedAlone block entry) :=
  inferInstanceAs (Decidable (∀ info ∈ entry.newInscriptions, (∃ m ∈ entry.brc20Resolver, m.1 = info.id) →
    ∃ tx ∈ block.txdata, info.txHash = tx.txid ∧ info.id = ⟨tx.txid, 0⟩ ∧
      ∃ inscription, Inscription.fromTransactions [tx] = .complete inscription))

section

variable {α : Type} (deps : Deps) (txos : Table TxoRef TxoBody)
  (transferred : ScriptHash → Ticker → U128 → ScriptHash → List α) (revealed : BRC20Message → List α)

/-- What a transfer signals, off the output that it moves from. -/
def transferOut : BRC20Message → List α
  | .transfer tick amt op receiver =>
    match Compressor.senderOf deps txos op with
    | some sender => transferred sender tick amt receiver
    | none => []
  | _ => []

/-- The output and the inscription of a transfer. -/
def moveKey (m : InscriptionId × BRC20Message) : Option (OutPoint × InscriptionId) :=
  m.2.move.map fun move => (move.2.2, m.1)

/-- What a message signals. -/
def messageOut (message : BRC20Message) : List α := transferOut deps txos transferred message ++ revealed message

variable {deps txos transferred revealed} {messages : List (InscriptionId × BRC20Message)} {ref : OutPoint}
  {id : InscriptionId} {sender : ScriptHash}

/-- The messages of an inscription on a consumed output. -/
theorem consumed_eq (hsender : Compressor.senderOf deps txos ref = some sender) :
    ((messages.filter fun m => m.1 = id).map Prod.snd).flatMap (Brc20.consumedMessage transferred ref sender) =
      (messages.filter fun m => moveKey m = some (ref, id)).flatMap fun m => transferOut deps txos transferred m.2 := by
  induction messages with
  | nil => rfl
  | cons m messages ih =>
    rw [List.filter_cons, List.filter_cons]
    obtain ⟨id', message⟩ := m
    cases message with
    | transfer tick amt op receiver =>
      have hkey : moveKey (id', .transfer tick amt op receiver) = some (op, id') := rfl
      rw [hkey]
      by_cases hid : id' = id
      · by_cases hop : op = ref
        · subst hid hop
          simp only [decide_true, if_true, List.map_cons, List.flatMap_cons, ih]
          simp only [Brc20.consumedMessage, transferOut, hsender, if_true]
        · simp only [hid, decide_true, if_true, List.map_cons, List.flatMap_cons, ih, Option.some.injEq, Prod.mk.injEq,
            hop, false_and, decide_false, Bool.false_eq_true, if_false, Brc20.consumedMessage, List.nil_append]
      · simp only [hid, decide_false, Bool.false_eq_true, if_false, Option.some.injEq, Prod.mk.injEq, and_false, ih]
    | _ =>
      by_cases hid : id' = id
      · simp only [hid, decide_true, if_true, List.map_cons, List.flatMap_cons, ih, moveKey, BRC20Message.move,
          Option.map_none, reduceCtorEq, decide_false, Bool.false_eq_true, if_false, Brc20.consumedMessage,
          List.nil_append]
      · simp only [hid, decide_false, Bool.false_eq_true, if_false, moveKey, BRC20Message.move, Option.map_none,
          reduceCtorEq, ih]

end

/-! ## One transaction -/

/-- The inscriptions of the inputs, each with the output that it is on. -/
def inputPairs (txos : Table TxoRef TxoBody) (tx : Transaction) : List (OutPoint × InscriptionId) :=
  (inputs tx).flatMap fun ref => (((txos.get ref).map TxoBody.ids).getD []).map fun id => (ref, id)

theorem mem_inputPairs {txos : Table TxoRef TxoBody} {tx : Transaction} {ref : OutPoint} {id : InscriptionId}
    {body : TxoBody} (href : ref ∈ Compressor.spent tx) (hbody : txos.get ref = some body) (hid : id ∈ body.ids) :
    (ref, id) ∈ inputPairs txos tx := by
  refine List.mem_flatMap.mpr ⟨ref, href, List.mem_map.mpr ⟨id, ?_, rfl⟩⟩
  rw [hbody]
  exact hid

theorem inputPairs_nodup {txos : Table TxoRef TxoBody} {tx : Transaction} (hnull : OutPoint.null ∉ Compressor.spent tx)
    (h : ((Compressor.inputBodies txos tx.input).flatMap TxoBody.ids).Nodup) : (inputPairs txos tx).Nodup := by
  have hids : ∀ l : List Compressor.TxIn, OutPoint.null ∉ l.map Compressor.TxIn.previousOutput →
      ((l.map Compressor.TxIn.previousOutput).flatMap fun ref =>
        (((txos.get ref).map TxoBody.ids).getD []).map fun id => (ref, id)).map Prod.snd =
          (Compressor.inputBodies txos l).flatMap TxoBody.ids := by
    intro l
    induction l with
    | nil => exact fun _ => rfl
    | cons txin l ih =>
      intro hne
      rw [List.map_cons, List.mem_cons, not_or] at hne
      have hisNull : txin.previousOutput.isNull = false := decide_eq_false (Ne.symm hne.1)
      unfold Compressor.inputBodies
      rw [List.map_cons, List.flatMap_cons, List.map_append, ih hne.2, List.filterMap_cons, hisNull]
      cases txos.get txin.previousOutput with
      | none => rfl
      | some body =>
        simp only [Bool.false_eq_true, if_false, List.flatMap_cons, Option.map_some, Option.getD_some, List.map_map,
          Function.comp_def, List.map_id']
        rfl
  refine List.Nodup.of_map Prod.snd ?_
  have heq := hids tx.input hnull
  unfold inputPairs inputs
  rw [heq]
  exact h

section

variable {α : Type} {deps : Deps} {policy : RuntimePolicy} {block : Block} {entry : ResolverEntry}
  {final : Table TxoRef TxoBody} {items : List Item}
  {transferred : ScriptHash → Ticker → U128 → ScriptHash → List α} {revealed : BRC20Message → List α}

theorem Accounted.item_tx (h : Accounted block entry final items) {item : Item} (hitem : item ∈ items) :
    item.tx ∈ block.txdata := by
  have hmem : item.tx ∈ items.map Item.tx := List.mem_map_of_mem hitem
  rw [h.txs] at hmem
  rcases List.mem_append.mp hmem with hmem | hmem
  · exact List.mem_of_mem_drop hmem
  · exact List.mem_of_mem_take hmem

theorem Accounted.txids (h : Accounted block entry final items) : (items.map fun item => item.tx.txid).Nodup := by
  have hperm : (items.map Item.tx).Perm block.txdata := by
    rw [h.txs]
    refine List.perm_append_comm.trans (List.Perm.of_eq (List.take_append_drop 1 block.txdata))
  have hids := (hperm.map Transaction.txid).nodup_iff.mpr h.of.txids
  rw [List.map_map] at hids
  exact hids

/-- The coinbase comes last, and moves nothing; the others spend what the block resolves. -/
theorem Accounted.item_cases (h : Accounted block entry final items) {item : Item} (hitem : item ∈ items) :
    (isCoinbase item.tx = true ∧ Compressor.spent item.tx = [OutPoint.null]) ∨
      (isCoinbase item.tx = false ∧ OutPoint.null ∉ Compressor.spent item.tx ∧ item.tx ∈ block.txdata.drop 1) := by
  obtain ⟨coinbase, txs, hdata⟩ : ∃ coinbase txs, block.txdata = coinbase :: txs := by
    cases hdata : block.txdata with
    | nil =>
      have hmem := h.item_tx hitem
      rw [hdata] at hmem
      cases hmem
    | cons coinbase txs => exact ⟨coinbase, txs, rfl⟩
  obtain ⟨hcb, hrest⟩ := h.coinbase.not_null hdata
  have hmem : item.tx ∈ items.map Item.tx := List.mem_map_of_mem hitem
  rw [h.txs] at hmem
  rcases List.mem_append.mp hmem with hmem | hmem
  · have hne : OutPoint.null ∉ Compressor.spent item.tx := hrest item.tx (by rw [hdata] at hmem; exact hmem)
    exact Or.inr ⟨not_isCoinbase hne, hne, hmem⟩
  · rw [hdata, List.take_succ_cons, List.take_zero, List.mem_singleton] at hmem
    rw [hmem]
    exact Or.inl ⟨isCoinbase_of_inputs hcb, hcb⟩

/-- No output is spent twice. -/
theorem Accounted.spent_once (h : Accounted block entry final items) {item other : Item} (hitem : item ∈ items)
    (hother : other ∈ items) (hne : item.tx.txid ≠ other.tx.txid) {ref : OutPoint}
    (href : ref ∈ Compressor.spent item.tx) (hnull : ref ≠ OutPoint.null) : ref ∉ Compressor.spent other.tx := by
  intro hin
  rcases h.item_cases hitem with ⟨-, hspent⟩ | ⟨-, -, hdrop⟩
  · rw [hspent, List.mem_singleton] at href
    exact hnull href
  · rcases h.item_cases hother with ⟨-, hspent⟩ | ⟨-, -, hdrop'⟩
    · rw [hspent, List.mem_singleton] at hin
      exact hnull hin
    · have hpairwise := (List.nodup_flatMap.mp h.spent).2
      have : Std.Symm (Function.onFun List.Disjoint Compressor.spent) := ⟨fun _ _ hd => List.Disjoint.symm hd⟩
      exact hpairwise.forall hdrop hdrop' (fun heq => hne (congrArg Transaction.txid heq)) href hin

/-- **A consumed output** signals the transfers that move off it. -/
theorem Accounted.processConsumedTxo_eq (h : Accounted block entry final items) {item : Item} (hitem : item ∈ items)
    (hdrop : item.tx ∈ block.txdata.drop 1) {ref : OutPoint} (href : ref ∈ Compressor.spent item.tx)
    (hnull : ref ≠ OutPoint.null) :
    Brc20.processConsumedTxo deps.scriptHash policy (contextOf entry) transferred ref =
      some ((((final.get ref).map TxoBody.ids).getD []).flatMap fun id =>
        (entry.brc20Resolver.filter fun m => moveKey m = some (ref, id)).flatMap fun m =>
          transferOut deps final transferred m.2) := by
  obtain ⟨htxos, hsound⟩ := h.sound item hitem
  obtain ⟨body, hbody⟩ := hsound.inputs ref href hnull
  rw [htxos] at hbody
  have hin : ref ∈ Compressor.inputRefs block := List.mem_dedup.mpr (List.mem_flatMap.mpr ⟨item.tx, hdrop, href⟩)
  have hlisted := h.of.utxoInscriptions hbody (Or.inl hin)
  have hfind := h.of.findUtxo hin hbody
  have hsender : Compressor.senderOf deps final ref = some (deps.scriptHash body.raw.scriptPubkey) := by
    unfold Compressor.senderOf
    rw [hbody]
    rfl
  rw [hbody, Option.map_some, Option.getD_some]
  unfold Brc20.processConsumedTxo
  cases hget : (contextOf entry).utxoInscriptions ref with
  | none =>
    rw [hget] at hlisted
    have hids : body.ids = [] := by
      have hnil : body.inscriptions = [] := List.map_eq_nil_iff.mp hlisted.symm
      unfold TxoBody.ids
      rw [hnil]
      rfl
    rw [hids]
    rfl
  | some inscriptions =>
    rw [hget] at hlisted
    obtain rfl : inscriptions = castInscriptions body.inscriptions := hlisted
    simp only [hfind, applyPolicy_some, Option.bind_eq_bind, Option.bind_some]
    unfold castInscriptions TxoBody.ids
    rw [List.flatMap_map, List.flatMap_map]
    refine congrArg some (congrArg List.flatten (List.map_congr_left fun e _ => ?_))
    rw [getD_inscriptionBrc20s, consumed_eq hsender]

/-- What is looked up for a transaction is its own. -/
theorem Accounted.flatMap_own (h : Accounted block entry final items) {item : Item} (hitem : item ∈ items)
    {p : InscriptionId × BRC20Message → Bool} {f : InscriptionId × BRC20Message → List α}
    (hothers : ∀ other ∈ items, other.tx.txid ≠ item.tx.txid → ∀ m ∈ other.messages, p m = true → f m = [])
    (hown : ∀ m ∈ item.messages, p m = false → f m = []) :
    (entry.brc20Resolver.filter p).flatMap f = item.messages.flatMap f := by
  rw [h.messages, List.filter_flatMap, List.flatMap_assoc]
  refine (flatMap_eq_of_unique h.txids hitem fun other hother hne => ?_).trans ?_
  · refine List.flatMap_eq_nil_iff.mpr fun m hm => ?_
    obtain ⟨hmem, hp⟩ := List.mem_filter.mp hm
    exact hothers other hother hne m hmem hp
  · generalize item.messages = messages at hown
    induction messages with
    | nil => rfl
    | cons m messages ih =>
      have hrest := ih fun m' hm' => hown m' (List.mem_cons_of_mem _ hm')
      rw [List.filter_cons, List.flatMap_cons]
      cases hp : p m with
      | true => rw [if_pos rfl, List.flatMap_cons, hrest]
      | false => rw [if_neg (by simp), hrest, hown m List.mem_cons_self hp, List.nil_append]

theorem moveKey_eq {m : InscriptionId × BRC20Message} {move : Compressor.Move} (h : m.2.move = some move) :
    moveKey m = some (move.2.2, m.1) := by
  unfold moveKey
  rw [h]
  rfl

theorem transferOut_of_none {message : BRC20Message} (h : message.move = none) :
    transferOut deps final transferred message = [] := by
  cases message <;> first | rfl | cases h

/-- A transfer moves an inscription off an input of its transaction. -/
theorem Accounted.moved (h : Accounted block entry final items) {item : Item} (hitem : item ∈ items)
    {m : InscriptionId × BRC20Message} (hm : m ∈ item.messages) {move : Compressor.Move}
    (hmove : m.2.move = some move) :
    move.2.2 ∈ Compressor.spent item.tx ∧ move.2.2 ≠ OutPoint.null ∧
      ∃ body, final.get move.2.2 = some body ∧ m.1 ∈ body.ids := by
  obtain ⟨htxos, hsound⟩ := h.sound item hitem
  have hmem : (m.1, move) ∈ Compressor.moves item.messages := List.mem_filterMap.mpr ⟨m, hm, by rw [hmove]; rfl⟩
  have hmoved := hsound.moved _ hmem
  rw [htxos] at hmoved
  exact hmoved

/-- The transfers that are looked up for a transaction are its own. -/
theorem Accounted.transfers_own (h : Accounted block entry final items) {item : Item} (hitem : item ∈ items)
    {p : InscriptionId × BRC20Message → Bool}
    (hp : ∀ m, p m = true ↔ ∃ key ∈ inputPairs final item.tx, moveKey m = some key) :
    ((entry.brc20Resolver.filter p).flatMap fun m => transferOut deps final transferred m.2) =
      item.messages.flatMap fun m => transferOut deps final transferred m.2 := by
  refine h.flatMap_own hitem (fun other hother hne m hm hlooked => ?_) fun m hm hnot => ?_
  · -- another transaction does not spend the output
    cases hmove : m.2.move with
    | none => exact transferOut_of_none hmove
    | some move =>
      obtain ⟨hin, hnull, -⟩ := h.moved hother hm hmove
      obtain ⟨key, hpair, hkey⟩ := (hp m).mp hlooked
      rw [moveKey_eq hmove] at hkey
      cases hkey
      obtain ⟨ref, href, hpair⟩ := List.mem_flatMap.mp hpair
      obtain ⟨id, -, heq⟩ := List.mem_map.mp hpair
      obtain rfl : ref = move.2.2 := congrArg Prod.fst heq
      exact absurd href (h.spent_once hother hitem hne hin hnull)
  · cases hmove : m.2.move with
    | none => exact transferOut_of_none hmove
    | some move =>
      obtain ⟨hin, -, body, hbody, hid⟩ := h.moved hitem hm hmove
      rw [(hp m).mpr ⟨_, mem_inputPairs hin hbody hid, moveKey_eq hmove⟩] at hnot
      cases hnot

variable (deps policy transferred) in
/-- **The consumed outputs of a transaction** signal its transfers, in some order. -/
theorem Accounted.consumed_perm (h : Accounted block entry final items) {item : Item} (hitem : item ∈ items) :
    ∃ outs, (if isCoinbase item.tx then some [] else
        collect (Brc20.processConsumedTxo deps.scriptHash policy (contextOf entry) transferred) (inputs item.tx)) =
          some outs ∧
      outs.Perm (item.messages.flatMap fun m => transferOut deps final transferred m.2) := by
  rcases h.item_cases hitem with ⟨hcb, hspent⟩ | ⟨hcb, hnull, hdrop⟩
  · refine ⟨[], if_pos hcb, List.Perm.of_eq (List.flatMap_eq_nil_iff.mpr fun m hm => ?_).symm⟩
    cases hmove : m.2.move with
    | none => exact transferOut_of_none hmove
    | some move =>
      obtain ⟨hin, hne, -⟩ := h.moved hitem hm hmove
      rw [hspent, List.mem_singleton] at hin
      exact absurd hin hne
  · obtain ⟨htxos, hsound⟩ := h.sound item hitem
    have honce := hsound.once
    rw [htxos] at honce
    refine ⟨_, (if_neg (by rw [hcb]; exact Bool.false_ne_true)).trans (collect_eq fun ref href =>
      h.processConsumedTxo_eq hitem hdrop href fun heq => hnull (heq ▸ href)), ?_⟩
    have hpairs : (inputs item.tx).flatMap (fun ref => (((final.get ref).map TxoBody.ids).getD []).flatMap fun id =>
        (entry.brc20Resolver.filter fun m => moveKey m = some (ref, id)).flatMap fun m =>
          transferOut deps final transferred m.2) =
        ((inputPairs final item.tx).flatMap fun key => entry.brc20Resolver.filter fun m => moveKey m = some key).flatMap
          fun m => transferOut deps final transferred m.2 := by
      unfold inputPairs
      rw [List.flatMap_assoc, List.flatMap_assoc]
      refine congrArg List.flatten (List.map_congr_left fun ref _ => ?_)
      rw [List.flatMap_map]
    rw [hpairs]
    refine ((flatMap_filter_perm (inputPairs_nodup hnull honce) moveKey entry.brc20Resolver).flatMap_right _).trans
      (List.Perm.of_eq (h.transfers_own hitem fun m => ?_))
    cases moveKey m <;> simp

theorem revealed_of_notMem_opened {messages : List (InscriptionId × BRC20Message)} {m : InscriptionId × BRC20Message}
    (hm : m ∈ messages) (h : m ∉ Compressor.opened messages) (hrevealed : ∀ tick amt op receiver,
      revealed (.transfer tick amt op receiver) = []) : revealed m.2 = [] := by
  obtain ⟨id, message⟩ := m
  cases message with
  | transfer tick amt op receiver => exact hrevealed tick amt op receiver
  | _ => exact absurd (List.mem_filter.mpr ⟨hm, rfl⟩) h

/-- The messages of a revealed inscription are of the transaction that it is named after. -/
theorem Accounted.opened_id (h : Accounted block entry final items) (halone : RevealedAlone block entry) {item : Item}
    (hitem : item ∈ items) {m : InscriptionId × BRC20Message} (hm : m ∈ Compressor.opened item.messages) :
    m.1 = ⟨item.tx.txid, 0⟩ ∧ ∃ inscription, Inscription.fromTransactions [item.tx] = .complete inscription := by
  obtain ⟨info, hinfo, hid, htxHash⟩ := (h.sound item hitem).2.revealed m hm
  have hmem : m ∈ entry.brc20Resolver := by
    rw [h.messages]
    exact List.mem_flatMap.mpr ⟨item, hitem, (List.mem_filter.mp hm).1⟩
  obtain ⟨tx, htx, heq, hname, hcomplete⟩ := halone info hinfo ⟨m, hmem, hid.symm⟩
  have hsame : tx = item.tx :=
    List.inj_on_of_nodup_map h.of.txids htx (h.item_tx hitem) (heq.symm.trans htxHash)
  rw [hsame] at hname hcomplete
  exact ⟨hid.symm.trans hname, hcomplete⟩

/-- **What a transaction reveals** signals its other messages. -/
theorem Accounted.revealed_eq (h : Accounted block entry final items) (halone : RevealedAlone block entry) {item : Item}
    (hitem : item ∈ items) (hrevealed : ∀ tick amt op receiver, revealed (.transfer tick amt op receiver) = []) :
    Brc20.processRevealed (contextOf entry) revealed item.tx = item.messages.flatMap fun m => revealed m.2 := by
  have hquiet : ∀ other ∈ items, ∀ m ∈ other.messages, (m ∈ Compressor.opened other.messages → revealed m.2 = []) →
      revealed m.2 = [] := by
    intro other _ m hm hopened
    by_cases hmem : m ∈ Compressor.opened other.messages
    · exact hopened hmem
    · exact revealed_of_notMem_opened hm hmem hrevealed
  unfold Brc20.processRevealed
  by_cases hcomplete : ∃ inscription, Inscription.fromTransactions [item.tx] = .complete inscription
  · obtain ⟨inscription, hinscription⟩ := hcomplete
    rw [hinscription]
    simp only
    rw [getD_inscriptionBrc20s, List.flatMap_map]
    refine h.flatMap_own hitem (fun other hother hne m hm hid => ?_) fun m hm hid => ?_
    · refine hquiet other hother m hm fun hopened => ?_
      obtain ⟨hname, -⟩ := h.opened_id halone hother hopened
      rw [decide_eq_true_eq, hname] at hid
      exact absurd (congrArg InscriptionId.txid hid) hne
    · refine hquiet item hitem m hm fun hopened => ?_
      obtain ⟨hname, -⟩ := h.opened_id halone hitem hopened
      exact absurd hname (of_decide_eq_false hid)
  · have hnone : (item.messages.flatMap fun m => revealed m.2) = [] :=
      List.flatMap_eq_nil_iff.mpr fun m hm => hquiet item hitem m hm fun hopened =>
        absurd (h.opened_id halone hitem hopened).2 hcomplete
    rw [hnone]
    cases hparsed : Inscription.fromTransactions [item.tx] with
    | complete inscription => exact absurd ⟨inscription, hparsed⟩ hcomplete
    | _ => rfl

/-- **A transaction signals what its messages do**, in some order. -/
theorem Accounted.reduceTx_perm (h : Accounted block entry final items) (halone : RevealedAlone block entry)
    {item : Item} (hitem : item ∈ items) (hrevealed : ∀ tick amt op receiver, revealed (.transfer tick amt op receiver) = []) :
    ∃ outs, Brc20.reduceTx deps.scriptHash policy (contextOf entry) transferred revealed item.tx = some outs ∧
      outs.Perm (item.messages.flatMap fun m => messageOut deps final transferred revealed m.2) := by
  obtain ⟨consumed, hconsumed, hperm⟩ :=
    h.consumed_perm deps policy transferred hitem
  refine ⟨consumed ++ item.messages.flatMap fun m => revealed m.2, ?_, ?_⟩
  · unfold Brc20.reduceTx
    rw [h.revealed_eq halone hitem hrevealed]
    split at hconsumed
    · rename_i hcb
      cases hconsumed
      rw [if_pos hcb]
      rfl
    · rename_i hcb
      rw [if_neg hcb, hconsumed]
      rfl
  · exact (hperm.append_right _).trans (List.flatMap_append_perm _ _ _)

variable (deps policy) in
/-- **A block signals what the messages of its transactions do**, the coinbase's first. -/
theorem Accounted.reduceBlock_eq (h : Accounted block entry final items) (halone : RevealedAlone block entry)
    (hrevealed : ∀ tick amt op receiver, revealed (.transfer tick amt op receiver) = []) :
    ∃ (others coinbases : List Item) (outs : Item → List α), items = others ++ coinbases ∧
      Brc20.reduceBlock deps.scriptHash policy (contextOf entry) transferred revealed block =
        some ((coinbases ++ others).flatMap outs) ∧
      ∀ item ∈ items,
        (outs item).Perm (item.messages.flatMap fun m => messageOut deps final transferred revealed m.2) := by
  obtain ⟨others, coinbases, hitems, hothers, hcoinbases⟩ := List.map_eq_append_iff.mp h.txs
  have hdata : block.txdata = (coinbases ++ others).map Item.tx := by
    rw [List.map_append, hcoinbases, hothers, List.take_append_drop]
  have hout : ∀ item ∈ items, ∃ outs,
      Brc20.reduceTx deps.scriptHash policy (contextOf entry) transferred revealed item.tx = some outs ∧
        outs.Perm (item.messages.flatMap fun m => messageOut deps final transferred revealed m.2) :=
    fun item hitem => h.reduceTx_perm halone hitem hrevealed
  choose! outs hreduce hperm using hout
  refine ⟨others, coinbases, outs, hitems, ?_, hperm⟩
  unfold Brc20.reduceBlock
  rw [hdata]
  refine collect_map fun item hitem => hreduce item ?_
  rw [hitems]
  exact List.perm_append_comm.mem_iff.mp hitem

end

end DogeIndexer.Polyphony.Reducers
