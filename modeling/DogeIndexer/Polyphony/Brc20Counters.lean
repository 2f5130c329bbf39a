import DogeIndexer.Polyphony.Brc20

/-!
# Counters of DRC-20 balances

The reducers of DRC-20 balances keep three counters for a script and a ticker.  What the storage actions of a block do
to one of them is what its transactions record.

* `Brc20Counter` — the counters, with their keys.
* `Accounted.reduced` — a block is reduced to the deltas of its messages.
* `Accounted.moves` — what its actions add to a counter, transaction by transaction.
-/

set_option autoImplicit false

namespace DogeIndexer.Polyphony.Reducers

open Compressor (Bytes Txid ScriptHash OutPoint InscriptionId BRC20Message Transaction Block Ticker TxoBody Item TxoRef
  Deps Short ResolverEntry)
open Timbre (Namespace)
open StorageAction (Family)

/-! ## Counters -/

inductive Brc20Counter where
  | brc20TotalBalance
  | brc20AvailableBalance
  | balancesByBrc20
  deriving DecidableEq

namespace Brc20Counter

def tag : Brc20Counter → Timbre.Reducer
  | brc20TotalBalance => .brc20TotalBalanceByScriptHash
  | brc20AvailableBalance => .brc20AvailableBalanceByScriptHash
  | balancesByBrc20 => .balancesByBrc20

def key (ns : Namespace) : Brc20Counter → ScriptHash → Ticker → Key
  | brc20TotalBalance => brc20TotalBalanceKey ns
  | brc20AvailableBalance => brc20AvailableBalanceKey ns
  | balancesByBrc20 => balancesByBrc20Key ns

def decrement : Brc20Counter → Key → U128 → StorageAction
  | brc20TotalBalance => .decrementU128NoDelete
  | brc20AvailableBalance => .decrementU128NoDelete
  | balancesByBrc20 => .decrementU128

variable (ns : Namespace) (c : Brc20Counter) {owner owner' : ScriptHash} {tick tick' : Ticker}

theorem prefix_key (owner : ScriptHash) (tick : Ticker) : ns.dataPrefix c.tag <+: c.key ns owner tick := by
  cases c <;> exact List.prefix_append _ _

theorem key_inj (htick : Short tick) (htick' : Short tick') (h : c.key ns owner tick = c.key ns owner' tick') :
    owner = owner' ∧ tick = tick' := by
  have hboth : array20 owner = array20 owner' ∧ tick = tick' := by
    cases c with
    | balancesByBrc20 =>
      exact (fields_inj (Timbre.data_injective (t := Timbre.BalancesByBrc20.key) (by simp [Timbre.schema])
        ⟨htick, trivial⟩ ⟨htick', trivial⟩ h)).symm
    | _ =>
      exact fields_inj (Timbre.data_injective (t := Timbre.Brc20BalancesByScriptHash.key) (by simp [Timbre.schema])
        ⟨trivial, htick⟩ ⟨trivial, htick'⟩ h)
  exact ⟨array20_inj hboth.1, hboth.2⟩

end Brc20Counter

/-! ## Deltas -/

/-- What is added, or taken off. -/
def IncrOrDecr.value : IncrOrDecr U128 → Int
  | increment amt => amt.val
  | decrement amt => -amt.val

/-- A change of a counter. -/
structure Brc20Delta where
  counter : Brc20Counter
  owner : ScriptHash
  tick : Ticker
  change : IncrOrDecr U128

namespace Brc20Delta

section

variable (ns : Namespace) (d : Brc20Delta)

def key : Key := d.counter.key ns d.owner d.tick

def action : StorageAction := d.change.toStorageAction (.incrementU128 (d.key ns)) (d.counter.decrement (d.key ns))

theorem action_key : (d.action ns).key = d.key ns := by
  obtain ⟨c, owner, tick, change⟩ := d
  cases change <;> cases c <;> rfl

theorem action_family : (d.action ns).inFamily (tagFamily d.counter.tag) = true := by
  obtain ⟨c, owner, tick, change⟩ := d
  cases change <;> cases c <;> rfl

theorem action_delta : (d.action ns).delta = d.change.value := by
  obtain ⟨c, owner, tick, change⟩ := d
  cases change <;> cases c <;> rfl

end

/-- What it changes of a counter. -/
def of (c : Brc20Counter) (owner : ScriptHash) (tick : Ticker) (d : Brc20Delta) : Int :=
  if d.counter = c ∧ d.owner = owner ∧ d.tick = tick then d.change.value else 0

variable {ns : Namespace} {c : Brc20Counter} {owner : ScriptHash} {tick : Ticker}

theorem key_eq_iff (ns : Namespace) (c : Brc20Counter) (owner : ScriptHash) {d : Brc20Delta} (hd : Short d.tick)
    (htick : Short tick) :
    d.key ns = c.key ns owner tick ↔ d.counter = c ∧ d.owner = owner ∧ d.tick = tick := by
  constructor
  · intro h
    have hcounter : d.counter = c := by
      have htag := tag_unique (d.counter.prefix_key ns d.owner d.tick) (h ▸ c.prefix_key ns owner tick)
      generalize d.counter = c' at htag
      cases c <;> cases c' <;> first | rfl | cases htag
    unfold Brc20Delta.key at h
    rw [hcounter] at h
    exact ⟨hcounter, c.key_inj ns hd htick h⟩
  · rintro ⟨rfl, rfl, rfl⟩
    rfl

/-- **The actions of deltas at a counter** add what the deltas change of it. -/
theorem of_actions (ns : Namespace) (c : Brc20Counter) (owner : ScriptHash) {deltas : List Brc20Delta}
    (h : ∀ d ∈ deltas, Short d.tick) (htick : Short tick) :
    net (Keyed.of StorageAction.key (deltas.map (action ns)) (c.key ns owner tick)) =
        (deltas.map (of c owner tick)).sum ∧
      gross (Keyed.of StorageAction.key (deltas.map (action ns)) (c.key ns owner tick)) =
        (deltas.map fun d => (d.of c owner tick).natAbs).sum := by
  induction deltas with
  | nil => exact ⟨rfl, rfl⟩
  | cons d deltas ih =>
    obtain ⟨hnet, hgross⟩ := ih fun d' hd' => h d' (List.mem_cons_of_mem _ hd')
    have hiff := key_eq_iff ns c owner (h d List.mem_cons_self) htick
    simp only [List.map_cons, List.sum_cons]
    by_cases hk : d.key ns = c.key ns owner tick
    · have hof : d.of c owner tick = d.change.value := if_pos (hiff.mp hk)
      rw [Keyed.of, List.filter_cons_of_pos (by rw [action_key, hk]; simp), net_cons, gross_cons, action_delta, hof]
      exact ⟨congrArg _ hnet, congrArg _ hgross⟩
    · have hof : d.of c owner tick = 0 := if_neg fun hboth => hk (hiff.mpr hboth)
      rw [Keyed.of, List.filter_cons_of_neg (by rw [action_key]; simpa using hk), hof]
      exact ⟨hnet.trans (Int.zero_add _).symm, hgross.trans (Nat.zero_add _).symm⟩

end Brc20Delta

def Brc20BalancesByScriptHash.Output.deltas (o : Brc20BalancesByScriptHash.Output) : List Brc20Delta :=
  [⟨.brc20TotalBalance, o.scriptHash, o.brcTicker, o.totalDelta⟩,
    ⟨.brc20AvailableBalance, o.scriptHash, o.brcTicker, o.availableDelta⟩]

def BalancesByBrc20.Output.deltas (o : BalancesByBrc20.Output) : List Brc20Delta :=
  [⟨.balancesByBrc20, o.scriptHash, o.brcTicker, o.totalDelta⟩]

theorem Brc20BalancesByScriptHash.Output.toStorageOps_eq (ns : Namespace) {o : Brc20BalancesByScriptHash.Output}
    (h : Short o.brcTicker) : o.toStorageOps ns = some (o.deltas.map (Brc20Delta.action ns)) := by
  unfold Brc20BalancesByScriptHash.Output.toStorageOps
  rw [Brc20.shortByteString_eq h]
  rfl

theorem BalancesByBrc20.Output.toStorageOps_eq (ns : Namespace) {o : BalancesByBrc20.Output} (h : Short o.brcTicker) :
    o.toStorageOps ns = some (o.deltas.map (Brc20Delta.action ns)) := by
  unfold BalancesByBrc20.Output.toStorageOps
  rw [Brc20.shortByteString_eq h]
  rfl

namespace Brc20Reducer

def counters : Brc20Reducer → List Brc20Counter
  | balancesByBrc20 => [.balancesByBrc20]
  | brc20BalancesByScriptHash => [.brc20TotalBalance, .brc20AvailableBalance]

variable (deps : Deps) (txos : Table TxoRef TxoBody)

/-- What a message changes. -/
def messageDeltas (message : BRC20Message) : Brc20Reducer → List Brc20Delta
  | balancesByBrc20 =>
    (messageOut deps txos BalancesByBrc20.transferred BalancesByBrc20.revealed message).flatMap
      BalancesByBrc20.Output.deltas
  | brc20BalancesByScriptHash =>
    (messageOut deps txos Brc20BalancesByScriptHash.transferred Brc20BalancesByScriptHash.revealed message).flatMap
      Brc20BalancesByScriptHash.Output.deltas

end Brc20Reducer

/-! ## A block -/

theorem messageOut_tick {α : Type} {deps : Deps} {txos : Table TxoRef TxoBody}
    {transferred : ScriptHash → Ticker → U128 → ScriptHash → List α} {revealed : BRC20Message → List α}
    (tickOf : α → Ticker)
    (htransferred : ∀ sender tick amt receiver, ∀ o ∈ transferred sender tick amt receiver, tickOf o = tick)
    (hrevealed : ∀ message, ∀ o ∈ revealed message, tickOf o = message.tick) {message : BRC20Message} {o : α}
    (ho : o ∈ messageOut deps txos transferred revealed message) : tickOf o = message.tick := by
  rcases List.mem_append.mp ho with ho | ho
  · cases message with
    | transfer tick amt op receiver =>
      unfold transferOut at ho
      simp only at ho
      split at ho
      · exact htransferred _ _ _ _ _ ho
      · cases ho
    | _ => cases ho
  · exact hrevealed _ _ ho

section

variable {deps : Deps} {txos : Table TxoRef TxoBody} {message : BRC20Message}

theorem BalancesByBrc20.messageOut_tick {o : BalancesByBrc20.Output}
    (ho : o ∈ messageOut deps txos transferred revealed message) : o.brcTicker = message.tick := by
  refine Reducers.messageOut_tick Output.brcTicker (fun sender tick amt receiver o ho => ?_)
    (fun message o ho => ?_) ho
  · simp only [transferred, List.mem_cons, List.not_mem_nil, or_false] at ho
    rcases ho with rfl | rfl <;> rfl
  · cases message with
    | mint tick amt receiver =>
      rw [List.mem_singleton.mp ho]
      rfl
    | _ => cases ho

theorem Brc20BalancesByScriptHash.messageOut_tick {o : Brc20BalancesByScriptHash.Output}
    (ho : o ∈ messageOut deps txos transferred revealed message) : o.brcTicker = message.tick := by
  refine Reducers.messageOut_tick Output.brcTicker (fun sender tick amt receiver o ho => ?_)
    (fun message o ho => ?_) ho
  · simp only [transferred, List.mem_cons, List.not_mem_nil, or_false] at ho
    rcases ho with rfl | rfl <;> rfl
  · cases message with
    | mint tick amt receiver =>
      rw [List.mem_singleton.mp ho]
      rfl
    | transferInit tick amt receiver =>
      rw [List.mem_singleton.mp ho]
      rfl
    | _ => cases ho

theorem Brc20Reducer.mem_messageDeltas {p : Brc20Reducer} {d : Brc20Delta}
    (hd : d ∈ p.messageDeltas deps txos message) : d.counter ∈ p.counters ∧ d.tick = message.tick := by
  cases p with
  | balancesByBrc20 =>
    obtain ⟨o, ho, hd⟩ := List.mem_flatMap.mp hd
    rw [List.mem_singleton.mp hd]
    exact ⟨List.mem_singleton_self _, BalancesByBrc20.messageOut_tick ho⟩
  | brc20BalancesByScriptHash =>
    obtain ⟨o, ho, hd⟩ := List.mem_flatMap.mp hd
    have htick := Brc20BalancesByScriptHash.messageOut_tick ho
    rcases List.mem_cons.mp hd with rfl | hd
    · exact ⟨List.mem_cons_self, htick⟩
    · rw [List.mem_singleton.mp hd]
      exact ⟨List.mem_cons_of_mem _ (List.mem_singleton_self _), htick⟩

end

section

variable {deps : Deps} {policy : RuntimePolicy} {block : Block} {entry : ResolverEntry} {final : Table TxoRef TxoBody}
  {items : List Item} {ns : Namespace} {b : EnrichedBlock}

/-- A reducer whose outputs name the ticker of a message. -/
theorem Accounted.reduced_of {α : Type} {transferred : ScriptHash → Ticker → U128 → ScriptHash → List α}
    {revealed : BRC20Message → List α} {toStorageOps : α → Option (List StorageAction)} {deltas : α → List Brc20Delta}
    {tickOf : α → Ticker} (h : Accounted block entry final items) (halone : RevealedAlone block entry)
    (hops : ∀ o, Short (tickOf o) → toStorageOps o = some ((deltas o).map (Brc20Delta.action ns)))
    (htick : ∀ message, ∀ o ∈ messageOut deps final transferred revealed message, tickOf o = message.tick)
    (hquiet : ∀ tick amt op receiver, revealed (.transfer tick amt op receiver) = []) :
    ∃ (others coinbases : List Item) (ds : Item → List Brc20Delta), items = others ++ coinbases ∧
      ((Brc20.reduceBlock deps.scriptHash policy (contextOf entry) transferred revealed block).bind fun outputs =>
        collect toStorageOps outputs) =
          some ((coinbases ++ others).flatMap fun item => (ds item).map (Brc20Delta.action ns)) ∧
      ∀ item ∈ items, (ds item).Perm
        (item.messages.flatMap fun m => (messageOut deps final transferred revealed m.2).flatMap deltas) := by
  obtain ⟨others, coinbases, outs, hitems, hreduce, hperm⟩ :=
    h.reduceBlock_eq deps policy halone hquiet
  refine ⟨others, coinbases, fun item => (outs item).flatMap deltas, hitems, ?_, fun item hitem => ?_⟩
  · -- every ticker fits into the key
    have heach : ∀ o ∈ (coinbases ++ others).flatMap outs,
        toStorageOps o = some ((deltas o).map (Brc20Delta.action ns)) := by
      intro o ho
      obtain ⟨item, hitem, ho⟩ := List.mem_flatMap.mp ho
      have hitem : item ∈ items := by
        rw [hitems]
        exact List.perm_append_comm.mem_iff.mp hitem
      obtain ⟨m, hm, ho⟩ := List.mem_flatMap.mp ((hperm item hitem).mem_iff.mp ho)
      refine hops o ?_
      rw [htick m.2 o ho]
      exact (h.sound item hitem).2.short m hm
    rw [hreduce, Option.bind_some, collect_eq heach, List.flatMap_assoc]
    refine congrArg some (congrArg List.flatten (List.map_congr_left fun item _ => ?_))
    rw [List.map_flatMap]
  · refine ((hperm item hitem).flatMap_right _).trans (List.Perm.of_eq ?_)
    rw [List.flatMap_assoc]

/-- **A block is reduced to the deltas of its messages**, the coinbase's first. -/
theorem Accounted.reduced (deps : Deps) (policy : RuntimePolicy) (ns : Namespace)
    (h : Accounted b.block entry final items) (halone : RevealedAlone b.block entry) (hctx : b.ctx = contextOf entry)
    (p : Brc20Reducer) :
    ∃ (others coinbases : List Item) (deltas : Item → List Brc20Delta), items = others ++ coinbases ∧
      p.reduce deps.scriptHash policy ns b =
        some ((coinbases ++ others).flatMap fun item => (deltas item).map (Brc20Delta.action ns)) ∧
      ∀ item ∈ items, (deltas item).Perm (item.messages.flatMap fun m => p.messageDeltas deps final m.2) := by
  cases p with
  | balancesByBrc20 =>
    unfold Brc20Reducer.reduce BalancesByBrc20.reduceBlock
    rw [hctx]
    exact h.reduced_of halone (fun _ ho => BalancesByBrc20.Output.toStorageOps_eq ns ho)
      (fun _ _ ho => BalancesByBrc20.messageOut_tick ho) fun _ _ _ _ => rfl
  | brc20BalancesByScriptHash =>
    unfold Brc20Reducer.reduce Brc20BalancesByScriptHash.reduceBlock
    rw [hctx]
    exact h.reduced_of halone (fun _ ho => Brc20BalancesByScriptHash.Output.toStorageOps_eq ns ho)
      (fun _ _ ho => Brc20BalancesByScriptHash.messageOut_tick ho) fun _ _ _ _ => rfl

end

/-! ## A transaction at a counter -/

namespace Brc20Counter

/-- What a message changes of a counter. -/
def messageChange (owner : ScriptHash) (tick : Ticker) (sender : OutPoint → Option ScriptHash)
    (message : BRC20Message) : Brc20Counter → Int
  | brc20AvailableBalance => message.available owner tick
  | _ => message.available owner tick + message.unused owner tick sender

/-- What a transaction changes of a counter. -/
def change (deps : Deps) (owner : ScriptHash) (tick : Ticker) (item : Item) : Brc20Counter → Int
  | brc20AvailableBalance => item.available owner tick
  | _ => item.total deps owner tick

theorem change_eq (deps : Deps) (owner : ScriptHash) (tick : Ticker) (item : Item) (c : Brc20Counter) :
    c.change deps owner tick item =
      (item.messages.map fun m => c.messageChange owner tick (Compressor.senderOf deps item.txos) m.2).sum := by
  have htotal : item.total deps owner tick = (item.messages.map fun m => m.2.available owner tick +
      m.2.unused owner tick (Compressor.senderOf deps item.txos)).sum := by
    unfold Item.total Compressor.availableOf Compressor.unusedOf
    rw [← List.sum_map_add]
  cases c with
  | brc20AvailableBalance => rfl
  | _ => exact htotal

end Brc20Counter

def messageVolume (tick : Ticker) (message : BRC20Message) : Nat :=
  2 * message.transferred tick + message.reserved tick + message.minted tick

theorem volume_eq (messages : List (InscriptionId × BRC20Message)) (tick : Ticker) :
    Compressor.volume messages tick = (messages.map fun m => messageVolume tick m.2).sum := by
  unfold Compressor.volume Compressor.transferred Compressor.reserved Compressor.mintedOf messageVolume
  simp only [Nat.two_mul]
  rw [List.sum_map_add, List.sum_map_add, List.sum_map_add]

theorem natAbs_ite_le {p q : Prop} [Decidable p] [Decidable q] (v : Nat) (h : p → q) :
    (if p then (v : Int) else 0).natAbs ≤ if q then v else 0 := by
  by_cases hp : p
  · rw [if_pos hp, if_pos (h hp)]
    exact Nat.le_refl v
  · rw [if_neg hp]
    exact Nat.zero_le _

section

variable {deps : Deps} {txos : Table TxoRef TxoBody} {owner : ScriptHash} {tick : Ticker} {message : BRC20Message}

/-- **What a message signals** is what it changes, and no more than it moves. -/
theorem messageDeltas_sum (owner : ScriptHash) (tick : Ticker) {p : Brc20Reducer} {c : Brc20Counter} (hc : c ∈ p.counters)
    (hsender : ∀ move, message.move = some move → ∃ sender, Compressor.senderOf deps txos move.2.2 = some sender) :
    ((p.messageDeltas deps txos message).map (Brc20Delta.of c owner tick)).sum =
        c.messageChange owner tick (Compressor.senderOf deps txos) message ∧
      ((p.messageDeltas deps txos message).map fun d => (d.of c owner tick).natAbs).sum ≤
        messageVolume tick message := by
  cases message with
  | deploy tick' =>
    have hnil : p.messageDeltas deps txos (.deploy tick') = [] := by cases p <;> rfl
    rw [hnil]
    cases c <;> exact ⟨rfl, Nat.zero_le _⟩
  | transfer tick' amt op receiver =>
    obtain ⟨sender, hs⟩ := hsender _ rfl
    have hs : Compressor.senderOf deps txos op = some sender := hs
    cases p <;> cases c <;> simp [Brc20Reducer.counters] at hc
    all_goals
      simp [Brc20Reducer.messageDeltas, messageOut, transferOut, hs, BalancesByBrc20.transferred, BalancesByBrc20.revealed,
        Brc20BalancesByScriptHash.transferred, Brc20BalancesByScriptHash.revealed, BalancesByBrc20.Output.deltas,
        Brc20BalancesByScriptHash.Output.deltas, Brc20Delta.of, IncrOrDecr.value, Brc20Counter.messageChange,
        BRC20Message.available, BRC20Message.unused, messageVolume, BRC20Message.transferred, BRC20Message.reserved,
        BRC20Message.minted]
      grind
  | mint tick' amt receiver =>
    cases p <;> cases c <;> simp [Brc20Reducer.counters] at hc
    all_goals
      simp [Brc20Reducer.messageDeltas, messageOut, transferOut, BalancesByBrc20.revealed,
        Brc20BalancesByScriptHash.revealed, BalancesByBrc20.Output.deltas, Brc20BalancesByScriptHash.Output.deltas,
        Brc20Delta.of, IncrOrDecr.value, Brc20Counter.messageChange, BRC20Message.available, BRC20Message.unused,
        messageVolume, BRC20Message.transferred, BRC20Message.reserved, BRC20Message.minted]
      exact natAbs_ite_le amt.val fun h => h.2
  | transferInit tick' amt receiver =>
    cases p <;> cases c <;> simp [Brc20Reducer.counters] at hc
    all_goals
      simp [Brc20Reducer.messageDeltas, messageOut, transferOut, BalancesByBrc20.revealed,
        Brc20BalancesByScriptHash.revealed, Brc20BalancesByScriptHash.Output.deltas, Brc20Delta.of, IncrOrDecr.value,
        Brc20Counter.messageChange, BRC20Message.available, BRC20Message.unused, messageVolume, BRC20Message.transferred,
        BRC20Message.reserved, BRC20Message.minted]
    -- only the available balance goes down
    grind

variable (deps owner tick) in
/-- **What a transaction changes of a counter**: its deltas, and no more than it moves. -/
theorem Accounted.item_sum {block : Block} {entry : ResolverEntry} {final : Table TxoRef TxoBody} {items : List Item}
    (h : Accounted block entry final items) {p : Brc20Reducer} {c : Brc20Counter} (hc : c ∈ p.counters) {item : Item}
    (hitem : item ∈ items) {deltas : List Brc20Delta}
    (hperm : deltas.Perm (item.messages.flatMap fun m => p.messageDeltas deps final m.2)) :
    (deltas.map (Brc20Delta.of c owner tick)).sum = c.change deps owner tick item ∧
      (deltas.map fun d => (d.of c owner tick).natAbs).sum < 2 ^ 126 := by
  obtain ⟨htxos, hsound⟩ := h.sound item hitem
  have hsender : ∀ m ∈ item.messages, ∀ move, m.2.move = some move →
      ∃ sender, Compressor.senderOf deps final move.2.2 = some sender := by
    intro m hm move hmove
    obtain ⟨-, -, body, hbody, -⟩ := h.moved hitem hm hmove
    refine ⟨body.owner deps, ?_⟩
    unfold Compressor.senderOf
    rw [hbody]
    rfl
  have heach := fun m hm => messageDeltas_sum owner tick hc (hsender m hm)
  constructor
  · rw [(hperm.map _).sum_eq, List.map_flatMap, List.flatMap_def, List.sum_flatten, List.map_map, c.change_eq,
      htxos]
    exact congrArg List.sum (List.map_congr_left fun m hm => (heach m hm).1)
  · refine lt_of_le_of_lt ?_ (hsound.volume tick)
    rw [(hperm.map _).sum_eq, List.map_flatMap, List.flatMap_def, List.sum_flatten, List.map_map, volume_eq]
    exact List.sum_le_sum fun m hm => (heach m hm).2

end

/-! ## A block at a counter -/

section

variable {f : Item → Int} {items : List Item} {acts : Item → List StorageAction} {v : Int}

theorem net_flatMap (h : ∀ item ∈ items, net (acts item) = f item) : net (items.flatMap acts) = (items.map f).sum := by
  induction items with
  | nil => rfl
  | cons item items ih =>
    rw [List.flatMap_cons, net_append, h item List.mem_cons_self, ih fun i hi => h i (List.mem_cons_of_mem _ hi),
      List.map_cons, List.sum_cons]

/-- The actions of transactions that are within bounds, up to somewhere in between. -/
theorem between_of_inBounds (h : ∀ item ∈ items, net (acts item) = f item ∧ gross (acts item) < 2 ^ 126)
    (hbounds : Compressor.InBounds f v items) {l₁ l₂ : List StorageAction} (heq : items.flatMap acts = l₁ ++ l₂) :
    -2 ^ 126 < v + net l₁ ∧ v + net l₁ < 2 ^ 124 + 2 ^ 126 := by
  induction items generalizing v l₁ with
  | nil =>
    obtain ⟨rfl, -⟩ := List.append_eq_nil_iff.mp heq.symm
    have hhead := hbounds.head
    rw [net_nil]
    omega
  | cons item items ih =>
    obtain ⟨hnet, hgross⟩ := h item List.mem_cons_self
    rw [List.flatMap_cons] at heq
    rcases List.append_eq_append_iff.mp heq with ⟨m, rfl, hrest⟩ | ⟨m, hleft, -⟩
    · have hlater := ih (fun i hi => h i (List.mem_cons_of_mem _ hi)) hbounds.2 hrest
      rw [net_append, hnet, ← Int.add_assoc]
      exact hlater
    · -- within a transaction the counter moves by its volume
      have hpart := natAbs_net_part hleft
      have hhead := hbounds.head
      omega

/-- The actions of a block on a counter, those of its coinbase first. -/
structure SpreadOver (f : Item → Int) (items : List Item) (l : List StorageAction) : Prop where
  parts : ∃ (others coinbases : List Item) (acts : Item → List StorageAction), items = others ++ coinbases ∧
    l = (coinbases ++ others).flatMap acts ∧ ∀ item ∈ items, net (acts item) = f item ∧ gross (acts item) < 2 ^ 126

variable {l : List StorageAction}

theorem SpreadOver.net_eq (h : SpreadOver f items l) : net l = (items.map f).sum := by
  obtain ⟨others, coinbases, acts, rfl, rfl, hacts⟩ := h.parts
  rw [net_flatMap fun item hitem => (hacts item (List.perm_append_comm.mem_iff.mp hitem)).1]
  exact (List.perm_append_comm.map f).sum_eq

/-- **Within a block the counter moves less than half of its range.** -/
theorem SpreadOver.between (h : SpreadOver f items l) (hbounds : Compressor.InBounds f v items)
    {l₁ l₂ : List StorageAction} (heq : l = l₁ ++ l₂) : -2 ^ 127 < v + net l₁ ∧ v + net l₁ < 2 ^ 127 := by
  obtain ⟨others, coinbases, acts, rfl, rfl, hacts⟩ := h.parts
  obtain ⟨hothers, hcoinbases⟩ := Compressor.inBounds_append.mp hbounds
  have hstart := hothers.head
  have hmid := hcoinbases.head
  have hend : 0 ≤ v + ((others ++ coinbases).map f).sum ∧ v + ((others ++ coinbases).map f).sum < 2 ^ 124 := by
    rw [← List.append_nil (others ++ coinbases)] at hbounds
    exact (Compressor.inBounds_append.mp hbounds).2.head
  rw [List.map_append, List.sum_append] at hend
  rw [List.flatMap_append] at heq
  rcases List.append_eq_append_iff.mp heq with ⟨m, rfl, hrest⟩ | ⟨m, hleft, -⟩
  · -- the coinbase's are ahead of the others
    have hlater := between_of_inBounds (fun item hitem => hacts item (List.mem_append_left _ hitem)) hothers hrest
    have hnet := net_flatMap fun item hitem => (hacts item (List.mem_append_right others hitem)).1
    rw [net_append, hnet]
    omega
  · have hlater := between_of_inBounds (fun item hitem => hacts item (List.mem_append_right _ hitem)) hcoinbases hleft
    omega

/-- **The blocks of a chain keep a counter steady.** -/
theorem steady_of_spread {books : List (List Item)} {lists : List (List StorageAction)}
    (h : List.Forall₂ (SpreadOver f) books lists) (hbounds : Compressor.InBounds f v books.flatten) :
    Steady (2 ^ 127) v lists ∧ v + net lists.flatten = v + (books.flatten.map f).sum := by
  induction h generalizing v with
  | nil =>
    have hhead := hbounds.head
    exact ⟨.nil hhead.1 (by omega), rfl⟩
  | @cons items l books lists hspread hrest ih =>
    rw [List.flatten_cons] at hbounds
    obtain ⟨hblock, hlater⟩ := Compressor.inBounds_append.mp hbounds
    have hnet := hspread.net_eq
    obtain ⟨hsteady, hsum⟩ := ih hlater
    rw [← hnet] at hsteady hsum
    refine ⟨.cons hblock.head.1 (fun l₁ l₂ heq => hspread.between hblock heq) hsteady, ?_⟩
    rw [List.flatten_cons, List.flatten_cons, net_append, List.map_append, List.sum_append, ← hnet, ← Int.add_assoc,
      ← Int.add_assoc]
    exact hsum

end

/-! ## A reducer -/

namespace Brc20Reducer

theorem mem_tags {p : Brc20Reducer} {tag : Timbre.Reducer} : tag ∈ p.tags ↔ ∃ c ∈ p.counters, c.tag = tag := by
  have htags : p.tags = p.counters.map Brc20Counter.tag := by cases p <;> rfl
  rw [htags, List.mem_map]

end Brc20Reducer

/-- What a reducer makes of a block whose books are kept. -/
structure Brc20Reducer.Makes (p : Brc20Reducer) (deps : Deps) (ns : Namespace) (items : List Item)
    (acts : List StorageAction) : Prop where
  own : ∀ a ∈ acts, ∃ c ∈ p.counters, ∃ owner tick, Short tick ∧ a.key = c.key ns owner tick ∧
    a.inFamily (tagFamily c.tag) = true
  spread : ∀ c ∈ p.counters, ∀ owner tick, Short tick →
    SpreadOver (c.change deps owner tick) items (Keyed.of StorageAction.key acts (c.key ns owner tick))

theorem of_flatMap_actions {ns : Namespace} (ds : Item → List Brc20Delta) (k : Key) (items : List Item) :
    Keyed.of StorageAction.key (items.flatMap fun item => (ds item).map (Brc20Delta.action ns)) k =
      items.flatMap fun item => Keyed.of StorageAction.key ((ds item).map (Brc20Delta.action ns)) k :=
  of_flatMap _ _ _

/-- **A block is reduced to what its transactions change**, at every counter. -/
theorem Accounted.makes (deps : Deps) (policy : RuntimePolicy) (ns : Namespace) {entry : ResolverEntry}
    {final : Table TxoRef TxoBody} {items : List Item} {b : EnrichedBlock} (h : Accounted b.block entry final items)
    (halone : RevealedAlone b.block entry) (hctx : b.ctx = contextOf entry) (p : Brc20Reducer) :
    ∃ acts, p.reduce deps.scriptHash policy ns b = some acts ∧ p.Makes deps ns items acts := by
  obtain ⟨others, coinbases, ds, hitems, hreduce, hperm⟩ :=
    h.reduced deps policy ns halone hctx p
  have hmem : ∀ item, item ∈ coinbases ++ others ↔ item ∈ items := fun item => by
    rw [hitems]
    exact List.perm_append_comm.mem_iff
  have hmessage : ∀ item ∈ items, ∀ d ∈ ds item, ∃ m ∈ item.messages, d ∈ p.messageDeltas deps final m.2 :=
    fun item hitem d hd => List.mem_flatMap.mp ((hperm item hitem).mem_iff.mp hd)
  have hshort : ∀ item ∈ items, ∀ d ∈ ds item, Short d.tick := by
    intro item hitem d hd
    obtain ⟨m, hm, hd⟩ := hmessage item hitem d hd
    rw [(Brc20Reducer.mem_messageDeltas hd).2]
    exact (h.sound item hitem).2.short m hm
  refine ⟨_, hreduce, ⟨fun a ha => ?_, fun c hc owner tick htick => ⟨⟨others, coinbases, _, hitems,
    of_flatMap_actions ds _ _, fun item hitem => ?_⟩⟩⟩⟩
  · obtain ⟨item, hitem, ha⟩ := List.mem_flatMap.mp ha
    obtain ⟨d, hd, rfl⟩ := List.mem_map.mp ha
    obtain ⟨m, -, hmd⟩ := hmessage item ((hmem item).mp hitem) d hd
    exact ⟨d.counter, (Brc20Reducer.mem_messageDeltas hmd).1, d.owner, d.tick, hshort item ((hmem item).mp hitem) d hd,
      d.action_key ns, d.action_family ns⟩
  · obtain ⟨hnet, hgross⟩ := Brc20Delta.of_actions ns c owner (hshort item hitem) htick
    obtain ⟨hsum, hlt⟩ := h.item_sum deps owner tick hc hitem (hperm item hitem)
    exact ⟨hnet.trans hsum, lt_of_eq_of_lt hgross hlt⟩

end DogeIndexer.Polyphony.Reducers
