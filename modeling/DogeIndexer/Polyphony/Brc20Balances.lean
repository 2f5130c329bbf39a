import DogeIndexer.Polyphony.Brc20Counters
import DogeIndexer.Polyphony.NodeViews

/-!
# DRC-20 balances in the store

What the reducers of DRC-20 balances keep in the store, against the balances and the unused transfers of the node.

* `Audited` — the books of the stored blocks, which lead from nothing to what the node holds.
* `brc20_balances_agree` — in any batching the counters are those of the node, and no decrement exceeds what is stored.
-/

set_option autoImplicit false

namespace DogeIndexer.Polyphony.Reducers

open Compressor (Bytes ScriptHash OutPoint Transaction Block Deps Node Call Tables Item ResolverEntry TxoRef TxoBody
  NewInscriptionInfo Ticker Short BlockHash Brc20Tables ShortOutputs LowersShort)
open Timbre (Namespace)
open StorageAction (Family)

/-! ## The books of a node -/

/-- The books of the stored blocks. -/
structure Audited (deps : Deps) (t : Tables) (books : List (List Item)) : Prop where
  blocks : List.Forall₂ (fun e items => ∃ entry final, t.resolverByHeight.get e.1 = some entry ∧
    Accounted e.2.2 entry final items) t.blockByHeight.entries books
  balanced : Compressor.Balanced deps Table.empty Brc20Tables.empty books.flatten t.txos t.brc20
  modest : t.brc20.Modest
  short : ShortOutputs t.txos

section

variable {deps : Deps} {cfg : Compressor.Config} {C : Node → Call → Prop} {t t' : Tables}
  {e : Nat × BlockHash × Block} {books : List (List Item)}

theorem Audited.empty (deps : Deps) : Audited deps Tables.empty [] := by
  have hnone : ∀ owner tick, Brc20Tables.empty.balance owner tick = 0 := fun _ _ => rfl
  refine ⟨.nil, ⟨fun owner tick => .refl ?_, fun owner tick => .refl ?_⟩,
    ⟨fun _ _ h => (by cases h), fun _ _ h => (by cases h)⟩, fun _ _ h => (by cases h)⟩
  · rw [hnone]
    exact Nat.two_pow_pos 124
  · rw [hnone]
    exact Nat.two_pow_pos 124

theorem reads_balance {b b' : Brc20Tables} (h : b.Reads b') (owner : ScriptHash) (tick : Ticker) :
    b.balance owner tick = b'.balance owner tick :=
  congrArg Fin.val (h.balances ⟨owner, tick⟩)

theorem Audited.congr (hsame : Compressor.SameSupplies t' t) (h : Audited deps t books) : Audited deps t' books := by
  refine ⟨?_, ⟨fun owner tick => ?_, fun owner tick => ?_⟩, ?_, ?_⟩
  · rw [hsame.blocks, hsame.resolvers]
    exact h.blocks
  · rw [reads_balance hsame.brc20]
    exact h.balanced.available owner tick
  · rw [reads_balance hsame.brc20, hsame.txos]
    exact h.balanced.total owner tick
  · refine ⟨?_, ?_⟩
    · rw [hsame.brc20.terms]
      exact h.modest.short
    · rw [hsame.brc20.terms]
      exact h.modest.max
  · rw [hsame.txos]
    exact h.short

/-- **A stored block is entered in the books.** -/
theorem Audited.extends (hlower : LowersShort deps) (h : Audited deps t books) (hsourced : Compressor.Sourced t)
    (hconserved : t.Conserved cfg) (hstep : Compressor.Extends deps cfg C t e t')
    (hnodup : (t'.records.map NewInscriptionInfo.id).Nodup) : ∃ items, Audited deps t' (books ++ [items]) := by
  obtain ⟨run, hvalid, hsettled, -⟩ := hstep
  rename_i n n' call
  obtain ⟨items, hitems⟩ := run.booked hvalid hsettled hsourced hconserved h.modest h.short hlower hnodup
  obtain ⟨hentry, hold⟩ := run.resolver_get hvalid
  have hbrc20 : n'.db.tables.brc20 = run.final.inscriptions.brc20 := by
    obtain ⟨log, htables⟩ := run.tables
    rw [htables]
  refine ⟨items, ?_, ?_, ?_, hitems.short⟩
  · rw [run.block_entries hvalid]
    refine forall₂_concat.mpr ⟨books, items, rfl, ?_, _, run.final.resolver, hentry, ?_⟩
    · refine ((List.forall₂_and_left _ _).mpr ⟨fun e he => hold e he, h.blocks⟩).imp ?_
      rintro e items ⟨hsame, entry, final, hget, haccounted⟩
      exact ⟨entry, final, hsame.trans hget, haccounted⟩
    · exact ⟨Applied.entryOf run hvalid, hvalid.coinbase, hvalid.spent_nodup, hitems.txs, hitems.messages, hitems.sound⟩
  · rw [hbrc20, List.flatten_append, List.flatten_singleton]
    exact h.balanced.trans hitems.balanced
  · rw [hbrc20]
    exact hitems.modest

/-- **The books of a reachable node** that reveals no inscription twice. -/
theorem Reach.audited {n : Node} (hreach : Compressor.Reach deps cfg C n) (hlower : LowersShort deps)
    (hids : (n.db.tables.records.map NewInscriptionInfo.id).Nodup) : ∃ books, Audited deps n.db.tables books := by
  obtain ⟨l, hl⟩ := hreach.history (Compressor.restores_sameSupplies deps cfg C)
  have hall := History.induct (P := fun t => Compressor.Sourced t ∧
    ((t.records.map NewInscriptionInfo.id).Nodup → t.Conserved cfg ∧ ∃ books, Audited deps t books)) hl.blocks
    ⟨Compressor.Sourced.empty, fun _ => ⟨Compressor.Tables.Conserved.empty cfg, [], .empty deps⟩⟩ ?_ ?_
  · exact (hall.1.2 hids).2
  · rintro s s' hsame ⟨hsourced, hs⟩
    refine ⟨hsame.toSameChain.sourced hsourced, fun hn => ?_⟩
    rw [hsame.records] at hn
    obtain ⟨hconserved, books, hbooks⟩ := hs hn
    exact ⟨hsame.conserved hconserved, books, hbooks.congr hsame⟩
  · rintro t₀ e t₁ ⟨hsourced, h₀⟩ hstep
    have hcopy := hstep
    obtain ⟨run, hvalid, hsettled, -⟩ := hcopy
    refine ⟨run.sourced hvalid hsettled hsourced, fun hn => ?_⟩
    have hbefore := hn
    rw [run.records_append hvalid hsourced, List.map_append] at hbefore
    obtain ⟨hconserved, books, hbooks⟩ := h₀ (List.nodup_append.mp hbefore).1
    obtain ⟨items, hitems⟩ := hbooks.extends hlower hsourced hconserved hstep hn
    exact ⟨(hconserved.apply run hvalid hsettled hsourced hn).1, _, hitems⟩

end

/-! ## Configurations -/

/-- A configured reducer, of DRC-20 balances or another one. -/
inductive Part where
  | brc20 (p : Brc20Reducer)
  | other (p : ConfiguredReducer)
  deriving DecidableEq

namespace Part

def tags : Part → List Timbre.Reducer
  | brc20 p => p.tags
  | other p => [p.tag]

def reduce (env : Env) (b : EnrichedBlock) : Part → Option (List StorageAction)
  | brc20 p => p.reduce env.scriptHash env.policy env.ns b
  | other p => p.reduce env b

theorem brc20_tag_ne {p : Brc20Reducer} {q : ConfiguredReducer} : q.tag ∉ p.tags := by
  have hall : ∀ q ∈ ConfiguredReducer.all, ∀ p : Brc20Reducer, q.tag ∉ p.tags := by
    intro q hq p
    revert q
    cases p <;> decide
  exact hall q (ConfiguredReducer.mem_all q) p

/-- Every part has tags of its own. -/
theorem tags_disjoint {p q : Part} (hne : p ≠ q) : ∀ tag ∈ p.tags, tag ∉ q.tags := by
  cases p with
  | brc20 p =>
    cases q with
    | brc20 q => cases p <;> cases q <;> first | exact absurd rfl hne | decide
    | other q =>
      intro tag htag htag'
      rw [List.mem_singleton.mp htag'] at htag
      exact brc20_tag_ne htag
  | other p =>
    intro tag htag
    rw [List.mem_singleton.mp htag]
    cases q with
    | brc20 q => exact brc20_tag_ne
    | other q =>
      intro htag'
      exact hne (congrArg other (ConfiguredReducer.tag_injective (List.mem_singleton.mp htag')))

end Part

theorem forall₂_common {α β γ : Type} {R : α → β → Prop} {S : α → γ → Prop} {T : β → γ → Prop} {l : List α} {m : List β}
    {n : List γ} (h : List.Forall₂ R l m) (h' : List.Forall₂ S l n) (himp : ∀ a ∈ l, ∀ b c, R a b → S a c → T b c) :
    List.Forall₂ T m n := by
  induction h generalizing n with
  | nil =>
    cases h'
    exact .nil
  | @cons a b l m hab _ ih =>
    obtain ⟨c, n, hac, hrest, rfl⟩ := List.forall₂_cons_left_iff.mp h'
    exact .cons (himp a List.mem_cons_self b c hab hac)
      (ih hrest fun a' ha' => himp a' (List.mem_cons_of_mem _ ha'))

/-- A block with the context of an entry whose books are kept. -/
def KeepsBooks (b : EnrichedBlock) (items : List Item) : Prop :=
  ∃ entry final, b.ctx = contextOf entry ∧ Accounted b.block entry final items ∧ RevealedAlone b.block entry

/-- Each inscription with a DRC-20 message of a stored block is revealed by a single transaction. -/
def AllRevealedAlone (t : Tables) : Prop :=
  ∀ e ∈ t.blockByHeight.entries, ∀ entry ∈ t.resolverByHeight.get e.1, RevealedAlone e.2.2 entry

instance (t : Tables) : Decidable (AllRevealedAlone t) :=
  inferInstanceAs (Decidable (∀ e ∈ t.blockByHeight.entries, ∀ entry ∈ t.resolverByHeight.get e.1,
    RevealedAlone e.2.2 entry))

/-- What a counter stands for. -/
def Brc20Counter.held (deps : Deps) (t : Tables) (owner : ScriptHash) (tick : Ticker) : Brc20Counter → Nat
  | brc20AvailableBalance => t.brc20.balance owner tick
  | _ => t.brc20.balance owner tick + Compressor.unusedAt deps t.txos owner tick

section

variable {deps : Deps} {cfg : Compressor.Config} {C : Node → Call → Prop} {n : Node} {t : Tables}
  {chain : List EnrichedBlock} {books : List (List Item)}

theorem Audited.leads (h : Audited deps t books) (c : Brc20Counter) (owner : ScriptHash) (tick : Ticker) :
    Compressor.LeadsTo (fun item => c.change deps owner tick item) 0 books.flatten (c.held deps t owner tick) := by
  cases c with
  | brc20AvailableBalance => exact h.balanced.available owner tick
  | _ => exact h.balanced.total owner tick

/-- The received blocks keep the books. -/
theorem Feeds.keepsBooks (h : Feeds deps cfg C n chain) (hbooks : Audited deps n.db.tables books)
    (halone : AllRevealedAlone n.db.tables) : List.Forall₂ KeepsBooks chain books := by
  refine forall₂_common h.received hbooks.blocks fun e he b items hreceived ⟨entry, final, hget, haccounted⟩ => ?_
  obtain ⟨hhash, entry', hget', hne⟩ := h.sent.entry e he
  obtain ⟨-, hblock, hctx⟩ := (received_iff hhash hget' hne).mp hreceived
  rw [hget] at hget'
  cases hget'
  refine ⟨entry, final, hctx, ?_, ?_⟩
  · rw [hblock]
    exact haccounted
  · rw [hblock]
    exact halone e he entry hget

end

/-! ## Counters of a chain -/

/-- The actions of a part on a block. -/
def Part.actions (env : Env) (b : EnrichedBlock) : Part → List StorageAction
  | brc20 p => (p.reduce env.scriptHash env.policy env.ns b).getD []
  | other p => p.actions env b

section

variable {env : Env} {t : Tables} {chain : List EnrichedBlock} {books : List (List Item)} {p : Brc20Reducer}

theorem KeepsBooks.makes {b : EnrichedBlock} {items : List Item} (h : KeepsBooks b items) (p : Brc20Reducer) :
    p.reduce env.scriptHash env.policy env.ns b = some ((Part.brc20 p).actions env b) ∧
      p.Makes env.deps env.ns items ((Part.brc20 p).actions env b) := by
  obtain ⟨entry, final, hctx, haccounted, halone⟩ := h
  obtain ⟨acts, hreduce, hmakes⟩ :=
    haccounted.makes env.deps env.policy env.ns halone hctx p
  have hactions : (Part.brc20 p).actions env b = acts := by
    unfold Part.actions
    simp only
    rw [show env.scriptHash = env.deps.scriptHash from rfl, hreduce]
    rfl
  rw [hactions]
  exact ⟨hreduce, hmakes⟩

theorem exists_books (h : List.Forall₂ KeepsBooks chain books) {b : EnrichedBlock} (hb : b ∈ chain) :
    ∃ items, KeepsBooks b items := by
  obtain ⟨items, -, hkeeps⟩ := exists_related h.flip hb
  exact ⟨items, hkeeps⟩

/-- A part makes its actions of the blocks of a chain whose books are kept. -/
theorem Part.reduced (h : List.Forall₂ KeepsBooks chain books) (hchain : ValidChain Table.empty chain)
    (hlisted : ∀ b ∈ chain, b.ctx.Listed) (part : Part) :
    Reduced env.ns part.tags chain (fun b => part.reduce env b) fun b => part.actions env b := by
  cases part with
  | brc20 p =>
    refine ⟨fun b hb => ?_, fun b hb a ha => ?_⟩
    · obtain ⟨items, hkeeps⟩ := exists_books h hb
      exact (hkeeps.makes p).1
    · obtain ⟨items, hkeeps⟩ := exists_books h hb
      obtain ⟨c, hc, owner, tick, -, hkey, hfamily⟩ := (hkeeps.makes p).2.own a ha
      refine ⟨c.tag, Brc20Reducer.mem_tags.mpr ⟨c, hc, rfl⟩, ?_, hfamily⟩
      rw [hkey]
      exact c.prefix_key env.ns owner tick
  | other p => exact p.reduced hchain hlisted

variable {c : Brc20Counter} {owner : ScriptHash} {tick : Ticker}

/-- The blocks of a chain at a counter. -/
theorem spread_chain (h : List.Forall₂ KeepsBooks chain books) (hc : c ∈ p.counters) (htick : Short tick) :
    List.Forall₂ (SpreadOver fun item => c.change env.deps owner tick item) books
      (chain.map fun b => Keyed.of StorageAction.key ((Part.brc20 p).actions env b) (c.key env.ns owner tick)) := by
  refine List.forall₂_map_right_iff.mpr (h.flip.imp fun items b hkeeps => ?_)
  exact (KeepsBooks.makes hkeeps p).2.spread c hc owner tick htick

theorem counter_family (c : Brc20Counter) : tagFamily c.tag ≠ .writes ∧ (tagFamily c.tag).width = 16 := by
  cases c <;> exact ⟨by decide, rfl⟩

variable (checks : Bool) {batches : List (HashOrder × List (List StorageAction))}

/-- **A counter of a chain is what the node holds**, in any batching, and no executed action leaves its range. -/
theorem Audited.counter_executed (hbooks : Audited env.deps t books) (h : List.Forall₂ KeepsBooks chain books)
    (hc : c ∈ p.counters) (htick : Short tick)
    (hblocks : ((batches.map Prod.snd).flatten.map fun l => Keyed.of StorageAction.key l (c.key env.ns owner tick)) =
      chain.map fun b => Keyed.of StorageAction.key ((Part.brc20 p).actions env b) (c.key env.ns owner tick)) :
    ∃ o, executedAt checks (atKey batches (c.key env.ns owner tick)) none = some o ∧
      counterValue 16 o = c.held env.deps t owner tick ∧
      FitsAt checks (atKey batches (c.key env.ns owner tick)) none := by
  obtain ⟨hfamily, hwidth⟩ := counter_family c
  have hleads := hbooks.leads c owner tick
  obtain ⟨hsteady, hsum⟩ := steady_of_spread (spread_chain h hc htick) hleads.bounds
  have hactions : ∀ a ∈ (chain.map fun b =>
      Keyed.of StorageAction.key ((Part.brc20 p).actions env b) (c.key env.ns owner tick)).flatten,
      a.inFamily (tagFamily c.tag) = true ∧ a.key = c.key env.ns owner tick := by
    intro a ha
    obtain ⟨l, hl, ha⟩ := List.mem_flatten.mp ha
    obtain ⟨b, hb, rfl⟩ := List.mem_map.mp hl
    obtain ⟨hmem, hkey⟩ := List.mem_filter.mp ha
    have hkey : a.key = c.key env.ns owner tick := by simpa using hkey
    obtain ⟨items, hkeeps⟩ := exists_books h hb
    obtain ⟨c', -, owner', tick', -, hkey', hfamily'⟩ := (hkeeps.makes p).2.own a hmem
    have htag : c'.tag = c.tag :=
      tag_unique (c'.prefix_key env.ns owner' tick') (by rw [← hkey', hkey]; exact c.prefix_key env.ns owner tick)
    rw [← htag]
    exact ⟨hfamily', hkey⟩
  have hempty : StorageAction.Decodes (tagFamily c.tag).width none := fun v hv => by cases hv
  obtain ⟨o, hexecuted, hvalue, hfits⟩ := Steady.executed_batches checks hfamily
    (by rw [hwidth]; decide) hblocks hactions hempty hsteady
  refine ⟨o, hexecuted, ?_, hfits⟩
  rw [hwidth] at hvalue
  have hzero : (counterValue 16 none : Int) = 0 := rfl
  rw [hzero] at hvalue
  have hnode := hleads.sum
  omega

end

/-! ## The store -/

/-- The keys of the configured reducers of DRC-20 balances. -/
def OnBalances (ns : Namespace) (parts : List Part) (k : Key) : Prop :=
  ∃ p, Part.brc20 p ∈ parts ∧ ∃ tag ∈ p.tags, ns.dataPrefix tag <+: k

/-- The counters say what the node holds: the available balance of a script is its balance, and the total balance is
that and the unused transfers on its outputs.  A ticker that is too long for a key is not held. -/
structure BalancesAgree (env : Env) (parts : List Part) (t : Tables) (store : Store) : Prop where
  available : .brc20 .brc20BalancesByScriptHash ∈ parts → ∀ owner tick, Short tick →
    counterValue 16 (store.get (brc20AvailableBalanceKey env.ns owner tick)) = t.brc20.balance owner tick
  total : .brc20 .brc20BalancesByScriptHash ∈ parts → ∀ owner tick, Short tick →
    counterValue 16 (store.get (brc20TotalBalanceKey env.ns owner tick)) =
      t.brc20.balance owner tick + Compressor.unusedAt env.deps t.txos owner tick
  byBrc20 : .brc20 .balancesByBrc20 ∈ parts → ∀ owner tick, Short tick →
    counterValue 16 (store.get (balancesByBrc20Key env.ns owner tick)) =
      t.brc20.balance owner tick + Compressor.unusedAt env.deps t.txos owner tick
  long : ∀ owner tick, ¬ Short tick → t.brc20.balance owner tick + Compressor.unusedAt env.deps t.txos owner tick = 0

section

variable {env : Env} {cfg : Compressor.Config} {C : Node → Call → Prop} {n : Node} {chain : List EnrichedBlock}
  {books : List (List Item)} {parts : List Part} (checks : Bool)
  {batches : List (HashOrder × List (List StorageAction))}

/-- A key of a configured reducer of balances can be executed, in any batching, within the range of its counter. -/
theorem Audited.key_executed {t : Tables} (hbooks : Audited env.deps t books) (h : List.Forall₂ KeepsBooks chain books)
    {p : Brc20Reducer} {k : Key}
    (hblocks : ((batches.map Prod.snd).flatten.map fun l => Keyed.of StorageAction.key l k) =
      chain.map fun b => Keyed.of StorageAction.key ((Part.brc20 p).actions env b) k) :
    (∃ o, executedAt checks (atKey batches k) none = some o) ∧ FitsAt checks (atKey batches k) none := by
  by_cases hk : ∃ c ∈ p.counters, ∃ owner tick, Short tick ∧ k = c.key env.ns owner tick
  · obtain ⟨c, hc, owner, tick, htick, rfl⟩ := hk
    obtain ⟨o, hexecuted, -, hfits⟩ := hbooks.counter_executed checks h hc htick hblocks
    exact ⟨⟨o, hexecuted⟩, hfits⟩
  · -- no block writes another key
    have hnone : ∀ b ∈ chain, Keyed.of StorageAction.key ((Part.brc20 p).actions env b) k = [] := by
      intro b hb
      refine Keyed.of_eq_nil fun hmem => hk ?_
      obtain ⟨a, ha, rfl⟩ := List.mem_map.mp hmem
      obtain ⟨items, hkeeps⟩ := exists_books h hb
      obtain ⟨c, hc, owner, tick, htick, hkey, -⟩ := (hkeeps.makes p).2.own a ha
      exact ⟨c, hc, owner, tick, htick, hkey⟩
    have hflatten : (atKey batches k).flatten = [] := by
      rw [atKey_eq, ← List.flatten_flatten, ← List.map_flatten, hblocks, List.flatten_eq_nil_iff]
      intro l hl
      obtain ⟨b, hb, rfl⟩ := List.mem_map.mp hl
      exact hnone b hb
    obtain ⟨hexecuted, hfits⟩ := executed_nil checks (List.flatten_eq_nil_iff.mp hflatten) none
    exact ⟨⟨none, hexecuted⟩, hfits⟩

/-- A ticker that is too long for a key is held by nobody. -/
theorem Audited.long_held {t : Tables} (hbooks : Audited env.deps t books) (h : t.Conserved cfg) (owner : ScriptHash)
    {tick : Ticker} (htick : ¬ Short tick) :
    t.brc20.balance owner tick + Compressor.unusedAt env.deps t.txos owner tick = 0 := by
  have hmaximum : (t.brc20.maximum tick).val = 0 := by
    unfold Brc20Tables.maximum
    split
    · rename_i terms hterms
      exact absurd (hbooks.modest.short tick terms hterms) htick
    · rfl
  have hbalance := Compressor.balance_le t.brc20.balances owner tick
  have hunused := Compressor.unusedAt_le env.deps t.txos owner tick
  have hcovers := h.covers tick
  have hbounded : (t.brc20.supply.getD tick 0).val ≤ (t.brc20.maximum tick).val := h.bounded tick
  unfold Brc20Tables.balance
  omega

/-- The keys of another reducer are executed while it is in range. -/
theorem executed_of_leaves (hchain : ValidChain Table.empty chain) (hlisted : ∀ b ∈ chain, b.ctx.Listed)
    {p : ConfiguredReducer} (hrange : p.InRange env chain) {k : Key}
    (hblocks : ((batches.map Prod.snd).flatten.map fun l => Keyed.of StorageAction.key l k) =
      chain.map fun b => Keyed.of StorageAction.key (p.actions env b) k) :
    ∃ o, executedAt checks (atKey batches k) none = some o := by
  obtain ⟨o, hruns, -⟩ := p.leaves hchain checks hrange k
  have hflatten : (atKey batches k).flatten = Keyed.of StorageAction.key (chain.flatMap (p.actions env)) k := by
    rw [atKey_eq, ← List.flatten_flatten, ← List.map_flatten, hblocks, of_flatMap]
    rfl
  rw [← hflatten] at hruns
  have hfamily : ∀ a ∈ (atKey batches k).flatten, a.inFamily (tagFamily p.tag) = true ∧ a.key = k := by
    intro a ha
    rw [hflatten] at ha
    obtain ⟨hmem, hkey⟩ := List.mem_filter.mp ha
    have hkey : a.key = k := by simpa using hkey
    obtain ⟨b, hb, ha⟩ := List.mem_flatMap.mp hmem
    obtain ⟨tag, htag, -, hfamily⟩ := (p.reduced hchain hlisted).own b hb a ha
    rw [List.mem_singleton.mp htag] at hfamily
    exact ⟨hfamily, hkey⟩
  obtain ⟨p', hexecuted, -⟩ := hruns.executedAt hfamily (agree_refl (tagFamily p.tag) none)
  exact ⟨p', hexecuted⟩

/-- **DRC-20 balances agree.**  In every reachable node whose stored blocks reveal no inscription twice and every
inscription with a DRC-20 message in a single transaction, the blocks are reduced; whatever the batching, nothing that
the reducers of balances do stops a commit, and in a store that is committed the available balances are the node's, the
total balances are these and the unused transfers on the outputs of the script, and no decrement of them exceeds what
is stored. -/
theorem brc20_balances_agree (env : Env) (parts : List Part) (checks : Bool) (h : Feeds env.deps cfg C n chain)
    (hnodup : parts.Nodup) (hids : (n.db.tables.records.map NewInscriptionInfo.id).Nodup)
    (halone : AllRevealedAlone n.db.tables) (hlower : LowersShort env.deps) :
    ∃ blocks, chain.mapM (partActions env.ns (fun p b => Part.reduce env b p) parts) = some blocks ∧
      ∀ batches : List (HashOrder × List (List StorageAction)), (batches.map Prod.snd).flatten = blocks →
        ((∀ p, .other p ∈ parts → p.InRange env chain) →
          ∃ store, executeBatches checks Table.empty batches = some store) ∧
        ∀ store, executeBatches checks Table.empty batches = some store →
          BalancesAgree env parts n.db.tables store ∧
            ExecutedFit checks (OnBalances env.ns parts) Table.empty batches := by
  obtain ⟨books, hbooks⟩ := Reach.audited h.reach hlower hids
  have hkeeps := h.keepsBooks hbooks halone
  have htags : parts.Pairwise fun p q => ∀ tag ∈ p.tags, tag ∉ q.tags := hnodup.imp fun hne => Part.tags_disjoint hne
  have hparts : ∀ p ∈ parts, Reduced env.ns p.tags chain (fun b => Part.reduce env b p) fun b => Part.actions env b p :=
    fun p _ => Part.reduced hkeeps h.valid h.listed p
  refine ⟨_, mapM_partActions hparts, fun batches hbatches => ?_⟩
  have hat : ∀ p ∈ parts, ∀ tag ∈ p.tags, ∀ k, env.ns.dataPrefix tag <+: k →
      ((batches.map Prod.snd).flatten.map fun l => Keyed.of StorageAction.key l k) =
        chain.map fun b => Keyed.of StorageAction.key (p.actions env b) k := by
    intro p hp tag htag k hk
    rw [hbatches, List.map_map]
    exact List.map_congr_left fun b hb => of_block htags hparts hb hp htag hk
  refine ⟨fun hrange => parts_executed hparts hbatches fun p hp tag htag k hk => ?_, fun store hcommit => ⟨?_, ?_⟩⟩
  · cases p with
    | brc20 p => exact (hbooks.key_executed checks hkeeps (hat _ hp tag htag k hk)).1
    | other p => exact executed_of_leaves checks h.valid h.listed (hrange p hp) (hat _ hp tag htag k hk)
  · have hcounter : ∀ p, .brc20 p ∈ parts → ∀ c ∈ p.counters, ∀ owner tick, Short tick →
        counterValue 16 (store.get (c.key env.ns owner tick)) = c.held env.deps n.db.tables owner tick := by
      intro p hp c hc owner tick htick
      obtain ⟨o, hexecuted, hvalue, -⟩ := hbooks.counter_executed checks hkeeps hc htick
        (hat _ hp c.tag (Brc20Reducer.mem_tags.mpr ⟨c, hc, rfl⟩) _ (c.prefix_key env.ns owner tick))
      have hstored := executeBatches_at hcommit (c.key env.ns owner tick)
      rw [show (Table.empty : Store).get (c.key env.ns owner tick) = none from rfl, hexecuted] at hstored
      rw [← Option.some.inj hstored]
      exact hvalue
    exact ⟨fun hp => hcounter _ hp .brc20AvailableBalance (by decide),
      fun hp => hcounter _ hp .brc20TotalBalance (by decide), fun hp => hcounter _ hp .balancesByBrc20 (by decide),
      fun owner tick htick => hbooks.long_held (h.reach.conserved hids) owner htick⟩
  · refine executedFit_of_at hcommit fun k hk => ?_
    obtain ⟨p, hp, tag, htag, hk⟩ := hk
    exact (hbooks.key_executed checks hkeeps (hat _ hp tag htag k hk)).2

end

namespace Sample

def dogi : Env := ⟨Compressor.dogiScripts, fun _ => none, .byKey, policy, ns⟩

/-- The transfer inscription is moved, and there is another one. -/
def moveDogi : List Call :=
  [Compressor.callOf 2 3 2 [Compressor.coinbaseTx 20 [5000000000],
    Compressor.spendTx 21 ⟨14, 0⟩ [] [1000000000, 500000000],
    Compressor.spendTx 22 ⟨21, 1⟩ (Compressor.messageScript (Compressor.transferDogi ['5'])) [500000000]]]

def dogiNode : Node :=
  (Compressor.performed Compressor.dogiScripts Compressor.fromFirstBlock (Node.open_ true)
    (Compressor.dogiCalls ++ moveDogi)).2

theorem feeds_dogiNode :
    Feeds Compressor.dogiScripts Compressor.fromFirstBlock (fun _ _ => True) dogiNode (receive dogiNode.db.tables) := by
  have hsome : (Compressor.runCalls Compressor.dogiScripts Compressor.fromFirstBlock (Node.open_ true)
      (Compressor.dogiCalls ++ moveDogi)).isSome = true := by
    decide +kernel
  exact .receive ((Compressor.Run.ofCalls hsome).reach (fun _ _ => True) (by decide +kernel) fun _ _ => trivial)

end Sample

open Sample in
/-- Of the 21 minted, 5 are on a transfer inscription that is not used yet. -/
theorem brc20_balances_agree_dogi :
    ∃ blocks, (receive dogiNode.db.tables).mapM (partActions dogi.ns (fun p b => Part.reduce dogi b p)
        [.brc20 .balancesByBrc20, .brc20 .brc20BalancesByScriptHash]) = some blocks ∧
      ∀ batches : List (HashOrder × List (List StorageAction)), (batches.map Prod.snd).flatten = blocks →
        ∃ store, executeBatches true Table.empty batches = some store ∧
          counterValue 16 (store.get (brc20AvailableBalanceKey dogi.ns (dogi.scriptHash []) Compressor.deployDogi.tick)) =
            16 * 10 ^ 18 ∧
          counterValue 16 (store.get (brc20TotalBalanceKey dogi.ns (dogi.scriptHash []) Compressor.deployDogi.tick)) =
            21 * 10 ^ 18 := by
  have hlower : LowersShort dogi.deps := fun tick htick => by
    change tick.length ≤ 255
    omega
  obtain ⟨blocks, hblocks, hcommit⟩ := brc20_balances_agree
    dogi [.brc20 .balancesByBrc20, .brc20 .brc20BalancesByScriptHash] true feeds_dogiNode (by decide)
    (by decide +kernel) (by decide +kernel) hlower
  refine ⟨blocks, hblocks, fun batches hbatches => ?_⟩
  obtain ⟨hexists, hagree⟩ := hcommit batches hbatches
  obtain ⟨store, hstore⟩ := hexists fun p hp => by simp at hp
  obtain ⟨hbalances, -⟩ := hagree store hstore
  have hshort : Short Compressor.deployDogi.tick := by
    unfold Short
    decide
  have havailable : dogiNode.db.tables.brc20.balance (dogi.scriptHash []) Compressor.deployDogi.tick = 16 * 10 ^ 18 := by
    decide +kernel
  have hunused : Compressor.unusedAt dogi.deps dogiNode.db.tables.txos (dogi.scriptHash []) Compressor.deployDogi.tick =
      5 * 10 ^ 18 := by
    decide +kernel
  refine ⟨store, hstore, ?_, ?_⟩
  · rw [hbalances.available (by decide) _ _ hshort, havailable]
  · rw [hbalances.total (by decide) _ _ hshort, havailable, hunused]
    rfl

end DogeIndexer.Polyphony.Reducers
