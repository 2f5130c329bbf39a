import DogeIndexer.Compressor.Indexed

/-!
# A processed transaction

What one transaction does to the state of its block, as one record: the runes step, the
inscriptions step, the bodies of the outputs, and the state they leave.

* `processTx_ok` — a completed `processTx` has such a record.
* `resolveAndProcess_ok` — a processed block: resolved inputs, the coinbase's dunes, the other
  transactions, the coinbase's inscriptions and outputs.
* `blockSteps` — the transactions in the order in which their inscriptions are indexed, each with
  the state before it.
-/

set_option autoImplicit false

namespace DogeIndexer.Compressor

open Fallible

/-- The references a transaction spends. -/
def spent (tx : Transaction) : List TxoRef := tx.input.map TxIn.previousOutput

/-- Bodies under their references, from number `vout` on. -/
def numbered (txid : Txid) : Nat → List TxoBody → List (TxoRef × TxoBody)
  | _, [] => []
  | vout, body :: bodies => (⟨txid, vout⟩, body) :: numbered txid (vout + 1) bodies

theorem mem_numbered {txid : Txid} {vout : Nat} {bodies : List TxoBody} {ref : TxoRef} {body : TxoBody} :
    (ref, body) ∈ numbered txid vout bodies ↔
      ref.txid = txid ∧ ∃ i, ref.vout = vout + i ∧ bodies[i]? = some body := by
  induction bodies generalizing vout with
  | nil => simp [numbered]
  | cons b bodies ih =>
    rw [numbered, List.mem_cons, ih]
    constructor
    · rintro (h | ⟨htx, i, hi, hb⟩)
      · cases h
        exact ⟨rfl, 0, rfl, rfl⟩
      · exact ⟨htx, i + 1, by omega, by simpa using hb⟩
    · rintro ⟨htx, i, hi, hb⟩
      cases i with
      | zero =>
        left
        obtain ⟨t, v⟩ := ref
        simp only [Nat.add_zero] at hi
        simp only [List.getElem?_cons_zero, Option.some.injEq] at hb
        simp only at htx
        rw [htx, hi, hb]
      | succ i => exact Or.inr ⟨htx, i, by omega, by simpa using hb⟩

theorem numbered_keys {txid : Txid} {vout : Nat} {bodies : List TxoBody} {ref : TxoRef} :
    ref ∈ (numbered txid vout bodies).map Prod.fst ↔
      ref.txid = txid ∧ vout ≤ ref.vout ∧ ref.vout < vout + bodies.length := by
  rw [List.mem_map]
  constructor
  · rintro ⟨⟨ref', body⟩, hmem, rfl⟩
    obtain ⟨htx, i, hi, hb⟩ := mem_numbered.mp hmem
    obtain ⟨hlt, -⟩ := List.getElem?_eq_some_iff.mp hb
    exact ⟨htx, by simp only; omega, by simp only; omega⟩
  · rintro ⟨htx, hge, hlt⟩
    refine ⟨(ref, bodies.get ⟨ref.vout - vout, by omega⟩), mem_numbered.mpr ⟨htx, ref.vout - vout, by omega, ?_⟩,
      rfl⟩
    rw [List.getElem?_eq_getElem (by omega)]
    rfl

theorem numbered_nodup (txid : Txid) (vout : Nat) (bodies : List TxoBody) :
    ((numbered txid vout bodies).map Prod.fst).Nodup := by
  induction bodies generalizing vout with
  | nil => exact List.nodup_nil
  | cons b bodies ih =>
    rw [numbered, List.map_cons, List.nodup_cons]
    refine ⟨fun h => ?_, ih (vout + 1)⟩
    have := (numbered_keys.mp h).2.1
    simp only at this
    omega

/-- Sums over numbered bodies are sums over the bodies. -/
theorem numbered_sum {M : Type} [AddCommMonoid M] (f : TxoBody → M) (txid : Txid) (vout : Nat)
    (bodies : List TxoBody) : ((numbered txid vout bodies).map fun e => f e.2).sum = (bodies.map f).sum := by
  induction bodies generalizing vout with
  | nil => rfl
  | cons b bodies ih => rw [numbered, List.map_cons, List.map_cons, List.sum_cons, List.sum_cons, ih]

/-- The entries of the memory resolver; none is an empty one. -/
def BlockState.mem (s : BlockState) : Table TxoRef TxoBody :=
  match s.memory with
  | none => Table.empty
  | some memory => memory.entries

/-- Readings of one table are readings of another. -/
def Within (t t' : Table TxoRef TxoBody) : Prop := ∀ ref body, t.get ref = some body → t'.get ref = some body

theorem Within.refl (t : Table TxoRef TxoBody) : Within t t := fun _ _ h => h

theorem Within.trans {t t' t'' : Table TxoRef TxoBody} (h : Within t t') (h' : Within t' t'') :
    Within t t'' := fun ref body hg => h' ref body (h ref body hg)

theorem Within.insert {t t' : Table TxoRef TxoBody} (h : Within t t') (ref : TxoRef) (body : TxoBody) :
    Within (t.insert ref body) (t'.insert ref body) := by
  intro r b hg
  rw [Table.get_insert] at hg ⊢
  split at hg
  · rename_i hr
    rw [if_pos hr]
    exact hg
  · rename_i hr
    rw [if_neg hr]
    exact h r b hg

theorem Within.insertAll {t t' : Table TxoRef TxoBody} (h : Within t t') (l : List (TxoRef × TxoBody)) :
    Within (t.insertAll l) (t'.insertAll l) := by
  induction l generalizing t t' with
  | nil => exact h
  | cons e l ih => exact ih (h.insert e.1 e.2)

/-! ## Memory -/

section

variable {deps : Deps} {cfg : Config} {s s' : BlockState}

theorem lift_eq_ok {α : Type} {x : Except Err α} {a : α} :
    lift x s = .ok a s' ↔ x = .ok a ∧ s = s' := by
  cases x with
  | error e =>
    constructor
    · intro h
      cases h
    · rintro ⟨h, -⟩
      cases h
  | ok b =>
    constructor
    · intro h
      cases h
      exact ⟨rfl, rfl⟩
    · rintro ⟨h, rfl⟩
      cases h
      rfl

theorem forget_ok {ref : TxoRef} {o : Option TxoBody} (h : forget deps cfg ref s = .ok o s') :
    o = s.mem.get ref ∧ s' = { s with memory := s'.memory } ∧ s'.mem = s.mem.erase ref := by
  unfold forget at h
  rw [Effect.get_bind] at h
  unfold BlockState.mem
  cases hm : s.memory with
  | none =>
    rw [hm] at h
    obtain ⟨rfl, rfl⟩ := Effect.pure_eq_ok.mp h
    rw [hm]
    exact ⟨rfl, by cases s; cases hm; rfl, rfl⟩
  | some memory =>
    rw [hm] at h
    obtain ⟨⟨body, memory'⟩, s₁, h₁, h⟩ := Effect.bind_eq_ok.mp h
    obtain ⟨hremove, rfl⟩ := lift_eq_ok.mp h₁
    obtain ⟨_, s₂, h₂, h⟩ := Effect.bind_eq_ok.mp h
    cases Effect.modify_eq_ok.mp h₂
    obtain ⟨rfl, rfl⟩ := Effect.pure_eq_ok.mp h
    have hremove := orPanic_eq_ok.mp hremove
    unfold UtxoResolver.remove at hremove
    split at hremove
    · rename_i hget
      cases hremove
      exact ⟨hget.symm, rfl, (Table.erase_of_none hget).symm⟩
    · rename_i body' hget
      obtain ⟨size, -, hremove⟩ := Option.map_eq_some_iff.mp hremove
      cases hremove
      exact ⟨hget.symm, rfl, rfl⟩

theorem remember_ok {ref : TxoRef} {body : TxoBody} (h : remember deps cfg ref body s = .ok ⟨⟩ s') :
    s' = { s with memory := s'.memory } ∧ Within s'.mem (s.mem.insert ref body) := by
  unfold remember at h
  rw [Effect.get_bind] at h
  cases hm : s.memory with
  | none =>
    rw [hm] at h
    obtain ⟨-, rfl⟩ := Effect.pure_eq_ok.mp h
    refine ⟨by cases s; cases hm; rfl, fun r b hg => ?_⟩
    unfold BlockState.mem at hg
    rw [hm] at hg
    cases hg
  | some memory =>
    rw [hm] at h
    obtain ⟨memory', s₁, h₁, h⟩ := Effect.bind_eq_ok.mp h
    obtain ⟨hinsert, rfl⟩ := lift_eq_ok.mp h₁
    cases Effect.modify_eq_ok.mp h
    refine ⟨rfl, ?_⟩
    have hinsert := orPanic_eq_ok.mp hinsert
    unfold UtxoResolver.insert at hinsert
    obtain ⟨size, -, hinsert⟩ := Option.map_eq_some_iff.mp hinsert
    cases hinsert
    unfold BlockState.mem
    rw [hm]
    exact Within.refl _

/-! ## Inputs -/

theorem consumeInputs_ok {hash : BlockHash} {inputs : List TxIn}
    (h : inputs.forM (consumeInput deps cfg hash) s = .ok ⟨⟩ s') :
    (∀ txin ∈ inputs, (s.resolver.get txin.previousOutput).isSome) ∧
      s' = { s with memory := s'.memory } ∧
      s'.mem = s.mem.eraseAll (inputs.map TxIn.previousOutput) := by
  induction inputs generalizing s with
  | nil =>
    obtain ⟨-, rfl⟩ := Effect.pure_eq_ok.mp h
    exact ⟨fun _ hm => (List.not_mem_nil hm).elim, rfl, rfl⟩
  | cons txin inputs ih =>
    obtain ⟨_, s₁, h₁, h₂⟩ := Effect.bind_eq_ok.mp h
    unfold consumeInput at h₁
    rw [Effect.get_bind] at h₁
    cases hget : s.resolver.get txin.previousOutput with
    | none =>
      rw [hget] at h₁
      exact (Effect.throw_ne_ok h₁).elim
    | some body =>
      rw [hget] at h₁
      obtain ⟨o, s₂, hforget, h₁⟩ := Effect.bind_eq_ok.mp h₁
      obtain ⟨-, rfl⟩ := Effect.pure_eq_ok.mp h₁
      obtain ⟨-, hs, hmem⟩ := forget_ok hforget
      obtain ⟨hall, hs', hmem'⟩ := ih h₂
      have hresolver : s₂.resolver = s.resolver := by rw [hs]
      refine ⟨?_, ?_, ?_⟩
      · intro x hx
        rcases List.mem_cons.mp hx with rfl | hx
        · simp [hget]
        · rw [← hresolver]
          exact hall x hx
      · rw [hs', hs]
      · rw [hmem', hmem]
        rfl

/-- Each reference is taken from memory, or else from the table. -/
theorem resolveInputs_ok {txos : Table TxoRef TxoBody} {refs : List TxoRef}
    (h : refs.forM (resolveInput deps cfg txos) s = .ok ⟨⟩ s') :
    (∃ resolver, s' = { s with memory := s'.memory, resolver := resolver }) ∧
      s'.mem = s.mem.eraseAll refs ∧
      (∀ ref, ref ∉ refs → s'.resolver.get ref = s.resolver.get ref) ∧
      (refs.Nodup → ∀ ref ∈ refs, s.resolver.get ref = none →
        s'.resolver.get ref = (s.mem.get ref).or (txos.get ref)) := by
  induction refs generalizing s with
  | nil =>
    obtain ⟨-, rfl⟩ := Effect.pure_eq_ok.mp h
    exact ⟨⟨_, rfl⟩, rfl, fun _ _ => rfl, fun _ _ hm => (List.not_mem_nil hm).elim⟩
  | cons ref refs ih =>
    obtain ⟨_, s₁, h₁, h₂⟩ := Effect.bind_eq_ok.mp h
    unfold resolveInput at h₁
    obtain ⟨remembered, s₂, hforget, h₁⟩ := Effect.bind_eq_ok.mp h₁
    obtain ⟨ho, hs₂, hmem₂⟩ := forget_ok hforget
    obtain ⟨hs₁, hmem₁, hother, hself⟩ : (∃ resolver, s₁ = { s₂ with resolver := resolver }) ∧
        s₁.mem = s₂.mem ∧ (∀ r, r ≠ ref → s₁.resolver.get r = s₂.resolver.get r) ∧
        (s₂.resolver.get ref = none → s₁.resolver.get ref = remembered.or (txos.get ref)) := by
      cases hor : remembered.or (txos.get ref) with
      | some body =>
        rw [hor] at h₁
        cases Effect.modify_eq_ok.mp h₁
        refine ⟨⟨_, rfl⟩, rfl, fun r hr => ?_, fun _ => ?_⟩
        · rw [Table.get_insert, if_neg hr]
        · rw [Table.get_insert, if_pos rfl]
      | none =>
        rw [hor] at h₁
        obtain ⟨-, rfl⟩ := Effect.pure_eq_ok.mp h₁
        exact ⟨⟨_, rfl⟩, rfl, fun _ _ => rfl, fun hnone => hnone⟩
    have hres₂ : s₂.resolver = s.resolver := by rw [hs₂]
    obtain ⟨⟨resolver', hs'⟩, hmem', hother', hself'⟩ := ih h₂
    obtain ⟨resolver₁, hs₁⟩ := hs₁
    refine ⟨⟨resolver', ?_⟩, ?_, ?_, ?_⟩
    · rw [hs', hs₁, hs₂]
    · rw [hmem', hmem₁, hmem₂]
      rfl
    · intro r hr
      rw [List.mem_cons, not_or] at hr
      rw [hother' r hr.2, hother r hr.1, hres₂]
    · intro hn r hr hnone
      rw [List.nodup_cons] at hn
      rcases List.mem_cons.mp hr with rfl | hr
      · rw [hother' r hn.1, hself (by rw [hres₂]; exact hnone), ho]
      · have hne : r ≠ ref := fun heq => hn.1 (heq ▸ hr)
        rw [hself' hn.2 r hr (by rw [hother r hne, hres₂]; exact hnone), hmem₁, hmem₂, Table.get_erase,
          if_neg hne]

end

/-! ## One map of dunes and one list of inscriptions for each output -/

theorem allocate_length {checks : Bool} {id amount : U128} {p p' : U128 × List Balances} {output : Nat}
    (h : allocate checks id p amount output = .ok p') : p'.2.length = p.2.length := by
  unfold allocate at h
  split at h
  · obtain ⟨balance, -, h⟩ := bind_eq_ok.mp h
    obtain ⟨map, -, h⟩ := bind_eq_ok.mp h
    obtain ⟨map', -, h⟩ := bind_eq_ok.mp h
    cases h
    simp
  · cases h
    rfl

theorem distribute_length {checks : Bool} {id amount : U128} {dests : List Nat} {p p' : U128 × List Balances}
    (h : distribute checks id dests amount p = .ok p') : p'.2.length = p.2.length := by
  unfold distribute at h
  split at h
  · split at h
    · cases h
    · refine foldlM_induct (P := fun _ q => q.2.length = p.2.length) ?_ rfl h
      intro a l q q' hq hstep
      rw [allocate_length hstep, hq]
  · refine foldlM_induct (P := fun _ q => q.2.length = p.2.length) ?_ rfl h
    intro a l q q' hq hstep
    rw [allocate_length hstep, hq]

theorem processEdict_length {deps : Deps} {checks : Bool} {tx : Transaction} {st st' : EdictState}
    {edict : Edict} (h : processEdict deps checks tx st edict = .ok st') :
    st'.allocated.length = st.allocated.length := by
  unfold processEdict at h
  simp only at h
  split at h
  · cases h
    rfl
  · split at h
    · cases h
      rfl
    · rename_i purse hpurse
      obtain ⟨premine, -, h⟩ := bind_eq_ok.mp h
      obtain ⟨⟨balance, allocated⟩, hmove, h⟩ := bind_eq_ok.mp h
      cases h
      have hlen : allocated.length = st.allocated.length := by
        split at hmove
        · exact distribute_length hmove
        · exact allocate_length hmove
      cases purse <;> exact hlen

theorem applyDunestone_length {deps : Deps} {cfg : Config} {txIndex : Nat} {tx : Transaction} {height : Nat}
    {dunestone : Dunestone} {unallocated : Balances} {t t' : DuneTables} {st : EdictState}
    {etch : Option U128} {mints : List Nat}
    (h : applyDunestone deps cfg txIndex tx height dunestone unallocated t = .ok (st, etch, mints, t')) :
    st.allocated.length = tx.output.length := by
  unfold applyDunestone at h
  obtain ⟨⟨allocation, etch', t₁⟩, -, h⟩ := bind_eq_ok.mp h
  obtain ⟨⟨st₁, mints₁, t₂⟩, hrun, h⟩ := bind_eq_ok.mp h
  have hlen : st₁.allocated.length = tx.output.length := by
    split at hrun
    · cases hrun
      simp
    · unfold runEdicts at hrun
      obtain ⟨st₂, hedicts, hrun⟩ := bind_eq_ok.mp hrun
      obtain ⟨t₃, -, hrun⟩ := bind_eq_ok.mp hrun
      cases hrun
      refine foldlM_induct (P := fun _ st => st.allocated.length = tx.output.length) ?_ (by simp) hedicts
      intro edict l st st' hst hstep
      rw [processEdict_length hstep, hst]
  cases allocation with
  | none =>
    cases h
    exact hlen
  | some allocation =>
    obtain ⟨id, -, h⟩ := bind_eq_ok.mp h
    cases h
    exact hlen

theorem assignRest_length {deps : Deps} {checks cenotaph : Bool} {pointer : Option Nat} {tx : Transaction}
    {unallocated burned : Balances} {allocated allocated' : List Balances}
    (h : assignRest deps checks cenotaph pointer tx unallocated allocated = .ok (allocated', burned)) :
    allocated'.length = allocated.length := by
  unfold assignRest at h
  split at h
  · obtain ⟨map, -, h⟩ := bind_eq_ok.mp h
    cases h
    rfl
  · split at h
    · obtain ⟨map, -, h⟩ := bind_eq_ok.mp h
      obtain ⟨map', -, h⟩ := bind_eq_ok.mp h
      cases h
      simp
    · obtain ⟨map, -, h⟩ := bind_eq_ok.mp h
      cases h
      rfl

/-- `index_runes` returns one map for each output. -/
theorem indexRunes_length {deps : Deps} {cfg : Config} {resolver : Table TxoRef TxoBody} {txIndex : Nat}
    {tx : Transaction} {height : Nat} {t t' : DuneTables} {r : IndexRunesResult}
    (h : indexRunes deps cfg resolver txIndex tx height t = .ok (r, t')) :
    r.outputDunes.length = tx.output.length := by
  unfold indexRunes at h
  simp only at h
  obtain ⟨balances, -, h⟩ := bind_eq_ok.mp h
  split at h
  · obtain ⟨⟨allocated, burned⟩, hrest, h⟩ := bind_eq_ok.mp h
    cases h
    rw [assignRest_length hrest, List.length_map]
  · obtain ⟨⟨st, etch, mints, t₁⟩, happly, h⟩ := bind_eq_ok.mp h
    obtain ⟨⟨allocated, burned⟩, hrest, h⟩ := bind_eq_ok.mp h
    cases h
    rw [assignRest_length hrest, applyDunestone_length happly]

theorem placeOutputs_length {txid : Txid} {outputs : Nat} {outgoing : List (SatPoint × InscriptionId)}
    {placed : List (List (U64 × InscriptionId))} (h : placeOutputs txid outputs outgoing = .ok placed) :
    placed.length = outputs := by
  unfold placeOutputs at h
  refine foldlM_induct (P := fun _ acc => acc.length = outputs) ?_ (by simp) h
  rintro ⟨satpoint, id⟩ l acc acc' hacc hstep
  simp only at hstep
  split at hstep
  · cases hstep
    rw [List.length_set, hacc]
  · cases hstep

/-! ## Steps -/

/-- The dunes of a transaction, indexed, or skipped below the first rune height: the maps of the
outputs, the reported etchings and mints, and the tables. -/
inductive RunesStep (deps : Deps) (cfg : Config) (height idx : Nat) (tx : Transaction)
    (resolver : Table TxoRef TxoBody) (t : DuneTables) :
    List Balances → List (Nat × U128) → List (Nat × Nat) → DuneTables → Prop
  | indexed {r : IndexRunesResult} {t' : DuneTables} (hheight : cfg.firstRuneHeight ≤ height)
      (hindex : indexRunes deps cfg resolver idx tx height t = .ok (r, t')) :
      RunesStep deps cfg height idx tx resolver t r.outputDunes
        (r.successfulEtch.toList.map fun name => (idx, name)) (r.successfulMints.map fun m => (idx, m)) t'
  | skipped (hheight : height < cfg.firstRuneHeight) :
      RunesStep deps cfg height idx tx resolver t (tx.output.map fun _ => Table.empty) [] [] t

/-- The inscriptions of a transaction, indexed, or skipped below the first inscription height: the
inscriptions of the outputs, the new unused transfers, the recorded messages and the state. -/
inductive InscriptionsStep (deps : Deps) (cfg : Config) (height : Nat) (tx : Transaction)
    (resolver : Table TxoRef TxoBody) (s : InscriptionState) :
    List (List (U64 × InscriptionId)) → Table InscriptionId (Ticker × U128) →
      List (InscriptionId × BRC20Message) → InscriptionState → Prop
  | indexed {r : IndexInscriptionsResult} {s' : InscriptionState}
      (hheight : cfg.firstInscriptionHeight ≤ height)
      (hindex : indexInscriptions deps cfg resolver tx tx.txid height s = .ok (r, s')) :
      InscriptionsStep deps cfg height tx resolver s r.outputInscriptions r.newUnusedBrc20Transfers
        r.brc20Resolver s'
  | skipped (hheight : height < cfg.firstInscriptionHeight) :
      InscriptionsStep deps cfg height tx resolver s (tx.output.map fun _ => []) Table.empty [] s

/-- The dunes of a map under the ids they are stored with. -/
def storedDunes (m : Balances) : List (Option DuneId × U128) := m.entries.map fun e => (DuneId.tryFrom e.1, e.2)

/-- The bodies of a transaction's outputs. -/
structure Produced (height : Nat) (tx : Transaction) (placed : List (List (U64 × InscriptionId)))
    (transfers : Table InscriptionId (Ticker × U128)) (bodies : List TxoBody) : Prop where
  raw : bodies.map TxoBody.raw = tx.output
  inscriptions : bodies.map TxoBody.inscriptions = placed
  height : ∀ b ∈ bodies, b.height = height
  unused : ∀ b ∈ bodies, b.unusedBrc20Transfers =
    transfers.filter fun id _ => (b.inscriptions.map Prod.snd).contains id

section

variable {deps : Deps} {cfg : Config} {height idx : Nat} {tx : Transaction} {s s' : BlockState}

theorem processRunes_ok {dunes : List Balances} (h : processRunes deps cfg height idx tx s = .ok dunes s') :
    dunes.length = tx.output.length ∧ ∃ etches mints t,
      RunesStep deps cfg height idx tx s.resolver s.dunes dunes etches mints t ∧
      s' = { s with
        dunes := t
        successfulEtches := s.successfulEtches ++ etches
        successfulMints := s.successfulMints ++ mints } := by
  unfold processRunes at h
  by_cases hheight : cfg.firstRuneHeight ≤ height
  · rw [if_pos hheight, Effect.get_bind] at h
    obtain ⟨⟨r, t⟩, s₁, h₁, h⟩ := Effect.bind_eq_ok.mp h
    obtain ⟨hindex, rfl⟩ := lift_eq_ok.mp h₁
    obtain ⟨_, s₂, h₂, h⟩ := Effect.bind_eq_ok.mp h
    cases Effect.modify_eq_ok.mp h₂
    obtain ⟨rfl, rfl⟩ := Effect.pure_eq_ok.mp h
    exact ⟨indexRunes_length hindex, _, _, _, .indexed hheight hindex, rfl⟩
  · rw [if_neg hheight] at h
    obtain ⟨rfl, rfl⟩ := Effect.pure_eq_ok.mp h
    exact ⟨by simp, _, _, _, .skipped (by omega), by simp⟩

theorem processInscriptions_ok {placed : List (List (U64 × InscriptionId))}
    {transfers : Table InscriptionId (Ticker × U128)}
    (h : processInscriptions deps cfg height tx s = .ok (placed, transfers) s') :
    placed.length = tx.output.length ∧ ∃ messages i,
      InscriptionsStep deps cfg height tx s.resolver s.inscriptions placed transfers messages i ∧
      s' = { s with inscriptions := i, brc20Resolver := s.brc20Resolver ++ messages } := by
  unfold processInscriptions at h
  by_cases hheight : cfg.firstInscriptionHeight ≤ height
  · rw [if_pos hheight, Effect.get_bind] at h
    obtain ⟨⟨r, i⟩, s₁, h₁, h⟩ := Effect.bind_eq_ok.mp h
    obtain ⟨hindex, rfl⟩ := lift_eq_ok.mp h₁
    obtain ⟨_, s₂, h₂, h⟩ := Effect.bind_eq_ok.mp h
    cases Effect.modify_eq_ok.mp h₂
    obtain ⟨hr, rfl⟩ := Effect.pure_eq_ok.mp h
    cases hr
    obtain ⟨run⟩ := indexInscriptions_ok hindex
    exact ⟨placeOutputs_length run.places, _, _, .indexed hheight hindex, rfl⟩
  · rw [if_neg hheight] at h
    obtain ⟨hr, rfl⟩ := Effect.pure_eq_ok.mp h
    cases hr
    exact ⟨by simp, _, _, .skipped (by omega), by simp⟩

theorem storeDunes_ok {entries : List (U128 × U128)} {l : List (DuneId × U128)}
    (h : entries.mapM (fun (id, amount) => (orPanic (DuneId.tryFrom id)).map fun id => (id, amount)) = .ok l) :
    (l.map fun e => (some e.1, e.2)) = entries.map fun e => (DuneId.tryFrom e.1, e.2) := by
  induction entries generalizing l with
  | nil =>
    cases h
    rfl
  | cons e entries ih =>
    rw [List.mapM_cons] at h
    obtain ⟨d, hd, h⟩ := bind_eq_ok.mp h
    obtain ⟨rest, hrest, h⟩ := bind_eq_ok.mp h
    cases h
    obtain ⟨id, hid, rfl⟩ := map_eq_ok.mp hd
    rw [List.map_cons, List.map_cons, ih hrest, orPanic_eq_ok.mp hid]

theorem outputBody_ok {output : TxOut} {dunes : Balances} {inscriptions : List (U64 × InscriptionId)}
    {transfers : Table InscriptionId (Ticker × U128)} {body : TxoBody}
    (h : outputBody height output dunes inscriptions transfers = .ok body) :
    body.height = height ∧ body.raw = output ∧ body.inscriptions = inscriptions ∧
      body.unusedBrc20Transfers = (transfers.filter fun id _ => (inscriptions.map Prod.snd).contains id) ∧
      (body.dunes.map fun e => (some e.1, e.2)) = storedDunes dunes := by
  unfold outputBody at h
  obtain ⟨l, hl, h⟩ := bind_eq_ok.mp h
  cases h
  exact ⟨rfl, rfl, rfl, rfl, storeDunes_ok hl⟩

theorem produceOutputs_ok {txid : Txid} {transfers : Table InscriptionId (Ticker × U128)} {vout : Nat}
    {outputs : List TxOut} {dunes : List Balances} {placed : List (List (U64 × InscriptionId))}
    (hdunes : dunes.length = outputs.length) (hplaced : placed.length = outputs.length)
    (h : produceOutputs deps cfg height txid transfers vout outputs dunes placed s = .ok ⟨⟩ s') :
    ∃ bodies : List TxoBody, bodies.map TxoBody.raw = outputs ∧ bodies.map TxoBody.inscriptions = placed ∧
      (∀ b ∈ bodies, b.height = height ∧ b.unusedBrc20Transfers =
        transfers.filter fun id _ => (b.inscriptions.map Prod.snd).contains id) ∧
      s' = { s with memory := s'.memory, resolver := s.resolver.insertAll (numbered txid vout bodies) } ∧
      Within s'.mem (s.mem.insertAll (numbered txid vout bodies)) ∧
      (bodies.map fun b => b.dunes.map fun e => (some e.1, e.2)) = dunes.map storedDunes := by
  induction outputs generalizing vout dunes placed s with
  | nil =>
    rw [List.length_nil, List.length_eq_zero_iff] at hdunes hplaced
    subst hdunes
    subst hplaced
    obtain ⟨-, rfl⟩ := Effect.pure_eq_ok.mp h
    exact ⟨[], rfl, rfl, fun _ hb => (List.not_mem_nil hb).elim, rfl, Within.refl _, rfl⟩
  | cons output outputs ih =>
    cases dunes with
    | nil => cases hdunes
    | cons dune dunes =>
      cases placed with
      | nil => cases hplaced
      | cons inscriptions placed =>
        unfold produceOutputs at h
        obtain ⟨body, s₁, h₁, h⟩ := Effect.bind_eq_ok.mp h
        obtain ⟨hbody, rfl⟩ := lift_eq_ok.mp h₁
        obtain ⟨_, s₂, h₂, h⟩ := Effect.bind_eq_ok.mp h
        cases Effect.modify_eq_ok.mp h₂
        obtain ⟨_, s₃, h₃, h⟩ := Effect.bind_eq_ok.mp h
        obtain ⟨hs₃, hmem₃⟩ := remember_ok h₃
        obtain ⟨bodies, hraw, hins, hall, hs', hmem', hstored⟩ :=
          ih (by simpa using hdunes) (by simpa using hplaced) h
        obtain ⟨hh, hr, hi, hu, hd⟩ := outputBody_ok hbody
        refine ⟨body :: bodies, ?_, ?_, ?_, ?_, ?_, ?_⟩
        · rw [List.map_cons, hr, hraw]
        · rw [List.map_cons, hi, hins]
        · intro b hb
          rcases List.mem_cons.mp hb with rfl | hb
          · exact ⟨hh, by rw [hu, hi]⟩
          · exact hall b hb
        · have hres : s₃.resolver = s.resolver.insert ⟨txid, vout⟩ body := by rw [hs₃]
          have hrest : s₃ = { s with memory := s₃.memory, resolver := s₃.resolver } := by rw [hs₃]
          rw [hs', hres, hrest]
          rfl
        · exact hmem'.trans (hmem₃.insertAll _)
        · rw [List.map_cons, List.map_cons, hd, hstored]

/-- A processed transaction other than the coinbase. -/
structure ProcessedTx (deps : Deps) (cfg : Config) (height idx : Nat) (tx : Transaction)
    (s s' : BlockState) where
  dunes : List Balances
  etches : List (Nat × U128)
  mints : List (Nat × Nat)
  duneTables : DuneTables
  placed : List (List (U64 × InscriptionId))
  transfers : Table InscriptionId (Ticker × U128)
  messages : List (InscriptionId × BRC20Message)
  inscriptionState : InscriptionState
  bodies : List TxoBody
  runes : RunesStep deps cfg height idx tx s.resolver s.dunes dunes etches mints duneTables
  inscriptions : InscriptionsStep deps cfg height tx s.resolver s.inscriptions placed transfers messages
    inscriptionState
  inputs : ∀ ref ∈ spent tx, (s.resolver.get ref).isSome
  produced : Produced height tx placed transfers bodies
  state : s' = { s with
    memory := s'.memory
    resolver := s.resolver.insertAll (numbered tx.txid 0 bodies)
    dunes := duneTables
    inscriptions := inscriptionState
    successfulEtches := s.successfulEtches ++ etches
    successfulMints := s.successfulMints ++ mints
    brc20Resolver := s.brc20Resolver ++ messages }
  memory : Within s'.mem ((s.mem.eraseAll (spent tx)).insertAll (numbered tx.txid 0 bodies))
  stored : (bodies.map fun b => b.dunes.map fun e => (some e.1, e.2)) = dunes.map storedDunes

theorem ProcessedTx.inscriptions_eq (run : ProcessedTx deps cfg height idx tx s s') :
    s'.inscriptions = run.inscriptionState := congrArg BlockState.inscriptions run.state

theorem ProcessedTx.resolver_eq (run : ProcessedTx deps cfg height idx tx s s') :
    s'.resolver = s.resolver.insertAll (numbered tx.txid 0 run.bodies) :=
  congrArg BlockState.resolver run.state

/-- **A completed `processTx` has a record.** -/
theorem processTx_ok {hash : BlockHash} (h : processTx deps cfg height hash (tx, idx) s = .ok ⟨⟩ s') :
    Nonempty (ProcessedTx deps cfg height idx tx s s') := by
  unfold processTx at h
  simp only at h
  obtain ⟨dunes, s₁, h₁, h⟩ := Effect.bind_eq_ok.mp h
  obtain ⟨⟨placed, transfers⟩, s₂, h₂, h⟩ := Effect.bind_eq_ok.mp h
  obtain ⟨_, s₃, h₃, h₄⟩ := Effect.bind_eq_ok.mp h
  obtain ⟨hdunes, etches, mints, t, hrunes, rfl⟩ := processRunes_ok h₁
  obtain ⟨hplaced, messages, i, hinscriptions, rfl⟩ := processInscriptions_ok h₂
  obtain ⟨hall, hs₃, hmem₃⟩ := consumeInputs_ok h₃
  obtain ⟨bodies, hraw, hins, hbodies, hs', hmem', hstored⟩ := produceOutputs_ok hdunes hplaced h₄
  refine ⟨⟨dunes, etches, mints, t, placed, transfers, messages, i, bodies, hrunes, hinscriptions, ?_,
    ⟨hraw, hins, fun b hb => (hbodies b hb).1, fun b hb => (hbodies b hb).2⟩, ?_, ?_, hstored⟩⟩
  · intro ref href
    obtain ⟨txin, htxin, rfl⟩ := List.mem_map.mp href
    exact hall txin htxin
  · rw [hs', hs₃]
  · rw [hmem₃] at hmem'
    exact hmem'

end

/-! ## Blocks -/

/-- Each transaction of a list with the state before it, as far as the processing gets. -/
def txSteps (deps : Deps) (cfg : Config) (height : Nat) (hash : BlockHash) :
    List (Transaction × Nat) → BlockState → List (Transaction × BlockState)
  | [], _ => []
  | e :: l, s =>
    (e.1, s) :: match processTx deps cfg height hash e s with
      | .ok _ s' => txSteps deps cfg height hash l s'
      | .error _ _ => []

/-- The state before the transactions that follow the coinbase. -/
def beforeTxs (deps : Deps) (cfg : Config) (txos : Table TxoRef TxoBody) (height : Nat) (block : Block) :
    Process Unit := do
  (externalRefs block).forM (resolveInput deps cfg txos)
  match block.txdata with
  | [] => throw .noCoinbase
  | coinbase :: _ => do
    let _ ← processRunes deps cfg height 0 coinbase
    return ()

/-- The transactions of a block in the order in which their inscriptions are indexed, each with
the state before it; the coinbase is the last one. -/
def blockSteps (deps : Deps) (cfg : Config) (n : Node) (height : Nat) (block : Block) :
    List (Transaction × BlockState) :=
  match beforeTxs deps cfg n.db.tables.txos height block (initialState deps n.db.tables height n.memory) with
  | .error _ _ => []
  | .ok _ s =>
    txSteps deps cfg height block.hash ((block.txdata.drop 1).zipIdx 1) s ++
      match ((block.txdata.drop 1).zipIdx 1).forM (processTx deps cfg height block.hash) s with
      | .ok _ s' => block.txdata.head?.toList.map fun coinbase => (coinbase, s')
      | .error _ _ => []

/-- A list of processed transactions, with the states before them. -/
inductive ProcessedTxs (deps : Deps) (cfg : Config) (height : Nat) :
    List (Transaction × Nat) → List (Transaction × BlockState) → BlockState → BlockState → Prop
  | nil (s : BlockState) : ProcessedTxs deps cfg height [] [] s s
  | cons {tx : Transaction} {idx : Nat} {l : List (Transaction × Nat)}
      {steps : List (Transaction × BlockState)} {s s₁ s' : BlockState}
      (run : ProcessedTx deps cfg height idx tx s s₁) (rest : ProcessedTxs deps cfg height l steps s₁ s') :
      ProcessedTxs deps cfg height ((tx, idx) :: l) ((tx, s) :: steps) s s'

/-- A processed block: `opened` with its inputs resolved, `started` after the coinbase's dunes,
`closed` after the other transactions. -/
structure ProcessedBlock (deps : Deps) (cfg : Config) (txos : Table TxoRef TxoBody) (height : Nat)
    (block : Block) (s s' : BlockState) where
  coinbase : Transaction
  txs : List Transaction
  opened : BlockState
  started : BlockState
  closed : BlockState
  dunes : List Balances
  etches : List (Nat × U128)
  mints : List (Nat × Nat)
  duneTables : DuneTables
  steps : List (Transaction × BlockState)
  placed : List (List (U64 × InscriptionId))
  transfers : Table InscriptionId (Ticker × U128)
  messages : List (InscriptionId × BRC20Message)
  inscriptionState : InscriptionState
  bodies : List TxoBody
  txdata : block.txdata = coinbase :: txs
  resolves : (externalRefs block).forM (resolveInput deps cfg txos) s = .ok ⟨⟩ opened
  runes : RunesStep deps cfg height 0 coinbase opened.resolver opened.dunes dunes etches mints duneTables
  starts : started = { opened with
    dunes := duneTables
    successfulEtches := opened.successfulEtches ++ etches
    successfulMints := opened.successfulMints ++ mints }
  processes : ProcessedTxs deps cfg height (txs.zipIdx 1) steps started closed
  inscriptions : InscriptionsStep deps cfg height coinbase closed.resolver closed.inscriptions placed
    transfers messages inscriptionState
  produced : Produced height coinbase placed transfers bodies
  state : s' = { closed with
    memory := s'.memory
    resolver := closed.resolver.insertAll (numbered coinbase.txid 0 bodies)
    inscriptions := inscriptionState
    brc20Resolver := closed.brc20Resolver ++ messages }
  memory : Within s'.mem (closed.mem.insertAll (numbered coinbase.txid 0 bodies))
  stored : (bodies.map fun b => b.dunes.map fun e => (some e.1, e.2)) = dunes.map storedDunes

section

variable {deps : Deps} {cfg : Config} {height : Nat} {s s' : BlockState}

theorem processTxs_ok {hash : BlockHash} {l : List (Transaction × Nat)}
    (h : l.forM (processTx deps cfg height hash) s = .ok ⟨⟩ s') :
    ProcessedTxs deps cfg height l (txSteps deps cfg height hash l s) s s' := by
  induction l generalizing s with
  | nil =>
    obtain ⟨-, rfl⟩ := Effect.pure_eq_ok.mp h
    exact .nil s
  | cons e l ih =>
    obtain ⟨_, s₁, h₁, h₂⟩ := Effect.bind_eq_ok.mp h
    obtain ⟨tx, idx⟩ := e
    obtain ⟨run⟩ := processTx_ok h₁
    unfold txSteps
    rw [h₁]
    exact .cons run (ih h₂)

theorem ProcessedTxs.map_fst {l : List (Transaction × Nat)} {steps : List (Transaction × BlockState)}
    (h : ProcessedTxs deps cfg height l steps s s') : steps.map Prod.fst = l.map Prod.fst := by
  induction h with
  | nil => rfl
  | cons run rest ih => rw [List.map_cons, List.map_cons, ih]

/-- **Rule for the transactions of a block**: what each step preserves holds at the end.  `done` are
the steps so far, and the list shrinks to the transactions that follow. -/
theorem ProcessedTxs.induct {P : List (Transaction × BlockState) → List (Transaction × Nat) → BlockState → Prop}
    {l : List (Transaction × Nat)} {steps : List (Transaction × BlockState)}
    (h : ProcessedTxs deps cfg height l steps s s') (done : List (Transaction × BlockState))
    (hstep : ∀ done' tx idx rest later s₁ s₂, ((tx, idx) :: rest) <:+ l →
      (done' ++ [(tx, s₁)]) <+: (done ++ steps) → ProcessedTx deps cfg height idx tx s₁ s₂ →
      ProcessedTxs deps cfg height rest later s₂ s' →
      P done' ((tx, idx) :: rest) s₁ → P (done' ++ [(tx, s₁)]) rest s₂)
    (h₀ : P done l s) : P (done ++ steps) [] s' := by
  induction h generalizing done with
  | nil s =>
    rw [List.append_nil]
    exact h₀
  | @cons tx idx l steps s s₁ s' run rest ih =>
    have hsplit : done ++ (tx, s) :: steps = (done ++ [(tx, s)]) ++ steps := by simp
    rw [hsplit] at hstep ⊢
    refine ih _ ?_ (hstep done tx idx l steps s s₁ List.suffix_rfl (List.prefix_append _ _) run rest h₀)
    intro done' tx' idx' rest' later s₂ s₃ hsuffix
    exact hstep done' tx' idx' rest' later s₂ s₃ (hsuffix.trans (List.suffix_cons _ _))

/-- Outputs of other transactions stay resolved as they are. -/
theorem ProcessedTxs.resolver_get {l : List (Transaction × Nat)} {steps : List (Transaction × BlockState)}
    (h : ProcessedTxs deps cfg height l steps s s') {ref : TxoRef} (hne : ∀ e ∈ l, e.1.txid ≠ ref.txid) :
    s'.resolver.get ref = s.resolver.get ref := by
  induction h with
  | nil => rfl
  | @cons tx idx l steps s s₁ s' run rest ih =>
    rw [ih (fun e he => hne e (List.mem_cons_of_mem _ he)), run.resolver_eq]
    refine Table.get_insertAll_of_notMem (fun hmem => ?_)
    exact hne (tx, idx) List.mem_cons_self (numbered_keys.mp hmem).1.symm

/-- **A completed `resolve_and_process` has a record**, whose steps are `blockSteps`. -/
theorem resolveAndProcess_ok {n : Node} {block : Block}
    (h : resolveAndProcess deps cfg n.db.tables.txos height block
      (initialState deps n.db.tables height n.memory) = .ok ⟨⟩ s') :
    ∃ run : ProcessedBlock deps cfg n.db.tables.txos height block
        (initialState deps n.db.tables height n.memory) s',
      blockSteps deps cfg n height block = run.steps ++ [(run.coinbase, run.closed)] := by
  unfold resolveAndProcess at h
  obtain ⟨_, opened, hopen, h⟩ := Effect.bind_eq_ok.mp h
  cases htx : block.txdata with
  | nil =>
    rw [htx] at h
    exact (Effect.throw_ne_ok h).elim
  | cons coinbase txs =>
    rw [htx] at h
    obtain ⟨dunes, started, h₁, h⟩ := Effect.bind_eq_ok.mp h
    obtain ⟨_, closed, h₂, h⟩ := Effect.bind_eq_ok.mp h
    obtain ⟨⟨placed, transfers⟩, s₁, h₃, h₄⟩ := Effect.bind_eq_ok.mp h
    obtain ⟨hdunes, etches, mints, t, hrunes, hstart⟩ := processRunes_ok h₁
    obtain ⟨hplaced, messages, i, hinscriptions, rfl⟩ := processInscriptions_ok h₃
    obtain ⟨bodies, hraw, hins, hbodies, hs', hmem', hstored⟩ := produceOutputs_ok hdunes hplaced h₄
    refine ⟨⟨coinbase, txs, opened, started, closed, dunes, etches, mints, t,
      txSteps deps cfg height block.hash (txs.zipIdx 1) started, placed, transfers, messages, i, bodies,
      htx, hopen, hrunes, hstart, processTxs_ok h₂, hinscriptions,
      ⟨hraw, hins, fun b hb => (hbodies b hb).1, fun b hb => (hbodies b hb).2⟩, by rw [hs'], hmem', hstored⟩, ?_⟩
    have hbefore : beforeTxs deps cfg n.db.tables.txos height block
        (initialState deps n.db.tables height n.memory) = .ok ⟨⟩ started := by
      unfold beforeTxs
      refine Effect.bind_eq_ok.mpr ⟨⟨⟩, opened, hopen, ?_⟩
      rw [htx]
      exact Effect.bind_eq_ok.mpr ⟨dunes, started, h₁, rfl⟩
    unfold blockSteps
    rw [hbefore, htx]
    simp only [List.drop_one, List.tail_cons, List.head?_cons, Option.toList_some, List.map_cons, List.map_nil]
    rw [h₂]

/-- Resolving the inputs and the coinbase's dunes leave the inscriptions alone. -/
theorem ProcessedBlock.started_inscriptions {txos : Table TxoRef TxoBody} {block : Block}
    (run : ProcessedBlock deps cfg txos height block s s') :
    run.started.inscriptions = s.inscriptions ∧ run.started.brc20Resolver = s.brc20Resolver := by
  obtain ⟨⟨resolver, hopen⟩, -⟩ := resolveInputs_ok run.resolves
  rw [run.starts, hopen]
  exact ⟨rfl, rfl⟩

theorem ProcessedBlock.inscriptions_eq {txos : Table TxoRef TxoBody} {block : Block}
    (run : ProcessedBlock deps cfg txos height block s s') : s'.inscriptions = run.inscriptionState :=
  congrArg BlockState.inscriptions run.state

theorem ProcessedBlock.resolver_eq {txos : Table TxoRef TxoBody} {block : Block}
    (run : ProcessedBlock deps cfg txos height block s s') :
    s'.resolver = run.closed.resolver.insertAll (numbered run.coinbase.txid 0 run.bodies) :=
  congrArg BlockState.resolver run.state

end

end DogeIndexer.Compressor
