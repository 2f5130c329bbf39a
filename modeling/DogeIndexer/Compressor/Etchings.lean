import DogeIndexer.Compressor.Holdings
import DogeIndexer.Compressor.Names

/-!
# Etchings that are reported

The entry of a block reports the transactions that etched a dune, each with the name.  The dune tables hold the
terms of exactly these dunes, and every dune that an unspent output carries has terms.

* `RunesStep.keysIn` — edicts and defaults only move dunes that are known.
* `RunesStep.etched` — what a transaction that etches a dune reports and enters.
* `Reach.etched` — both, in every reachable node.
-/

set_option autoImplicit false

namespace DogeIndexer.Compressor

open Fallible

/-! ## Keys of balances -/

/-- The keys of the balances satisfy a condition. -/
def KeysIn (K : U128 → Prop) (b : Balances) : Prop := ∀ id, (b.get id).isSome = true → K id

section

variable {K K' : U128 → Prop} {b b' : Balances} {id amount : U128} {checks : Bool}

theorem KeysIn.empty : KeysIn K Table.empty := fun _ h => (by cases h)

theorem KeysIn.mono (h : KeysIn K b) (hsub : ∀ id, K id → K' id) : KeysIn K' b := fun id hid => hsub id (h id hid)

theorem KeysIn.insert (h : KeysIn K b) (hid : K id) : KeysIn K (b.insert id amount) := by
  intro id' hid'
  rw [Table.get_insert] at hid'
  split at hid'
  · rename_i heq
    rw [heq]
    exact hid
  · exact h id' hid'

theorem KeysIn.of_get (h : KeysIn K b) (hget : b.get id = some amount) : K id := h id (by rw [hget]; rfl)

theorem KeysIn.creditAll {l : List (U128 × U128)} (h : KeysIn K b) (hl : ∀ e ∈ l, K e.1) :
    KeysIn K (l.foldl credited b) := by
  induction l generalizing b with
  | nil => exact h
  | cons e l ih =>
    exact ih (h.insert (hl e List.mem_cons_self)) fun e' he' => hl e' (List.mem_cons_of_mem _ he')

/-- `allocate` credits the dune that it is given. -/
theorem allocate_keys {s s' : U128 × List Balances} {output : Nat} (h : allocate checks id s amount output = .ok s')
    (hid : K id) (hs : ∀ m ∈ s.2, KeysIn K m) : ∀ m ∈ s'.2, KeysIn K m := by
  unfold allocate at h
  split at h
  · obtain ⟨balance, -, h⟩ := bind_eq_ok.mp h
    obtain ⟨map, hmap, h⟩ := bind_eq_ok.mp h
    obtain ⟨map', hcredit, h⟩ := bind_eq_ok.mp h
    cases h
    intro m hm
    rcases List.mem_or_eq_of_mem_set hm with hm | rfl
    · exact hs m hm
    · rw [(credit_ok hcredit).1]
      exact (hs map (List.mem_of_getElem? (orPanic_eq_ok.mp hmap))).insert hid
  · cases h
    exact hs

theorem distribute_keys {dests : List Nat} {s s' : U128 × List Balances}
    (h : distribute checks id dests amount s = .ok s') (hid : K id) (hs : ∀ m ∈ s.2, KeysIn K m) :
    ∀ m ∈ s'.2, KeysIn K m := by
  unfold distribute at h
  split at h
  · split at h
    · cases h
    · exact foldlM_induct (P := fun _ q => ∀ m ∈ q.2, KeysIn K m)
        (fun _ _ _ _ hq hstep => allocate_keys hstep hid hq) hs h
  · exact foldlM_induct (P := fun _ q => ∀ m ∈ q.2, KeysIn K m)
      (fun _ _ _ _ hq hstep => allocate_keys hstep hid hq) hs h

/-- All that the edicts of a transaction have at hand. -/
structure EdictState.KeysIn (K : U128 → Prop) (st : EdictState) : Prop where
  issuance : ∀ a, st.allocation = some a → K a.id
  mintable : Compressor.KeysIn K st.mintable
  unallocated : Compressor.KeysIn K st.unallocated
  allocated : ∀ m ∈ st.allocated, Compressor.KeysIn K m

theorem EdictState.KeysIn.purse {st : EdictState} (h : st.KeysIn K) {edict : Edict} {purse : Purse}
    (hpurse : purseOf st edict = some purse) : K purse.id := by
  unfold purseOf at hpurse
  split at hpurse
  · obtain ⟨a, ha, rfl⟩ := Option.map_eq_some_iff.mp hpurse
    exact h.issuance a ha
  · split at hpurse
    · obtain ⟨balance, hbalance, rfl⟩ := Option.map_eq_some_iff.mp hpurse
      exact h.mintable.of_get hbalance
    · obtain ⟨balance, hbalance, rfl⟩ := Option.map_eq_some_iff.mp hpurse
      exact h.unallocated.of_get hbalance

theorem EdictState.KeysIn.store {st : EdictState} (h : st.KeysIn K) {purse : Purse} (hpurse : K purse.id)
    (balance : U128) : (purse.store balance st).KeysIn K := by
  cases purse with
  | issuance b i =>
    refine ⟨fun a ha => ?_, h.mintable, h.unallocated, h.allocated⟩
    obtain ⟨a', ha', rfl⟩ := Option.map_eq_some_iff.mp ha
    exact h.issuance a' ha'
  | mintable b i => exact ⟨h.issuance, h.mintable.insert hpurse, h.unallocated, h.allocated⟩
  | unallocated b i => exact ⟨h.issuance, h.mintable, h.unallocated.insert hpurse, h.allocated⟩

/-- **An edict moves what is at hand.** -/
theorem EdictState.KeysIn.edict {deps : Deps} {tx : Transaction} {st st' : EdictState} (h : st.KeysIn K) {edict : Edict}
    (hstep : processEdict deps checks tx st edict = .ok st') : st'.KeysIn K := by
  unfold processEdict at hstep
  simp only at hstep
  split at hstep
  · cases hstep
    exact h
  · split at hstep
    · cases hstep
      exact h
    · rename_i purse hpurse
      have hid := h.purse hpurse
      obtain ⟨premine, -, hstep⟩ := bind_eq_ok.mp hstep
      obtain ⟨⟨balance, allocated⟩, hmove, hstep⟩ := bind_eq_ok.mp hstep
      cases hstep
      have hallocated : ∀ m ∈ allocated, Compressor.KeysIn K m := by
        split at hmove
        · exact distribute_keys hmove hid h.allocated
        · exact allocate_keys hmove hid h.allocated
      have hmoved : ({ st with premineAmount := premine, allocated := allocated } : EdictState).KeysIn K :=
        ⟨h.issuance, h.mintable, h.unallocated, hallocated⟩
      exact hmoved.store hid balance

/-- What is left goes to an output, or nowhere. -/
theorem assignRest_keys {deps : Deps} {cenotaph : Bool} {pointer : Option Nat} {tx : Transaction}
    {rest burned : Balances} {allocated allocated' : List Balances}
    (h : assignRest deps checks cenotaph pointer tx rest allocated = .ok (allocated', burned)) (hrest : KeysIn K rest)
    (hallocated : ∀ m ∈ allocated, KeysIn K m) : ∀ m ∈ allocated', KeysIn K m := by
  unfold assignRest at h
  split at h
  · obtain ⟨burned', -, h⟩ := bind_eq_ok.mp h
    cases h
    exact hallocated
  · split at h
    · obtain ⟨map, hmap, h⟩ := bind_eq_ok.mp h
      obtain ⟨map', hcredit, h⟩ := bind_eq_ok.mp h
      cases h
      intro m hm
      rcases List.mem_or_eq_of_mem_set hm with hm | rfl
      · exact hallocated m hm
      · rw [(creditAll_ok (creditPositive_ok hcredit)).1]
        refine (hallocated map (List.mem_of_getElem? (orPanic_eq_ok.mp hmap))).creditAll fun e he => ?_
        exact hrest.of_get (Table.mem_entries.mp (List.mem_of_mem_filter he))
    · obtain ⟨burned', -, h⟩ := bind_eq_ok.mp h
      cases h
      exact hallocated

end

/-! ## One transaction -/

/-- The dune of an id has terms. -/
def Known (terms : Table DuneId DuneTerms) (id : U128) : Prop :=
  ∃ key, DuneId.tryFrom id = some key ∧ (terms.get key).isSome = true

section

variable {deps : Deps} {cfg : Config} {height idx : Nat} {tx : Transaction} {resolver : Table TxoRef TxoBody}
  {t t' : DuneTables} {dunes : List Balances} {etches : List (Nat × U128)} {mints : List (Nat × Nat)}

theorem Known.mono {terms terms' : Table DuneId DuneTerms}
    (hsub : ∀ key v, terms.get key = some v → terms'.get key = some v) {id : U128} (h : Known terms id) :
    Known terms' id := by
  obtain ⟨key, hkey, hsome⟩ := h
  obtain ⟨v, hv⟩ := Option.isSome_iff_exists.mp hsome
  exact ⟨key, hkey, by rw [hsub key v hv]; rfl⟩

/-- A claim that is accepted is of a dune with terms. -/
theorem known_of_accepted {id limit : U128} (h : accepted t height id = some limit) : Known t.termsById id := by
  obtain ⟨key, hkey, -⟩ := Option.bind_eq_some_iff.mp h
  obtain ⟨terms, hterms, -⟩ := accepted_eq_some hkey h
  exact ⟨key, hkey, by rw [hterms]; rfl⟩

/-- **A transaction moves known dunes only**: those of its inputs, those of its claims, and the one that it etches. -/
theorem RunesStep.keysIn (h : RunesStep deps cfg height idx tx resolver t dunes etches mints t')
    (hheight : height < 2 ^ 64) (hnew : t.termsById.get ⟨height, idx⟩ = none)
    (hinputs : ∀ e ∈ inputDunes tx resolver, Known t.termsById e.1) :
    ∀ m ∈ dunes, KeysIn (Known t'.termsById) m := by
  have hkept := (h.terms hheight hnew).1
  have hnone : ∀ m ∈ tx.output.map fun _ => (Table.empty : Balances), KeysIn (Known t'.termsById) m := by
    intro m hm
    obtain ⟨-, -, rfl⟩ := List.mem_map.mp hm
    exact .empty
  have hpool : KeysIn (Known t'.termsById) (inputPool tx resolver) :=
    KeysIn.empty.creditAll fun e he => (hinputs e he).mono hkept
  cases h with
  | skipped hbelow => exact hnone
  | @indexed r t₁ hindexed hindex =>
    unfold indexRunes at hindex
    simp only at hindex
    obtain ⟨pool, hpooled, hindex⟩ := bind_eq_ok.mp hindex
    obtain rfl : pool = inputPool tx resolver := (creditAll_ok (unallocated_ok hpooled)).1
    cases hdunestone : Dunestone.fromTransaction deps tx with
    | none =>
      rw [hdunestone] at hindex
      obtain ⟨⟨allocated, burned⟩, hrest, hindex⟩ := bind_eq_ok.mp hindex
      cases hindex
      exact assignRest_keys hrest hpool hnone
    | some dunestone =>
      rw [hdunestone] at hindex
      obtain ⟨⟨st, etch, indices, t₂⟩, happly, hindex⟩ := bind_eq_ok.mp hindex
      obtain ⟨⟨allocated, burned⟩, hrest, hindex⟩ := bind_eq_ok.mp hindex
      cases hindex
      obtain ⟨⟨step⟩, hcenotaph, hedicts⟩ := applyDunestone_ok hdunestone happly
      have hst : KeysIn (Known t₂.termsById) st.unallocated ∧ ∀ m ∈ st.allocated, KeysIn (Known t₂.termsById) m := by
        cases hcen : dunestone.cenotaph with
        | true =>
          obtain ⟨hallocated, hunallocated⟩ := hcenotaph hcen
          rw [hallocated, hunallocated]
          exact ⟨hpool, hnone⟩
        | false =>
          have hstart : (startState deps cfg resolver idx tx height t dunestone).KeysIn (Known t₂.termsById) := by
            refine ⟨fun a ha => ?_, fun id hid => ?_, hpool, hnone⟩
            · -- the issuance is of the dune that is entered here
              have hissued : issuanceOf deps cfg idx dunestone height t = some a := ha
              have hallocation : step.allocation = some a := by
                unfold issuanceOf at hissued
                rw [step.allocates] at hissued
                exact hissued
              obtain ⟨-, hid, hidx, -⟩ := step.etches.allocated hallocation
              refine ⟨⟨height, idx⟩, by rw [hid]; exact DuneId.tryFrom_toU128 hheight hidx, ?_⟩
              rw [step.terms hheight, hallocation]
              simp only [Table.get_insert, if_true, Option.isSome_some]
            · have hlimit : ((acceptClaims t height dunestone.claims).1.get id).isSome = true := hid
              rw [acceptClaims_limits] at hlimit
              split at hlimit
              · obtain ⟨limit, hacc⟩ := Option.isSome_iff_exists.mp hlimit
                exact (known_of_accepted hacc).mono hkept
              · cases hlimit
          have hend := foldlM_induct (P := fun _ st => EdictState.KeysIn (Known t₂.termsById) st)
            (fun _ _ _ _ hst hstep => hst.edict hstep) hstart (hedicts hcen)
          exact ⟨hend.unallocated, hend.allocated⟩
      exact assignRest_keys hrest hst.1 hst.2

/-- The transaction is a dunestone that etches. -/
def EtchesDune (deps : Deps) (tx : Transaction) (dunestone : Dunestone) : Prop :=
  Dunestone.fromTransaction deps tx = some dunestone ∧ dunestone.etching.isSome = true

/-- **What a transaction that etches a dune reports and enters.** -/
theorem RunesStep.etched (h : RunesStep deps cfg height idx tx resolver t dunes etches mints t')
    (hheight : height < 2 ^ 64) (hidx : idx < 2 ^ 16) :
    etches = [] ∧ t'.termsById = t.termsById ∨
      ∃ dunestone name, EtchesDune deps tx dunestone ∧ etches = [(idx, name)] ∧
        t'.termsById = t.termsById.insert ⟨height, idx⟩ (entryTerms dunestone name height) := by
  rcases h.cases with ⟨-, hetches, -, rfl, -⟩ | ⟨dunestone, etch, indices, hdunestone, -, hreported, -, ⟨step⟩⟩
  · exact Or.inl ⟨hetches, rfl⟩
  · have hterms := step.terms hheight
    have hetches := step.etches
    rw [hreported]
    generalize step.allocation = allocation at hterms hetches
    generalize step.entered = entered at hetches
    cases hetches with
    | none => exact Or.inl ⟨rfl, hterms⟩
    | @named etching dune hetching hname hreserved hfree =>
      rw [if_pos hidx] at hterms
      exact Or.inr ⟨dunestone, dune, ⟨hdunestone, by rw [hetching]; rfl⟩, rfl, hterms⟩
    | @reserved etching counter hetching hname hcounter =>
      rw [if_pos hidx] at hterms
      exact Or.inr ⟨dunestone, _, ⟨hdunestone, by rw [hetching]; rfl⟩, rfl, hterms⟩

end

/-! ## One block -/

/-- The dunes that an output carries have terms. -/
def CarriesKnown (terms : Table DuneId DuneTerms) (body : TxoBody) : Prop :=
  ∀ e ∈ body.dunes, DuneId.tryFrom e.1.toU128 = some e.1 ∧ (terms.get e.1).isSome = true

section

variable {terms terms' : Table DuneId DuneTerms}

theorem CarriesKnown.mono {body : TxoBody} (h : CarriesKnown terms body)
    (hsub : ∀ key v, terms.get key = some v → terms'.get key = some v) : CarriesKnown terms' body := by
  intro e he
  obtain ⟨hkey, hsome⟩ := h e he
  obtain ⟨v, hv⟩ := Option.isSome_iff_exists.mp hsome
  exact ⟨hkey, by rw [hsub e.1 v hv]; rfl⟩

/-- Outputs that are stored with known dunes. -/
theorem carriesKnown_of_stored {bodies : List TxoBody} {dunes : List Balances}
    (hstored : (bodies.map fun b => b.dunes.map fun e => (some e.1, e.2)) = dunes.map storedDunes)
    (h : ∀ m ∈ dunes, KeysIn (Known terms) m) {body : TxoBody} (hbody : body ∈ bodies) : CarriesKnown terms body := by
  intro e he
  have hmap : (body.dunes.map fun e => (some e.1, e.2)) ∈ dunes.map storedDunes := by
    rw [← hstored]
    exact List.mem_map_of_mem hbody
  obtain ⟨m, hm, heq⟩ := List.mem_map.mp hmap
  have hentry : (some e.1, e.2) ∈ storedDunes m := by
    rw [heq]
    exact List.mem_map_of_mem he
  obtain ⟨x, hx, hxe⟩ := List.mem_map.mp hentry
  have hkey : DuneId.tryFrom x.1 = some e.1 := congrArg Prod.fst hxe
  obtain ⟨key, hknown, hsome⟩ := (h m hm).of_get (Table.mem_entries.mp hx)
  rw [hkey] at hknown
  cases hknown
  rw [DuneId.toU128_tryFrom hkey]
  exact ⟨hkey, hsome⟩

/-- What a transaction finds on its inputs is known. -/
theorem LiveTx.inputs_known {live : Table TxoRef TxoBody} {tx : Transaction} {s : BlockState} (h : LiveTx live tx s)
    (hlive : ∀ ref body, live.get ref = some body → CarriesKnown terms body) :
    ∀ e ∈ inputDunes tx s.resolver, Known terms e.1 := by
  intro e he
  obtain ⟨txin, htxin, he⟩ := List.mem_flatMap.mp he
  split at he
  · cases he
  · obtain ⟨body, hbody, hresolved⟩ := h.inputs txin.previousOutput (List.mem_map_of_mem htxin)
    rw [hresolved] at he
    obtain ⟨x, hx, rfl⟩ := List.mem_map.mp he
    obtain ⟨hkey, hsome⟩ := hlive _ body hbody x hx
    exact ⟨x.1, hkey, hsome⟩

end

/-- The dunes that the first transactions of a block etch. -/
structure EtchedIn (deps : Deps) (height : Nat) (txs : List Transaction) (before : Table DuneId DuneTerms) (done : Nat)
    (terms : Table DuneId DuneTerms) (etches : List (Nat × U128)) : Prop where
  other : ∀ key, key.block ≠ height → terms.get key = before.get key
  entered : ∀ idx v, terms.get ⟨height, idx⟩ = some v ↔ ∃ name tx dunestone, (idx, name) ∈ etches ∧
    txs[idx]? = some tx ∧ EtchesDune deps tx dunestone ∧ v = entryTerms dunestone name height
  reported : ∀ e ∈ etches, e.1 < done ∧ ∃ tx dunestone, txs[e.1]? = some tx ∧ EtchesDune deps tx dunestone
  nodup : (etches.map Prod.fst).Nodup

section

variable {deps : Deps} {cfg : Config} {height idx done : Nat} {tx : Transaction} {resolver : Table TxoRef TxoBody}
  {t t' : DuneTables} {dunes : List Balances} {etches etches' : List (Nat × U128)} {mints : List (Nat × Nat)}
  {txs : List Transaction} {before : Table DuneId DuneTerms}

theorem EtchedIn.fresh (h : EtchedIn deps height txs before done t.termsById etches) :
    t.termsById.get ⟨height, done⟩ = none := by
  cases hget : t.termsById.get ⟨height, done⟩ with
  | none => rfl
  | some v =>
    obtain ⟨name, -, -, hmem, -⟩ := (h.entered done v).mp hget
    exact absurd (h.reported _ hmem).1 (Nat.lt_irrefl _)

/-- **One transaction more.** -/
theorem EtchedIn.step (h : EtchedIn deps height txs before done t.termsById etches)
    (hrunes : RunesStep deps cfg height done tx resolver t dunes etches' mints t') (htx : txs[done]? = some tx)
    (hheight : height < 2 ^ 64) (hdone : done < 2 ^ 16) :
    EtchedIn deps height txs before (done + 1) t'.termsById (etches ++ etches') := by
  have hlater : ∀ e ∈ etches, e.1 < done + 1 ∧ ∃ tx dunestone, txs[e.1]? = some tx ∧ EtchesDune deps tx dunestone :=
    fun e he => ⟨Nat.lt_succ_of_lt (h.reported e he).1, (h.reported e he).2⟩
  rcases hrunes.etched hheight hdone with ⟨rfl, hterms⟩ | ⟨dunestone, name, hetches, rfl, hterms⟩
  · rw [hterms, List.append_nil]
    exact ⟨h.other, h.entered, hlater, h.nodup⟩
  · rw [hterms]
    refine ⟨fun key hkey => ?_, fun idx v => ?_, fun e he => ?_, ?_⟩
    · rw [Table.get_insert, if_neg (by rintro rfl; exact hkey rfl)]
      exact h.other key hkey
    · rw [Table.get_insert]
      by_cases hidx : idx = done
      · subst hidx
        rw [if_pos rfl]
        constructor
        · intro heq
          exact ⟨name, tx, dunestone, List.mem_append_right _ (List.mem_singleton_self _), htx, hetches,
            (Option.some.inj heq).symm⟩
        · rintro ⟨name', tx', dunestone', hmem, htx', hetches', rfl⟩
          rcases List.mem_append.mp hmem with hmem | hmem
          · exact absurd (h.reported _ hmem).1 (Nat.lt_irrefl _)
          · obtain rfl : name' = name := congrArg Prod.snd (List.mem_singleton.mp hmem)
            rw [htx] at htx'
            cases htx'
            have hsame := hetches.1.symm.trans hetches'.1
            rw [Option.some.inj hsame]
      · rw [if_neg (fun heq => hidx (congrArg DuneId.tx heq)), h.entered]
        have hmem : ∀ name', (idx, name') ∈ etches ↔ (idx, name') ∈ etches ++ [(done, name)] := by
          intro name'
          rw [List.mem_append, List.mem_singleton]
          exact ⟨Or.inl, fun hor => hor.resolve_right fun heq => hidx (congrArg Prod.fst heq)⟩
        simp only [hmem]
    · rcases List.mem_append.mp he with he | he
      · exact hlater e he
      · rw [List.mem_singleton.mp he]
        exact ⟨Nat.lt_succ_self _, tx, dunestone, htx, hetches⟩
    · rw [List.map_append, List.nodup_append]
      refine ⟨h.nodup, List.nodup_singleton _, ?_⟩
      rintro i hi _ hmem rfl
      obtain ⟨e, he, rfl⟩ := List.mem_map.mp hi
      have hlt := (h.reported e he).1
      rw [List.mem_singleton.mp hmem] at hlt
      exact Nat.lt_irrefl _ hlt

end

/-- The entry of a block reports that one of its transactions etched a name. -/
def Tables.Reported (t : Tables) (id : DuneId) (name : U128) : Prop :=
  ∃ entry, t.resolverByHeight.get id.block = some entry ∧ (id.tx, name) ∈ entry.etches

/-- The terms are those of the reported etchings, and unspent outputs carry dunes with terms. -/
structure Tables.Etched (deps : Deps) (t : Tables) : Prop where
  count : ∀ height hash block, t.blockByHeight.get height = some (hash, block) → block.txdata.length ≤ 65536
  entered : ∀ id v, t.dunes.termsById.get id = some v ↔ ∃ name tx dunestone, t.Reported id name ∧ t.Stored id tx ∧
    EtchesDune deps tx dunestone ∧ v = entryTerms dunestone name id.block
  reported : ∀ id name, t.Reported id name → ∃ tx dunestone, t.Stored id tx ∧ EtchesDune deps tx dunestone
  nodup : ∀ height entry, t.resolverByHeight.get height = some entry → (entry.etches.map Prod.fst).Nodup
  known : ∀ ref body, t.txos.get ref = some body → CarriesKnown t.dunes.termsById body

section

variable {deps : Deps} {cfg : Config} {n n' : Node} {height : Nat} {block : Block} {mutable : Bool}

/-- **The etchings of an applied block**, and the dunes on the outputs that it leaves. -/
theorem Applied.etchedIn (run : Applied deps cfg n height block mutable n')
    (hvalid : ValidBlock n.db.tables height block) (hsettled : Settled n.mem n.db.tables.txos)
    (h : n.db.tables.Etched deps) :
    EtchedIn deps height block.txdata n.db.tables.dunes.termsById block.txdata.length run.final.dunes.termsById
        run.final.successfulEtches ∧
      ∀ ref body, n'.db.tables.txos.get ref = some body → CarriesKnown run.final.dunes.termsById body := by
  obtain ⟨hcbSpent, -⟩ := hvalid.coinbase.not_null run.processed.txdata
  obtain ⟨hopened, hetches, -⟩ := run.opened_dunes
  have hlen : block.txdata.length = run.processed.txs.length + 1 := by
    rw [run.processed.txdata, List.length_cons]
  have hcount := hvalid.count
  -- no dune of the block is known yet
  have hstart : EtchedIn deps height block.txdata n.db.tables.dunes.termsById 0
      run.processed.opened.dunes.termsById [] := by
    rw [hopened]
    refine ⟨fun _ _ => rfl, fun idx v => ?_, fun e he => (List.not_mem_nil he).elim, List.nodup_nil⟩
    constructor
    · intro hget
      obtain ⟨-, -, -, -, ⟨hash, stored, hblock, -⟩, -⟩ := (h.entered _ v).mp hget
      exact absurd (hvalid.later _ (Table.mem_entries.mpr hblock)) (Nat.lt_irrefl _)
    · rintro ⟨name, tx, dunestone, hmem, -⟩
      cases hmem
  have hkept := (run.processed.runes.terms hvalid.height hstart.fresh).1
  have hcoinbase : ∀ m ∈ run.processed.dunes, KeysIn (Known run.processed.duneTables.termsById) m := by
    refine run.processed.runes.keysIn hvalid.height hstart.fresh fun e he => ?_
    rw [coinbase_inputDunes hcbSpent] at he
    cases he
  have hcbAt : block.txdata[0]? = some run.processed.coinbase := by
    rw [run.processed.txdata]
    rfl
  have hfirst := hstart.step run.processed.runes hcbAt hvalid.height (by decide)
  have hend := run.live_induct hvalid hsettled.agrees hsettled.null
    (P := fun live done s =>
      EtchedIn deps height block.txdata n.db.tables.dunes.termsById (done.length + 1) s.dunes.termsById
        s.successfulEtches ∧
      (∀ m ∈ run.processed.dunes, KeysIn (Known s.dunes.termsById) m) ∧
      ∀ ref body, live.get ref = some body → CarriesKnown s.dunes.termsById body) ⟨?_, ?_, ?_⟩ ?_
  · obtain ⟨live, ⟨hetched, hcb, hlive⟩, hfresh, htxos⟩ := hend
    have hsteps : run.processed.steps.length + 1 = block.txdata.length := by
      have hmap := congrArg List.length (run.processed.processes.map_fst.trans (List.zipIdx_map_fst _ _))
      rw [List.length_map] at hmap
      rw [hlen, hmap]
    rw [congrArg BlockState.dunes run.processed.state, congrArg BlockState.successfulEtches run.processed.state]
    rw [hsteps] at hetched
    refine ⟨hetched, fun ref body hget => ?_⟩
    rw [htxos] at hget
    unfold afterCoinbase at hget
    rcases Table.get_insertAll hget with hmem | ⟨-, hget⟩
    · obtain ⟨-, vout, -, hbody⟩ := mem_numbered.mp hmem
      exact carriesKnown_of_stored run.processed.stored hcb (List.mem_of_getElem? hbody)
    · exact hlive ref body hget
  · rw [run.processed.starts, hetches]
    exact hfirst
  · rw [run.processed.starts]
    exact hcoinbase
  · intro ref body hget
    rw [run.processed.starts]
    have hbody := h.known ref body hget
    rw [← hopened] at hbody
    exact hbody.mono hkept
  · rintro live done tx idx s s₁ ptx hidx hpre hliveTx - ⟨hetched, hcb, hlive⟩
    obtain rfl := run.processed.index_eq hvalid.txids hidx hpre
    obtain ⟨hle, hget⟩ := List.mk_mem_zipIdx_iff_le_and_getElem?_sub.mp hidx
    have htx : block.txdata[done.length + 1]? = some tx := by
      rw [run.processed.txdata, List.getElem?_cons_succ]
      simpa using hget
    have hlt := (List.getElem?_eq_some_iff.mp htx).1
    have hsub := (ptx.runes.terms hvalid.height hetched.fresh).1
    have hkeys := ptx.runes.keysIn hvalid.height hetched.fresh (hliveTx.inputs_known hlive)
    rw [congrArg BlockState.dunes ptx.state, congrArg BlockState.successfulEtches ptx.state, List.length_append,
      List.length_singleton]
    refine ⟨hetched.step ptx.runes htx hvalid.height (by omega), fun m hm => (hcb m hm).mono fun _ => Known.mono hsub,
      fun ref body hbody => ?_⟩
    unfold afterTx at hbody
    rcases Table.get_insertAll hbody with hmem | ⟨-, hbody⟩
    · obtain ⟨-, vout, -, hbody⟩ := mem_numbered.mp hmem
      exact carriesKnown_of_stored ptx.stored hkeys (List.mem_of_getElem? hbody)
    · rw [Table.get_eraseAll] at hbody
      split at hbody
      · cases hbody
      · exact (hlive ref body hbody).mono hsub

/-- A block keeps the etchings in order. -/
theorem Applied.etched (run : Applied deps cfg n height block mutable n')
    (hvalid : ValidBlock n.db.tables height block) (hsettled : Settled n.mem n.db.tables.txos)
    (h : n.db.tables.Etched deps) : n'.db.tables.Etched deps := by
  obtain ⟨hetched, hknown⟩ := run.etchedIn hvalid hsettled h
  obtain ⟨log, htables⟩ := run.tables
  have hdunes : n'.db.tables.dunes = run.final.dunes := by rw [htables]
  have hentry : n'.db.tables.resolverByHeight.get height =
      some (resolverEntry n.db.tables block run.final run.staged) := by
    rw [htables]
    exact (Table.get_insert _ _ _ _).trans (if_pos rfl)
  have hblock : n'.db.tables.blockByHeight.get height = some (block.hash, block) := by
    rw [htables]
    exact (Table.get_insert _ _ _ _).trans (if_pos rfl)
  have hold : ∀ height', height' ≠ height →
      n'.db.tables.resolverByHeight.get height' = n.db.tables.resolverByHeight.get height' ∧
        n'.db.tables.blockByHeight.get height' = n.db.tables.blockByHeight.get height' := by
    intro height' hne
    rw [htables]
    exact ⟨(Table.get_insert _ _ _ _).trans (if_neg hne), (Table.get_insert _ _ _ _).trans (if_neg hne)⟩
  have hreported : ∀ idx name, n'.db.tables.Reported ⟨height, idx⟩ name ↔ (idx, name) ∈ run.final.successfulEtches := by
    intro idx name
    unfold Tables.Reported
    simp only [hentry, Option.some.injEq, exists_eq_left']
    exact Iff.rfl
  have hstored : ∀ idx tx, n'.db.tables.Stored ⟨height, idx⟩ tx ↔ block.txdata[idx]? = some tx := by
    intro idx tx
    unfold Tables.Stored
    constructor
    · rintro ⟨hash, stored, hget, hat⟩
      rw [hblock] at hget
      cases hget
      exact hat
    · exact fun hat => ⟨_, _, hblock, hat⟩
  have hreportedOld : ∀ id : DuneId, id.block ≠ height → n'.db.tables.Reported id = n.db.tables.Reported id := by
    intro id hne
    unfold Tables.Reported
    rw [(hold id.block hne).1]
  have hstoredOld : ∀ id : DuneId, id.block ≠ height → n'.db.tables.Stored id = n.db.tables.Stored id := by
    intro id hne
    unfold Tables.Stored
    rw [(hold id.block hne).2]
  refine ⟨fun height' hash stored hget => ?_, fun id v => ?_, fun id name hrep => ?_, fun height' entry hget => ?_, ?_⟩
  · by_cases hne : height' = height
    · rw [hne, hblock] at hget
      cases hget
      exact hvalid.count
    · rw [(hold height' hne).2] at hget
      exact h.count height' hash stored hget
  · by_cases hne : id.block = height
    · obtain ⟨height', idx⟩ := id
      obtain rfl : height' = height := hne
      simp only [hdunes, hetched.entered, hreported, hstored]
    · rw [hdunes, hetched.other id hne, h.entered, hreportedOld id hne, hstoredOld id hne]
  · by_cases hne : id.block = height
    · obtain ⟨height', idx⟩ := id
      obtain rfl : height' = height := hne
      obtain ⟨-, tx, dunestone, htx, hetches⟩ := hetched.reported _ ((hreported idx name).mp hrep)
      exact ⟨tx, dunestone, (hstored idx tx).mpr htx, hetches⟩
    · rw [hreportedOld id hne] at hrep
      rw [hstoredOld id hne]
      exact h.reported id name hrep
  · by_cases hne : height' = height
    · rw [hne, hentry] at hget
      cases hget
      exact hetched.nodup
    · rw [(hold height' hne).1] at hget
      exact h.nodup height' entry hget
  · rw [hdunes]
    exact hknown

end

/-! ## Reachable nodes -/

section

variable {deps : Deps} {cfg : Config} {C : Node → Call → Prop} {t t' : Tables}

theorem Tables.Etched.empty (deps : Deps) : Tables.empty.Etched deps := by
  refine ⟨fun height hash block h => (by cases h), fun id v => iff_of_false ?_ ?_, ?_, ?_, ?_⟩
  · intro h
    cases h
  · rintro ⟨-, -, -, ⟨entry, h, -⟩, -⟩
    cases h
  · rintro id name ⟨entry, h, -⟩
    cases h
  · intro height entry h
    cases h
  · intro ref body h
    cases h

theorem SameNames.etched (h : SameNames t' t) (hetched : t.Etched deps) : t'.Etched deps := by
  have hreported : t'.Reported = t.Reported := by
    unfold Tables.Reported
    rw [h.resolvers]
  have hstored : t'.Stored = t.Stored := by
    unfold Tables.Stored
    rw [h.blocks]
  refine ⟨?_, ?_, ?_, ?_, ?_⟩
  · rw [h.blocks]
    exact hetched.count
  · rw [hreported, hstored, h.dunes.terms]
    exact hetched.entered
  · rw [hreported, hstored]
    exact hetched.reported
  · rw [h.resolvers]
    exact hetched.nodup
  · rw [h.txos, h.dunes.terms]
    exact hetched.known

/-- **Etchings of a reachable node**: the names are in bijection with the ids, the terms are those of the reported
etchings, and unspent outputs carry dunes with terms. -/
theorem Reach.etched {n : Node} (hC : ∀ n call, C n call → call.height < 2 ^ 32) (h : Reach deps cfg C n) :
    n.db.tables.Named deps ∧ n.db.tables.Etched deps := by
  obtain ⟨l, hl⟩ := h.history (restores_sameNames deps cfg hC)
  refine ⟨hl.blocks.named hC (fun _ _ => id), ?_⟩
  refine (History.induct hl.blocks (Tables.Etched.empty deps) (fun _ _ hsame => hsame.etched) ?_).1
  rintro t₀ e t₁ hetched ⟨run, hvalid, hsettled, -⟩
  exact run.etched hvalid hsettled hetched

end

end DogeIndexer.Compressor
