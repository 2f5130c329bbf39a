import DogeIndexer.Compressor.Mints
import DogeIndexer.Compressor.Reach

/-!
# Names of dunes

Names and ids of dunes are in bijection in every reachable node, and the next reserved name is free.  A
rollback finds the name of an etched dune in its terms and takes the counter of reserved names back.

* `RunesStep.names` — what a transaction does to names, terms and the counter.
* `NamesStep.undoDunes_eq` — the etching of a transaction is undone.
* `names_bijective` — the bijection, the reserved names, and the next of them.
-/

set_option autoImplicit false

namespace DogeIndexer.Compressor

open Fallible Effect

/-! ## One transaction -/

/-- The dune that a transaction etches: under its own number, with a name that is free, chosen below
`RESERVED` or taken from the counter. -/
inductive Names (deps : Deps) (cfg : Config) (height idx : Nat) (tx : Transaction) (t t' : DuneTables) : Prop
  | kept (hnames : t'.idByName = t.idByName) (hterms : t'.termsById = t.termsById)
      (hcounter : t'.reservedCounter = t.reservedCounter) : Names deps cfg height idx tx t t'
  | chosen (dunestone : Dunestone) (etching : Etching) (terms : DuneTerms)
      (hdunestone : Dunestone.fromTransaction deps tx = some dunestone) (hetching : dunestone.etching = some etching)
      (hchosen : etching.dune = some terms.name) (hbelow : terms.name.val < RESERVED)
      (hfree : t.idByName.get terms.name = none)
      (hnames : t'.idByName = t.idByName.insert terms.name ⟨height, idx⟩)
      (hterms : t'.termsById = t.termsById.insert ⟨height, idx⟩ terms)
      (hcounter : t'.reservedCounter = t.reservedCounter) : Names deps cfg height idx tx t t'
  | reserved (dunestone : Dunestone) (etching : Etching) (terms : DuneTerms) (counter : U64)
      (hdunestone : Dunestone.fromTransaction deps tx = some dunestone) (hetching : dunestone.etching = some etching)
      (hunnamed : etching.dune = none) (hname : terms.name = Dune.reserved (t.reservedCounter.getD 0))
      (hadd : Machine.add cfg.checks (t.reservedCounter.getD 0) 1 = some counter)
      (hnames : t'.idByName = t.idByName.insert terms.name ⟨height, idx⟩)
      (hterms : t'.termsById = t.termsById.insert ⟨height, idx⟩ terms)
      (hcounter : t'.reservedCounter = some counter) : Names deps cfg height idx tx t t'

theorem entryTerms_name (dunestone : Dunestone) (dune : U128) (height : Nat) :
    (entryTerms dunestone dune height).name = dune := by
  unfold entryTerms
  split
  · rfl
  · split <;> rfl

section

variable {deps : Deps} {cfg : Config} {height idx : Nat} {tx : Transaction} {resolver : Table TxoRef TxoBody}
  {t t' : DuneTables} {dunes : List Balances} {etches : List (Nat × U128)} {mints : List (Nat × Nat)}

/-- **What a transaction does to the names.** -/
theorem RunesStep.names (h : RunesStep deps cfg height idx tx resolver t dunes etches mints t')
    (hheight : height < 2 ^ 64) (hidx : idx < 2 ^ 16) : Names deps cfg height idx tx t t' := by
  rcases h.cases with ⟨-, -, -, rfl, -⟩ | ⟨dunestone, etch, indices, hdunestone, -, -, -, ⟨step⟩⟩
  · exact .kept rfl rfl rfl
  · have hid : ∀ a, step.allocation = some a → step.id = ⟨height, idx⟩ := fun a ha => step.id_eq ha hheight
    have htables := step.tables
    have hetches := step.etches
    generalize step.allocation = allocation at hid htables hetches
    generalize step.entered = entered at htables hetches
    cases hetches with
    | none =>
      rw [htables]
      exact .kept rfl rfl rfl
    | @named etching dune hetching hname hreserved hfree =>
      rw [if_pos hidx] at htables hid
      rw [hid _ rfl] at htables
      have heq := entryTerms_name dunestone dune height
      refine .chosen dunestone etching (entryTerms dunestone dune height) hdunestone hetching ?_ ?_ ?_ ?_ ?_ ?_
      · rw [heq, hname]
      · rw [heq]
        exact hreserved
      · rw [heq]
        exact hfree
      · rw [heq, htables]
        rfl
      · rw [htables]
        rfl
      · rw [htables]
        rfl
    | @reserved etching counter hetching hname hcounter =>
      rw [if_pos hidx] at htables hid
      rw [hid _ rfl] at htables
      have heq := entryTerms_name dunestone (Dune.reserved (t.reservedCounter.getD 0)) height
      refine .reserved dunestone etching (entryTerms dunestone (Dune.reserved (t.reservedCounter.getD 0)) height)
        counter hdunestone hetching hname heq hcounter ?_ ?_ ?_
      · rw [heq, htables]
        rfl
      · rw [htables]
        rfl
      · rw [htables]
        rfl

end

/-! ## The names in use -/

/-- How the name of a dune came about: chosen in the etching, below `RESERVED`, or the next reserved one at a
time when fewer were in use. -/
inductive NamedBy (deps : Deps) (counter : U64) (name : U128) (tx : Transaction) : Prop
  | chosen (dunestone : Dunestone) (etching : Etching)
      (hdunestone : Dunestone.fromTransaction deps tx = some dunestone) (hetching : dunestone.etching = some etching)
      (hchosen : etching.dune = some name) (hbelow : name.val < RESERVED) : NamedBy deps counter name tx
  | reserved (dunestone : Dunestone) (etching : Etching) (k : U64)
      (hdunestone : Dunestone.fromTransaction deps tx = some dunestone) (hetching : dunestone.etching = some etching)
      (hunnamed : etching.dune = none) (hname : name = Dune.reserved k) (hearlier : k < counter) :
      NamedBy deps counter name tx

/-- Names and ids are in bijection, and every dune was etched by the transaction at its number. -/
structure NamesInUse (deps : Deps) (etcher : DuneId → Transaction → Prop) (t : DuneTables) : Prop where
  bijective : ∀ name id, t.idByName.get name = some id ↔ ∃ terms, t.termsById.get id = some terms ∧ terms.name = name
  etched : ∀ id terms, t.termsById.get id = some terms → ∃ tx, etcher id tx ∧
    NamedBy deps (t.reservedCounter.getD 0) terms.name tx

/-- Reserved names do not leave the range of a name. -/
theorem reserved_val (k : U64) : (Dune.reserved k).val = RESERVED + k.val := by
  have hk := k.isLt
  unfold Dune.reserved RESERVED
  simp only [Fin.ofNat]
  omega

theorem NamedBy.mono {deps : Deps} {counter counter' : U64} {name : U128} {tx : Transaction}
    (h : NamedBy deps counter name tx) (hle : counter ≤ counter') : NamedBy deps counter' name tx := by
  cases h with
  | chosen dunestone etching hdunestone hetching hchosen hbelow =>
    exact .chosen dunestone etching hdunestone hetching hchosen hbelow
  | reserved dunestone etching k hdunestone hetching hunnamed hname hearlier =>
    exact .reserved dunestone etching k hdunestone hetching hunnamed hname (lt_of_lt_of_le hearlier hle)

theorem NamedBy.ne_reserved {deps : Deps} {counter : U64} {name : U128} {tx : Transaction}
    (h : NamedBy deps counter name tx) : name ≠ Dune.reserved counter := by
  intro heq
  have hval := reserved_val counter
  cases h with
  | chosen dunestone etching hdunestone hetching hchosen hbelow =>
    rw [heq, hval] at hbelow
    omega
  | reserved dunestone etching k hdunestone hetching hunnamed hname hearlier =>
    rw [heq] at hname
    have := congrArg Fin.val hname
    rw [hval, reserved_val] at this
    have hlt := Fin.lt_def.mp hearlier
    omega

section

variable {deps : Deps} {cfg : Config} {height idx : Nat} {tx : Transaction} {t t' : DuneTables}
  {etcher etcher' : DuneId → Transaction → Prop}

/-- **The next reserved name is free.** -/
theorem NamesInUse.reserved_free (h : NamesInUse deps etcher t) :
    t.idByName.get (Dune.reserved (t.reservedCounter.getD 0)) = none := by
  cases hget : t.idByName.get (Dune.reserved (t.reservedCounter.getD 0)) with
  | none => rfl
  | some id =>
    obtain ⟨terms, hterms, hname⟩ := (h.bijective _ _).mp hget
    obtain ⟨tx, -, hnamed⟩ := h.etched id terms hterms
    exact absurd hname hnamed.ne_reserved

theorem NamesInUse.mono (h : NamesInUse deps etcher t) (hsub : ∀ id tx, etcher id tx → etcher' id tx) :
    NamesInUse deps etcher' t := by
  refine ⟨h.bijective, fun id terms hget => ?_⟩
  obtain ⟨tx, hetcher, hnamed⟩ := h.etched id terms hget
  exact ⟨tx, hsub id tx hetcher, hnamed⟩

/-- A free name and a free id are entered together. -/
theorem bijective_insert {names : Table U128 DuneId} {byId : Table DuneId DuneTerms} {id₀ : DuneId} {terms₀ : DuneTerms}
    (h : ∀ name id, names.get name = some id ↔ ∃ terms, byId.get id = some terms ∧ terms.name = name)
    (hname : names.get terms₀.name = none) (hid : byId.get id₀ = none) (name : U128) (id : DuneId) :
    (names.insert terms₀.name id₀).get name = some id ↔
      ∃ terms, (byId.insert id₀ terms₀).get id = some terms ∧ terms.name = name := by
  simp only [Table.get_insert]
  constructor
  · intro hget
    split at hget
    · rename_i heq
      cases hget
      exact ⟨terms₀, if_pos rfl, heq.symm⟩
    · obtain ⟨terms, hterms, heq⟩ := (h name id).mp hget
      refine ⟨terms, ?_, heq⟩
      rw [if_neg]
      · exact hterms
      · rintro rfl
        rw [hid] at hterms
        cases hterms
  · rintro ⟨terms, hterms, rfl⟩
    split at hterms
    · rename_i heq
      cases hterms
      rw [if_pos rfl, heq]
    · have hold := (h terms.name id).mpr ⟨terms, hterms, rfl⟩
      rw [if_neg]
      · exact hold
      · intro heq
        rw [heq, hname] at hold
        cases hold

/-- The dune of a transaction is entered. -/
theorem NamesInUse.insert (h : NamesInUse deps etcher t) {terms : DuneTerms}
    (hnames : t'.idByName = t.idByName.insert terms.name ⟨height, idx⟩)
    (hterms : t'.termsById = t.termsById.insert ⟨height, idx⟩ terms)
    (hle : t.reservedCounter.getD 0 ≤ t'.reservedCounter.getD 0)
    (hname : t.idByName.get terms.name = none) (hid : t.termsById.get ⟨height, idx⟩ = none)
    (hnamed : NamedBy deps (t'.reservedCounter.getD 0) terms.name tx) :
    NamesInUse deps (fun id tx' => etcher id tx' ∨ id = ⟨height, idx⟩ ∧ tx' = tx) t' := by
  refine ⟨?_, fun id terms' hget => ?_⟩
  · rw [hnames, hterms]
    exact bijective_insert h.bijective hname hid
  · rw [hterms, Table.get_insert] at hget
    split at hget
    · rename_i heq
      cases hget
      exact ⟨tx, Or.inr ⟨heq, rfl⟩, hnamed⟩
    · obtain ⟨tx', hetcher, hold⟩ := h.etched id terms' hget
      exact ⟨tx', Or.inl hetcher, hold.mono hle⟩

/-- **A transaction keeps the names in order**, as long as the counter does not overflow. -/
theorem Names.inUse (h : Names deps cfg height idx tx t t') (huse : NamesInUse deps etcher t)
    (hid : t.termsById.get ⟨height, idx⟩ = none) (hcount : (t.reservedCounter.getD 0).val + 1 < 2 ^ 64) :
    NamesInUse deps (fun id tx' => etcher id tx' ∨ id = ⟨height, idx⟩ ∧ tx' = tx) t' ∧
      (t'.reservedCounter.getD 0).val ≤ (t.reservedCounter.getD 0).val + 1 := by
  cases h with
  | kept hnames hterms hcounter =>
    rw [hcounter]
    refine ⟨⟨?_, ?_⟩, Nat.le_succ _⟩
    · rw [hnames, hterms]
      exact huse.bijective
    · rw [hterms, hcounter]
      exact (huse.mono (fun _ _ => Or.inl)).etched
  | chosen dunestone etching terms hdunestone hetching hchosen hbelow hfree hnames hterms hcounter =>
    refine ⟨huse.insert hnames hterms (by rw [hcounter]) hfree hid ?_, by rw [hcounter]; exact Nat.le_succ _⟩
    exact .chosen dunestone etching hdunestone hetching hchosen hbelow
  | reserved dunestone etching terms counter hdunestone hetching hunnamed hname hadd hnames hterms hcounter =>
    rw [Machine.add_of_lt cfg.checks hcount] at hadd
    have hval : (t'.reservedCounter.getD 0).val = (t.reservedCounter.getD 0).val + 1 := by
      rw [hcounter, Option.getD_some, ← Option.some.inj hadd]
      rfl
    refine ⟨huse.insert hnames hterms ?_ ?_ hid ?_, hval.le⟩
    · rw [Fin.le_def]
      omega
    · rw [hname]
      exact huse.reserved_free
    · refine .reserved dunestone etching (t.reservedCounter.getD 0) hdunestone hetching hunnamed hname ?_
      rw [Fin.lt_def]
      omega

end

/-! ## Undo -/

/-- Dune tables with the same names, terms and counter; an absent counter reads as 0. -/
structure DuneTables.SameNames (t t' : DuneTables) : Prop where
  names : t.idByName = t'.idByName
  terms : t.termsById = t'.termsById
  counter : t.reservedCounter.getD 0 = t'.reservedCounter.getD 0

theorem DuneTables.SameNames.refl (t : DuneTables) : t.SameNames t := ⟨rfl, rfl, rfl⟩

theorem DuneTables.SameNames.trans {t t' t'' : DuneTables} (h : t.SameNames t') (h' : t'.SameNames t'') :
    t.SameNames t'' :=
  ⟨h.names.trans h'.names, h.terms.trans h'.terms, h.counter.trans h'.counter⟩

/-- The claims of a transaction with their indices. -/
def claimsOf (deps : Deps) (tx : Transaction) : List (U128 × Nat) :=
  match Dunestone.fromTransaction deps tx with
  | none => []
  | some dunestone => dunestone.claims.zipIdx

/-- The dunes of the claims of a transaction whose indices are reported. -/
def undoneClaims (deps : Deps) (mints : List (Nat × Nat)) (e : Transaction × Nat) : List DuneId :=
  (claimsOf deps e.1).filterMap fun c => (DuneId.tryFrom c.1).filter fun _ => mints.contains (e.2, c.2 % 2 ^ 16)

/-- One mint less for each of the dunes. -/
def subMints (t : Table DuneId U128) (keys : List DuneId) : Except Err (Table DuneId U128) :=
  keys.foldlM (fun t key => (orPanic (Machine.checkedSub (t.getD key 0) 1)).map (t.insert key)) t

theorem undoMints_eq (mints : List (Nat × Nat)) (idx : Nat) (t : DuneTables) (claims : List (U128 × Nat)) :
    undoMints mints idx t claims = (subMints t.mintsById (claims.filterMap fun c =>
      (DuneId.tryFrom c.1).filter fun _ => mints.contains (idx, c.2 % 2 ^ 16))).map
        fun m => { t with mintsById := m } := by
  induction claims generalizing t with
  | nil => rfl
  | cons c claims ih =>
    obtain ⟨id, claimIdx⟩ := c
    unfold undoMints at ih ⊢
    rw [List.foldlM_cons, List.filterMap_cons]
    simp only
    cases hkey : DuneId.tryFrom id with
    | none =>
      rw [Option.filter_none]
      exact ih t
    | some key =>
      rw [Option.filter_some]
      by_cases hmem : (idx, claimIdx % 2 ^ 16) ∈ mints
      · simp only [hmem, List.contains_iff_mem.mpr hmem, if_true]
        unfold subMints
        rw [List.foldlM_cons]
        cases Machine.checkedSub (t.mintsById.getD key 0) 1 with
        | none => rfl
        | some newMints => exact ih { t with mintsById := t.mintsById.insert key newMints }
      · have hnot : ¬ mints.contains (idx, claimIdx % 2 ^ 16) = true := fun h => hmem (List.contains_iff_mem.mp h)
        simp only [hmem, hnot, if_false]
        exact ih t

section

variable {deps : Deps} {cfg : Config} {height idx : Nat} {tx : Transaction} {t t' u : DuneTables}

theorem undoDunes_none {mints : List (Nat × Nat)} (h : Dunestone.fromTransaction deps tx = none) :
    undoDunes deps height mints idx tx u = undoMints mints idx u (claimsOf deps tx) := by
  unfold undoDunes claimsOf
  rw [h]
  rfl

theorem undoDunes_some {mints : List (Nat × Nat)} {dunestone : Dunestone} {u₁ : DuneTables}
    (h : Dunestone.fromTransaction deps tx = some dunestone)
    (hetching : ∀ etching, dunestone.etching = some etching → undoEtching u ⟨height, idx⟩ etching = .ok u₁)
    (hnone : dunestone.etching = none → u₁ = u) :
    undoDunes deps height mints idx tx u = undoMints mints idx u₁ (claimsOf deps tx) := by
  unfold undoDunes claimsOf
  rw [h]
  simp only
  cases hcase : dunestone.etching with
  | none =>
    rw [hnone hcase]
    rfl
  | some etching =>
    simp only [hetching etching hcase]
    rfl

/-- A transaction whose number has no dune yet, where the next reserved name is free and the counter does not
overflow. -/
structure NamesStep (deps : Deps) (cfg : Config) (height idx : Nat) (tx : Transaction) (t t' : DuneTables) :
    Prop where
  names : Names deps cfg height idx tx t t'
  id : t.termsById.get ⟨height, idx⟩ = none
  reserved : t.idByName.get (Dune.reserved (t.reservedCounter.getD 0)) = none
  count : (t.reservedCounter.getD 0).val + 1 < 2 ^ 64

/-- Undo of the etching of a transaction: the names before it, and then the mints are undone. -/
theorem NamesStep.undoEtching_eq (h : NamesStep deps cfg height idx tx t t') (hu : u.SameNames t')
    (mints : List (Nat × Nat)) :
    ∃ u₁, u₁.SameNames t ∧ u₁.mintsById = u.mintsById ∧
      undoDunes deps height mints idx tx u = undoMints mints idx u₁ (claimsOf deps tx) := by
  obtain ⟨hnames, hid, hreserved, hcount⟩ := h
  cases hnames with
  | kept hnames hterms hcounter =>
    refine ⟨u, ⟨hu.names.trans hnames, hu.terms.trans hterms, hu.counter.trans (by rw [hcounter])⟩, rfl, ?_⟩
    cases hdunestone : Dunestone.fromTransaction deps tx with
    | none => exact undoDunes_none hdunestone
    | some dunestone =>
      refine undoDunes_some hdunestone (fun etching _ => ?_) (fun _ => rfl)
      unfold undoEtching
      rw [hu.terms, hterms, hid]
  | chosen dunestone etching terms hdunestone hetching hchosen hbelow hfree hnames hterms hcounter =>
    refine ⟨{ u with idByName := u.idByName.erase terms.name, termsById := u.termsById.erase ⟨height, idx⟩ },
      ⟨?_, ?_, ?_⟩, rfl, ?_⟩
    · simp only [hu.names, hnames]
      exact Table.erase_insert hfree
    · simp only [hu.terms, hterms]
      exact Table.erase_insert hid
    · exact hu.counter.trans (by rw [hcounter])
    · refine undoDunes_some hdunestone (fun etching' hetching' => ?_) (fun hnone => ?_)
      · rw [hetching] at hetching'
        cases hetching'
        have hget : u.termsById.get ⟨height, idx⟩ = some terms := by
          rw [hu.terms, hterms, Table.get_insert, if_pos rfl]
        unfold undoEtching
        rw [hget, hchosen]
        rfl
      · rw [hetching] at hnone
        cases hnone
  | reserved dunestone etching terms counter hdunestone hetching hunnamed hname hadd hnames hterms hcounter =>
    have hsub : Machine.checkedSub (u.reservedCounter.getD 0) 1 = some (t.reservedCounter.getD 0) := by
      have hval : (u.reservedCounter.getD 0).val = (t.reservedCounter.getD 0).val + 1 := by
        rw [hu.counter, hcounter, Option.getD_some]
        rw [Machine.add_of_lt cfg.checks hcount] at hadd
        rw [← Option.some.inj hadd]
        rfl
      have hone : (1 : U64).val = 1 := rfl
      rw [Machine.checkedSub_of_le (by omega)]
      exact congrArg some (Fin.ext (by simp only; omega))
    refine ⟨⟨u.idByName.erase terms.name, u.termsById.erase ⟨height, idx⟩, u.mintsById,
      some (t.reservedCounter.getD 0)⟩, ⟨?_, ?_, rfl⟩, rfl, ?_⟩
    · simp only [hu.names, hnames]
      exact Table.erase_insert (by rw [hname]; exact hreserved)
    · simp only [hu.terms, hterms]
      exact Table.erase_insert hid
    · refine undoDunes_some hdunestone (fun etching' hetching' => ?_) (fun hnone => ?_)
      · rw [hetching] at hetching'
        cases hetching'
        have hget : u.termsById.get ⟨height, idx⟩ = some terms := by
          rw [hu.terms, hterms, Table.get_insert, if_pos rfl]
        unfold undoEtching
        rw [hget, hunnamed]
        simp only [Option.isNone_none, if_true, hsub]
        rfl
      · rw [hetching] at hnone
        cases hnone

/-- **Undo of a transaction**: the names before it, and the counts of the reported claims taken down. -/
theorem NamesStep.undoDunes_eq (h : NamesStep deps cfg height idx tx t t') (hu : u.SameNames t')
    (mints : List (Nat × Nat)) :
    ∃ counter : Option U64, counter.getD 0 = t.reservedCounter.getD 0 ∧
      undoDunes deps height mints idx tx u = (subMints u.mintsById (undoneClaims deps mints (tx, idx))).map
        fun m => ⟨t.idByName, t.termsById, m, counter⟩ := by
  obtain ⟨u₁, hu₁, hmints, heq⟩ := h.undoEtching_eq hu mints
  refine ⟨u₁.reservedCounter, hu₁.counter, ?_⟩
  rw [heq, undoMints_eq, hmints, hu₁.names, hu₁.terms]
  rfl

end

/-! ## One block -/

/-- The transaction at a number, in the stored blocks. -/
def Tables.Stored (t : Tables) (id : DuneId) (tx : Transaction) : Prop :=
  ∃ hash block, t.blockByHeight.get id.block = some (hash, block) ∧ block.txdata[id.tx]? = some tx

/-- The names of the tables are in order, and there are fewer reserved ones than transactions. -/
structure Tables.Named (deps : Deps) (t : Tables) : Prop where
  inUse : NamesInUse deps t.Stored t.dunes
  counter : ∀ height, (∀ e ∈ t.blockByHeight.entries, e.1 < height) →
    (t.dunes.reservedCounter.getD 0).val ≤ 65536 * height

section

variable {deps : Deps} {cfg : Config} {n n' : Node} {height : Nat} {block : Block} {mutable : Bool}

/-- **Rule for the names of an applied block**: besides the step, what it needs to be undone. -/
theorem Applied.names_induct (run : Applied deps cfg n height block mutable n')
    (hvalid : ValidBlock n.db.tables height block) (hheight : height < 2 ^ 32) (hnamed : n.db.tables.Named deps)
    {P : List (Nat × Transaction × BlockState) → DuneTables → List (Nat × Nat) → Prop}
    (h : P [] n.db.tables.dunes [])
    (hstep : ∀ done tx s dunes etches mints t, (done ++ [(done.length, tx, s)]) <+: runeSteps deps cfg n height block →
      RunesStep deps cfg height done.length tx s.resolver s.dunes dunes etches mints t →
      NamesStep deps cfg height done.length tx s.dunes t →
      P done s.dunes s.successfulMints → P (done ++ [(done.length, tx, s)]) t (s.successfulMints ++ mints)) :
    P (runeSteps deps cfg n height block) run.final.dunes run.final.successfulMints ∧
      NamesInUse deps (fun id tx => n.db.tables.Stored id tx ∨ id.block = height ∧ block.txdata[id.tx]? = some tx)
        run.final.dunes ∧
      (run.final.dunes.reservedCounter.getD 0).val ≤ 65536 * height + block.txdata.length := by
  have hend := run.rune_induct (P := fun done t _ mints => P done t mints ∧
    NamesInUse deps (fun id tx => n.db.tables.Stored id tx ∨
      id.block = height ∧ id.tx < done.length ∧ block.txdata[id.tx]? = some tx) t ∧
    (t.reservedCounter.getD 0).val ≤ 65536 * height + done.length) ⟨h, ?_, ?_⟩ ?_
  · obtain ⟨hP, huse, hcount⟩ := hend
    refine ⟨hP, huse.mono (fun id tx => Or.imp_right (fun h => ⟨h.1, h.2.2⟩)), ?_⟩
    rw [← run.runeSteps_tx, List.length_map]
    exact hcount
  · exact hnamed.inUse.mono (fun _ _ => Or.inl)
  · exact hnamed.counter height hvalid.later
  · rintro done idx tx s dunes etches mints t hpre rfl htx hrunes ⟨hP, huse, hcount⟩
    have hlength : done.length < block.txdata.length := by
      rw [← run.runeSteps_tx, List.length_map]
      have := hpre.length_le
      rw [List.length_append, List.length_singleton] at this
      omega
    have hcount' := hvalid.count
    have hnames := hrunes.names hvalid.height (by omega)
    have hid : s.dunes.termsById.get ⟨height, done.length⟩ = none := by
      cases hget : s.dunes.termsById.get ⟨height, done.length⟩ with
      | none => rfl
      | some terms =>
        obtain ⟨tx', hetcher | ⟨-, hlt, -⟩, -⟩ := huse.etched _ _ hget
        · obtain ⟨hash, stored, hblock, -⟩ := hetcher
          exact absurd (hvalid.later _ (Table.mem_entries.mpr hblock)) (Nat.lt_irrefl _)
        · exact absurd hlt (Nat.lt_irrefl _)
    have hstep' : NamesStep deps cfg height done.length tx s.dunes t :=
      ⟨hnames, hid, huse.reserved_free, by omega⟩
    obtain ⟨hafter, hle⟩ := hnames.inUse huse hid hstep'.count
    refine ⟨hstep done tx s dunes etches mints t hpre hrunes hstep' hP, hafter.mono ?_, ?_⟩
    · rintro id tx' ((hold | ⟨hblock, hlt, hat⟩) | ⟨rfl, rfl⟩)
      · exact Or.inl hold
      · refine Or.inr ⟨hblock, ?_, hat⟩
        rw [List.length_append]
        exact Nat.lt_add_right _ hlt
      · refine Or.inr ⟨rfl, ?_, htx⟩
        rw [List.length_append]
        exact Nat.lt_succ_self _
    · rw [List.length_append, List.length_singleton]
      omega

/-- A block keeps the names in order. -/
theorem Applied.named (run : Applied deps cfg n height block mutable n')
    (hvalid : ValidBlock n.db.tables height block) (hheight : height < 2 ^ 32) (hnamed : n.db.tables.Named deps) :
    n'.db.tables.Named deps := by
  obtain ⟨-, huse, hcount⟩ := run.names_induct hvalid hheight hnamed (P := fun _ _ _ => True) trivial
    (fun _ _ _ _ _ _ _ _ _ _ _ => trivial)
  obtain ⟨log, htables⟩ := run.tables
  rw [htables]
  refine ⟨huse.mono ?_, fun height' hlater => ?_⟩
  · rintro id tx (⟨hash, stored, hblock, hat⟩ | ⟨rfl, hat⟩)
    · refine ⟨hash, stored, ?_, hat⟩
      have hne := Nat.ne_of_lt (hvalid.later _ (Table.mem_entries.mpr hblock))
      rw [Table.get_insert, if_neg hne]
      exact hblock
    · exact ⟨block.hash, block, by rw [Table.get_insert, if_pos rfl], hat⟩
  · have hlt := hlater (height, block.hash, block) (Table.mem_entries.mpr (by simp only [Table.get_insert, if_true]))
    have := hvalid.count
    simp only at hlt ⊢
    omega

/-- **Undo of the transactions of a block**, last first: the names before it, whatever mints are reported, and
the counts of the reported claims taken down. -/
theorem Applied.undoneDunes_eq (run : Applied deps cfg n height block mutable n')
    (hvalid : ValidBlock n.db.tables height block) (hheight : height < 2 ^ 32) (hnamed : n.db.tables.Named deps)
    (mints : List (Nat × Nat)) {u : DuneTables} (hu : u.SameNames n'.db.tables.dunes) :
    ∃ counter : Option U64, counter.getD 0 = n.db.tables.dunes.reservedCounter.getD 0 ∧
      undoneDunes deps height mints block.txdata.zipIdx.reverse u =
        (subMints u.mintsById (block.txdata.zipIdx.reverse.flatMap (undoneClaims deps mints))).map
          fun m => ⟨n.db.tables.dunes.idByName, n.db.tables.dunes.termsById, m, counter⟩ := by
  obtain ⟨log, htables⟩ := run.tables
  rw [htables] at hu
  have hend := run.names_induct hvalid hheight hnamed (P := fun done t _ => ∀ u : DuneTables, u.SameNames t →
    ∃ counter : Option U64, counter.getD 0 = n.db.tables.dunes.reservedCounter.getD 0 ∧
      undoneDunes deps height mints (done.map fun step => step.2.1).zipIdx.reverse u =
        (subMints u.mintsById ((done.map fun step => step.2.1).zipIdx.reverse.flatMap (undoneClaims deps mints))).map
          fun m => ⟨n.db.tables.dunes.idByName, n.db.tables.dunes.termsById, m, counter⟩) ?_ ?_
  · rw [run.runeSteps_tx] at hend
    exact hend.1 u hu
  · intro u hu
    refine ⟨u.reservedCounter, hu.counter, ?_⟩
    rw [← hu.names, ← hu.terms]
    rfl
  · intro done tx s dunes etches mints' t _ _ hstep hP u hu
    obtain ⟨counter, hcounter, hone⟩ := hstep.undoDunes_eq hu mints
    have hlist : ((done ++ [(done.length, tx, s)]).map fun step => step.2.1).zipIdx.reverse =
        (tx, done.length) :: (done.map fun step => step.2.1).zipIdx.reverse := by
      rw [List.map_append, List.zipIdx_append, List.reverse_append, List.length_map, Nat.zero_add]
      rfl
    have hsplit : ∀ l, subMints u.mintsById (undoneClaims deps mints (tx, done.length) ++ l) =
        subMints u.mintsById (undoneClaims deps mints (tx, done.length)) >>= fun m => subMints m l :=
      fun l => List.foldlM_append
    unfold undoneDunes at hP ⊢
    rw [hlist, List.foldlM_cons, hone, List.flatMap_cons, hsplit]
    cases subMints u.mintsById (undoneClaims deps mints (tx, done.length)) with
    | error e => exact ⟨_, rfl, rfl⟩
    | ok m => exact hP ⟨s.dunes.idByName, s.dunes.termsById, m, counter⟩ ⟨rfl, rfl, hcounter⟩

end

/-! ## Reachable nodes -/

/-- The tables have the same outputs, blocks, partial inscriptions and names. -/
structure SameNames (t t' : Tables) : Prop extends SameChain t t' where
  dunes : t.dunes.SameNames t'.dunes

theorem SameNames.named {deps : Deps} {t t' : Tables} (h : SameNames t' t) (hnamed : t.Named deps) :
    t'.Named deps := by
  refine ⟨⟨?_, ?_⟩, ?_⟩
  · rw [h.dunes.names, h.dunes.terms]
    exact hnamed.inUse.bijective
  · unfold Tables.Stored
    rw [h.dunes.terms, h.dunes.counter, h.blocks]
    exact hnamed.inUse.etched
  · rw [h.dunes.counter, h.blocks]
    exact hnamed.counter

theorem Tables.Named.empty (deps : Deps) : Tables.empty.Named deps := by
  refine ⟨⟨fun name id => ?_, fun id terms hget => ?_⟩, fun height _ => Nat.zero_le _⟩
  · constructor
    · intro hget
      cases hget
    · rintro ⟨terms, hget, -⟩
      cases hget
  · cases hget

section

variable {deps : Deps} {cfg : Config} {C : Node → Call → Prop}

theorem Blocks.named {R : Tables → Tables → Prop} (hC : ∀ n call, C n call → call.height < 2 ^ 32)
    (hR : ∀ t t', R t t' → SameNames t t') {l : List (Tables × (Nat × BlockHash × Block) × Tables)} {t : Tables}
    (h : Blocks deps cfg C R l t) : t.Named deps := by
  refine (History.induct h (Tables.Named.empty deps) (fun _ _ hsame => (hR _ _ hsame).named) ?_).1
  rintro t₀ e t₁ hnamed ⟨run, hvalid, -, hcond⟩
  exact run.named hvalid (hC _ _ hcond) hnamed

/-- Names are restored. -/
theorem restores_sameNames (deps : Deps) (cfg : Config) (hC : ∀ n call, C n call → call.height < 2 ^ 32) :
    Restores deps cfg C SameNames where
  refl t := ⟨SameChain.refl t, DuneTables.SameNames.refl _⟩
  trans _ _ _ h h' := ⟨h.toSameChain.trans h'.toSameChain, h.dunes.trans h'.dunes⟩
  chain _ _ h := h.toSameChain
  log _ _ := ⟨⟨rfl, rfl, rfl, rfl⟩, DuneTables.SameNames.refl _⟩
  undo := by
    rintro mutable l t₀ e t₁ x x' hblocks ⟨run, hvalid, hsettled, hcond⟩ hsame hundo
    have hsourced := (Blocks.sourced (fun _ _ h => SameNames.toSameChain h) hblocks).1
    refine ⟨run.undo_sameChain hvalid hsettled hsourced hsame.toSameChain hundo, ?_⟩
    obtain ⟨t, w⟩ := x
    obtain ⟨log, w', heq⟩ := run.undoBlock_eq hvalid hsettled hsame.txos (by rw [hsame.resolvers]) mutable w
    rw [heq] at hundo
    obtain ⟨brc20, -, hundo⟩ := bind_eq_ok.mp hundo
    obtain ⟨dunes, hdunes, rfl⟩ := map_eq_ok.mp hundo
    obtain ⟨counter, hcounter, hundone⟩ := run.undoneDunes_eq hvalid (hC _ _ hcond)
      (hblocks.named hC (fun _ _ => id)) run.final.successfulMints hsame.dunes
    rw [hundone] at hdunes
    obtain ⟨m, -, rfl⟩ := map_eq_ok.mp hdunes
    exact ⟨rfl, rfl, hcounter⟩

/-- **Names and ids of dunes are in bijection** in every reachable node, a name that was chosen lies below
`RESERVED`, and the next reserved name is free.  The height of a block has 32 bits. -/
theorem names_bijective {n : Node} (h : Reach deps cfg (fun _ call => call.height < 2 ^ 32) n) :
    (∀ name id, n.db.tables.dunes.idByName.get name = some id ↔
      ∃ terms, n.db.tables.dunes.termsById.get id = some terms ∧ terms.name = name) ∧
    (∀ id terms, n.db.tables.dunes.termsById.get id = some terms → ∃ tx dunestone etching,
      n.db.tables.Stored id tx ∧ Dunestone.fromTransaction deps tx = some dunestone ∧
      dunestone.etching = some etching ∧
      (etching.dune = some terms.name ∧ terms.name.val < RESERVED ∨
        etching.dune = none ∧ RESERVED ≤ terms.name.val)) ∧
    n.db.tables.dunes.idByName.get (Dune.reserved (n.db.tables.dunes.reservedCounter.getD 0)) = none := by
  obtain ⟨l, hl⟩ := h.history (restores_sameNames deps cfg (fun _ _ => id))
  have huse := (hl.blocks.named (fun _ _ => id) (fun _ _ => id)).inUse
  refine ⟨huse.bijective, fun id terms hget => ?_, huse.reserved_free⟩
  obtain ⟨tx, hstored, hnamed⟩ := huse.etched id terms hget
  cases hnamed with
  | chosen dunestone etching hdunestone hetching hchosen hbelow =>
    exact ⟨tx, dunestone, etching, hstored, hdunestone, hetching, Or.inl ⟨hchosen, hbelow⟩⟩
  | reserved dunestone etching k hdunestone hetching hunnamed hname hearlier =>
    refine ⟨tx, dunestone, etching, hstored, hdunestone, hetching, Or.inr ⟨hunnamed, ?_⟩⟩
    rw [hname, reserved_val]
    exact Nat.le_add_right _ _

end

/-- A dune is etched under the first reserved name, and its block is undone. -/
theorem names_bijective_after_reorg :
    ∃ n n', Reach duneScripts fromFirstBlock (fun _ call => call.height < 2 ^ 32) n ∧
      n' = endState (rollback duneScripts fromFirstBlock ⟨true, true⟩ 0 1 true n) ∧
      n.db.tables.dunes.idByName.get (Dune.reserved 0) = some ⟨1, 1⟩ ∧
      n.db.tables.dunes.idByName.get (Dune.reserved 1) = none ∧
      n'.db.tables.dunes.reservedCounter = some 0 ∧
      n'.db.tables.dunes.idByName.get (Dune.reserved 0) = none := by
  have hsome : (runCalls duneScripts fromFirstBlock (Node.open_ true)
      ((etchedAndMinted etchScript).take 2)).isSome = true := by
    decide +kernel
  have hreach := (Run.ofCalls hsome).reach (fun _ call => call.height < 2 ^ 32) (by decide +kernel) (by decide +kernel)
  have hundone : (endState (rollback duneScripts fromFirstBlock ⟨true, true⟩ 0 1 true (performed duneScripts
      fromFirstBlock (Node.open_ true) ((etchedAndMinted etchScript).take 2)).2)).db.tables.dunes.reservedCounter =
      some 0 := by
    decide +kernel
  refine ⟨_, _, hreach, rfl, by decide +kernel, by decide +kernel, hundone, ?_⟩
  have hfree := (names_bijective (hreach.rollback ⟨true, true⟩ 0 1 true)).2.2
  rw [hundone] at hfree
  exact hfree

end DogeIndexer.Compressor
