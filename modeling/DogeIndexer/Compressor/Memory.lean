import DogeIndexer.Compressor.Reach

/-!
# The memory resolver is transparent

A node with a memory resolver and one without it, given the same calls, answer alike and keep the same
database.  The resolver changes before the commit and is not taken back, neither when a call fails nor by
`rollback`; what it holds beyond the database is never asked for by a valid block.

* `Beside` — the state of a block with a memory resolver, beside the one without.
* `resolveAndProcess_alike` — a block is processed alike.
* `memory_transparent` — sequences of calls.
-/

set_option autoImplicit false

namespace DogeIndexer.Compressor

open Fallible Effect

/-! ## The size of the memory -/

/-- The bytes of the entries; the counter `size` also keeps those of entries that were replaced. -/
def UtxoResolver.bytes (deps : Deps) (m : UtxoResolver) : Nat :=
  m.entries.total fun _ body => (rawLen deps body).val

/-- In a build with overflow checks the counter stays above the bytes of the entries, and more bytes fit into
it. -/
def HasRoom (deps : Deps) (cfg : Config) (more : Nat) (memory : Option UtxoResolver) : Prop :=
  cfg.checks = true → ∀ m, memory = some m → m.bytes deps ≤ m.size.val ∧ m.size.val + more < 2 ^ 64

section

variable {deps : Deps} {cfg : Config} {more : Nat} {ref : TxoRef} {body : TxoBody} {s : BlockState}

theorem HasRoom.mono {more' : Nat} {memory : Option UtxoResolver} (h : HasRoom deps cfg more memory) (hle : more' ≤ more) :
    HasRoom deps cfg more' memory := by
  intro hchecks m hm
  obtain ⟨hbytes, hmore⟩ := h hchecks m hm
  exact ⟨hbytes, by omega⟩

theorem remove_room {m : UtxoResolver} (h : HasRoom deps cfg more (some m)) (ref : TxoRef) :
    ∃ m', m.remove deps cfg.checks ref = some (m.entries.get ref, m') ∧ HasRoom deps cfg more (some m') ∧
      m'.entries = m.entries.erase ref := by
  unfold UtxoResolver.remove
  cases hget : m.entries.get ref with
  | none =>
    exact ⟨m, rfl, h, (Table.erase_of_none hget).symm⟩
  | some body =>
    simp only
    have htotal := Table.total_erase (fun _ body => (UtxoResolver.rawLen deps body).val) m.entries ref
    rw [Table.weightAt_of_get hget] at htotal
    cases hchecks : cfg.checks with
    | false =>
      refine ⟨⟨m.entries.erase ref, m.size - UtxoResolver.rawLen deps body⟩, rfl, ?_, rfl⟩
      intro hc
      rw [hchecks] at hc
      cases hc
    | true =>
      obtain ⟨hbytes, hmore⟩ := h hchecks m rfl
      unfold UtxoResolver.bytes at hbytes
      rw [Machine.sub_of_le true (by omega)]
      refine ⟨_, rfl, ?_, rfl⟩
      intro _ m' hm'
      cases hm'
      unfold UtxoResolver.bytes
      simp only
      omega

theorem insert_room {m : UtxoResolver} (h : HasRoom deps cfg ((UtxoResolver.rawLen deps body).val + more) (some m))
    (ref : TxoRef) : ∃ m', m.insert deps cfg.checks ref body = some m' ∧ HasRoom deps cfg more (some m') := by
  unfold UtxoResolver.insert
  have htotal := Table.total_insert (fun _ body => (UtxoResolver.rawLen deps body).val) m.entries ref body
  cases hchecks : cfg.checks with
  | false =>
    refine ⟨⟨m.entries.insert ref body, m.size + UtxoResolver.rawLen deps body⟩, rfl, ?_⟩
    intro hc
    rw [hchecks] at hc
    cases hc
  | true =>
    obtain ⟨hbytes, hmore⟩ := h hchecks m rfl
    unfold UtxoResolver.bytes at hbytes
    rw [Machine.add_of_lt true (by omega)]
    refine ⟨_, rfl, ?_⟩
    intro _ m' hm'
    cases hm'
    unfold UtxoResolver.bytes
    simp only
    omega

/-- Taking an entry out of a memory that fits. -/
theorem forget_room (h : HasRoom deps cfg more s.memory) (ref : TxoRef) :
    ∃ memory, forget deps cfg ref s = .ok (s.mem.get ref) { s with memory := memory } ∧
      HasRoom deps cfg more memory ∧ BlockState.mem { s with memory := memory } = s.mem.erase ref := by
  unfold forget BlockState.mem
  simp only [Effect.get_bind]
  cases hm : s.memory with
  | none =>
    refine ⟨none, ?_, fun _ m hnone => (by cases hnone), rfl⟩
    cases s
    cases hm
    rfl
  | some m =>
    rw [hm] at h
    obtain ⟨m', hremove, hroom, hentries⟩ := remove_room h ref
    refine ⟨some m', ?_, hroom, hentries⟩
    simp only [hremove]
    rfl

/-- Putting an entry into a memory with enough room. -/
theorem remember_room (h : HasRoom deps cfg ((UtxoResolver.rawLen deps body).val + more) s.memory) (ref : TxoRef) :
    ∃ memory, remember deps cfg ref body s = .ok ⟨⟩ { s with memory := memory } ∧ HasRoom deps cfg more memory := by
  unfold remember
  simp only [Effect.get_bind]
  cases hm : s.memory with
  | none =>
    refine ⟨none, ?_, fun _ m hnone => (by cases hnone)⟩
    cases s
    cases hm
    rfl
  | some m =>
    rw [hm] at h
    obtain ⟨m', hinsert, hroom⟩ := insert_room h ref
    refine ⟨some m', ?_, hroom⟩
    simp only [hinsert]
    rfl

end

/-! ## One block -/

/-- A state with a memory resolver that has room for some bytes, beside the state without it. -/
structure Beside (deps : Deps) (cfg : Config) (more : Nat) (s s' : BlockState) : Prop where
  bare : s' = { s with memory := none }
  room : HasRoom deps cfg more s.memory

/-- What memory holds of some outputs is what the table holds. -/
def Mirrors (txos : Table TxoRef TxoBody) (refs : List TxoRef) (mem : Table TxoRef TxoBody) : Prop :=
  ∀ ref ∈ refs, ∀ body, mem.get ref = some body → txos.get ref = some body

/-- The bytes of the outputs of a transaction. -/
def outputBytes (deps : Deps) (tx : Transaction) : Nat := (tx.output.map deps.encodedLen).sum

/-- The bytes of the outputs of a block. -/
def blockBytes (deps : Deps) (block : Block) : Nat := (block.txdata.map (outputBytes deps)).sum

section

variable {deps : Deps} {cfg : Config} {more : Nat}

theorem Beside.mono {more' : Nat} {s s' : BlockState} (h : Beside deps cfg more s s') (hle : more' ≤ more) :
    Beside deps cfg more' s s' := ⟨h.bare, h.room.mono hle⟩

theorem lift_alike {α : Type} {I E : BlockState → BlockState → Prop} (x : Except Err α) (h : ∀ s s', I s s' → E s s') :
    RunAlike I I E (lift x) (lift x) := by
  cases x with
  | ok a => exact RunAlike.pure a (fun _ _ hs => hs)
  | error e => exact RunAlike.throw e h

/-- An input that is in memory or in the table. -/
theorem resolveInput_some {txos : Table TxoRef TxoBody} {ref : TxoRef} {s s' : BlockState}
    {remembered : Option TxoBody} {body : TxoBody} (hforget : forget deps cfg ref s = .ok remembered s')
    (h : remembered.or (txos.get ref) = some body) :
    resolveInput deps cfg txos ref s = .ok ⟨⟩ { s' with resolver := s'.resolver.insert ref body } := by
  unfold resolveInput
  rw [bind_of_ok hforget]
  simp only [h]
  rfl

theorem resolveInput_none {txos : Table TxoRef TxoBody} {ref : TxoRef} {s s' : BlockState}
    {remembered : Option TxoBody} (hforget : forget deps cfg ref s = .ok remembered s')
    (h : remembered.or (txos.get ref) = none) : resolveInput deps cfg txos ref s = .ok ⟨⟩ s' := by
  unfold resolveInput
  rw [bind_of_ok hforget]
  simp only [h]
  rfl

/-- An input that memory and table agree on is resolved alike. -/
theorem resolveInput_alike {E : BlockState → BlockState → Prop} {txos : Table TxoRef TxoBody} {refs : List TxoRef}
    {ref : TxoRef} (href : ref ∈ refs) :
    RunAlike (fun s s' => Beside deps cfg more s s' ∧ Mirrors txos refs s.mem)
      (fun s s' => Beside deps cfg more s s' ∧ Mirrors txos refs s.mem) E (resolveInput deps cfg txos ref)
      (resolveInput deps cfg txos ref) := by
  rintro s s' ⟨⟨rfl, hroom⟩, hmirrors⟩
  obtain ⟨memory, hforget, hroom', hmem⟩ := forget_room hroom ref
  have hagree : (s.mem.get ref).or (txos.get ref) = txos.get ref := by
    cases hget : s.mem.get ref with
    | none => rfl
    | some body => rw [hmirrors ref href body hget, Option.some_or]
  have hforget' : forget deps cfg ref { s with memory := none } = .ok none { s with memory := none } := rfl
  have hmirrors' : ∀ r : Table TxoRef TxoBody, Mirrors txos refs
      (BlockState.mem { s with memory := memory, resolver := r }) := by
    intro r ref' href' body hget
    change (BlockState.mem { s with memory := memory }).get ref' = some body at hget
    rw [hmem, Table.get_erase] at hget
    split at hget
    · cases hget
    · exact hmirrors ref' href' body hget
  cases htxo : txos.get ref with
  | some body =>
    rw [resolveInput_some hforget (hagree.trans htxo), resolveInput_some hforget' htxo]
    exact .ok ⟨⟨rfl, hroom'⟩, hmirrors' _⟩
  | none =>
    rw [resolveInput_none hforget (hagree.trans htxo), resolveInput_none hforget' htxo]
    exact .ok ⟨⟨rfl, hroom'⟩, hmirrors' s.resolver⟩

theorem processRunes_alike {E : BlockState → BlockState → Prop} (hE : ∀ s s', Beside deps cfg more s s' → E s s')
    (height idx : Nat) (tx : Transaction) :
    RunAlike (Beside deps cfg more) (Beside deps cfg more) E (processRunes deps cfg height idx tx)
      (processRunes deps cfg height idx tx) := by
  unfold processRunes
  split
  · refine RunAlike.get_bind ?_
    rintro s s' ⟨rfl, hroom⟩
    refine RunAlike.bind (J := Beside deps cfg more) (lift_alike _ hE) (fun r => ?_) s { s with memory := none } ⟨rfl, hroom⟩
    refine RunAlike.bind (RunAlike.modify ?_) (fun _ => RunAlike.pure _ (fun _ _ hs => hs))
    rintro s s' ⟨rfl, hroom⟩
    exact ⟨rfl, hroom⟩
  · exact RunAlike.pure _ (fun _ _ hs => hs)

theorem processInscriptions_alike {E : BlockState → BlockState → Prop}
    (hE : ∀ s s', Beside deps cfg more s s' → E s s') (height : Nat) (tx : Transaction) :
    RunAlike (Beside deps cfg more) (Beside deps cfg more) E (processInscriptions deps cfg height tx)
      (processInscriptions deps cfg height tx) := by
  unfold processInscriptions
  split
  · refine RunAlike.get_bind ?_
    rintro s s' ⟨rfl, hroom⟩
    refine RunAlike.bind (J := Beside deps cfg more) (lift_alike _ hE) (fun r => ?_) s { s with memory := none } ⟨rfl, hroom⟩
    refine RunAlike.bind (RunAlike.modify ?_) (fun _ => RunAlike.pure _ (fun _ _ hs => hs))
    rintro s s' ⟨rfl, hroom⟩
    exact ⟨rfl, hroom⟩
  · exact RunAlike.pure _ (fun _ _ hs => hs)

theorem consumeInput_alike {E : BlockState → BlockState → Prop} (hE : ∀ s s', Beside deps cfg more s s' → E s s')
    (hash : BlockHash) (txin : TxIn) :
    RunAlike (Beside deps cfg more) (Beside deps cfg more) E (consumeInput deps cfg hash txin)
      (consumeInput deps cfg hash txin) := by
  unfold consumeInput
  refine RunAlike.get_bind ?_
  rintro s s' ⟨rfl, hroom⟩
  simp only
  cases s.resolver.get txin.previousOutput with
  | none => exact .error (hE _ _ ⟨rfl, hroom⟩)
  | some body =>
    obtain ⟨memory, hforget, hroom', -⟩ := forget_room hroom txin.previousOutput
    have hleft : (do let _ ← forget deps cfg txin.previousOutput; return () : Process Unit) s =
        .ok ⟨⟩ { s with memory := memory } := bind_of_ok hforget
    simp only [hleft]
    exact .ok ⟨rfl, hroom'⟩

variable (later : Nat)

/-- Outputs are produced alike, and use up their bytes. -/
theorem produceOutputs_alike (height : Nat) (txid : Txid) (transfers : Table InscriptionId (Ticker × U128))
    (b vout : Nat) (outputs : List TxOut) (dunes : List Balances) (inscriptions : List (List (U64 × InscriptionId))) :
    RunAlike (Beside deps cfg ((outputs.map deps.encodedLen).sum + b + later)) (Beside deps cfg (b + later))
      (Beside deps cfg later) (produceOutputs deps cfg height txid transfers vout outputs dunes inscriptions)
      (produceOutputs deps cfg height txid transfers vout outputs dunes inscriptions) := by
  induction outputs generalizing vout dunes inscriptions with
  | nil =>
    unfold produceOutputs
    exact RunAlike.pure _ (fun _ _ hs => hs.mono (by simp))
  | cons output outputs ih =>
    have hdone : ∀ s s', Beside deps cfg (((output :: outputs).map deps.encodedLen).sum + b + later) s s' →
        Beside deps cfg (b + later) s s' := fun _ _ hs => hs.mono (by omega)
    cases dunes with
    | nil =>
      unfold produceOutputs
      exact RunAlike.pure _ hdone
    | cons d dunes =>
      cases inscriptions with
      | nil =>
        unfold produceOutputs
        exact RunAlike.pure _ hdone
      | cons i inscriptions =>
        unfold produceOutputs
        cases hbody : outputBody height output d i transfers with
        | error e => exact RunAlike.throw e (fun _ _ hs => hs.mono (by omega))
        | ok body =>
          have hlen : (UtxoResolver.rawLen deps body).val ≤ deps.encodedLen output := by
            unfold UtxoResolver.rawLen
            rw [(outputBody_ok hbody).2.1]
            exact Nat.mod_le _ _
          -- the bytes of the output leave room for those that follow
          have hnext : RunAlike (Beside deps cfg (((output :: outputs).map deps.encodedLen).sum + b + later))
              (Beside deps cfg ((outputs.map deps.encodedLen).sum + b + later)) (Beside deps cfg later)
              (do
                modify fun s => { s with resolver := s.resolver.insert ⟨txid, vout⟩ body }
                remember deps cfg ⟨txid, vout⟩ body)
              (do
                modify fun s => { s with resolver := s.resolver.insert ⟨txid, vout⟩ body }
                remember deps cfg ⟨txid, vout⟩ body) := by
            rintro s s' ⟨rfl, hroom⟩
            have hroom' : HasRoom deps cfg ((UtxoResolver.rawLen deps body).val +
                ((outputs.map deps.encodedLen).sum + b + later)) s.memory := by
              refine hroom.mono ?_
              rw [List.map_cons, List.sum_cons]
              omega
            obtain ⟨memory, hremember, hleft⟩ :=
              remember_room (s := { s with resolver := s.resolver.insert ⟨txid, vout⟩ body }) hroom' ⟨txid, vout⟩
            rw [Effect.modify_bind, Effect.modify_bind, hremember]
            exact .ok ⟨rfl, hleft⟩
          exact fun s s' hs => RunAlike.bind hnext (fun _ => ih (vout + 1) dunes inscriptions) s s' hs

theorem processTx_alike (height : Nat) (hash : BlockHash) (e : Transaction × Nat) (b : Nat) :
    RunAlike (Beside deps cfg (outputBytes deps e.1 + b + later)) (Beside deps cfg (b + later))
      (Beside deps cfg later) (processTx deps cfg height hash e) (processTx deps cfg height hash e) := by
  obtain ⟨tx, idx⟩ := e
  have hE : ∀ s s', Beside deps cfg (outputBytes deps tx + b + later) s s' → Beside deps cfg later s s' :=
    fun _ _ hs => hs.mono (by omega)
  have hconsume := RunAlike.forM (B := fun _ => Beside deps cfg (outputBytes deps tx + b + later)) (w := fun _ => 0)
    (l := tx.input) (fun txin _ _ => consumeInput_alike hE hash txin) 0
  unfold processTx
  refine RunAlike.bind (processRunes_alike hE height idx tx) (fun dunes => ?_)
  refine RunAlike.bind (processInscriptions_alike hE height tx) (fun placed => ?_)
  exact RunAlike.bind hconsume (fun _ => produceOutputs_alike later height tx.txid placed.2 b 0 tx.output dunes placed.1)

/-- **A block is processed alike** with a memory resolver that has room for its outputs, where memory holds of
the inputs what the table holds. -/
theorem resolveAndProcess_alike (txos : Table TxoRef TxoBody) (height : Nat) (block : Block) :
    RunAlike (fun s s' => Beside deps cfg (blockBytes deps block + later) s s' ∧
        Mirrors txos (externalRefs block) s.mem)
      (Beside deps cfg later) (Beside deps cfg later) (resolveAndProcess deps cfg txos height block)
      (resolveAndProcess deps cfg txos height block) := by
  have hresolve := RunAlike.forM (E := Beside deps cfg later) (B := fun _ s s' =>
      Beside deps cfg (blockBytes deps block + later) s s' ∧ Mirrors txos (externalRefs block) s.mem)
    (w := fun _ => 0) (l := externalRefs block)
    (fun ref href _ => resolveInput_alike (E := Beside deps cfg later) href) 0
  unfold resolveAndProcess
  refine RunAlike.bind hresolve (fun _ => RunAlike.weaken ?_ (fun _ _ hs => hs.1))
  unfold blockBytes
  cases block.txdata with
  | nil => exact RunAlike.throw _ (fun _ _ hs => hs.mono (by omega))
  | cons coinbase txs =>
    -- the outputs of the coinbase come after those of the other transactions
    have hsum : (((txs.zipIdx 1).map fun e => outputBytes deps e.1).sum + (outputBytes deps coinbase + later)) =
        (((coinbase :: txs).map (outputBytes deps)).sum + later) := by
      rw [List.map_cons, List.sum_cons, show (txs.zipIdx 1).map (fun e => outputBytes deps e.1) =
        ((txs.zipIdx 1).map Prod.fst).map (outputBytes deps) by rw [List.map_map]; rfl, List.zipIdx_map_fst]
      omega
    have htxs := RunAlike.forM (E := Beside deps cfg later) (B := fun b => Beside deps cfg (b + later))
      (w := fun e : Transaction × Nat => outputBytes deps e.1) (l := txs.zipIdx 1)
      (fun e _ b => processTx_alike later height block.hash e b) (outputBytes deps coinbase)
    rw [Nat.add_assoc, hsum] at htxs
    have hE : ∀ more, ∀ s s', Beside deps cfg (more + later) s s' → Beside deps cfg later s s' :=
      fun _ _ _ hs => hs.mono (by omega)
    refine RunAlike.bind (processRunes_alike (hE _) height 0 coinbase) (fun dunes => ?_)
    refine RunAlike.bind htxs (fun _ => ?_)
    refine RunAlike.bind (processInscriptions_alike (hE _) height coinbase) (fun placed => ?_)
    have hproduce : RunAlike (Beside deps cfg (outputBytes deps coinbase + 0 + later)) (Beside deps cfg (0 + later))
        (Beside deps cfg later) _ _ :=
      produceOutputs_alike later height coinbase.txid placed.2 0 0 coinbase.output dunes placed.1
    rw [Nat.add_zero, Nat.zero_add] at hproduce
    exact hproduce

end

/-! ## One call -/

/-- A node with a memory resolver that has room for some bytes, beside one without it. -/
structure NodesBeside (deps : Deps) (cfg : Config) (more : Nat) (n n' : Node) : Prop where
  bare : n' = ⟨n.db, none⟩
  room : HasRoom deps cfg more n.memory

section

variable {deps : Deps} {cfg : Config} {later : Nat} {n n' : Node}

theorem Agrees.mirrors {mem : Table TxoRef TxoBody} {t : Tables} (h : Agrees mem t.txos) {height : Nat} {block : Block}
    (hvalid : ValidBlock t height block) : Mirrors t.txos (externalRefs block) mem := by
  intro ref href body hget
  obtain ⟨body', hget'⟩ := hvalid.external_stored href
  rw [h ref body body' hget hget']
  exact hget'

/-- **A call of `apply_block_with_context`** has the same outcome with and without the memory resolver. -/
theorem apply_alike (rocks : Rocks) (height : Nat) (block : Block) (mutable : Bool)
    (h : NodesBeside deps cfg (blockBytes deps block + later) n n')
    (hmirrors : Mirrors n.db.tables.txos (externalRefs block) n.mem) :
    Alike (NodesBeside deps cfg later) (NodesBeside deps cfg later)
      (applyBlockWithContext deps cfg rocks height block mutable n)
      (applyBlockWithContext deps cfg rocks height block mutable n') := by
  obtain ⟨rfl, hroom⟩ := h
  have hprocess := resolveAndProcess_alike later n.db.tables.txos height block
    (initialState deps n.db.tables height n.memory) (initialState deps n.db.tables height none)
    ⟨⟨rfl, hroom⟩, hmirrors⟩
  unfold applyBlockWithContext
  simp only
  split
  · exact .error ⟨rfl, hroom.mono (Nat.le_add_left _ _)⟩
  · generalize resolveAndProcess deps cfg n.db.tables.txos height block
      (initialState deps n.db.tables height n.memory) = r at hprocess
    generalize resolveAndProcess deps cfg n.db.tables.txos height block
      (initialState deps n.db.tables height none) = r' at hprocess
    cases hprocess with
    | error hbeside =>
      obtain ⟨rfl, hroom'⟩ := hbeside
      exact .error ⟨rfl, hroom'⟩
    | @ok a s s' hbeside =>
      obtain ⟨rfl, hroom'⟩ := hbeside
      have hstage : stageBlock cfg n.db height block mutable { s with memory := none } =
          stageBlock cfg n.db height block mutable s := rfl
      simp only [hstage]
      cases stageBlock cfg n.db height block mutable s with
      | error e => exact .error ⟨rfl, hroom'⟩
      | ok tables =>
        simp only
        split
        · exact .error ⟨rfl, hroom'⟩
        · split
          · exact .error ⟨rfl, hroom'⟩
          · exact .ok ⟨rfl, hroom'⟩

/-- **A call of `rollback`** does not touch the memory resolver. -/
theorem rollback_alike (rocks : Rocks) (height : Nat) (hash : BlockHash) (mutable : Bool)
    (h : NodesBeside deps cfg later n n') :
    Alike (NodesBeside deps cfg later) (NodesBeside deps cfg later)
      (rollback deps cfg rocks height hash mutable n) (rollback deps cfg rocks height hash mutable n') := by
  obtain ⟨rfl, hroom⟩ := h
  unfold rollback
  simp only
  split
  · exact .error ⟨rfl, hroom⟩
  · split
    · exact .error ⟨rfl, hroom⟩
    · split
      · exact .error ⟨rfl, hroom⟩
      · split
        · exact .error ⟨rfl, hroom⟩
        · exact .ok ⟨rfl, hroom⟩

end

/-! ## Sequences of calls -/

/-- A call on a node. -/
inductive Op where
  | apply (call : Call)
  | rollback (rocks : Rocks) (height : Nat) (hash : BlockHash) (mutable : Bool)

def Op.run (deps : Deps) (cfg : Config) : Op → NodeM Unit
  | .apply call => applyBlockWithContext deps cfg call.rocks call.height call.block call.mutable
  | .rollback rocks height hash mutable => Compressor.rollback deps cfg rocks height hash mutable

/-- The bytes of the outputs of the block to apply. -/
def Op.bytes (deps : Deps) : Op → Nat
  | .apply call => blockBytes deps call.block
  | .rollback _ _ _ _ => 0

/-- The block to apply is valid. -/
def Op.Valid (n : Node) : Op → Prop
  | .apply call => ValidBlock n.db.tables call.height call.block
  | .rollback _ _ _ _ => True

/-- The node after calls, completed or not. -/
def afterOps (deps : Deps) (cfg : Config) (n : Node) (ops : List Op) : Node :=
  ops.foldl (fun n op => endState (op.run deps cfg n)) n

/-- What each call answers, and the database after it. -/
def answers (deps : Deps) (cfg : Config) : Node → List Op → List (Option Err × ChainDB)
  | _, [] => []
  | n, op :: ops =>
    (errorOf (op.run deps cfg n), (endState (op.run deps cfg n)).db) :: answers deps cfg (endState (op.run deps cfg n)) ops

/-- The blocks to apply are valid when their turn comes. -/
def ValidOps (deps : Deps) (cfg : Config) : Node → List Op → Prop
  | _, [] => True
  | n, op :: ops => op.Valid n ∧ ValidOps deps cfg (endState (op.run deps cfg n)) ops

section

variable {deps : Deps} {cfg : Config} {n n' : Node}

/-- One call of a sequence. -/
theorem Op.alike {l : List (Tables × (Nat × BlockHash × Block) × Tables)} {later : Nat} {op : Op}
    (hbacked : Backed deps cfg (fun _ _ => True) SameChain l n) (hvalid : op.Valid n)
    (h : NodesBeside deps cfg (op.bytes deps + later) n n') :
    Alike (NodesBeside deps cfg later) (NodesBeside deps cfg later) (op.run deps cfg n) (op.run deps cfg n') ∧
      ∃ l, Backed deps cfg (fun _ _ => True) SameChain l (endState (op.run deps cfg n)) := by
  have hR := restores_sameChain deps cfg (fun _ _ => True)
  cases op with
  | apply call =>
    obtain ⟨added, houtcome⟩ := apply_outcome deps cfg n call
    exact ⟨apply_alike _ _ _ _ h (hbacked.settled.agrees.mirrors hvalid), _,
      hbacked.apply hR hvalid trivial houtcome⟩
  | rollback rocks height hash mutable =>
    rw [show Op.bytes deps (.rollback rocks height hash mutable) + later = later from Nat.zero_add _] at h
    obtain ⟨kept, -, -, hkept, -⟩ := hbacked.rollback hR rocks height hash mutable
    exact ⟨rollback_alike _ _ _ _ h, kept, hkept⟩

theorem Op.Valid.congr {op : Op} (hdb : n'.db = n.db) (h : op.Valid n') : op.Valid n := by
  cases op with
  | apply call =>
    unfold Op.Valid at h ⊢
    rw [← hdb]
    exact h
  | rollback => trivial

theorem answers_alike {l : List (Tables × (Nat × BlockHash × Block) × Tables)} {ops : List Op}
    (hbacked : Backed deps cfg (fun _ _ => True) SameChain l n) (hvalid : ValidOps deps cfg n' ops)
    (h : NodesBeside deps cfg (ops.map (Op.bytes deps)).sum n n') :
    answers deps cfg n ops = answers deps cfg n' ops ∧
      Agrees (afterOps deps cfg n ops).mem (afterOps deps cfg n ops).db.tables.txos := by
  induction ops generalizing n n' l with
  | nil => exact ⟨rfl, hbacked.settled.agrees⟩
  | cons op ops ih =>
    rw [List.map_cons, List.sum_cons] at h
    obtain ⟨hop, hrest⟩ := hvalid
    have hdb : n'.db = n.db := by rw [h.bare]
    obtain ⟨halike, l', hbacked'⟩ := Op.alike hbacked (hop.congr hdb) h
    unfold answers afterOps
    rw [List.foldl_cons]
    generalize op.run deps cfg n = r at halike hbacked'
    generalize op.run deps cfg n' = r' at halike hrest
    cases halike with
    | ok hbeside =>
      obtain ⟨hanswers, hagrees⟩ := ih hbacked' hrest hbeside
      have hdb' := congrArg Node.db hbeside.bare
      simp only [endState, errorOf] at hanswers hagrees ⊢
      rw [hanswers, hdb']
      exact ⟨rfl, hagrees⟩
    | error hbeside =>
      obtain ⟨hanswers, hagrees⟩ := ih hbacked' hrest hbeside
      have hdb' := congrArg Node.db hbeside.bare
      simp only [endState, errorOf] at hanswers hagrees ⊢
      rw [hanswers, hdb']
      exact ⟨rfl, hagrees⟩

/-- **The memory resolver is transparent**: from any reachable database, calls of `apply_block_with_context` on
valid blocks and of `rollback`, completed or not, have the same outcomes and lead to the same databases with an
initially empty memory resolver and without one, and what it holds of the stored outputs is what is stored.  In
a build with overflow checks the outputs of all blocks must fit into the 64-bit counter of remembered bytes. -/
theorem memory_transparent (hreach : Reach deps cfg (fun _ _ => True) n) {ops : List Op}
    (hvalid : ValidOps deps cfg ⟨n.db, none⟩ ops)
    (hbytes : cfg.checks = true → (ops.map (Op.bytes deps)).sum < 2 ^ 64) :
    answers deps cfg ⟨n.db, some UtxoResolver.new⟩ ops = answers deps cfg ⟨n.db, none⟩ ops ∧
      ∀ ref body body', (afterOps deps cfg ⟨n.db, some UtxoResolver.new⟩ ops).mem.get ref = some body →
        (afterOps deps cfg ⟨n.db, some UtxoResolver.new⟩ ops).db.tables.txos.get ref = some body' → body = body' := by
  obtain ⟨l, hbacked⟩ := hreach.history (restores_sameChain deps cfg _)
  have hempty : ∀ txos, Agrees (Node.mem ⟨n.db, some UtxoResolver.new⟩) txos := by
    intro txos ref body body' hget
    cases hget
  have hstart : Backed deps cfg (fun _ _ => True) SameChain l ⟨n.db, some UtxoResolver.new⟩ :=
    ⟨hbacked.blocks, ⟨hempty _, hbacked.settled.null⟩, fun e _ => hempty _⟩
  refine answers_alike hstart hvalid ⟨rfl, fun hchecks m hm => ?_⟩
  cases hm
  refine ⟨Nat.le_refl 0, ?_⟩
  have := hbytes hchecks
  change 0 + _ < _
  omega

end

instance (n : Node) (op : Op) : Decidable (op.Valid n) :=
  match op with
  | .apply call => inferInstanceAs (Decidable (ValidBlock n.db.tables call.height call.block))
  | .rollback _ _ _ _ => isTrue trivial

instance ValidOps.decide (deps : Deps) (cfg : Config) : ∀ (n : Node) (ops : List Op), Decidable (ValidOps deps cfg n ops)
  | _, [] => isTrue trivial
  | n, op :: ops =>
    have := ValidOps.decide deps cfg (endState (op.run deps cfg n)) ops
    inferInstanceAs (Decidable (_ ∧ _))

/-- A block whose commit fails is retried and undone, and its spend is mined again in another block. -/
def retriedAndUndone : List Op := [
  .apply (callOf 0 1 0 [coinbaseTx 10 [2000000000, 3000000000]]),
  .apply ⟨1, ⟨2, 1, [coinbaseTx 11 [5000000000], spendTx 12 ⟨10, 0⟩ [] [2000000000]]⟩, true, ⟨false, true⟩⟩,
  .apply (callOf 1 2 1 [coinbaseTx 11 [5000000000], spendTx 12 ⟨10, 0⟩ [] [2000000000]]),
  .rollback ⟨true, true⟩ 0 1 true,
  .apply (callOf 1 3 1 [coinbaseTx 13 [5000000000], spendTx 12 ⟨10, 0⟩ [] [2000000000], spendTx 14 ⟨12, 0⟩ [] [1]])]

/-- One answer is an error of the database, with the resolver in memory and without it. -/
theorem memory_transparent_retried :
    ∃ n, Reach emptyScripts fromFirstBlock (fun _ _ => True) n ∧
      (answers emptyScripts fromFirstBlock ⟨n.db, some UtxoResolver.new⟩ retriedAndUndone).map Prod.fst =
        [none, some .rocks, none, none, none] ∧
      answers emptyScripts fromFirstBlock ⟨n.db, some UtxoResolver.new⟩ retriedAndUndone =
        answers emptyScripts fromFirstBlock ⟨n.db, none⟩ retriedAndUndone := by
  have hreach : Reach emptyScripts fromFirstBlock (fun _ _ => True) (Node.open_ false) := .open_ false
  exact ⟨_, hreach, by decide +kernel, (memory_transparent hreach (by decide +kernel) (by decide +kernel)).1⟩

end DogeIndexer.Compressor
