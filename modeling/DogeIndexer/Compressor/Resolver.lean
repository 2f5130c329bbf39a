import DogeIndexer.Compressor.Memory

/-!
# The size counter of the memory resolver

Sequences of `insert` and `remove` calls on the `UtxoResolver` of the roll stage (`sync/roll.rs`), whose counter
`size` stands for the bytes of the entries.  `remove` takes off the bytes of the entry it removes; `insert` adds those
of the new entry and leaves those of an entry that it replaces.

* `run_entries` — the entries are those of the calls.
* `size_exact_iff` — the counter is exact along a sequence exactly when no call replaces an entry that has bytes.
-/

set_option autoImplicit false

namespace DogeIndexer.Compressor

/-! ## Calls -/

inductive ResolverCall where
  | insert (ref : TxoRef) (body : TxoBody)
  | remove (ref : TxoRef)

namespace UtxoResolver

/-- The resolver after a call, `none` when it panics. -/
def after (deps : Deps) (checks : Bool) (m : UtxoResolver) : ResolverCall → Option UtxoResolver
  | .insert ref body => m.insert deps checks ref body
  | .remove ref => (m.remove deps checks ref).map Prod.snd

/-- The resolver after the calls since it was made. -/
def run (deps : Deps) (checks : Bool) (calls : List ResolverCall) : Option UtxoResolver :=
  calls.foldlM (after deps checks) new

end UtxoResolver

/-- The entries that the calls leave. -/
def heldAfter (calls : List ResolverCall) : Table TxoRef TxoBody :=
  calls.foldl (fun t call =>
    match call with
    | .insert ref body => t.insert ref body
    | .remove ref => t.erase ref) Table.empty

/-- The sum of `raw.len()` over entries. -/
def bytesIn (deps : Deps) (t : Table TxoRef TxoBody) : Nat := t.total fun _ body => (UtxoResolver.rawLen deps body).val

/-- After each of the calls the counter is the sum over the entries. -/
def SizeExact (deps : Deps) (checks : Bool) (calls : List ResolverCall) : Prop :=
  ∀ done, done <+: calls → ∃ m, UtxoResolver.run deps checks done = some m ∧ m.size.val = bytesIn deps m.entries

/-- No removal takes more off the counter than it holds. -/
def NoUnderflow (deps : Deps) (checks : Bool) (calls : List ResolverCall) : Prop :=
  ∀ done ref, done ++ [.remove ref] <+: calls → ∀ m, UtxoResolver.run deps checks done = some m →
    ∀ body, m.entries.get ref = some body → (UtxoResolver.rawLen deps body).val ≤ m.size.val

/-- No insertion replaces an entry that has bytes, and the entries are of fewer than `2 ^ 64` bytes together. -/
def NeverReplaced (deps : Deps) (calls : List ResolverCall) : Prop :=
  ∀ done ref body, done ++ [.insert ref body] <+: calls →
    (∀ old, (heldAfter done).get ref = some old → UtxoResolver.rawLen deps old = 0) ∧
      bytesIn deps (heldAfter (done ++ [.insert ref body])) < 2 ^ 64

/-! ## One call -/

section

variable {deps : Deps} {checks : Bool} {m : UtxoResolver} {calls done : List ResolverCall} {ref : TxoRef} {body : TxoBody}

theorem run_append_singleton (call : ResolverCall) :
    UtxoResolver.run deps checks (done ++ [call]) =
      (UtxoResolver.run deps checks done).bind fun m => m.after deps checks call := by
  unfold UtxoResolver.run
  rw [List.foldlM_append]
  exact congrArg _ (funext fun m => List.foldlM_cons.trans (bind_pure _))

theorem heldAfter_insert : heldAfter (done ++ [.insert ref body]) = (heldAfter done).insert ref body := by
  unfold heldAfter
  rw [List.foldl_append]
  rfl

theorem heldAfter_remove : heldAfter (done ++ [.remove ref]) = (heldAfter done).erase ref := by
  unfold heldAfter
  rw [List.foldl_append]
  rfl

/-- **The entries are those of the calls**, whatever the counter. -/
theorem run_entries (h : UtxoResolver.run deps checks done = some m) : m.entries = heldAfter done := by
  induction done using List.reverseRecOn generalizing m with
  | nil =>
    cases h
    rfl
  | append_singleton done call ih =>
    rw [run_append_singleton] at h
    obtain ⟨before, hbefore, h⟩ := Option.bind_eq_some_iff.mp h
    have hentries := ih hbefore
    cases call with
    | insert ref body =>
      obtain ⟨size, -, rfl⟩ := Option.map_eq_some_iff.mp h
      rw [heldAfter_insert, ← hentries]
    | remove ref =>
      obtain ⟨⟨removed, left⟩, hremove, rfl⟩ := Option.map_eq_some_iff.mp h
      unfold UtxoResolver.remove at hremove
      rw [heldAfter_remove, ← hentries]
      cases hget : before.entries.get ref with
      | none =>
        rw [hget] at hremove
        cases hremove
        exact (Table.erase_of_none hget).symm
      | some old =>
        rw [hget] at hremove
        obtain ⟨size, -, heq⟩ := Option.map_eq_some_iff.mp hremove
        cases heq
        rfl

/-- The bytes after an insertion: those of the entry that it replaces are gone. -/
theorem bytesIn_insert (t : Table TxoRef TxoBody) (ref : TxoRef) (body : TxoBody) :
    bytesIn deps (t.insert ref body) + ((t.get ref).map fun old => (UtxoResolver.rawLen deps old).val).getD 0 =
      bytesIn deps t + (UtxoResolver.rawLen deps body).val := by
  have htotal := Table.total_insert (fun _ body => (UtxoResolver.rawLen deps body).val) t ref body
  unfold Table.weightAt at htotal
  unfold bytesIn
  cases hget : t.get ref with
  | none => simpa [hget] using htotal
  | some old => simpa [hget] using htotal

/-- The bytes after a removal. -/
theorem bytesIn_erase {t : Table TxoRef TxoBody} (hget : t.get ref = some body) :
    bytesIn deps (t.erase ref) + (UtxoResolver.rawLen deps body).val = bytesIn deps t := by
  have htotal := Table.total_erase (fun _ body => (UtxoResolver.rawLen deps body).val) t ref
  rwa [Table.weightAt_of_get hget] at htotal

/-- **An insertion that replaces nothing** keeps an exact counter exact. -/
theorem insert_exact (hexact : m.size.val = bytesIn deps m.entries)
    (hfresh : ∀ old, m.entries.get ref = some old → UtxoResolver.rawLen deps old = 0)
    (hfits : bytesIn deps (m.entries.insert ref body) < 2 ^ 64) :
    ∃ m', m.insert deps checks ref body = some m' ∧ m'.size.val = bytesIn deps m'.entries := by
  have hbytes := @bytesIn_insert deps m.entries ref body
  have hold : ((m.entries.get ref).map fun old => (UtxoResolver.rawLen deps old).val).getD 0 = 0 := by
    cases hget : m.entries.get ref with
    | none => rfl
    | some old => simp [hfresh old hget]
  rw [hold, Nat.add_zero, ← hexact] at hbytes
  unfold UtxoResolver.insert
  rw [Machine.add_of_lt checks (by omega)]
  exact ⟨_, rfl, hbytes.symm⟩

/-- A removal keeps an exact counter exact. -/
theorem remove_exact (hexact : m.size.val = bytesIn deps m.entries) (ref : TxoRef) :
    ∃ m', (m.remove deps checks ref).map Prod.snd = some m' ∧ m'.size.val = bytesIn deps m'.entries := by
  unfold UtxoResolver.remove
  cases hget : m.entries.get ref with
  | none => exact ⟨m, rfl, hexact⟩
  | some body =>
    have hbytes := @bytesIn_erase deps _ _ _ hget
    simp only
    rw [Machine.sub_of_le checks (by omega)]
    exact ⟨_, rfl, by simp only; omega⟩

/-- **An insertion after which the counter is exact** replaced nothing that has bytes. -/
theorem fresh_of_exact {m' : UtxoResolver} (hexact : m.size.val = bytesIn deps m.entries)
    (hinsert : m.insert deps checks ref body = some m') (hexact' : m'.size.val = bytesIn deps m'.entries) {old : TxoBody}
    (hget : m.entries.get ref = some old) : UtxoResolver.rawLen deps old = 0 := by
  have hbytes := @bytesIn_insert deps m.entries ref body
  rw [hget, Option.map_some, Option.getD_some] at hbytes
  obtain ⟨size, hadd, rfl⟩ := Option.map_eq_some_iff.mp hinsert
  have hsize : size = m.size + UtxoResolver.rawLen deps body := Machine.add_eq_some hadd
  have hval := congrArg Fin.val hsize
  rw [Fin.val_add] at hval
  simp only at hexact'
  have hsum := (m.size + UtxoResolver.rawLen deps body).isLt
  have hlt := (UtxoResolver.rawLen deps old).isLt
  refine Fin.ext ?_
  rw [Fin.val_zero]
  omega

/-! ## Sequences of calls -/

theorem NeverReplaced.of_initial (h : NeverReplaced deps calls) (hdone : done <+: calls) : NeverReplaced deps done :=
  fun first ref body hfirst => h first ref body (hfirst.trans hdone)

/-- **Without a replacement the counter is exact** after all calls. -/
theorem run_exact (h : NeverReplaced deps calls) :
    ∃ m, UtxoResolver.run deps checks calls = some m ∧ m.size.val = bytesIn deps m.entries := by
  induction calls using List.reverseRecOn with
  | nil => exact ⟨UtxoResolver.new, rfl, rfl⟩
  | append_singleton done call ih =>
    obtain ⟨m, hrun, hexact⟩ := ih (NeverReplaced.of_initial h (List.prefix_append done [call]))
    rw [run_append_singleton, hrun, Option.bind_some]
    cases call with
    | insert ref body =>
      obtain ⟨hfresh, hfits⟩ := h done ref body (List.prefix_refl _)
      rw [← run_entries hrun] at hfresh
      rw [heldAfter_insert, ← run_entries hrun] at hfits
      exact insert_exact hexact hfresh hfits
    | remove ref => exact remove_exact hexact ref

/-- **The counter is exact along a sequence of calls**, and no removal underflows, exactly when no insertion replaces
an entry that has bytes. -/
theorem size_exact_iff (deps : Deps) (checks : Bool) (calls : List ResolverCall) :
    SizeExact deps checks calls ∧ NoUnderflow deps checks calls ↔ NeverReplaced deps calls := by
  constructor
  · rintro ⟨hexact, -⟩ done ref body hdone
    obtain ⟨m, hrun, hm⟩ := hexact done ((List.prefix_append done _).trans hdone)
    obtain ⟨m', hrun', hm'⟩ := hexact _ hdone
    refine ⟨fun old hold => ?_, ?_⟩
    · rw [run_append_singleton, hrun, Option.bind_some] at hrun'
      rw [← run_entries hrun] at hold
      exact fresh_of_exact hm hrun' hm' hold
    · rw [← run_entries hrun', ← hm']
      exact m'.size.isLt
  · intro h
    refine ⟨fun done hdone => run_exact (NeverReplaced.of_initial h hdone), fun done ref hdone m hrun body hget => ?_⟩
    obtain ⟨m', hrun', hexact⟩ := @run_exact deps checks _
      (NeverReplaced.of_initial h ((List.prefix_append done _).trans hdone))
    rw [hrun] at hrun'
    cases hrun'
    have hbytes := @bytesIn_erase deps _ _ _ hget
    omega

/-- The same reference inserted twice, as when a block that failed is processed again. -/
def insertedTwice : List ResolverCall :=
  [.insert ⟨10, 0⟩ ⟨1, ⟨5, []⟩, [], [], Table.empty⟩, .insert ⟨10, 0⟩ ⟨1, ⟨5, []⟩, [], [], Table.empty⟩]

/-- One output of nine bytes is held, and the counter is eighteen. -/
theorem size_counts_replaced :
    (∃ m, UtxoResolver.run emptyScripts true insertedTwice = some m ∧ m.size.val = 18 ∧
      bytesIn emptyScripts m.entries = 9) ∧ ¬ SizeExact emptyScripts true insertedTwice := by
  have hrun : ∃ m, UtxoResolver.run emptyScripts true insertedTwice = some m ∧ m.size.val = 18 ∧
      bytesIn emptyScripts m.entries = 9 := ⟨_, rfl, rfl, rfl⟩
  refine ⟨hrun, fun hexact => ?_⟩
  obtain ⟨m, hm, hsize, hbytes⟩ := hrun
  obtain ⟨m', hm', heq⟩ := hexact insertedTwice (List.prefix_refl _)
  rw [hm] at hm'
  cases hm'
  rw [hsize, hbytes] at heq
  exact absurd heq (by decide)

end

end DogeIndexer.Compressor
