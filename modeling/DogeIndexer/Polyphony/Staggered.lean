import DogeIndexer.Polyphony.Cursor

/-!
# A staggered flush can be repeated

`apply_staggered_actions` commits the deletes, chunks of the sets, and then the counters with the
cursor, each in a transaction of its own.  Only the last transaction is not idempotent, so a flush
that fails before its commit may be run again from the start.

* `staggeredTransactions`, `commitAll` — the transactions and what committing some of them leaves.
* `applyStaggeredActions_eq` — the flush commits exactly these.
* `commitAll_repeat` — repeating a flush that has not committed its last transaction.
* `commitAll_again_iff` — repeating one that has.
-/

set_option autoImplicit false

namespace DogeIndexer.Polyphony

open Effect

/-! ## The transactions -/

/-- The cursor set of a batch: the last one found. -/
def cursorAction (cfg : Config) (actions : List StorageAction) : Option StorageAction :=
  (actions.filter (isCursorSet cfg.cursorKey)).getLast?

/-- The transactions before the last one. -/
def firstTransactions (cfg : Config) (actions : List StorageAction) : List (List StorageAction) :=
  actions.filter isDelete ::
    chunks 5000 (actions.filter (isOtherSet cfg.cursorKey)).length (actions.filter (isOtherSet cfg.cursorKey))

/-- The transactions of a flush, in order. -/
def staggeredTransactions (cfg : Config) (actions : List StorageAction) : List (List StorageAction) :=
  firstTransactions cfg actions ++ (cursorAction cfg actions).toList.map (actions.filter isOther ++ [·])

/-- Committing transactions one after another; a panic is `none`. -/
def commitAll (checks : Bool) (store : Store) (transactions : List (List StorageAction)) : Option Store :=
  transactions.foldlM (fun d t => (applyActions checks d t false).map Prod.fst) store

section Flush

variable {cfg : Config} {w w' : Worker} {actions : List StorageAction}

/-- **The flush commits the transactions in order.** -/
theorem applyStaggeredActions_eq {cursor : StorageAction} (hcursor : cursorAction cfg actions = some cursor) :
    applyStaggeredActions cfg actions w = (staggeredTransactions cfg actions).forM (commitActions cfg) w := by
  have hforM : ∀ (ts : List (List StorageAction)) (x : List StorageAction) (v : Worker),
      (ts ++ [x]).forM (commitActions cfg) v = (do
        ts.forM (commitActions cfg)
        commitActions cfg x : Exec Unit) v := by
    intro ts x
    induction ts with
    | nil =>
      intro v
      show (commitActions cfg x >>= fun _ => pure ()) v = (pure () >>= fun _ => commitActions cfg x) v
      rw [bind_pure_unit]
      rfl
    | cons t ts ih =>
      intro v
      show (commitActions cfg t >>= fun _ => (ts ++ [x]).forM (commitActions cfg)) v =
        ((commitActions cfg t >>= fun _ => ts.forM (commitActions cfg)) >>= fun _ => commitActions cfg x) v
      rw [bind_assoc]
      cases hr : commitActions cfg t v with
      | ok u v' =>
        rw [bind_of_ok hr, bind_of_ok hr]
        exact ih v'
      | error e v' =>
        rw [bind_eq_error.mpr (Or.inl hr), bind_eq_error.mpr (Or.inl hr)]
  have hlast : staggeredTransactions cfg actions =
      firstTransactions cfg actions ++ [actions.filter isOther ++ [cursor]] := by
    unfold staggeredTransactions
    rw [hcursor]
    rfl
  rw [hlast, hforM]
  unfold applyStaggeredActions firstTransactions
  change cursorAction cfg actions = _ at hcursor
  unfold cursorAction at hcursor
  simp only [hcursor]
  show (commitActions cfg _ >>= fun _ => (chunks 5000 _ _).forM (commitActions cfg) >>= fun _ =>
    orPanic (some cursor) >>= fun c => commitActions cfg (_ ++ [c])) w =
      ((commitActions cfg _ >>= fun _ => (chunks 5000 _ _).forM (commitActions cfg)) >>= fun _ =>
        commitActions cfg (_ ++ [cursor])) w
  rw [bind_assoc]
  rfl

/-- What a flush leaves, completed or not. -/
theorem applyStaggeredActions_commits {cursor : StorageAction} (hcursor : cursorAction cfg actions = some cursor) :
    (∀ w', applyStaggeredActions cfg actions w = .ok () w' → ∃ faults,
      commitAll cfg.checks w.data (staggeredTransactions cfg actions) = some w'.data ∧
        w' = { w with data := w'.data, faults := faults }) ∧
    (∀ e w', applyStaggeredActions cfg actions w = .error e w' → ∃ n faults,
      n < (staggeredTransactions cfg actions).length ∧
        commitAll cfg.checks w.data ((staggeredTransactions cfg actions).take n) = some w'.data ∧
        w' = { w with data := w'.data, faults := faults }) := by
  rw [applyStaggeredActions_eq hcursor]
  constructor
  · intro w' h
    obtain ⟨data, faults, hdata, rfl⟩ := forM_commit_ok (f := id) h
    exact ⟨faults, hdata, rfl⟩
  · intro e w' h
    obtain ⟨done, a, rest, data, faults, hsplit, hdata, rfl⟩ := forM_commit_error (f := id) h
    refine ⟨done.length, faults, ?_, ?_, rfl⟩
    · rw [hsplit, List.length_append, List.length_cons]
      omega
    · rw [hsplit, List.take_left']
      · exact hdata
      · rfl

end Flush

/-! ## The transactions share no key -/

section Split

variable {cfg : Config} {actions : List StorageAction} {cursor : StorageAction}

theorem chunks_flatten {α : Type} {n : Nat} (hn : 0 < n) (fuel : Nat) (l : List α) (hl : l.length ≤ fuel) :
    (chunks n fuel l).flatten = l := by
  induction fuel generalizing l with
  | zero => exact (List.length_eq_zero_iff.mp (by omega)).symm
  | succ fuel ih =>
    unfold chunks
    split
    · rename_i hempty
      exact (List.isEmpty_iff.mp hempty).symm
    · rename_i hne
      have hpos : 0 < l.length := by
        rw [List.isEmpty_iff] at hne
        exact List.length_pos_iff.mpr hne
      rw [List.flatten_cons, ih _ (by rw [List.length_drop]; omega), List.take_append_drop]

theorem firstTransactions_flatten (cfg : Config) (actions : List StorageAction) :
    (firstTransactions cfg actions).flatten =
      actions.filter isDelete ++ actions.filter (isOtherSet cfg.cursorKey) := by
  unfold firstTransactions
  rw [List.flatten_cons, chunks_flatten (by decide) _ _ (Nat.le_refl _)]

theorem cursorAction_spec (h : cursorAction cfg actions = some cursor) :
    cursor ∈ actions ∧ ∃ v, cursor = .set cfg.cursorKey v := by
  obtain ⟨hmem, hset⟩ := List.mem_filter.mp (List.mem_of_mem_getLast? (Option.mem_def.mpr h))
  refine ⟨hmem, ?_⟩
  cases cursor with
  | set k v =>
    have hk : k = cfg.cursorKey := by simpa [isCursorSet] using hset
    exact ⟨v, by rw [hk]⟩
  | _ => cases hset

theorem cursorAction_isSome {v : Value} (h : .set cfg.cursorKey v ∈ actions) :
    ∃ cursor, cursorAction cfg actions = some cursor := by
  unfold cursorAction
  rw [← Option.isSome_iff_exists, List.getLast?_isSome]
  exact List.ne_nil_of_mem (List.mem_filter.mpr ⟨h, by simp [isCursorSet]⟩)

theorem staggeredTransactions_flatten (h : cursorAction cfg actions = some cursor) :
    (staggeredTransactions cfg actions).flatten =
      (actions.filter isDelete ++ actions.filter (isOtherSet cfg.cursorKey)) ++
        (actions.filter isOther ++ [cursor]) := by
  unfold staggeredTransactions
  rw [h, List.flatten_append, firstTransactions_flatten]
  simp

/-- The transactions hold the actions of the batch. -/
theorem mem_staggeredTransactions (hn : (actions.map StorageAction.key).Nodup)
    (h : cursorAction cfg actions = some cursor) (a : StorageAction) :
    a ∈ (staggeredTransactions cfg actions).flatten ↔ a ∈ actions := by
  obtain ⟨hmem, v, rfl⟩ := cursorAction_spec h
  rw [staggeredTransactions_flatten h]
  simp only [List.mem_append, List.mem_filter, List.mem_singleton]
  constructor
  · rintro ((ha | ha) | (ha | rfl))
    · exact ha.1
    · exact ha.1
    · exact ha.1
    · exact hmem
  · intro ha
    cases a with
    | set k x =>
      by_cases hk : k = cfg.cursorKey
      · -- one action alone has the cursor key
        subst hk
        exact Or.inr (Or.inr (List.inj_on_of_nodup_map hn ha hmem rfl))
      · exact Or.inl (Or.inr ⟨ha, by simp [isOtherSet, hk]⟩)
    | delete k => exact Or.inl (Or.inl ⟨ha, rfl⟩)
    | _ => exact Or.inr (Or.inl ⟨ha, rfl⟩)

/-- The kinds of action are told apart. -/
theorem staggeredTransactions_nodup (hn : (actions.map StorageAction.key).Nodup)
    (h : cursorAction cfg actions = some cursor) :
    ((staggeredTransactions cfg actions).flatten.map StorageAction.key).Nodup := by
  obtain ⟨hmem, v, rfl⟩ := cursorAction_spec h
  have hactions : actions.Nodup := hn.of_map
  have hsub : ∀ a ∈ (staggeredTransactions cfg actions).flatten, a ∈ actions := by
    intro a ha
    rw [staggeredTransactions_flatten h] at ha
    rcases List.mem_append.mp ha with ha | ha
    · rcases List.mem_append.mp ha with ha | ha <;> exact List.mem_of_mem_filter ha
    · rcases List.mem_append.mp ha with ha | ha
      · exact List.mem_of_mem_filter ha
      · rw [List.mem_singleton.mp ha]
        exact hmem
  refine List.Nodup.map_on (fun a ha b hb hab => List.inj_on_of_nodup_map hn (hsub a ha) (hsub b hb) hab) ?_
  rw [staggeredTransactions_flatten h]
  have hdisjoint : ∀ p q : StorageAction → Bool, (∀ a, p a = true → q a = false) →
      List.Disjoint (actions.filter p) (actions.filter q) := by
    intro p q hpq a ha hb
    have hq := (List.mem_filter.mp hb).2
    rw [hpq a (List.mem_filter.mp ha).2] at hq
    cases hq
  have hfirst : (actions.filter isDelete ++ actions.filter (isOtherSet cfg.cursorKey)).Nodup := by
    refine List.Nodup.append (hactions.filter _) (hactions.filter _) (hdisjoint _ _ ?_)
    intro a ha
    cases a <;> first | rfl | cases ha
  have hlast : (actions.filter isOther ++ [StorageAction.set cfg.cursorKey v]).Nodup := by
    refine List.Nodup.append (hactions.filter _) (List.nodup_singleton _) ?_
    rw [List.disjoint_singleton]
    intro hin
    cases (List.mem_filter.mp hin).2
  refine List.Nodup.append hfirst hlast ?_
  intro a ha hb
  rcases List.mem_append.mp ha with ha | ha
  · rcases List.mem_append.mp hb with hb | hb
    · exact hdisjoint isDelete isOther (fun a ha => by cases a <;> first | rfl | cases ha) ha hb
    · rw [List.mem_singleton.mp hb] at ha
      cases (List.mem_filter.mp ha).2
  · rcases List.mem_append.mp hb with hb | hb
    · exact hdisjoint (isOtherSet cfg.cursorKey) isOther
        (fun a ha => by cases a <;> first | rfl | cases ha) ha hb
    · rw [List.mem_singleton.mp hb] at ha
      simp [isOtherSet] at ha

/-- Committing transactions without a common key is one run. -/
theorem commitAll_eq_run (checks : Bool) {ts : List (List StorageAction)}
    (hn : (ts.flatten.map StorageAction.key).Nodup) (store : Store) :
    commitAll checks store ts = Keyed.run StorageAction.key (StorageAction.effect checks) store ts.flatten := by
  induction ts generalizing store with
  | nil => rfl
  | cons t ts ih =>
    rw [List.flatten_cons, List.map_append] at hn
    obtain ⟨ht, hts, -⟩ := List.nodup_append.mp hn
    rw [List.flatten_cons, Keyed.run_append, commitAll, List.foldlM_cons, applyActions_bulk checks ht,
      Option.map_map]
    cases Keyed.run StorageAction.key (StorageAction.effect checks) store t with
    | none => rfl
    | some d => exact ih hts d

/-- Before the last transaction everything overwrites, and neither the counters nor the cursor are
touched. -/
theorem take_flatten_spec {n : Nat} (h : cursorAction cfg actions = some cursor)
    (hlt : n < (staggeredTransactions cfg actions).length) :
    ∀ a ∈ ((staggeredTransactions cfg actions).take n).flatten,
      a ∈ actions ∧ (isDelete a = true ∨ isOtherSet cfg.cursorKey a = true) := by
  have hlen : n ≤ (firstTransactions cfg actions).length := by
    unfold staggeredTransactions at hlt
    rw [h] at hlt
    simp only [Option.toList_some, List.map_singleton, List.length_append, List.length_singleton] at hlt
    omega
  intro a ha
  have hin : a ∈ (firstTransactions cfg actions).flatten := by
    unfold staggeredTransactions at ha
    rw [List.take_append_of_le_length hlen] at ha
    obtain ⟨t, ht, hat⟩ := List.mem_flatten.mp ha
    exact List.mem_flatten.mpr ⟨t, List.mem_of_mem_take ht, hat⟩
  rw [firstTransactions_flatten] at hin
  rcases List.mem_append.mp hin with hin | hin
  · exact ⟨List.mem_of_mem_filter hin, Or.inl (List.mem_filter.mp hin).2⟩
  · exact ⟨List.mem_of_mem_filter hin, Or.inr (List.mem_filter.mp hin).2⟩

/-- **Running a flush again that has not committed its last transaction.** -/
theorem commitAll_repeat {checks : Bool} {n : Nat} {store store₁ : Store}
    (hn : (actions.map StorageAction.key).Nodup) (h : cursorAction cfg actions = some cursor)
    (hlt : n < (staggeredTransactions cfg actions).length)
    (hpart : commitAll checks store ((staggeredTransactions cfg actions).take n) = some store₁) :
    commitAll checks store₁ (staggeredTransactions cfg actions) =
        commitAll checks store (staggeredTransactions cfg actions) ∧
      ∀ a ∈ actions, isOther a = true ∨ isCursorSet cfg.cursorKey a = true →
        store₁.get a.key = store.get a.key := by
  have hall := staggeredTransactions_nodup hn h
  have hspec := take_flatten_spec h hlt
  have hsub : ((staggeredTransactions cfg actions).take n).flatten.Sublist
      (staggeredTransactions cfg actions).flatten := by
    conv_rhs => rw [← List.take_append_drop n (staggeredTransactions cfg actions), List.flatten_append]
    exact List.sublist_append_left _ _
  have hfirst : (((staggeredTransactions cfg actions).take n).flatten.map StorageAction.key).Nodup :=
    nodup_sublist hall hsub
  rw [commitAll_eq_run checks hfirst] at hpart
  constructor
  · rw [commitAll_eq_run checks hall, commitAll_eq_run checks hall]
    refine Keyed.Overwrites.run_redo ?_ (fun a ha => hsub.subset ha) hall hpart
    intro a ha
    obtain ⟨-, hkind⟩ := hspec a ha
    cases a with
    | set k v => exact ⟨some v, fun _ => rfl⟩
    | delete k => exact ⟨none, fun _ => rfl⟩
    | _ => rcases hkind with hkind | hkind <;> cases hkind
  · intro a ha hkind
    refine Keyed.run_get_of_notMem hpart (fun hmem => ?_)
    obtain ⟨b, hb, hba⟩ := List.mem_map.mp hmem
    obtain ⟨hbmem, hbkind⟩ := hspec b hb
    -- the same key in a batch of distinct keys is the same action, of one kind only
    have hsame : b = a := List.inj_on_of_nodup_map hn hbmem ha hba
    subst hsame
    cases b with
    | set k v =>
      have hcur : k = cfg.cursorKey := by simpa [isOther, isCursorSet] using hkind
      have hne : k ≠ cfg.cursorKey := by simpa [isDelete, isOtherSet] using hbkind
      exact hne hcur
    | delete k => rcases hkind with hkind | hkind <;> cases hkind
    | _ => rcases hbkind with hbkind | hbkind <;> cases hbkind

end Split

/-! ## Batches of reducer output -/

/-- A batch of at least one block holds the cursor set and distinct keys. -/
theorem batch_of_blocks {cfg : Config} {b b' : SyncBatcher} {blocks : List (List StorageAction)}
    (hb : b.batchActions = Table.empty) (hne : blocks ≠ [])
    (hblocks : ∀ ops ∈ blocks, ∃ v, Keyed.of StorageAction.key ops cfg.cursorKey = [.set cfg.cursorKey v])
    (hpush : blocks.foldlM (fun b ops => b.pushActions cfg.checks ops) b = some b') :
    ((b'.getBatchActions cfg.order).map StorageAction.key).Nodup ∧
      ∃ v, .set cfg.cursorKey v ∈ b'.getBatchActions cfg.order := by
  have hinv : WellKeyed b'.batchActions ∧ ∃ v, b'.batchActions.get cfg.cursorKey = some (.set cfg.cursorKey v) := by
    have hw : WellKeyed b.batchActions := by
      rw [hb]
      exact wellKeyed_empty
    clear hb
    induction blocks generalizing b with
    | nil => exact absurd rfl hne
    | cons ops blocks ih =>
      rw [List.foldlM_cons] at hpush
      obtain ⟨b₁, hb₁, hrest⟩ := Option.bind_eq_some_iff.mp hpush
      rw [SyncBatcher.pushActions_eq_run] at hb₁
      obtain ⟨held, hheld, rfl⟩ := Option.map_eq_some_iff.mp hb₁
      obtain ⟨v, hv⟩ := hblocks ops List.mem_cons_self
      by_cases hnil : blocks = []
      · subst hnil
        cases hrest
        exact ⟨mergeAll_wellKeyed hw hheld, v, mergeAll_set hv hheld⟩
      · exact ih hnil (fun ops' hops' => hblocks ops' (List.mem_cons_of_mem _ hops')) hrest
          (mergeAll_wellKeyed hw hheld)
  obtain ⟨hw, v, hv⟩ := hinv
  exact ⟨values_nodup hw, v, mem_values.mpr ⟨_, hv⟩⟩

/-! ## A second run -/

namespace StorageAction

/-- Run again after itself, the action moves its counter once more: an increment, or a decrement that
leaves something. -/
def countsAgain : StorageAction → Option Value → Bool
  | incrementU64 _ d, _ => d ≠ 0
  | incrementU128 _ d, _ => d ≠ 0
  | decrementU64 _ d, some v => d ≠ 0 && d.val < Machine.ofBE (v.take 8)
  | decrementU128 _ d, some v => d ≠ 0 && d.val < Machine.ofBE (v.take 16)
  | decrementU128NoDelete _ d, some v => d ≠ 0 && d.val < Machine.ofBE (v.take 16)
  | _, _ => false

variable {w n : Nat} [NeZero n] {checks : Bool} {d : Fin n} {o o' : Option Value}

theorem writeUInt_injective (hn : n = 256 ^ w) {x y : Fin n} (h : writeUInt w x = writeUInt w y) : x = y := by
  have hx := readUInt_writeUInt hn x
  rw [h, readUInt_writeUInt hn y] at hx
  exact (Option.some.inj hx).symm

theorem add_ne_self (hd : d ≠ 0) (x : Fin n) : x + d ≠ x := by
  intro h
  have hval := congrArg Fin.val h
  have hpos : 0 < d.val := Nat.pos_of_ne_zero (fun h0 => hd (Fin.ext h0))
  rw [Fin.val_add] at hval
  rcases Nat.lt_or_ge (x.val + d.val) n with hlt | hge
  · rw [Nat.mod_eq_of_lt hlt] at hval
    omega
  · rw [Nat.mod_eq_sub_mod hge, Nat.mod_eq_of_lt (by omega)] at hval
    omega

theorem sub_ne_self (hd : d ≠ 0) {x : Fin n} (hle : d ≤ x) : x - d ≠ x := by
  intro h
  have hval : (x - d).val = x.val - d.val := Fin.coe_sub_iff_le.mpr hle
  have hpos : 0 < d.val := Nat.pos_of_ne_zero (fun h0 => hd (Fin.ext h0))
  have := Fin.le_def.mp hle
  rw [h] at hval
  omega

theorem incremented_again (hn : n = 256 ^ w) (hd : d ≠ 0) (h : incremented w checks d o = some o') :
    incremented w checks d o' ≠ some o' := by
  -- what is left is a counter, and adding again is another one
  have hwritten : ∃ x : Fin n, o' = some (writeUInt w x) := by
    cases o with
    | none =>
      cases h
      exact ⟨d, rfl⟩
    | some v =>
      obtain ⟨x, -, hx⟩ := Option.bind_eq_some_iff.mp h
      obtain ⟨y, -, rfl⟩ := Option.map_eq_some_iff.mp hx
      exact ⟨y, rfl⟩
  obtain ⟨x, rfl⟩ := hwritten
  intro hagain
  obtain ⟨y, hy, hsum⟩ := Option.bind_eq_some_iff.mp hagain
  rw [readUInt_writeUInt hn] at hy
  cases hy
  obtain ⟨z, hz, heq⟩ := Option.map_eq_some_iff.mp hsum
  have hzx : z = x := writeUInt_injective hn (Option.some.inj heq)
  subst hzx
  unfold Machine.add at hz
  split at hz
  · cases hz
  · exact add_ne_self hd z (Option.some.inj hz)

theorem decremented_again_iff (hn : n = 256 ^ w) (hd : d ≠ 0) (h : decremented w d o = some o') :
    decremented w d o' = some o' ↔ ¬ ∃ v, o = some v ∧ d.val < Machine.ofBE (v.take w) := by
  cases o with
  | none =>
    cases h
    simp [decremented]
  | some v =>
    obtain ⟨x, hx, hres⟩ := Option.map_eq_some_iff.mp h
    have hval := readUInt_val hn hx
    simp only [Option.some.injEq, exists_eq_left', ← hval]
    split at hres
    · rename_i hlt
      have hlt' : d.val < x.val := Fin.lt_def.mp hlt
      subst hres
      simp only [hlt', not_true_eq_false, iff_false]
      intro hagain
      obtain ⟨y, hy, hres⟩ := Option.map_eq_some_iff.mp hagain
      rw [readUInt_writeUInt hn] at hy
      cases hy
      split at hres
      · rename_i hlt₁
        exact sub_ne_self hd (le_of_lt hlt₁) (writeUInt_injective hn (Option.some.inj hres))
      · cases hres
    · rename_i hle
      subst hres
      have hle' : ¬ d.val < x.val := fun hlt => hle (Fin.lt_def.mpr hlt)
      simp [hle', decremented]

theorem decrementedNoDelete_again_iff (hn : n = 256 ^ w) (hd : d ≠ 0) (h : decrementedNoDelete w d o = some o') :
    decrementedNoDelete w d o' = some o' ↔ ¬ ∃ v, o = some v ∧ d.val < Machine.ofBE (v.take w) := by
  have hpos : 0 < d.val := Nat.pos_of_ne_zero (fun h0 => hd (Fin.ext h0))
  cases o with
  | none =>
    cases h
    simp [decrementedNoDelete]
  | some v =>
    obtain ⟨x, hx, hres⟩ := Option.map_eq_some_iff.mp h
    have hval := readUInt_val hn hx
    simp only [Option.some.injEq, exists_eq_left', ← hval]
    have hagain : ∀ y : Fin n, decrementedNoDelete w d (some (writeUInt w y)) = some (some (writeUInt w y)) ↔
        y = 0 := by
      intro y
      simp only [decrementedNoDelete, readUInt_writeUInt hn, Option.map_some, Option.some.injEq]
      constructor
      · intro hsame
        split at hsame
        · rename_i hle
          exact absurd (writeUInt_injective hn (Option.some.inj hsame)) (sub_ne_self hd hle)
        · exact (writeUInt_injective hn (Option.some.inj hsame)).symm
      · rintro rfl
        rw [if_neg]
        intro hle
        have := Fin.le_def.mp hle
        simp only [Fin.val_zero] at this
        omega
    split at hres
    · rename_i hle
      subst hres
      rw [hagain]
      have hle' := Fin.le_def.mp hle
      have hsub : (x - d).val = x.val - d.val := Fin.coe_sub_iff_le.mpr hle
      constructor
      · intro hzero
        rw [hzero, Fin.val_zero] at hsub
        omega
      · intro hnot
        exact Fin.ext (by rw [hsub, Fin.val_zero]; omega)
    · rename_i hnot
      subst hres
      rw [hagain]
      have hlt : ¬ d.val ≤ x.val := fun hle => hnot (Fin.le_def.mpr hle)
      simp only [true_iff]
      omega

/-- **An action run again after itself.** -/
theorem effect_again_iff {a : StorageAction} (h : a.effect checks o = some o') :
    a.effect checks o' = some o' ↔ a.countsAgain o = false := by
  unfold effect at h ⊢
  cases hzero : a.isZeroDelta with
  | true =>
    simp only [if_true, true_iff]
    cases a <;> cases o <;> simp_all [isZeroDelta, countsAgain]
  | false =>
    simp only [hzero, Bool.false_eq_true, if_false] at h ⊢
    cases a with
    | set k v =>
      cases h
      simp [effectWithInverse, countsAgain]
    | delete k =>
      cases h
      simp [effectWithInverse, countsAgain]
    | insert k v =>
      cases h
      simp [effectWithInverse, countsAgain]
    | incrementU64 k d =>
      have hd : d ≠ 0 := by simpa [isZeroDelta] using hzero
      have hne := incremented_again (w := 8) (by decide) hd h
      simp only [effectWithInverse, hne, countsAgain, hd, ne_eq, not_false_eq_true, decide_true]
      decide
    | incrementU128 k d =>
      have hd : d ≠ 0 := by simpa [isZeroDelta] using hzero
      have hne := incremented_again (w := 16) (by decide) hd h
      simp only [effectWithInverse, hne, countsAgain, hd, ne_eq, not_false_eq_true, decide_true]
      decide
    | decrementU64 k d =>
      have hd : d ≠ 0 := by simpa [isZeroDelta] using hzero
      have hiff := decremented_again_iff (w := 8) (by decide) hd h
      simp only [effectWithInverse]
      rw [hiff]
      cases o <;> simp [countsAgain, hd]
    | decrementU128 k d =>
      have hd : d ≠ 0 := by simpa [isZeroDelta] using hzero
      have hiff := decremented_again_iff (w := 16) (by decide) hd h
      simp only [effectWithInverse]
      rw [hiff]
      cases o <;> simp [countsAgain, hd]
    | decrementU128NoDelete k d =>
      have hd : d ≠ 0 := by simpa [isZeroDelta] using hzero
      have hiff := decrementedNoDelete_again_iff (w := 16) (by decide) hd h
      simp only [effectWithInverse]
      rw [hiff]
      cases o <;> simp [countsAgain, hd]

end StorageAction

/-- **Running a flush again that has committed all of its transactions.** -/
theorem commitAll_again_iff {cfg : Config} {actions : List StorageAction} {cursor : StorageAction} {checks : Bool}
    {store store₁ : Store} (hn : (actions.map StorageAction.key).Nodup) (h : cursorAction cfg actions = some cursor)
    (hall : commitAll checks store (staggeredTransactions cfg actions) = some store₁) :
    commitAll checks store₁ (staggeredTransactions cfg actions) = some store₁ ↔
      ∀ a ∈ actions, a.countsAgain (store.get a.key) = false := by
  have hkeys := staggeredTransactions_nodup hn h
  rw [commitAll_eq_run checks hkeys] at hall ⊢
  rw [Keyed.run_eq_self_iff hkeys]
  constructor
  · intro hsame a ha
    have hin := (mem_staggeredTransactions hn h a).mpr ha
    exact (StorageAction.effect_again_iff (Keyed.run_get_of_mem hkeys hall hin)).mp (hsame a hin)
  · intro hagain a ha
    refine (StorageAction.effect_again_iff (Keyed.run_get_of_mem hkeys hall ha)).mpr (hagain a ?_)
    exact (mem_staggeredTransactions hn h a).mp ha

end DogeIndexer.Polyphony
