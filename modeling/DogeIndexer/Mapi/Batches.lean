import DogeIndexer.Mapi.Endpoints

/-!
# Scans under failures

The three scans of `services/mapi-xdg/src/polyphony.rs` on a store that refuses finitely many of the calls because the
answer would be too large, whichever these are.

* `Scanner.run_collect` — a scan collects the entries of its range, for every finite pattern of refusals.
* `collect_decode`, `collect_found` — what is collected are the first entries that pass the filter, decoded.
* `scans_exact_iff` — the scans return exactly these, unless the first batch has size zero.
-/

set_option autoImplicit false

namespace DogeIndexer.Mapi

open Timbre

/-! ## What the loop collects -/

section Loop

variable {α : Type} {visit : Bytes × Bytes → MapiResult (Option α)} {filter : Option (Bytes × Bytes → Bool)}

/-- A finite pattern of refusals: from some call on, none is refused. -/
def Finitely (refused : Refusals) (bound : Nat) : Prop :=
  ∀ call order range size, bound ≤ call → refused call order range size = false

theorem Finitely.runsOut {refused : Refusals} {bound : Nat} (h : Finitely refused bound) :
    RunsOut refused (fun call _ => bound - call) where
  refusal := by
    intro call order range size _ hrefused
    have hcall : call < bound := by
      by_contra hge
      rw [h call order range size (by omega)] at hrefused
      cases hrefused
    omega
  answer := by
    intro call _
    omega

/-- A first batch of size zero ends the loop with nothing, unless the call is refused. -/
theorem scanLoop_zero {s : Snapshot} {order : OrderParam} {count : Option Nat} {refused : Refusals} {range : Range}
    (h : refused 0 order range 0 = false) (fuel : Nat) (kvs : List α) :
    scanLoop visit filter s order count refused (fuel + 1) 0 range 0 kvs = .ok kvs := by
  rw [scanLoop, h]
  rfl

/-- A first batch of size zero that is refused is followed by batches of size one. -/
theorem scanLoop_refused {s : Snapshot} {order : OrderParam} {count : Option Nat} {refused : Refusals} {range : Range}
    (h : refused 0 order range 0 = true) (fuel : Nat) (kvs : List α) :
    scanLoop visit filter s order count refused (fuel + 1) 0 range 0 kvs =
      scanLoop visit filter s order count refused fuel 1 range 1 kvs := by
  rw [scanLoop, h]
  rfl

theorem firstOf_cons {β : Type} {count : Option Nat} {n : Nat} (h : ∀ c ∈ count, n < c) (e : β) (l : List β) :
    firstOf (count.map (· - n)) (e :: l) = e :: firstOf (count.map (· - (n + 1))) l := by
  cases count with
  | none => rfl
  | some c =>
    have hc := h c rfl
    show (e :: l).take (c - n) = e :: l.take (c - (n + 1))
    rw [show c - n = c - (n + 1) + 1 by omega, List.take_succ_cons]

/-- **Decoding while collecting** is decoding the first entries: the error of the first that does not decode, or all of
them. -/
theorem collect_decode {d : Bytes × Bytes → MapiResult α} {count : Option Nat} {kvs : List α}
    (hcount : ∀ c ∈ count, kvs.length < c) (l : List (Bytes × Bytes)) :
    (collect (fun kv => some <$> d kv) count l kvs).map Prod.fst =
      (kvs ++ ·) <$> (firstOf (count.map (· - kvs.length)) l).mapM d := by
  induction l generalizing kvs with
  | nil =>
    have hnil : ∀ count : Option Nat, firstOf count ([] : List (Bytes × Bytes)) = [] := by
      intro count
      cases count <;> simp [firstOf]
    rw [hnil]
    show _ = Except.ok (kvs ++ [])
    rw [List.append_nil]
    rfl
  | cons e l ih =>
    rw [collect, firstOf_cons hcount, List.mapM_cons]
    cases d e with
    | error err => rfl
    | ok x =>
      have hlen : (kvs ++ [x]).length = kvs.length + 1 := by simp
      have hmore : (∀ c ∈ count, (kvs ++ [x]).length < c) →
          (collect (fun kv => some <$> d kv) count l (kvs ++ [x])).map Prod.fst =
            (kvs ++ ·) <$> (do
              let b ← Except.ok x
              let bs ← (firstOf (count.map (· - (kvs.length + 1))) l).mapM d
              pure (b :: bs)) := by
        intro hroom
        rw [ih hroom, hlen]
        cases (firstOf (count.map (· - (kvs.length + 1))) l).mapM d with
        | error err => rfl
        | ok xs => exact congrArg Except.ok (by simp)
      cases count with
      | none => exact hmore (by simp)
      | some c =>
        have hc := hcount c rfl
        show Except.map Prod.fst (if c ≤ (kvs ++ [x]).length then _ else _) = _
        by_cases hfull : c ≤ (kvs ++ [x]).length
        · have hzero : c - (kvs.length + 1) = 0 := by omega
          rw [if_pos hfull]
          show _ = (kvs ++ ·) <$> (do
            let bs ← (l.take (c - (kvs.length + 1))).mapM d
            pure (x :: bs))
          rw [hzero]
          rfl
        · rw [if_neg hfull]
          refine hmore ?_
          rintro c' ⟨⟩
          omega

/-! ## The scans -/

theorem length_of_mapM {β : Type} {d : β → MapiResult α} {l : List β} {xs : List α} (h : l.mapM d = .ok xs) :
    xs.length = l.length := by
  induction l generalizing xs with
  | nil =>
    cases h
    rfl
  | cons e l ih =>
    rw [List.mapM_cons] at h
    cases hd : d e with
    | error err =>
      rw [hd] at h
      cases h
    | ok x =>
      rw [hd] at h
      cases hl : l.mapM d with
      | error err =>
        rw [hl] at h
        cases h
      | ok ys =>
        rw [hl] at h
        cases h
        rw [List.length_cons, List.length_cons, ih hl]

/-- A run ends, after some number of calls, with the result. -/
def EndsWith {β : Type} (run : Nat → MapiResult β) (result : MapiResult β) : Prop :=
  ∃ calls, ∀ fuel, calls ≤ fuel → run fuel = result

variable {s : Snapshot} {refused : Refusals} {bound : Nat} {scanner : Scanner}

/-- **A scan whose first batch is not of size zero**, or is refused, collects its range. -/
theorem Scanner.run_collect (hfinite : Finitely refused bound) {scanSize : Nat}
    (hsize : 0 < scanSize ∨ refused 0 scanner.order scanner.range 0 = true) :
    EndsWith (fun fuel => scanner.run visit filter s refused fuel scanSize)
      (firstOf scanner.count <$>
        (collect visit scanner.count (retain filter (s.rest scanner.order scanner.range)) []).map Prod.fst) := by
  refine ⟨bound + (s.rest scanner.order scanner.range).length + 2, fun fuel hfuel => ?_⟩
  show Scanner.run visit filter s refused fuel scanner scanSize = _
  rw [Scanner.run_eq_firstOf]
  refine congrArg (firstOf scanner.count <$> ·) ?_
  obtain ⟨fuel, rfl⟩ : ∃ n, fuel = n + 1 := ⟨fuel - 1, by omega⟩
  rcases Nat.eq_zero_or_pos scanSize with rfl | hpos
  · have hrefused : refused 0 scanner.order scanner.range 0 = true := hsize.resolve_left (lt_irrefl 0)
    rw [scanLoop_refused hrefused]
    exact scanLoop_collect hfinite.runsOut _ _ _ _ _ (by decide) (by omega)
  · exact scanLoop_collect hfinite.runsOut _ _ _ _ _ hpos (by omega)

/-- A first batch of size zero that is not refused. -/
theorem Scanner.run_zero (h : refused 0 scanner.order scanner.range 0 = false) :
    EndsWith (fun fuel => scanner.run visit filter s refused fuel 0) (.ok []) := by
  refine ⟨1, fun fuel hfuel => ?_⟩
  obtain ⟨fuel, rfl⟩ : ∃ n, fuel = n + 1 := ⟨fuel - 1, by omega⟩
  show Scanner.run visit filter s refused (fuel + 1) scanner 0 = _
  rw [Scanner.run_eq_firstOf, scanLoop_zero h]
  cases scanner.count with
  | none => rfl
  | some c => exact congrArg Except.ok (List.take_nil)

theorem EndsWith.unique {β : Type} {run : Nat → MapiResult β} {r r' : MapiResult β} (h : EndsWith run r)
    (h' : EndsWith run r') : r = r' := by
  obtain ⟨calls, hcalls⟩ := h
  obtain ⟨calls', hcalls'⟩ := h'
  rw [← hcalls (max calls calls') (le_max_left _ _), hcalls' (max calls calls') (le_max_right _ _)]

/-- **A scan that decodes its entries** returns the first of them decoded, exactly if its first batch is not of size
zero, or is refused, or there is nothing to return. -/
theorem decoding_exact_iff (hfinite : Finitely refused bound)
    (hcount : ∀ c ∈ scanner.count, 1 ≤ c) (d : Bytes × Bytes → MapiResult α) (scanSize : Nat) :
    EndsWith (fun fuel => scanner.run (fun kv => some <$> d kv) filter s refused fuel scanSize)
        ((firstOf scanner.count (retain filter (s.rest scanner.order scanner.range))).mapM d) ↔
      (scanSize = 0 → refused 0 scanner.order scanner.range 0 = true ∨ retain filter (s.rest scanner.order scanner.range) = []) := by
  generalize hl : retain filter (s.rest scanner.order scanner.range) = l
  have hcollect : firstOf scanner.count <$>
      (collect (fun kv => some <$> d kv) scanner.count l []).map Prod.fst =
        (firstOf scanner.count l).mapM d := by
    have hstart : ∀ c ∈ scanner.count, ([] : List α).length < c := hcount
    rw [collect_decode hstart]
    have hroom : scanner.count.map (· - ([] : List α).length) = scanner.count := by
      cases scanner.count <;> rfl
    rw [hroom]
    cases hm : (firstOf scanner.count l).mapM d with
    | error e => rfl
    | ok xs =>
      refine congrArg Except.ok (firstOf_of_length fun c hc => ?_)
      show xs.length ≤ c
      rw [length_of_mapM hm]
      exact length_firstOf c hc
  have hends : 0 < scanSize ∨ refused 0 scanner.order scanner.range 0 = true →
      EndsWith (fun fuel => scanner.run (fun kv => some <$> d kv) filter s refused fuel scanSize)
        ((firstOf scanner.count l).mapM d) := by
    intro hsize
    have h := @Scanner.run_collect α (fun kv => some <$> d kv) filter s refused bound scanner hfinite scanSize hsize
    rwa [hl, hcollect] at h
  constructor
  · rintro h rfl
    by_cases hrefused : refused 0 scanner.order scanner.range 0 = true
    · exact .inl hrefused
    · refine .inr ?_
      have hnil := (Scanner.run_zero (Bool.eq_false_iff.mpr hrefused)).unique h
      have hlen := length_of_mapM hnil.symm
      by_contra hne
      have hpos : 0 < l.length := List.length_pos_iff.mpr hne
      cases hc : scanner.count with
      | none =>
        rw [hc] at hlen
        simp only [firstOf, List.length_nil] at hlen
        omega
      | some c =>
        have := hcount c hc
        rw [hc] at hlen
        simp only [firstOf, List.length_nil, List.length_take] at hlen
        omega
  · intro h
    by_cases hzero : scanSize = 0
    · rcases h hzero with hrefused | hnil
      · exact hends (.inr hrefused)
      · by_cases hrefused : refused 0 scanner.order scanner.range 0 = true
        · exact hends (.inr hrefused)
        · subst hzero
          rw [hnil]
          have hfirst : firstOf scanner.count ([] : List (Bytes × Bytes)) = [] := by
            cases scanner.count <;> simp [firstOf]
          rw [hfirst]
          exact Scanner.run_zero (Bool.eq_false_iff.mpr hrefused)
    · exact hends (.inl (by omega))

end Loop

/-! ## Outputs without a metaprotocol -/

/-- **The scan of outputs without a metaprotocol** returns the first of them. -/
theorem nonMetaprotocol_exact (srv : Server) {s : Snapshot} {refused : Refusals} {bound : Nat}
    (hfinite : Finitely refused bound) (scanner : Scanner)
    (hcount : ∀ c ∈ scanner.count, 1 ≤ c) {filter : Option (Bytes × Bytes → Bool)}
    {decoded : Bytes × Bytes → UtxosByScriptHash.key.Val × UtxosByScriptHash.value.Val}
    (hdecoded : ∀ e ∈ retain filter (s.rest scanner.order scanner.range),
      decodeEntry srv UtxosByScriptHash.key UtxosByScriptHash.value e = .ok (decoded e)) :
    EndsWith (fun fuel => scanner.getNonMetaprotocolUtxos srv s refused fuel filter)
      (.ok (firstOf scanner.count (((retain filter (s.rest scanner.order scanner.range)).map decoded).filter
        fun e => unencumbered srv s e.1))) := by
  generalize hl : retain filter (s.rest scanner.order scanner.range) = l at hdecoded ⊢
  have hfound : ∀ e ∈ l, visitUtxo srv s e =
      .ok (if unencumbered srv s (decoded e).1 then some (decoded e) else none) := by
    intro e he
    simp only [visitUtxo, hdecoded e he, MapiResult.ok_bind, noMetaprotocol_unencumbered]
  have hfilter : l.filterMap (fun e => if unencumbered srv s (decoded e).1 then some (decoded e) else none) =
      (l.map decoded).filter fun e => unencumbered srv s e.1 := by
    rw [← List.filterMap_eq_filter, List.filterMap_map]
    rfl
  have hends := @Scanner.run_collect _ (visitUtxo srv s) filter s refused bound scanner hfinite
    KV_SCAN_BATCH_SIZE (.inl (by decide))
  rw [hl, collect_found hcount hfound, hfilter] at hends
  have htwice : firstOf scanner.count <$> (Except.ok (firstOf scanner.count
      ((l.map decoded).filter fun e => unencumbered srv s e.1)) : MapiResult _) =
        .ok (firstOf scanner.count ((l.map decoded).filter fun e => unencumbered srv s e.1)) :=
    congrArg Except.ok (firstOf_of_length length_firstOf)
  rw [htwice] at hends
  exact hends

/-! ## Exactness -/

/-- The size of the first batch is zero for the counts that leave nothing as a `u32`. -/
theorem first_size_iff {count : Option Nat} {size : Nat} (hsize : size ≠ 0) {P : Prop} :
    ((count.map asU32).getD size = 0 → P) ↔ ∀ c ∈ count, c % 2 ^ 32 = 0 → P := by
  cases count with
  | none => exact iff_of_true (fun h => absurd h hsize) (fun c hc => by cases hc)
  | some n => exact ⟨fun h c hc => by cases hc; exact h, fun h => h n rfl⟩

/-- **The batched scans are filter-then-take.**  For every finite pattern of refusals they end; what they return are
the first entries of the range, in order, that pass the filter, decoded.  The two scans that take their first batch
size from the count do so exactly if the size that is left of it as a `u32` is not zero, or the first call is refused,
or there is nothing to return. -/
theorem scans_exact_iff (srv : Server) (s : Snapshot) (refused : Refusals) (bound : Nat)
    (hfinite : Finitely refused bound) (scanner : Scanner)
    (hcount : ∀ c ∈ scanner.count, 1 ≤ c) (K V : Ty) (filter : Option (Bytes × Bytes → Bool)) :
    let entries := s.rest scanner.order scanner.range
    let sized := ∀ c ∈ scanner.count, c % 2 ^ 32 = 0 → refused 0 scanner.order scanner.range 0 = true ∨ entries = []
    (EndsWith (fun fuel => scanner.executeWithFilter srv s refused fuel K V filter)
        ((firstOf scanner.count (retain filter entries)).mapM (decodeEntry srv K V)) ↔
      (filter = none → sized)) ∧
    (EndsWith (fun fuel => scanner.executeKeysOnly srv s refused fuel K)
        ((firstOf scanner.count entries).mapM (decodeKey srv K)) ↔ sized) ∧
    ∀ decoded : Bytes × Bytes → UtxosByScriptHash.key.Val × UtxosByScriptHash.value.Val,
      (∀ e ∈ retain filter entries,
        decodeEntry srv UtxosByScriptHash.key UtxosByScriptHash.value e = .ok (decoded e)) →
      EndsWith (fun fuel => scanner.getNonMetaprotocolUtxos srv s refused fuel filter)
        (.ok (firstOf scanner.count (((retain filter entries).map decoded).filter fun e => unencumbered srv s e.1))) := by
  intro entries sized
  refine ⟨?_, ?_, fun decoded hdecoded => ?_⟩
  · refine (decoding_exact_iff hfinite hcount (decodeEntry srv K V) _).trans ?_
    cases filter with
    | some f => exact iff_of_true (fun h => absurd h (Nat.succ_ne_zero 999)) (fun h => by cases h)
    | none =>
      show ((scanner.count.map asU32).getD KV_SCAN_BATCH_SIZE = 0 → _) ↔ _
      rw [first_size_iff (by decide)]
      exact ⟨fun h _ => h, fun h => h rfl⟩
  · refine (decoding_exact_iff hfinite hcount (decodeKey srv K) _).trans ?_
    have hsize : asU32 (scanner.count.getD 1000) = (scanner.count.map asU32).getD 1000 := by
      cases scanner.count <;> rfl
    rw [hsize]
    exact first_size_iff (by decide)
  · exact nonMetaprotocol_exact srv hfinite scanner hcount hdecoded

namespace TwoHolders

/-- The balances of both holders. -/
def balances : Range := ⟨ns.dataPrefix .balancesByRuneId, [1]⟩

theorem balances_length (order : OrderParam) : (snapshot.rest order balances).length = 2 := by
  cases order <;> decide +kernel

/-- The first calls are refused. -/
def first (calls : Nat) : Refusals := fun call _ _ _ => call < calls

theorem first_finitely (calls : Nat) : Finitely (first calls) calls :=
  fun _ _ _ _ h => decide_eq_false (not_lt_of_ge h)

/-- One balance, when the first two calls are refused. -/
theorem scans_exact_refused :
    EndsWith (fun fuel => Scanner.executeKeysOnly server snapshot (first 2) fuel BalancesByRuneId.key
        ⟨balances, .desc, some 1⟩)
      ((firstOf (some 1) (snapshot.rest .desc balances)).mapM (decodeKey server BalancesByRuneId.key)) :=
  (scans_exact_iff server snapshot (first 2) 2 (first_finitely 2) ⟨balances, .desc, some 1⟩
    (fun c hc => by cases hc; exact le_refl 1) BalancesByRuneId.key u128 none).2.1.mpr
      (fun c hc h => by cases hc; exact absurd h (by decide))

/-- A count of `2 ^ 32` leaves no size for the first batch: both balances are there, and none is returned. -/
theorem scan_of_size_zero :
    EndsWith (fun fuel => Scanner.executeWithFilter server snapshot (first 0) fuel BalancesByRuneId.key u128 none
        ⟨balances, .asc, some (2 ^ 32)⟩) (.ok []) ∧
      (snapshot.rest .asc balances).length = 2 ∧
      ¬ EndsWith (fun fuel => Scanner.executeWithFilter server snapshot (first 0) fuel BalancesByRuneId.key u128 none
          ⟨balances, .asc, some (2 ^ 32)⟩)
        ((firstOf (some (2 ^ 32)) (snapshot.rest .asc balances)).mapM
          (decodeEntry server BalancesByRuneId.key u128)) := by
  refine ⟨Scanner.run_zero rfl, balances_length .asc, fun h => ?_⟩
  have hexact := (decoding_exact_iff (first_finitely 0) (fun c hc => by cases hc; decide)
    (decodeEntry server BalancesByRuneId.key u128) 0).mp h rfl
  rcases hexact with hrefused | hnil
  · cases hrefused
  · have hlength := balances_length .asc
    rw [show snapshot.rest .asc balances = [] from hnil] at hlength
    cases hlength

end TwoHolders

end DogeIndexer.Mapi
