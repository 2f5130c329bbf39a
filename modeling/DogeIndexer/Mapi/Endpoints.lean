import DogeIndexer.Mapi.ExactlyOnce

/-!
# The listings one by one

Each handler of `Listings` serves the pages of a `Listing`: the entries of its reducer with the
parameters of the request, within the bounds of the heights and past the filter.

* `Request.exactlyOnce_iff` — when following the cursors of a handler returns every matching entry
  exactly once.
* `holders_descending` — two holders of a dune in descending order, where it does not.
-/

set_option autoImplicit false

namespace DogeIndexer.Mapi

open Timbre

/-! ## Keys behind their parameters -/

/-- A key with its first field as the parameter. -/
theorem data_eq_append_iff (ns : Namespace) (reducer : Reducer) {name : String} {A : Ty} {fs : Fields}
    (ho : A.ordered = true) (p : A.Val) (k : A.Val × fs.Val) (r : Bytes) :
    ns.data reducer (.struct (.cons name A fs)) k = keyBase ns reducer A (some p) ++ r ↔
      k.1 = p ∧ r = fs.encodeStruct k.2 := by
  have hkey : (Ty.struct (.cons name A fs)).encode k = A.encode k.1 ++ BREAK :: fs.encodeStruct k.2 := rfl
  simp only [Namespace.data, hkey, keyBase, List.append_assoc, List.append_cancel_left_eq, List.singleton_append]
  constructor
  · intro h
    have hread : A.decode (fun _ => 1) (A.encode p ++ BREAK :: r) = .ok (p, BREAK :: r) := A.decode_of_ordered ho p _
    rw [← h, A.decode_of_ordered ho] at hread
    cases hread
    exact ⟨rfl, rfl⟩
  · rintro ⟨rfl, rfl⟩
    rfl

/-! ## What the scans return -/

section Execute

variable {srv : Server} {s : Snapshot} {reducer : Reducer} {K V : Ty}

theorem written_entry (hkey : reducer.key = some K) (hvalue : reducer.value = some V) {ns : Namespace}
    {order : OrderParam} {range : Range} (hrange : ∀ e ∈ s.rest order range, ns.dataPrefix reducer <+: e.1)
    {e : Bytes × Bytes} (he : e ∈ s.rest order range) :
    ∃ k v, V.Sized v ∧ e = (ns.data reducer K k, V.encode v) := by
  obtain ⟨k, v, -, hv, heq⟩ := s.written ns reducer K V hkey hvalue e (s.mem_rest.mp he).1 (hrange e he)
  exact ⟨k, v, hv, heq⟩

/-- What passes a filter on the stored bytes. -/
def passes (filter : Option (Bytes × Bytes → Bool)) (e : Bytes × Bytes) : Bool :=
  match filter with
  | some f => f e
  | none => true

theorem retain_eq_filter (filter : Option (Bytes × Bytes → Bool)) (l : List (Bytes × Bytes)) :
    retain filter l = l.filter (passes filter) := by
  cases filter with
  | none => exact (List.filter_eq_self.mpr (fun _ _ => rfl)).symm
  | some f => rfl

/-- **A scan that decodes its entries and keeps some of them** returns the first entries that pass the filter and are
kept. -/
theorem run_entries_eq (hkey : reducer.key = some K) (hvalue : reducer.value = some V) (ho : K.ordered = true)
    {ns : Namespace} {filter : Option (Bytes × Bytes → Bool)} {Matches : K.Val × V.Val → Bool}
    (visit : Bytes × Bytes → MapiResult (Option (K.Val × V.Val))) (keep : K.Val × V.Val → Bool)
    {scanner : Scanner} {max scanSize : Nat}
    (hfilter : ∀ k v, V.Sized v → passes filter (ns.data reducer K k, V.encode v) = Matches (k, v))
    (hvisit : ∀ k v, V.Sized v →
      visit (ns.data reducer K k, V.encode v) = .ok (if keep (k, v) then some (k, v) else none))
    (hcount : scanner.count = some max) (hmax : 0 < max) (hsize : 0 < scanSize) (hbound : scanSize < 2 ^ 32)
    (hrange : ∀ e ∈ s.rest scanner.order scanner.range, ns.dataPrefix reducer <+: e.1) :
    scanner.run visit filter s s.refusals s.calls scanSize = .ok ((((s.rest scanner.order scanner.range).filterMap
      (fun e => (decodeEntry srv K V e).toOption)).filter (fun e => keep e && Matches e)).take max) := by
  have hfound : ∀ e ∈ s.rest scanner.order scanner.range,
      visit e = .ok ((decodeEntry srv K V e).toOption.filter keep) := by
    intro e he
    obtain ⟨k, v, hv, rfl⟩ := written_entry hkey hvalue hrange he
    rw [decodeEntry_data srv ns hvalue ho k hv, hvisit k v hv]
    rfl
  have hpasses : ∀ e ∈ s.rest scanner.order scanner.range, ∀ a, (decodeEntry srv K V e).toOption = some a →
      passes filter e = Matches a := by
    intro e he a ha
    obtain ⟨k, v, hv, rfl⟩ := written_entry hkey hvalue hrange he
    rw [decodeEntry_data srv ns hvalue ho k hv] at ha
    cases ha
    exact hfilter k v hv
  rw [Scanner.run_eq hcount hmax hsize hbound hfound, retain_eq_filter, ← List.filter_filterMap,
    filterMap_filter_eq hpasses, List.filter_filter]

theorem executeWithFilter_eq (hkey : reducer.key = some K) (hvalue : reducer.value = some V) (ho : K.ordered = true)
    {ns : Namespace} {filter : Option (Bytes × Bytes → Bool)} {Matches : K.Val → V.Val → Bool}
    (hfilter : ∀ k v, V.Sized v → passes filter (ns.data reducer K k, V.encode v) = Matches k v) (scanner : Scanner)
    (max : Nat) (hcount : scanner.count = some max) (hmax : 0 < max) (hbound : max < 2 ^ 32)
    (hrange : ∀ e ∈ s.rest scanner.order scanner.range, ns.dataPrefix reducer <+: e.1) :
    scanner.executeWithFilter srv s s.refusals s.calls K V filter = .ok ((((s.rest scanner.order scanner.range).filterMap
      (fun e => (decodeEntry srv K V e).toOption)).filter (fun e => Matches e.1 e.2)).take max) := by
  have hcast : (scanner.count.map asU32).getD KV_SCAN_BATCH_SIZE = max := by
    rw [hcount]
    exact Nat.mod_eq_of_lt hbound
  unfold Scanner.executeWithFilter
  rw [hcast]
  have hsize : 0 < (if filter.isNone then max else KV_SCAN_BATCH_SIZE) ∧
      (if filter.isNone then max else KV_SCAN_BATCH_SIZE) < 2 ^ 32 := by
    split
    · exact ⟨hmax, hbound⟩
    · decide
  refine run_entries_eq hkey hvalue ho _ (fun _ => true) hfilter (fun k v hv => ?_) hcount hmax hsize.1 hsize.2 hrange
  rw [decodeEntry_data srv ns hvalue ho k hv]
  rfl

/-- No entry of `RunesByUtxo` and none of `InscriptionsByUtxo` stands for the output. -/
def unencumbered (srv : Server) (s : Snapshot) (key : UtxosByScriptHash.key.Val) : Bool :=
  let (_, _, utxoHash, utxoIndex) := key
  (s.table.get ((srv.encoder .runesByUtxo).data .runesByUtxo RunesByUtxo.key (utxoHash, utxoIndex))).isNone &&
    (s.table.get ((srv.encoder .inscriptionsByUtxo).data .inscriptionsByUtxo InscriptionsByUtxo.key
      (utxoHash, utxoIndex))).isNone

/-- A read finds a value exactly if there is an entry. -/
theorem getReducerKeyMaybe_isNone {srv : Server} {s : Snapshot} {ns : Namespace} {reducer : Reducer} {A B : Ty}
    {key : A.Val} {value : Option B.Val} (h : s.getReducerKeyMaybe srv ns reducer A B key = .ok value) :
    value.isNone = (s.table.get (ns.data reducer A key)).isNone := by
  unfold Snapshot.getReducerKeyMaybe at h
  cases hget : s.table.get (ns.data reducer A key) with
  | none =>
    rw [hget] at h
    cases h
    rfl
  | some v =>
    rw [hget] at h
    cases hdecode : Snapshot.decodeAs srv B v with
    | error e =>
      simp only [hdecode] at h
      cases h
    | ok b =>
      simp only [hdecode] at h
      cases h
      rfl

theorem noMetaprotocol_unencumbered (srv : Server) (s : Snapshot) (key : UtxosByScriptHash.key.Val) :
    noMetaprotocol srv s key = .ok (unencumbered srv s key) := by
  obtain ⟨scriptHash, height, utxoHash, utxoIndex⟩ := key
  obtain ⟨dunes, hdunes⟩ := getReducerKeyMaybe_ok srv s (srv.encoder .runesByUtxo) .runesByUtxo RunesByUtxo.key
    RunesByUtxo.value rfl rfl (utxoHash, utxoIndex)
  obtain ⟨inscriptions, hinscriptions⟩ := getReducerKeyMaybe_ok srv s (srv.encoder .inscriptionsByUtxo)
    .inscriptionsByUtxo InscriptionsByUtxo.key InscriptionsByUtxo.value rfl rfl (utxoHash, utxoIndex)
  simp only [noMetaprotocol, hdunes, hinscriptions, MapiResult.ok_bind, unencumbered,
    ← getReducerKeyMaybe_isNone hdunes, ← getReducerKeyMaybe_isNone hinscriptions]

theorem getNonMetaprotocolUtxos_eq {filter : Option (Bytes × Bytes → Bool)}
    {Matches : UtxosByScriptHash.key.Val → UtxosByScriptHash.value.Val → Bool} {ns : Namespace}
    (hfilter : ∀ k v, UtxosByScriptHash.value.Sized v →
      passes filter (ns.data .utxosByScriptHash UtxosByScriptHash.key k, UtxosByScriptHash.value.encode v) = Matches k v)
    (scanner : Scanner) (max : Nat) (hcount : scanner.count = some max) (hmax : 0 < max)
    (hrange : ∀ e ∈ s.rest scanner.order scanner.range, ns.dataPrefix .utxosByScriptHash <+: e.1) :
    scanner.getNonMetaprotocolUtxos srv s s.refusals s.calls filter = .ok ((((s.rest scanner.order scanner.range).filterMap
      (fun e => (decodeEntry srv UtxosByScriptHash.key UtxosByScriptHash.value e).toOption)).filter
        (fun e => unencumbered srv s e.1 && Matches e.1 e.2)).take max) := by
  refine run_entries_eq rfl rfl rfl _ (fun e => unencumbered srv s e.1) hfilter (fun k v hv => ?_) hcount hmax (by decide)
    (by decide) hrange
  have hdecode : decodeEntry srv UtxosByScriptHash.key UtxosByScriptHash.value
      (ns.data .utxosByScriptHash UtxosByScriptHash.key k, UtxosByScriptHash.value.encode v) = .ok (k, v) :=
    decodeEntry_data srv ns rfl rfl k hv
  simp only [visitUtxo, hdecode, MapiResult.ok_bind, noMetaprotocol_unencumbered]

end Execute

/-! ## The listings -/

section Listings

variable (srv : Server) (s : Snapshot)

/-- The transactions of a script. -/
def txsListing (scriptHash : (Ty.array 20).Val) : Listing srv s where
  reducer := .txsByScriptHash
  K := TxsByScriptHash.key
  V := TxsByScriptHash.value
  A := .array 20
  C := TxsByScriptHash.cursor
  ι := Unit
  η := Unit
  key_eq := rfl
  value_eq := rfl
  key_ordered := rfl
  cursor_ordered := rfl
  keyParams := some scriptHash
  Selects := fun (owner, _) => owner = scriptHash
  cursorOf := txsCursor
  data_eq_iff k r := data_eq_append_iff _ _ rfl scriptHash k r
  height := some (fun (_, height, _) => height)
  height_first := by
    rintro _ ⟨⟩ k
    exact ⟨_, rfl⟩
  ordered := true
  Matches _ _ := true
  execute := Scanner.executeWithFilter srv s s.refusals s.calls TxsByScriptHash.key TxsByScriptHash.value none
  execute_eq := executeWithFilter_eq rfl rfl rfl (fun _ _ _ => rfl)
  header := .ok (some ())
  header_ok := ⟨_, rfl⟩
  describe _ _ _ _ := .ok ()

theorem passes_dust (query : UtxosParams) (e : Bytes × Bytes) (v : UtxosByScriptHash.value.Val)
    (he : e.2 = UtxosByScriptHash.value.encode v) :
    passes query.filter e = decide (query.threshold ≤ (v : Height).val) := by
  have hbytes : e.2 = Machine.toBE 8 (v : Height).val := he
  have hlength : e.2.length = 8 := by rw [hbytes, Machine.length_toBE]
  have htake : Machine.ofBE (e.2.take 8) = (v : Height).val := by
    rw [List.take_of_length_le hlength.le, hbytes, Machine.ofBE_toBE 8 _ (v : Height).isLt]
  unfold UtxosParams.filter
  by_cases hthreshold : query.threshold > 0
  · simp [passes, hthreshold, hlength, htake]
  · have hzero : query.threshold = 0 := Nat.eq_zero_of_not_pos hthreshold
    simp [passes, hzero]

/-- The outputs of a script, from a value on, without metaprotocols if these are excluded. -/
def utxosListing (scriptHash : (Ty.array 20).Val) (query : UtxosParams) : Listing srv s where
  reducer := .utxosByScriptHash
  K := UtxosByScriptHash.key
  V := UtxosByScriptHash.value
  A := .array 20
  C := UtxosByScriptHash.cursor
  ι := UtxoInfo
  η := Unit
  key_eq := rfl
  value_eq := rfl
  key_ordered := rfl
  cursor_ordered := rfl
  keyParams := some scriptHash
  Selects := fun (owner, _) => owner = scriptHash
  cursorOf := utxosCursor
  data_eq_iff k r := data_eq_append_iff _ _ rfl scriptHash k r
  height := some (fun (_, height, _) => height)
  height_first := by
    rintro _ ⟨⟩ k
    exact ⟨_, rfl⟩
  ordered := true
  Matches k v := (!query.excludeMetaprotocols.getD false || unencumbered srv s k) &&
    decide (query.threshold ≤ (v : Height).val)
  execute scanner := if query.excludeMetaprotocols.getD false then scanner.getNonMetaprotocolUtxos srv s s.refusals s.calls query.filter
    else scanner.executeWithFilter srv s s.refusals s.calls UtxosByScriptHash.key UtxosByScriptHash.value query.filter
  execute_eq := by
    intro scanner max hcount hmax hbound hrange
    cases query.excludeMetaprotocols.getD false with
    | false =>
      exact executeWithFilter_eq rfl rfl rfl (fun k v _ => passes_dust query _ v rfl) scanner max hcount hmax hbound hrange
    | true =>
      exact getNonMetaprotocolUtxos_eq (fun k v _ => passes_dust query _ v rfl) scanner max hcount hmax hrange
  header := .ok (some ())
  header_ok := ⟨_, rfl⟩
  describe lastUpdated _ key _ := describeUtxo srv s (query.excludeMetaprotocols.getD false) lastUpdated key

/-- The outputs that hold a dune. -/
def duneUtxosListing (duneId : (pair u64 u32).Val) : Listing srv s where
  reducer := .utxosByRuneId
  K := UtxosByRuneId.key
  V := UtxosByRuneId.value
  A := pair u64 u32
  C := UtxosByRuneId.cursor
  ι := DuneUtxoInfo
  η := EtchingByRuneId.value.Val
  key_eq := rfl
  value_eq := rfl
  key_ordered := rfl
  cursor_ordered := rfl
  keyParams := some duneId
  Selects := fun (dune, _) => dune = duneId
  cursorOf := duneUtxosCursor
  data_eq_iff k r := data_eq_append_iff _ _ rfl duneId k r
  height := some (fun (_, height, _) => height)
  height_first := by
    rintro _ ⟨⟩ k
    exact ⟨_, rfl⟩
  ordered := true
  Matches _ _ := true
  execute := Scanner.executeWithFilter srv s s.refusals s.calls UtxosByRuneId.key UtxosByRuneId.value none
  execute_eq := executeWithFilter_eq rfl rfl rfl (fun _ _ _ => rfl)
  header := s.getReducerKeyMaybe srv (srv.encoder .utxosByRuneId) .etchingByRuneId EtchingByRuneId.key
    EtchingByRuneId.value duneId
  header_ok := getReducerKeyMaybe_ok srv s _ _ EtchingByRuneId.key EtchingByRuneId.value rfl rfl duneId
  describe lastUpdated etching key value := describeDuneUtxo srv s lastUpdated etching key value

theorem controlledBy_encode (scriptHash : (Ty.array 20).Val) (k : Bytes) (v : UtxosByRuneId.value.Val) :
    passes (some (controlledBy srv scriptHash)) (k, UtxosByRuneId.value.encode v) =
      decide ((v.1 : { l : Bytes // l.length = 20 }) = scriptHash) := by
  have hread : UtxosByRuneId.value.decode srv.size (UtxosByRuneId.value.encode v) = .ok (v, []) := by
    have happend : UtxosByRuneId.value.decode srv.size (UtxosByRuneId.value.encode v ++ []) = .ok (v, []) :=
      UtxosByRuneId.value.decode_of_ordered rfl v []
    rwa [List.append_nil] at happend
  simp only [passes, controlledBy, hread]
  rfl

/-- The outputs of a script that hold a dune. -/
def addressDuneUtxosListing (scriptHash : (Ty.array 20).Val) (runeId : (pair u64 u32).Val) : Listing srv s where
  reducer := .utxosByRuneId
  K := UtxosByRuneId.key
  V := UtxosByRuneId.value
  A := pair u64 u32
  C := UtxosByRuneId.cursor
  ι := AddressDuneUtxoInfo
  η := EtchingByRuneId.value.Val
  key_eq := rfl
  value_eq := rfl
  key_ordered := rfl
  cursor_ordered := rfl
  keyParams := some runeId
  Selects := fun (dune, _) => dune = runeId
  cursorOf := duneUtxosCursor
  data_eq_iff k r := data_eq_append_iff _ _ rfl runeId k r
  height := some (fun (_, height, _) => height)
  height_first := by
    rintro _ ⟨⟩ k
    exact ⟨_, rfl⟩
  ordered := true
  Matches := fun _ (owner, _) => decide ((owner : { l : Bytes // l.length = 20 }) = scriptHash)
  execute := Scanner.executeWithFilter srv s s.refusals s.calls UtxosByRuneId.key UtxosByRuneId.value (some (controlledBy srv scriptHash))
  execute_eq := executeWithFilter_eq rfl rfl rfl (fun _ v _ => controlledBy_encode srv scriptHash _ v)
  header := s.getReducerKeyMaybe srv (srv.encoder .etchingByRuneId) .etchingByRuneId EtchingByRuneId.key
    EtchingByRuneId.value runeId
  header_ok := getReducerKeyMaybe_ok srv s _ _ EtchingByRuneId.key EtchingByRuneId.value rfl rfl runeId
  describe lastUpdated etching key value := describeAddressDuneUtxo lastUpdated etching key value

/-- The id of a dune as the keys of the balances have it. -/
def balanceParams : (pair u64 u32).Val → (pair .varUInt .varUInt).Val :=
  fun (block, tx) => (toVarUInt u64_le_u128 block, toVarUInt u32_le_u128 tx)

/-- The holders of a dune. -/
def holdersListing (runeId : (pair u64 u32).Val) : Listing srv s where
  reducer := .balancesByRuneId
  K := BalancesByRuneId.key
  V := u128
  A := pair .varUInt .varUInt
  C := .array 20
  ι := DuneHolderInfo
  η := Nat
  key_eq := rfl
  value_eq := rfl
  key_ordered := rfl
  cursor_ordered := rfl
  keyParams := some (balanceParams runeId)
  Selects := fun (dune, _) => dune = balanceParams runeId
  cursorOf := holderCursor
  data_eq_iff k r := data_eq_append_iff _ _ rfl (balanceParams runeId) k r
  height := none
  height_first := by simp
  ordered := false
  Matches _ _ := true
  execute := Scanner.executeWithFilter srv s s.refusals s.calls BalancesByRuneId.key u128 none
  execute_eq := executeWithFilter_eq rfl rfl rfl (fun _ _ _ => rfl)
  header := do
    let etching ← s.getReducerKeyMaybe srv (srv.encoder .etchingByRuneId) .etchingByRuneId EtchingByRuneId.key
      EtchingByRuneId.value runeId
    .ok (some ((etching.map divisibility).getD 0))
  header_ok := by
    obtain ⟨etching, hetching⟩ := getReducerKeyMaybe_ok srv s (srv.encoder .etchingByRuneId) .etchingByRuneId
      EtchingByRuneId.key EtchingByRuneId.value rfl rfl runeId
    exact ⟨_, by rw [hetching, MapiResult.ok_bind]⟩
  describe _ dec key _ := describeHolder srv s dec key

/-- All dunes. -/
def dunesListing : Listing srv s where
  reducer := .etchingByRuneId
  K := EtchingByRuneId.key
  V := EtchingByRuneId.value
  A := u64
  C := EtchingByRuneId.key
  ι := u128.Val × Nat
  η := Unit
  key_eq := rfl
  value_eq := rfl
  key_ordered := rfl
  cursor_ordered := rfl
  keyParams := none
  Selects _ := True
  cursorOf k := k
  data_eq_iff k r := by
    simp only [Namespace.data, keyBase, List.append_nil, List.append_cancel_left_eq, true_and]
    exact eq_comm
  height := none
  height_first := by simp
  ordered := false
  Matches _ _ := true
  execute := Scanner.executeWithFilter srv s s.refusals s.calls EtchingByRuneId.key EtchingByRuneId.value none
  execute_eq := executeWithFilter_eq rfl rfl rfl (fun _ _ _ => rfl)
  header := .ok (some ())
  header_ok := ⟨_, rfl⟩
  describe _ _ _ info := describeDune info

end Listings

/-! ## The handlers serve their listings -/

section Serves

variable {srv : Server} {s : Snapshot} {params : HeightPaginationParams}

/-- Two independent steps end well in either order. -/
theorem swap_eq_ok {α β γ : Type} {x : MapiResult α} {y : MapiResult β} {f : α → β → MapiResult γ} {c : γ} :
    (do let a ← x; let b ← y; f a b) = .ok c ↔ (do let b ← y; let a ← x; f a b) = .ok c := by
  cases x <;> cases y <;> simp

theorem txsByAddress_serves (scriptHash : (Ty.array 20).Val)
    (pg : PaginatedResponse (Item TxsByScriptHash.key TxsByScriptHash.value Unit)) :
    txsByAddress srv s scriptHash params = .ok pg ↔ (txsListing srv s scriptHash).page params = .ok pg := by
  unfold txsByAddress
  rw [swap_eq_ok]
  exact Iff.rfl

theorem utxosByAddress_serves (scriptHash : (Ty.array 20).Val) (query : UtxosParams)
    (pg : PaginatedResponse (Item UtxosByScriptHash.key UtxosByScriptHash.value UtxoInfo)) :
    utxosByAddress srv s scriptHash query params = .ok pg ↔
      (utxosListing srv s scriptHash query).page params = .ok pg := by
  cases hexclude : query.excludeMetaprotocols.getD false with
  | false =>
    simp only [utxosByAddress, Listing.page, utxosListing, hexclude]
    exact Iff.rfl
  | true =>
    simp only [utxosByAddress, Listing.page, utxosListing, hexclude, if_true]
    exact Iff.rfl

theorem listDunes_serves (pg : PaginatedResponse (Item EtchingByRuneId.key EtchingByRuneId.value (u128.Val × Nat))) :
    listDunes srv s params = .ok pg ↔ (dunesListing srv s).page params = .ok pg :=
  Iff.rfl

theorem duneUtxosByAddress_serves (scriptHash : (Ty.array 20).Val) (runeId : (pair u64 u32).Val)
    (pg : PaginatedResponse (Item UtxosByRuneId.key UtxosByRuneId.value AddressDuneUtxoInfo)) :
    duneUtxosByAddress srv s scriptHash runeId params = .ok pg ↔
      (addressDuneUtxosListing srv s scriptHash runeId).page params = .ok pg := by
  obtain ⟨etching, hetching⟩ := (addressDuneUtxosListing srv s scriptHash runeId).header_ok
  have hread : s.getReducerKeyMaybe srv (srv.encoder .etchingByRuneId) .etchingByRuneId EtchingByRuneId.key
      EtchingByRuneId.value runeId = .ok etching := hetching
  unfold duneUtxosByAddress
  rw [swap_eq_ok]
  unfold Listing.page
  rw [hetching]
  simp only [hread, MapiResult.ok_bind]
  cases etching with
  | none => exact Iff.rfl
  | some etching => exact Iff.rfl

/-- The outputs are scanned before the etching is looked up, which changes nothing: the scan ends well. -/
theorem utxosByDune_serves (duneId : (pair u64 u32).Val)
    (pg : PaginatedResponse (Item UtxosByRuneId.key UtxosByRuneId.value DuneUtxoInfo)) :
    utxosByDune srv s duneId params = .ok pg ↔ (duneUtxosListing srv s duneId).page params = .ok pg := by
  obtain ⟨etching, hetching⟩ := (duneUtxosListing srv s duneId).header_ok
  have hread : s.getReducerKeyMaybe srv (srv.encoder .utxosByRuneId) .etchingByRuneId EtchingByRuneId.key
      EtchingByRuneId.value duneId = .ok etching := hetching
  unfold utxosByDune
  rw [swap_eq_ok]
  unfold Listing.page
  rw [hetching]
  simp only [hread, MapiResult.ok_bind]
  cases etching with
  | none =>
    have hparsed : (duneUtxosListing srv s duneId).parsePage params =
        parse srv (srv.encoder .utxosByRuneId) .utxosByRuneId (pair u64 u32) UtxosByRuneId.cursor params (some duneId) :=
      rfl
    rw [hparsed]
    cases hparse : parse srv (srv.encoder .utxosByRuneId) .utxosByRuneId (pair u64 u32) UtxosByRuneId.cursor params
        (some duneId) with
    | error e => exact Iff.rfl
    | ok parsed =>
      have hexecute : Scanner.executeWithFilter srv s s.refusals s.calls UtxosByRuneId.key UtxosByRuneId.value none
          (((Scanner.new parsed.range).withCount (parsed.count + 1)).withOrder parsed.order) = .ok _ :=
        (duneUtxosListing srv s duneId).execute_eq ⟨parsed.range, parsed.order, some (parsed.count + 1)⟩ _ rfl
          (Nat.succ_pos _) (parseWith_count (hparsed.trans hparse)) (fun e he => Listing.dataPrefix_of_holds
            ((parseWith_ok (hparsed.trans hparse)).2.2 _ (s.mem_rest.mp he).2))
      simp only [MapiResult.ok_bind, hexecute]
      exact Iff.rfl
  | some etching => exact Iff.rfl

theorem holdersByDune_serves (runeId : (pair u64 u32).Val)
    (pg : PaginatedResponse (Item BalancesByRuneId.key u128 DuneHolderInfo)) :
    holdersByDune srv s runeId params = .ok pg ↔ (holdersListing srv s runeId).page params = .ok pg := by
  obtain ⟨block, tx⟩ := runeId
  obtain ⟨etching, hetching⟩ := getReducerKeyMaybe_ok srv s (srv.encoder .etchingByRuneId) .etchingByRuneId
    EtchingByRuneId.key EtchingByRuneId.value rfl rfl (block, tx)
  have hheader : (holdersListing srv s (block, tx)).header = .ok (some ((etching.map divisibility).getD 0)) := by
    simp only [holdersListing, hetching, MapiResult.ok_bind]
  unfold holdersByDune Listing.page
  rw [hheader]
  simp only [hetching, MapiResult.ok_bind]
  exact Iff.rfl

end Serves

/-! ## Requests -/

/-- What a client asks the paginated endpoints of addresses and dunes for. -/
inductive Request where
  | txsByAddress (scriptHash : (Ty.array 20).Val)
  | utxosByAddress (scriptHash : (Ty.array 20).Val) (query : UtxosParams)
  | utxosByDune (duneId : (pair u64 u32).Val)
  | duneUtxosByAddress (scriptHash : (Ty.array 20).Val) (runeId : (pair u64 u32).Val)
  | holdersByDune (runeId : (pair u64 u32).Val)
  | listDunes

namespace Request

def listing (srv : Server) (s : Snapshot) : Request → Listing srv s
  | txsByAddress scriptHash => txsListing srv s scriptHash
  | utxosByAddress scriptHash query => utxosListing srv s scriptHash query
  | utxosByDune duneId => duneUtxosListing srv s duneId
  | duneUtxosByAddress scriptHash runeId => addressDuneUtxosListing srv s scriptHash runeId
  | holdersByDune runeId => holdersListing srv s runeId
  | listDunes => dunesListing srv s

/-- The handler of a request. -/
def handler (srv : Server) (s : Snapshot) : (request : Request) → HeightPaginationParams →
    MapiResult (PaginatedResponse (Item (request.listing srv s).K (request.listing srv s).V (request.listing srv s).ι))
  | txsByAddress scriptHash => Mapi.txsByAddress srv s scriptHash
  | utxosByAddress scriptHash query => Mapi.utxosByAddress srv s scriptHash query
  | utxosByDune duneId => Mapi.utxosByDune srv s duneId
  | duneUtxosByAddress scriptHash runeId => Mapi.duneUtxosByAddress srv s scriptHash runeId
  | holdersByDune runeId => Mapi.holdersByDune srv s runeId
  | listDunes => Mapi.listDunes srv s

theorem handler_serves (srv : Server) (s : Snapshot) (request : Request) (params : HeightPaginationParams)
    (pg : PaginatedResponse (Item (request.listing srv s).K (request.listing srv s).V (request.listing srv s).ι)) :
    request.handler srv s params = .ok pg ↔ (request.listing srv s).page params = .ok pg := by
  cases request with
  | txsByAddress scriptHash => exact txsByAddress_serves scriptHash pg
  | utxosByAddress scriptHash query => exact utxosByAddress_serves scriptHash query pg
  | utxosByDune duneId => exact utxosByDune_serves duneId pg
  | duneUtxosByAddress scriptHash runeId => exact duneUtxosByAddress_serves scriptHash runeId pg
  | holdersByDune runeId => exact holdersByDune_serves runeId pg
  | listDunes => exact listDunes_serves pg

end Request

theorem Follows.congr {α : Type} {f g : HeightPaginationParams → MapiResult (PaginatedResponse α)}
    (h : ∀ params pg, f params = .ok pg ↔ g params = .ok pg) {params : HeightPaginationParams}
    {pages : List (PaginatedResponse α)} (hf : Follows f params pages) : Follows g params pages := by
  induction hf with
  | last hpage hcursor => exact .last ((h _ _).mp hpage) hcursor
  | next hpage hcursor _ ih => exact .next ((h _ _).mp hpage) hcursor ih

/-- Only the pages that a handler serves matter. -/
theorem exactlyOnce_congr {srv : Server} {s : Snapshot} {l : Listing srv s}
    {f g : HeightPaginationParams → MapiResult (PaginatedResponse (Item l.K l.V l.ι))}
    (h : ∀ params pg, f params = .ok pg ↔ g params = .ok pg) (params : HeightPaginationParams) :
    ExactlyOnce l f params ↔ ExactlyOnce l g params := by
  constructor
  · rintro ⟨entries, pages, hsorted, hmem, hfollows, hpaged⟩
    exact ⟨entries, pages, hsorted, hmem, hfollows.congr h, hpaged⟩
  · rintro ⟨entries, pages, hsorted, hmem, hfollows, hpaged⟩
    exact ⟨entries, pages, hsorted, hmem, hfollows.congr (fun params pg => (h params pg).symm), hpaged⟩

/-- The query of a first page, with a size from 1 to 100. -/
structure FirstPage where
  params : HeightPaginationParams
  valid : params.Valid
  first : params.cursor = none

/-- **When a client that follows the cursors gets every matching entry exactly once**: the instance has a cursor, every
matching entry can be described, none is of the last possible height when the request goes up to it, and the order is
handed to the scanner or there is nothing to order. -/
theorem Request.exactlyOnce_iff (srv : Server) (s : Snapshot) (request : Request) (query : FirstPage) :
    ExactlyOnce (request.listing srv s) (request.handler srv s) query.params ↔
      (request.listing srv s).Served query.params :=
  (exactlyOnce_congr (request.handler_serves srv s) query.params).trans
    (Listing.exactlyOnce_page_iff query.valid query.first)

/-! ## Two holders -/

namespace TwoHolders

/-- The entries of the reducers are told apart by their prefixes. -/
theorem dataPrefix_injective {ns ns' : Namespace} {reducer reducer' : Reducer} {K : Ty} {k : K.Val}
    (h : ns.dataPrefix reducer <+: ns'.data reducer' K k) : ns = ns' ∧ reducer = reducer' := by
  obtain ⟨dataplane, inst⟩ := ns
  obtain ⟨dataplane', inst'⟩ := ns'
  simp only [Namespace.data, Namespace.dataPrefix, Namespace.encode, List.cons_append, List.nil_append,
    List.cons_prefix_cons] at h
  obtain ⟨rfl, rfl, -, hreducer, -⟩ := h
  exact ⟨rfl, Reducer.encode_injective hreducer⟩

def ns : Namespace := ⟨0, 0⟩

def server : Server where
  size _ := 40
  size_le _ _ _ _ _ := by decide
  base64 := .urlSafe
  encoder _ := ns

def runeId : (pair u64 u32).Val := ((⟨7, by decide⟩ : Fin (256 ^ 8)), (⟨1, by decide⟩ : Fin (256 ^ 4)))

/-- The script hash with the byte `b` throughout. -/
def scriptHash (b : Byte) : (Ty.array 20).Val := ⟨List.replicate 20 b, rfl⟩

def holder (b : Byte) : BalancesByRuneId.key.Val := (balanceParams runeId, scriptHash b)

def amount : u128.Val := (⟨100, by decide⟩ : Fin (256 ^ 16))

def script : ScriptByScriptHash.value.Val := ([⟨81, by decide⟩] : List (Fin (256 ^ 1)))

def cursor : cursorValue.Val :=
  ((⟨9, by decide⟩ : Fin (256 ^ 8)), (⟨List.replicate 32 0, Machine.length_zeros⟩ : { l : Bytes // l.length = 32 }), false,
    (⟨0, by decide⟩ : Fin (256 ^ 8)), none)

def entries : List (Bytes × Bytes) :=
  [(ns.key .cursor, cursorValue.encode cursor),
   (ns.data .scriptByScriptHash ScriptByScriptHash.key (scriptHash 0), ScriptByScriptHash.value.encode script),
   (ns.data .scriptByScriptHash ScriptByScriptHash.key (scriptHash 1), ScriptByScriptHash.value.encode script),
   (ns.data .balancesByRuneId BalancesByRuneId.key (holder 0), u128.encode amount),
   (ns.data .balancesByRuneId BalancesByRuneId.key (holder 1), u128.encode amount)]

/-- An indexed block height, two scripts, and their balances of one dune. -/
def snapshot : Snapshot where
  table := ⟨entries, by unfold Entries.Sorted; decide +kernel⟩
  written := by
    intro ns' reducer key value hkey hvalue e he hprefix
    simp only [entries, List.mem_cons, List.not_mem_nil, or_false] at he
    rcases he with rfl | rfl | rfl | rfl | rfl
    · exact absurd hprefix.length_le (by rw [Namespace.dataPrefix_length]; decide)
    all_goals
      obtain ⟨rfl, rfl⟩ := dataPrefix_injective hprefix
      cases hkey
      cases hvalue
    · exact ⟨_, _, trivial, ⟨by decide, fun _ _ => trivial⟩, rfl⟩
    · exact ⟨_, _, trivial, ⟨by decide, fun _ _ => trivial⟩, rfl⟩
    · exact ⟨_, _, ⟨⟨trivial, trivial⟩, trivial⟩, trivial, rfl⟩
    · exact ⟨_, _, ⟨⟨trivial, trivial⟩, trivial⟩, trivial, rfl⟩
  oversized _ _ _ := false
  oversized_one _ _ := rfl

/-- Pages of one holder, descending. -/
def descending : HeightPaginationParams := ⟨some 1, some .desc, none, none, none⟩

theorem matching (b : Byte) (h : b = 0 ∨ b = 1) :
    (holdersListing server snapshot runeId).Matching descending (holder b) amount where
  stored := by
    rcases h with rfl | rfl
    · exact List.mem_of_mem_drop (i := 3) List.mem_cons_self
    · exact List.mem_of_mem_drop (i := 4) List.mem_cons_self
  sized := trivial
  selected := rfl
  inBounds := fun _ h => by cases h
  passes := rfl

end TwoHolders

/-- Two holders of a dune in descending order: the second page repeats a part of the first. -/
theorem holders_descending :
    ¬ ExactlyOnce (Request.listing TwoHolders.server TwoHolders.snapshot (.holdersByDune TwoHolders.runeId))
      (Request.handler TwoHolders.server TwoHolders.snapshot (.holdersByDune TwoHolders.runeId))
      TwoHolders.descending := by
  intro h
  have hpage := (exactlyOnce_congr (Request.handler_serves TwoHolders.server TwoHolders.snapshot
    (.holdersByDune TwoHolders.runeId)) TwoHolders.descending).mp h
  have hserved := (Listing.exactlyOnce_page_iff ⟨by decide, by decide⟩ rfl).mp hpage
  rcases hserved.scanned with hordered | horder | hone
  · cases hordered
  · cases horder
  · have hequal := hone _ _ _ _ (TwoHolders.matching 0 (.inl rfl)) (TwoHolders.matching 1 (.inr rfl))
    have hbytes : (TwoHolders.scriptHash 0).val = (TwoHolders.scriptHash 1).val :=
      congrArg (fun k => (holderCursor k).val) hequal
    exact absurd hbytes (by decide)

end DogeIndexer.Mapi
