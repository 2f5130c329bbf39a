import DogeIndexer.Mapi.Pages

/-!
# Following the cursors

A `Listing` is what the handlers have in common: a reducer, the parameters in front of its keys, the
entries that match, and what is looked up for each.  `Listing.page` serves one page of it.

* `Follows` — the pages that a client gets by following `nextCursor`.
* `ExactlyOnce` — they hold every matching entry once, in order.
* `Listing.exactlyOnce_iff` — when they do.
-/

set_option autoImplicit false

namespace DogeIndexer.Mapi

open Timbre

/-! ## Stored entries -/

/-- What is chosen by its image can be chosen before it is mapped. -/
theorem filterMap_filter_eq {α β : Type} {f : α → Option β} {p : α → Bool} {q : β → Bool} {xs : List α}
    (h : ∀ x ∈ xs, ∀ a, f x = some a → p x = q a) : (xs.filter p).filterMap f = (xs.filterMap f).filter q := by
  induction xs with
  | nil => rfl
  | cons x xs ih =>
    have hxs := ih (fun y hy => h y (List.mem_cons_of_mem x hy))
    cases hf : f x with
    | none =>
      rw [List.filterMap_cons_none hf, ← hxs, List.filter_cons]
      split
      · rw [List.filterMap_cons_none hf]
      · rfl
    | some a =>
      rw [List.filterMap_cons_some hf, List.filter_cons, List.filter_cons, h x List.mem_cons_self a hf, ← hxs]
      split
      · rw [List.filterMap_cons_some hf]
      · rfl

theorem value_tagged {reducer : Reducer} {V : Ty} (h : reducer.value = some V) : V.tagged = true := by
  cases reducer <;> cases h <;> decide

theorem decodeAs_encode (srv : Server) {reducer : Reducer} {V : Ty} (h : reducer.value = some V) {v : V.Val}
    (hv : V.Sized v) : Snapshot.decodeAs srv V (V.encode v) = .ok v := by
  have hread : V.decode srv.size (V.encode v ++ []) = .ok (v, []) :=
    V.decode_encode (srv.size_le reducer V h) (value_tagged h) v hv []
  rw [List.append_nil] at hread
  simp only [Snapshot.decodeAs, hread]

/-- The reads of a snapshot find a value or nothing. -/
theorem getReducerKeyMaybe_ok (srv : Server) (s : Snapshot) (ns : Namespace) (reducer : Reducer) (A B : Ty)
    (hkey : reducer.key = some A) (hvalue : reducer.value = some B) (key : A.Val) :
    ∃ o, s.getReducerKeyMaybe srv ns reducer A B key = .ok o := by
  unfold Snapshot.getReducerKeyMaybe
  cases hget : s.table.get (ns.data reducer A key) with
  | none => exact ⟨none, rfl⟩
  | some bytes =>
    obtain ⟨k, v, -, hv, heq⟩ := s.written ns reducer A B hkey hvalue _ (Entries.mem_of_get hget)
      (List.prefix_append _ _)
    have hbytes : bytes = B.encode v := congrArg Prod.snd heq
    exact ⟨some v, by simp [hbytes, decodeAs_encode srv hvalue hv]⟩

theorem decodeEntry_data (srv : Server) (ns : Namespace) {reducer : Reducer} {K V : Ty} (hvalue : reducer.value = some V)
    (hordered : K.ordered = true) (k : K.Val) {v : V.Val} (hv : V.Sized v) :
    decodeEntry srv K V (ns.data reducer K k, V.encode v) = .ok (k, v) := by
  have hlength : ¬ (ns.data reducer K k).length < 5 := by
    rw [Namespace.data, List.length_append, Namespace.dataPrefix_length]
    omega
  have hdrop : (ns.data reducer K k).drop 5 = K.encode k := rfl
  have hread : Snapshot.decodeAs srv K (K.encode k) = .ok k := by
    have happend : K.decode srv.size (K.encode k ++ []) = .ok (k, []) := K.decode_of_ordered hordered k []
    rw [List.append_nil] at happend
    simp only [Snapshot.decodeAs, happend]
  simp only [decodeEntry, decodeKey, if_neg hlength, hdrop, hread, decodeAs_encode srv hvalue hv]
  rfl

/-! ## Listings -/

/-- A listing of a reducer's entries: which of them match, and what the handler does with each. -/
structure Listing (srv : Server) (s : Snapshot) where
  reducer : Reducer
  (K V A C : Ty)
  (ι η : Type)
  key_eq : reducer.key = some K
  value_eq : reducer.value = some V
  key_ordered : K.ordered = true
  cursor_ordered : C.ordered = true
  /-- What the keys begin with. -/
  keyParams : Option A.Val
  Selects : K.Val → Prop
  cursorOf : K.Val → C.Val
  data_eq_iff : ∀ k r, (srv.encoder reducer).data reducer K k = keyBase (srv.encoder reducer) reducer A keyParams ++ r ↔
    Selects k ∧ r = C.encode (cursorOf k)
  /-- The height in a key, if the listing has bounds for it. -/
  height : Option (K.Val → Height)
  height_first : ∀ h ∈ height, ∀ k, ∃ r, C.encode (cursorOf k) = Machine.toBE 8 (h k).val ++ r
  /-- Whether the order of the request is handed to the scanner. -/
  ordered : Bool
  Matches : K.Val → V.Val → Bool
  execute : Scanner → MapiResult (List (K.Val × V.Val))
  execute_eq : ∀ scanner max, scanner.count = some max → 0 < max → max < 2 ^ 32 →
    (∀ e ∈ s.rest scanner.order scanner.range, (srv.encoder reducer).dataPrefix reducer <+: e.1) →
    execute scanner = .ok ((((s.rest scanner.order scanner.range).filterMap
      (fun e => (decodeEntry srv K V e).toOption)).filter (fun e => Matches e.1 e.2)).take max)
  /-- What is looked up once for a page; without it the page is empty. -/
  header : MapiResult (Option η)
  header_ok : ∃ o, header = .ok o
  describe : LastUpdated → η → K.Val → V.Val → MapiResult ι

namespace Listing

variable {srv : Server} {s : Snapshot} (l : Listing srv s)

def lower (params : HeightPaginationParams) : Option Height := if l.height.isSome then params.fromHeight else none

def upper (params : HeightPaginationParams) : Option Height :=
  if l.height.isSome then params.toHeight.map saturatingSucc else none

/-- The order that the scanner is given. -/
def scanOrder (params : HeightPaginationParams) : OrderParam := if l.ordered then params.order.getD .asc else .asc

def parsePage (params : HeightPaginationParams) : MapiResult ParsedPaginationParams :=
  parseWith srv (srv.encoder l.reducer) l.reducer l.A l.C params l.keyParams (l.lower params) (l.upper params)

/-- One page. -/
def page (params : HeightPaginationParams) : MapiResult (PaginatedResponse (Item l.K l.V l.ι)) := do
  let lastUpdated ← s.getLastUpdated srv (srv.encoder l.reducer)
  let page ← l.parsePage params
  match ← l.header with
  | none => .ok ⟨[], lastUpdated, none⟩
  | some header =>
    let kvs ← l.execute ⟨page.range, if l.ordered then page.order else .asc, some (page.count + 1)⟩
    let (data, nextCursor) ← processKvs page.count (fun key => encodeBase64 srv l.C (l.cursorOf key))
      (l.describe lastUpdated header) 0 kvs none []
    .ok ⟨data, lastUpdated, nextCursor⟩

/-- The key of the store. -/
def dataKey (k : l.K.Val) : Bytes := (srv.encoder l.reducer).data l.reducer l.K k

/-- The height is within the bounds of the request. -/
def InBounds (params : HeightPaginationParams) (k : l.K.Val) : Prop :=
  ∀ h ∈ l.height, (∀ f ∈ params.fromHeight, f.val ≤ (h k).val) ∧ ∀ t ∈ params.toHeight, (h k).val ≤ t.val

/-- The entries that a request asks for. -/
structure Matching (params : HeightPaginationParams) (k : l.K.Val) (v : l.V.Val) : Prop where
  stored : (l.dataKey k, l.V.encode v) ∈ s.table.entries
  sized : l.V.Sized v
  selected : l.Selects k
  inBounds : l.InBounds params k
  passes : l.Matches k v = true

/-- The range of the first page. -/
def firstRange (params : HeightPaginationParams) : Range :=
  reducerKeyRange (srv.encoder l.reducer) l.reducer l.A u64 l.keyParams (l.lower params) (l.upper params)

/-- The entries of a range that the scanner returns. -/
def listed (order : OrderParam) (range : Range) : List (l.K.Val × l.V.Val) :=
  ((s.rest order range).filterMap (fun e => (decodeEntry srv l.K l.V e).toOption)).filter (fun e => l.Matches e.1 e.2)

/-! ## The entries of the first range -/

/-- Below the height after the upper bound, where there is one. -/
theorem lt_saturatingSucc_iff (x t : Height) :
    x.val < (saturatingSucc t).val ↔ x.val ≤ t.val ∧ (x.val = t.val → t.val + 1 < 256 ^ 8) := by
  by_cases hlt : t.val + 1 < 256 ^ 8
  · rw [saturatingSucc, dif_pos hlt]
    refine ⟨fun h => ⟨Nat.le_of_lt_succ h, fun _ => hlt⟩, fun h => Nat.lt_succ_of_le h.1⟩
  · rw [saturatingSucc, dif_neg hlt]
    refine ⟨fun h => ⟨le_of_lt h, fun heq => absurd heq (ne_of_lt h)⟩, fun h => ?_⟩
    exact lt_of_le_of_ne h.1 (fun heq => hlt (h.2 heq))

/-- The bounds of the first range, for the part of a key that is behind the parameters. -/
theorem within_bounds_iff (params : HeightPaginationParams) (k : l.K.Val) :
    ((∀ v ∈ l.lower params, ¬ l.C.encode (l.cursorOf k) < Machine.toBE 8 v.val) ∧
      ∀ v ∈ l.upper params, l.C.encode (l.cursorOf k) < Machine.toBE 8 v.val) ↔
    l.InBounds params k ∧ ∀ h ∈ l.height, ∀ t ∈ params.toHeight, (h k).val = t.val → t.val + 1 < 256 ^ 8 := by
  cases hh : l.height with
  | none => simp [lower, upper, InBounds, hh]
  | some h =>
    obtain ⟨r, hr⟩ := l.height_first h hh k
    have hbytes : ∀ v : Height, l.C.encode (l.cursorOf k) < Machine.toBE 8 v.val ↔ (h k).val < v.val :=
      fun v => hr ▸ toBE_append_lt_iff (h k).isLt v.isLt r
    simp only [lower, upper, InBounds, hh, hbytes, Option.isSome_some, if_true, Option.mem_def,
      Option.some.injEq, forall_eq', Option.map_eq_some_iff, forall_exists_index, and_imp,
      forall_apply_eq_imp_iff₂, lt_saturatingSucc_iff, not_lt]
    constructor
    · rintro ⟨hlower, hupper⟩
      exact ⟨⟨hlower, fun t ht => (hupper t ht).1⟩, fun t ht => (hupper t ht).2⟩
    · rintro ⟨⟨hlower, hupper⟩, hlast⟩
      exact ⟨hlower, fun t ht => ⟨hupper t ht, hlast t ht⟩⟩

/-- **The first range holds the selected keys within the bounds**, those of the last possible height apart when the
request goes up to it. -/
theorem holds_firstRange (params : HeightPaginationParams) (k : l.K.Val) :
    (l.firstRange params).Holds (l.dataKey k) ↔ l.Selects k ∧ l.InBounds params k ∧
      ∀ h ∈ l.height, ∀ t ∈ params.toHeight, (h k).val = t.val → t.val + 1 < 256 ^ 8 := by
  have hsplit : ∀ r, l.dataKey k = keyBase (srv.encoder l.reducer) l.reducer l.A l.keyParams ++ r ↔
      l.Selects k ∧ r = l.C.encode (l.cursorOf k) := l.data_eq_iff k
  rw [firstRange, holds_reducerKeyRange, ← l.within_bounds_iff]
  simp only [hsplit]
  constructor
  · rintro ⟨r, ⟨hsel, rfl⟩, hbounds⟩
    exact ⟨hsel, hbounds⟩
  · rintro ⟨hsel, hbounds⟩
    exact ⟨_, ⟨hsel, rfl⟩, hbounds⟩

variable {l} {params : HeightPaginationParams} {order : OrderParam} {range : Range}

theorem dataPrefix_of_holds {k : Bytes} (hholds : (l.firstRange params).Holds k) :
    (srv.encoder l.reducer).dataPrefix l.reducer <+: k := by
  obtain ⟨r, rfl, -⟩ := (holds_reducerKeyRange _ _ _ _ _ _ _).mp hholds
  unfold keyBase
  rw [List.append_assoc]
  exact List.prefix_append _ _

/-- The entries of a part of the first range were written as entries of the reducer. -/
theorem written_of_holds {e : Bytes × Bytes} (he : e ∈ s.table.entries) (hholds : (l.firstRange params).Holds e.1) :
    ∃ k v, l.V.Sized v ∧ e = (l.dataKey k, l.V.encode v) := by
  obtain ⟨k, v, -, hv, heq⟩ := s.written _ _ _ _ l.key_eq l.value_eq e he (dataPrefix_of_holds hholds)
  exact ⟨k, v, hv, heq⟩

theorem decodeEntry_dataKey (k : l.K.Val) {v : l.V.Val} (hv : l.V.Sized v) :
    decodeEntry srv l.K l.V (l.dataKey k, l.V.encode v) = .ok (k, v) :=
  decodeEntry_data srv _ l.value_eq l.key_ordered k hv

/-- **The entries that a scan of a part of the first range returns.** -/
theorem mem_listed (hpart : ∀ k, range.Holds k → (l.firstRange params).Holds k) {k : l.K.Val} {v : l.V.Val} :
    (k, v) ∈ l.listed order range ↔
      (l.dataKey k, l.V.encode v) ∈ s.table.entries ∧ l.V.Sized v ∧ range.Holds (l.dataKey k) ∧
        l.Matches k v = true := by
  simp only [listed, List.mem_filter, List.mem_filterMap, s.mem_rest]
  constructor
  · rintro ⟨⟨e, ⟨he, hholds⟩, hdecode⟩, hmatches⟩
    obtain ⟨k', v', hv', rfl⟩ := written_of_holds he (hpart _ hholds)
    rw [decodeEntry_dataKey k' hv'] at hdecode
    cases hdecode
    exact ⟨he, hv', hholds, hmatches⟩
  · rintro ⟨he, hv, hholds, hmatches⟩
    refine ⟨⟨_, ⟨he, hholds⟩, ?_⟩, hmatches⟩
    rw [decodeEntry_dataKey k hv]
    rfl

/-- Listed entries are in the order of their keys. -/
theorem pairwise_listed (hpart : ∀ k, range.Holds k → (l.firstRange params).Holds k) :
    (l.listed order range).Pairwise (fun a b => order.Precedes (l.dataKey a.1) (l.dataKey b.1)) := by
  refine List.Pairwise.filter _ (List.Pairwise.filterMap _ ?_ (List.Pairwise.and_mem.mp s.pairwise_rest))
  rintro e e' ⟨he, he', hprec⟩ a ha b hb
  obtain ⟨he, hholds⟩ := s.mem_rest.mp he
  obtain ⟨he', hholds'⟩ := s.mem_rest.mp he'
  obtain ⟨k, v, hv, rfl⟩ := written_of_holds he (hpart _ hholds)
  obtain ⟨k', v', hv', rfl⟩ := written_of_holds he' (hpart _ hholds')
  rw [decodeEntry_dataKey k hv] at ha
  rw [decodeEntry_dataKey k' hv'] at hb
  cases ha
  cases hb
  exact hprec

theorem dataKey_lt_iff (k k' : l.K.Val) : l.dataKey k < l.dataKey k' ↔ l.K.Lt k k' := by
  rw [dataKey, dataKey, Namespace.data, Namespace.data, append_lt_append_left_iff, l.K.encode_lt_iff l.key_ordered]

theorem listed_desc (range : Range) : l.listed .desc range = (l.listed .asc range).reverse := by
  simp only [listed, Snapshot.rest, OrderParam.arrange, List.filterMap_reverse, List.filter_reverse]

theorem listed_arrange (range : Range) : l.listed order range = order.arrange (l.listed .asc range) := by
  cases order with
  | asc => rfl
  | desc => exact listed_desc range

/-- **Behind a listed entry lie the listed entries after it.** -/
theorem listed_behind {l₁ l₂ : List (l.K.Val × l.V.Val)} {e : l.K.Val × l.V.Val}
    (h : l.listed order (l.firstRange params) = l₁ ++ e :: l₂) :
    l.listed order ((l.firstRange params).behind order (l.dataKey e.1)) = l₂ := by
  have hpart : ∀ k, (l.firstRange params).Holds k → (l.firstRange params).Holds k := fun _ hk => hk
  have hmem : e ∈ l.listed order (l.firstRange params) := h ▸ by simp
  have hholds : (l.firstRange params).Holds (l.dataKey e.1) := ((mem_listed hpart).mp hmem).2.2.1
  have hfilter : l.listed order ((l.firstRange params).behind order (l.dataKey e.1)) =
      (l.listed order (l.firstRange params)).filter (fun x => order.Precedes (l.dataKey e.1) (l.dataKey x.1)) := by
    have hentry : ∀ x ∈ s.rest order (l.firstRange params), ∀ a, (decodeEntry srv l.K l.V x).toOption = some a →
        decide (order.Precedes (l.dataKey e.1) x.1) = decide (order.Precedes (l.dataKey e.1) (l.dataKey a.1)) := by
      intro x hx a ha
      obtain ⟨hx, hx'⟩ := s.mem_rest.mp hx
      obtain ⟨k, v, hv, rfl⟩ := written_of_holds hx hx'
      rw [decodeEntry_dataKey k hv] at ha
      cases ha
      rfl
    unfold listed
    rw [s.rest_behind_eq_filter hholds.admits, List.filter_comm, filterMap_filter_eq hentry]
  rw [hfilter, h]
  refine filter_behind (r := fun a b : l.K.Val × l.V.Val => order.Precedes (l.dataKey a.1) (l.dataKey b.1))
    (fun a b hab => hab.asymm) ?_
  exact h ▸ pairwise_listed hpart

/-! ## One page -/

theorem parsePage_first (hvalid : params.Valid) (hcursor : params.cursor = none) :
    l.parsePage params = .ok ⟨params.count.getD MAX_PAGE_COUNT, params.order.getD .asc, l.firstRange params⟩ :=
  parseWith_first hvalid hcursor

theorem parsePage_next (hvalid : params.Valid) {k : l.K.Val} (hholds : (l.firstRange params).Holds (l.dataKey k)) :
    l.parsePage { params with cursor := some (encodeBase64 srv l.C (l.cursorOf k)) } =
      .ok ⟨params.count.getD MAX_PAGE_COUNT, params.order.getD .asc,
        (l.firstRange params).behind (params.order.getD .asc) (l.dataKey k)⟩ := by
  have hkey : l.dataKey k = keyBase (srv.encoder l.reducer) l.reducer l.A l.keyParams ++ l.C.encode (l.cursorOf k) :=
    (l.data_eq_iff k _).mpr ⟨((l.holds_firstRange params k).mp hholds).1, rfl⟩
  have hadmits := hholds.admits
  rw [hkey] at hadmits ⊢
  have hvalid' : HeightPaginationParams.Valid { params with cursor := some (encodeBase64 srv l.C (l.cursorOf k)) } := hvalid
  exact parseWith_cursor hvalid' l.cursor_ordered rfl hadmits

theorem pageCursor_take {K V : Ty} (cursorOf : K.Val → String) (n : Nat) (kvs : List (K.Val × V.Val)) :
    pageCursor cursorOf n (kvs.take (n + 1)) = pageCursor cursorOf n kvs := by
  have hlen : n < (kvs.take (n + 1)).length ↔ n < kvs.length := by
    rw [List.length_take]
    omega
  simp only [pageCursor, hlen, List.getElem?_take_of_lt (show n - 1 < n + 1 by omega)]

/-- **A page describes the first listed entries of its range.** -/
theorem page_eq {parsed : ParsedPaginationParams} {lastUpdated : LastUpdated} {header : l.η}
    (hupdated : s.getLastUpdated srv (srv.encoder l.reducer) = .ok lastUpdated)
    (hparse : l.parsePage params = .ok parsed) (hheader : l.header = .ok (some header)) (hcount : 0 < parsed.count) :
    l.page params = (do
      let items ← ((l.listed (l.scanOrder params) parsed.range).take parsed.count).mapM
        (describeItem (l.describe lastUpdated header))
      .ok ⟨items, lastUpdated, pageCursor (fun key => encodeBase64 srv l.C (l.cursorOf key)) parsed.count
        (l.listed (l.scanOrder params) parsed.range)⟩) := by
  have hpart := (parseWith_ok hparse).2.2
  have hexecute := l.execute_eq ⟨parsed.range, l.scanOrder params, some (parsed.count + 1)⟩ (parsed.count + 1) rfl
    (by omega) (parseWith_count hparse) (fun e he => dataPrefix_of_holds (hpart _ (s.mem_rest.mp he).2))
  change l.execute ⟨parsed.range, l.scanOrder params, some (parsed.count + 1)⟩ =
    .ok ((l.listed (l.scanOrder params) parsed.range).take (parsed.count + 1)) at hexecute
  have horder : (if l.ordered then parsed.order else .asc) = l.scanOrder params := by
    rw [(parseWith_ok hparse).2.1]
    rfl
  simp only [page, hupdated, hparse, hheader, horder, hexecute, MapiResult.ok_bind]
  rw [processKvs_eq hcount (by rw [List.length_take]; omega), Nat.sub_zero, List.take_take,
    Nat.min_eq_left (Nat.le_succ _), pageCursor_take]
  cases List.mapM (describeItem (l.describe lastUpdated header)) _ with
  | error e => rfl
  | ok items => rfl

end Listing

/-- The entry of an item. -/
def Item.entry {K V : Ty} {ι : Type} (item : Item K V ι) : K.Val × V.Val := (item.key, item.value)

section Describe

variable {K V : Ty} {ι : Type} {describe : K.Val → V.Val → MapiResult ι} {kvs : List (K.Val × V.Val)}

theorem describeItems_ok {items : List (Item K V ι)} (h : kvs.mapM (describeItem describe) = .ok items) :
    items.map Item.entry = kvs ∧ ∀ kv ∈ kvs, ∃ info, describe kv.1 kv.2 = .ok info := by
  induction kvs generalizing items with
  | nil =>
    cases h
    exact ⟨rfl, by simp⟩
  | cons kv kvs ih =>
    rw [List.mapM_cons] at h
    obtain ⟨item, hitem, h⟩ := Fallible.bind_eq_ok.mp h
    obtain ⟨rest, hrest, h⟩ := Fallible.bind_eq_ok.mp h
    obtain ⟨info, hinfo, hitem⟩ := Fallible.bind_eq_ok.mp hitem
    cases hitem
    cases h
    obtain ⟨hentries, hall⟩ := ih hrest
    refine ⟨by rw [List.map_cons, hentries]; rfl, fun x hx => ?_⟩
    rcases List.mem_cons.mp hx with rfl | hx
    · exact ⟨info, hinfo⟩
    · exact hall x hx

theorem describeItems_exists (h : ∀ kv ∈ kvs, ∃ info, describe kv.1 kv.2 = .ok info) :
    ∃ items, kvs.mapM (describeItem describe) = .ok items := by
  induction kvs with
  | nil => exact ⟨[], rfl⟩
  | cons kv kvs ih =>
    obtain ⟨info, hinfo⟩ := h kv List.mem_cons_self
    obtain ⟨items, hitems⟩ := ih (fun x hx => h x (List.mem_cons_of_mem kv hx))
    refine ⟨⟨kv.1, kv.2, info⟩ :: items, ?_⟩
    rw [List.mapM_cons, hitems, describeItem, hinfo]
    rfl

end Describe

namespace Listing

variable {srv : Server} {s : Snapshot} {l : Listing srv s} {params : HeightPaginationParams}

/-- What a page that is served holds. -/
theorem page_ok {pg : PaginatedResponse (Item l.K l.V l.ι)} (hvalid : params.Valid) (h : l.page params = .ok pg) :
    ∃ lastUpdated parsed, s.getLastUpdated srv (srv.encoder l.reducer) = .ok lastUpdated ∧
      l.parsePage params = .ok parsed ∧
      ((l.header = .ok none ∧ pg.data = [] ∧ pg.nextCursor = none) ∨
        ∃ header, l.header = .ok (some header) ∧
          pg.data.map Item.entry = (l.listed (l.scanOrder params) parsed.range).take parsed.count ∧
          ∀ kv ∈ pg.data.map Item.entry, ∃ info, l.describe lastUpdated header kv.1 kv.2 = .ok info) := by
  have hpage := h
  unfold page at hpage
  obtain ⟨lastUpdated, hupdated, hpage⟩ := Fallible.bind_eq_ok.mp hpage
  obtain ⟨parsed, hparse, hpage⟩ := Fallible.bind_eq_ok.mp hpage
  obtain ⟨header, hheader, hpage⟩ := Fallible.bind_eq_ok.mp hpage
  refine ⟨lastUpdated, parsed, hupdated, hparse, ?_⟩
  cases header with
  | none =>
    cases hpage
    exact .inl ⟨hheader, rfl, rfl⟩
  | some header =>
    have hcount : 0 < parsed.count := by
      rw [(parseWith_ok hparse).1]
      exact hvalid.1
    rw [page_eq hupdated hparse hheader hcount] at h
    obtain ⟨items, hitems, h⟩ := Fallible.bind_eq_ok.mp h
    cases h
    obtain ⟨hentries, hall⟩ := describeItems_ok hitems
    exact .inr ⟨header, hheader, hentries, by rwa [hentries]⟩

end Listing

/-! ## Following the cursors -/

section Follows

variable {α : Type}

/-- The pages from a request on: each leads to the next one by its cursor, and the last has none. -/
inductive Follows (handler : HeightPaginationParams → MapiResult (PaginatedResponse α)) :
    HeightPaginationParams → List (PaginatedResponse α) → Prop where
  | last {params : HeightPaginationParams} {pg : PaginatedResponse α} :
      handler params = .ok pg → pg.nextCursor = none → Follows handler params [pg]
  | next {params : HeightPaginationParams} {pg : PaginatedResponse α} {text : String}
      {pages : List (PaginatedResponse α)} :
      handler params = .ok pg → pg.nextCursor = some text → Follows handler { params with cursor := some text } pages →
      Follows handler params (pg :: pages)

variable {handler : HeightPaginationParams → MapiResult (PaginatedResponse α)} {params : HeightPaginationParams}
  {pages : List (PaginatedResponse α)}

theorem Follows.first (h : Follows handler params pages) : ∃ pg rest, pages = pg :: rest ∧ handler params = .ok pg := by
  cases h with
  | last hpage _ => exact ⟨_, _, rfl, hpage⟩
  | next hpage _ _ => exact ⟨_, _, rfl, hpage⟩

/-- Every page is served for the request with some cursor. -/
theorem Follows.served (h : Follows handler params pages) :
    ∀ pg ∈ pages, ∃ cursor, handler { params with cursor } = .ok pg := by
  induction h with
  | @last params pg hpage _ =>
    intro x hx
    cases List.mem_singleton.mp hx
    exact ⟨params.cursor, hpage⟩
  | @next params pg text pages hpage _ _ ih =>
    intro x hx
    rcases List.mem_cons.mp hx with rfl | hx
    · exact ⟨params.cursor, hpage⟩
    · obtain ⟨cursor, hserved⟩ := ih x hx
      exact ⟨cursor, hserved⟩

end Follows

/-- The pages hold the entries in order, each page but the last is full, and none is overfull. -/
structure Paged {K V : Ty} {ι : Type} (count : Nat) (entries : List (K.Val × V.Val))
    (pages : List (PaginatedResponse (Item K V ι))) : Prop where
  entries_eq : pages.flatMap (fun pg => pg.data.map Item.entry) = entries
  full : ∀ pg ∈ pages.dropLast, pg.data.length = count
  bounded : ∀ pg ∈ pages, pg.data.length ≤ count

/-- **Every matching entry exactly once**: following the cursors ends, and the pages hold the matching entries in the
order of their keys, or reversed. -/
def ExactlyOnce {srv : Server} {s : Snapshot} (l : Listing srv s)
    (handler : HeightPaginationParams → MapiResult (PaginatedResponse (Item l.K l.V l.ι)))
    (params : HeightPaginationParams) : Prop :=
  ∃ entries pages, entries.Pairwise (fun a b : l.K.Val × l.V.Val => l.K.Lt a.1 b.1) ∧
    (∀ k v, (k, v) ∈ entries ↔ l.Matching params k v) ∧ Follows handler params pages ∧
    Paged (params.count.getD MAX_PAGE_COUNT) ((params.order.getD .asc).arrange entries) pages

namespace Listing

variable {srv : Server} {s : Snapshot} {l : Listing srv s} {params : HeightPaginationParams}

theorem length_of_entry_eq {items : List (Item l.K l.V l.ι)} {kvs : List (l.K.Val × l.V.Val)}
    (h : items.map Item.entry = kvs) : items.length = kvs.length := by
  rw [← h, List.length_map]

/-- A page that has room for all that is listed is the last. -/
theorem follows_last (hvalid : params.Valid) {lastUpdated : LastUpdated} {header : l.η}
    {parsed : ParsedPaginationParams} {kvs : List (l.K.Val × l.V.Val)}
    (hupdated : s.getLastUpdated srv (srv.encoder l.reducer) = .ok lastUpdated)
    (hparse : l.parsePage params = .ok parsed) (hheader : l.header = .ok (some header))
    (hkvs : l.listed (l.scanOrder params) parsed.range = kvs) (hroom : kvs.length ≤ params.count.getD MAX_PAGE_COUNT)
    (hdescribed : ∀ kv ∈ kvs, ∃ info, l.describe lastUpdated header kv.1 kv.2 = .ok info) :
    ∃ pages, Follows l.page params pages ∧ Paged (params.count.getD MAX_PAGE_COUNT) kvs pages := by
  have hcount : parsed.count = params.count.getD MAX_PAGE_COUNT := (parseWith_ok hparse).1
  have hpage := page_eq hupdated hparse hheader (hcount ▸ hvalid.1)
  rw [← hcount] at hroom
  obtain ⟨items, hitems⟩ := describeItems_exists hdescribed
  rw [hkvs, List.take_of_length_le hroom, hitems, MapiResult.ok_bind] at hpage
  obtain ⟨hentries, -⟩ := describeItems_ok hitems
  refine ⟨[_], .last hpage (by simp [pageCursor, hroom]), ?_, by simp, ?_⟩
  · rw [List.flatMap_singleton, hentries]
  · intro pg hpg
    cases List.mem_singleton.mp hpg
    rw [← hcount]
    exact (length_of_entry_eq hentries).trans_le hroom

/-- **From any page on, the cursors lead through the rest of the listed entries.**  By induction on how many are
left: the cursor of a full page is the key of its last entry, and behind it lie the entries of the next pages. -/
theorem follows_rest (hvalid : params.Valid) {lastUpdated : LastUpdated} {header : l.η}
    (hupdated : s.getLastUpdated srv (srv.encoder l.reducer) = .ok lastUpdated)
    (hheader : l.header = .ok (some header)) (hscan : l.scanOrder params = params.order.getD .asc)
    (hdescribed : ∀ kv ∈ l.listed (params.order.getD .asc) (l.firstRange params),
      ∃ info, l.describe lastUpdated header kv.1 kv.2 = .ok info) (n : Nat) {cursor : Option String}
    {parsed : ParsedPaginationParams} {done rest : List (l.K.Val × l.V.Val)}
    (hparse : l.parsePage { params with cursor } = .ok parsed)
    (hrest : l.listed (params.order.getD .asc) parsed.range = rest)
    (hsplit : l.listed (params.order.getD .asc) (l.firstRange params) = done ++ rest) (hn : rest.length ≤ n) :
    ∃ pages, Follows l.page { params with cursor } pages ∧
      Paged (params.count.getD MAX_PAGE_COUNT) rest pages := by
  induction n using Nat.strong_induction_on generalizing cursor parsed done rest with
  | _ n ih =>
    obtain ⟨hcount, -, -⟩ := parseWith_ok hparse
    change parsed.count = params.count.getD MAX_PAGE_COUNT at hcount
    have hpos : 0 < parsed.count := hcount ▸ hvalid.1
    obtain ⟨items, hitems⟩ : ∃ items, (rest.take parsed.count).mapM (describeItem (l.describe lastUpdated header)) =
        .ok items :=
      describeItems_exists (fun kv hkv =>
        hdescribed kv (hsplit ▸ List.mem_append_right _ (List.mem_of_mem_take hkv)))
    have hpage := page_eq hupdated hparse hheader hpos
    change l.page { params with cursor } = (do
      let items ← ((l.listed (l.scanOrder params) parsed.range).take parsed.count).mapM
        (describeItem (l.describe lastUpdated header))
      .ok ⟨items, lastUpdated, pageCursor (fun key => encodeBase64 srv l.C (l.cursorOf key)) parsed.count
        (l.listed (l.scanOrder params) parsed.range)⟩) at hpage
    rw [hscan, hrest, hitems, MapiResult.ok_bind] at hpage
    obtain ⟨hentries, -⟩ := describeItems_ok hitems
    have hlength : items.length = min parsed.count rest.length := by
      rw [length_of_entry_eq hentries, List.length_take]
    by_cases hmore : parsed.count < rest.length
    · -- a full page, whose last entry is the next cursor
      obtain ⟨e, he⟩ : ∃ e, rest[parsed.count - 1]? = some e :=
        ⟨_, List.getElem?_eq_getElem (by omega)⟩
      have hcut : rest = rest.take (parsed.count - 1) ++ e :: rest.drop parsed.count := by
        obtain ⟨m, hm⟩ : ∃ m, parsed.count = m + 1 := ⟨parsed.count - 1, by omega⟩
        rw [hm, Nat.add_sub_cancel] at he ⊢
        obtain ⟨hlt, rfl⟩ := List.getElem?_eq_some_iff.mp he
        rw [← List.drop_eq_getElem_cons hlt, List.take_append_drop]
      have hlisted : l.listed (params.order.getD .asc) (l.firstRange params) =
          (done ++ rest.take (parsed.count - 1)) ++ e :: rest.drop parsed.count := by
        rw [hsplit, List.append_assoc, ← hcut]
      have hmem : e ∈ l.listed (params.order.getD .asc) (l.firstRange params) := hlisted ▸ by simp
      have hholds : (l.firstRange params).Holds (l.dataKey e.1) := ((mem_listed (fun _ hk => hk)).mp hmem).2.2.1
      have hbehind := listed_behind hlisted
      have hsplit' : l.listed (params.order.getD .asc) (l.firstRange params) =
          (done ++ rest.take parsed.count) ++ rest.drop parsed.count := by
        rw [hsplit, List.append_assoc, List.take_append_drop]
      obtain ⟨pages, hfollows, hpaged⟩ := ih (rest.length - parsed.count) (by omega) (parsePage_next hvalid hholds)
        hbehind hsplit' (by rw [List.length_drop])
      have hfull : items.length = params.count.getD MAX_PAGE_COUNT := by
        rw [hlength, ← hcount]
        omega
      obtain ⟨pg, pages, rfl, -⟩ := hfollows.first
      refine ⟨_ :: pg :: pages, .next hpage (by simp [pageCursor, hmore, he]) hfollows, ?_, ?_, ?_⟩
      · rw [List.flatMap_cons, hentries, hpaged.entries_eq, List.take_append_drop]
      · intro x hx
        rw [List.dropLast_cons_of_ne_nil (List.cons_ne_nil pg pages)] at hx
        rcases List.mem_cons.mp hx with rfl | hx
        · exact hfull
        · exact hpaged.full x hx
      · intro x hx
        rcases List.mem_cons.mp hx with rfl | hx
        · exact hfull.le
        · exact hpaged.bounded x hx
    · have hvalid' : HeightPaginationParams.Valid { params with cursor } := hvalid
      refine follows_last hvalid' hupdated hparse hheader (by rw [← hrest, ← hscan]; rfl) ?_ (fun kv hkv => ?_)
      · rw [hcount] at hmore
        exact not_lt.mp hmore
      · exact hdescribed kv (hsplit ▸ List.mem_append_right _ hkv)

/-! ## When the cursors lead through all of it -/

/-- The condition: the instance has a cursor, every matching entry can be described, none is of the last possible
height when the request goes up to it, and the scanner is given the order, unless there is nothing to order. -/
structure Served (l : Listing srv s) (params : HeightPaginationParams) : Prop where
  updated : ∃ lastUpdated, s.getLastUpdated srv (srv.encoder l.reducer) = .ok lastUpdated
  described : ∀ k v, l.Matching params k v → ∃ lastUpdated header info,
    s.getLastUpdated srv (srv.encoder l.reducer) = .ok lastUpdated ∧ l.header = .ok (some header) ∧
      l.describe lastUpdated header k v = .ok info
  reached : ∀ k v, l.Matching params k v →
    ∀ h ∈ l.height, ∀ t ∈ params.toHeight, (h k).val = t.val → t.val + 1 < 256 ^ 8
  scanned : l.ordered = true ∨ params.order.getD .asc = .asc ∨
    ∀ k v k' v', l.Matching params k v → l.Matching params k' v' → k = k'

/-- What is listed of the first range. -/
theorem mem_listed_firstRange {order : OrderParam} {k : l.K.Val} {v : l.V.Val} :
    (k, v) ∈ l.listed order (l.firstRange params) ↔ l.Matching params k v ∧
      ∀ h ∈ l.height, ∀ t ∈ params.toHeight, (h k).val = t.val → t.val + 1 < 256 ^ 8 := by
  rw [mem_listed (fun _ hk => hk), holds_firstRange]
  constructor
  · rintro ⟨hstored, hsized, ⟨hsel, hbounds, hlast⟩, hpasses⟩
    exact ⟨⟨hstored, hsized, hsel, hbounds, hpasses⟩, hlast⟩
  · rintro ⟨h, hlast⟩
    exact ⟨h.stored, h.sized, ⟨h.selected, h.inBounds, hlast⟩, h.passes⟩

theorem pairwise_listed_asc : (l.listed .asc (l.firstRange params)).Pairwise (fun a b => l.K.Lt a.1 b.1) := by
  have hpairwise : (l.listed .asc (l.firstRange params)).Pairwise
      (fun a b => OrderParam.Precedes .asc (l.dataKey a.1) (l.dataKey b.1)) := pairwise_listed (fun _ hk => hk)
  exact hpairwise.imp (fun hab => (dataKey_lt_iff _ _).mp hab)

theorem key_asymm {k k' : l.K.Val} (h : l.K.Lt k k') : ¬ l.K.Lt k' k := fun h' =>
  lt_asymm ((dataKey_lt_iff k k').mpr h) ((dataKey_lt_iff k' k).mpr h')

/-- The scanner is given the order of the request, or there is nothing to order. -/
theorem Served.scanOrder_eq (h : l.Served params) :
    l.scanOrder params = params.order.getD .asc ∨
      ∀ k v k' v', l.Matching params k v → l.Matching params k' v' → k = k' := by
  rcases h.scanned with hordered | hasc | hone
  · exact .inl (if_pos hordered)
  · left
    unfold scanOrder
    rw [hasc, ite_self]
  · exact .inr hone

theorem Served.exactlyOnce (hvalid : params.Valid) (hcursor : params.cursor = none) (h : l.Served params) :
    ExactlyOnce l l.page params := by
  have hmem : ∀ k v, (k, v) ∈ l.listed .asc (l.firstRange params) ↔ l.Matching params k v := fun k v =>
    mem_listed_firstRange.trans ⟨fun hkv => hkv.1, fun hkv => ⟨hkv, h.reached k v hkv⟩⟩
  obtain ⟨lastUpdated, hupdated⟩ := h.updated
  obtain ⟨header, hheader⟩ := l.header_ok
  have hparse : l.parsePage params = _ := parsePage_first hvalid hcursor
  refine ⟨l.listed .asc (l.firstRange params), ?_⟩
  suffices hpages : ∃ pages, Follows l.page params pages ∧ Paged (params.count.getD MAX_PAGE_COUNT)
      ((params.order.getD .asc).arrange (l.listed .asc (l.firstRange params))) pages by
    obtain ⟨pages, hfollows, hpaged⟩ := hpages
    exact ⟨pages, pairwise_listed_asc, hmem, hfollows, hpaged⟩
  cases header with
  | none =>
    have hnil : l.listed .asc (l.firstRange params) = [] := by
      refine List.eq_nil_iff_forall_not_mem.mpr (fun kv hkv => ?_)
      obtain ⟨_, _, _, -, hsome, -⟩ := h.described _ _ ((hmem kv.1 kv.2).mp hkv)
      rw [hheader] at hsome
      cases hsome
    have hpage : l.page params = .ok ⟨[], lastUpdated, none⟩ := by
      simp only [page, hupdated, hparse, hheader, MapiResult.ok_bind]
    refine ⟨[_], .last hpage rfl, ?_, by simp, by simp⟩
    rw [hnil]
    cases params.order.getD .asc <;> rfl
  | some header =>
    have hdescribed : ∀ order, ∀ kv ∈ l.listed order (l.firstRange params),
        ∃ info, l.describe lastUpdated header kv.1 kv.2 = .ok info := by
      intro order kv hkv
      obtain ⟨lu, hd, info, hlu, hhd, hinfo⟩ := h.described _ _ (mem_listed_firstRange.mp hkv).1
      cases hupdated.symm.trans hlu
      cases hheader.symm.trans hhd
      exact ⟨info, hinfo⟩
    rw [← listed_arrange]
    rcases h.scanOrder_eq with hscan | hone
    · exact follows_rest hvalid hupdated hheader hscan (hdescribed _) _ hparse rfl (List.nil_append _).symm le_rfl
    · -- a list with at most one entry is its own reverse
      have hlength : (l.listed .asc (l.firstRange params)).length ≤ 1 := by
        have hsorted : (l.listed .asc (l.firstRange params)).Pairwise (fun a b => l.K.Lt a.1 b.1) := pairwise_listed_asc
        match hlisted : l.listed .asc (l.firstRange params) with
        | [] => simp
        | [_] => simp
        | a :: b :: rest =>
          rw [hlisted] at hsorted
          have hlt : l.K.Lt a.1 b.1 := (List.pairwise_cons.mp hsorted).1 b List.mem_cons_self
          have heq : a.1 = b.1 := hone a.1 a.2 b.1 b.2 ((hmem _ _).mp (hlisted ▸ by simp))
            ((hmem _ _).mp (hlisted ▸ by simp))
          rw [heq] at hlt
          exact absurd hlt (key_asymm hlt)
      have hsame : ∀ order, l.listed order (l.firstRange params) = l.listed .asc (l.firstRange params) := by
        intro order
        rw [listed_arrange]
        cases order with
        | asc => rfl
        | desc =>
          match l.listed .asc (l.firstRange params), hlength with
          | [], _ => rfl
          | [_], _ => rfl
      refine follows_last hvalid hupdated hparse hheader ((hsame _).trans (hsame _).symm) ?_ (hdescribed _)
      rw [hsame]
      exact hlength.trans hvalid.1

/-- The entry of a page is in the first range, and what was looked up for it is there. -/
theorem Served.of_entry {cursor : Option String} {pg : PaginatedResponse (Item l.K l.V l.ι)} {k : l.K.Val}
    {v : l.V.Val} (hvalid : params.Valid) (hpage : l.page { params with cursor } = .ok pg)
    (hentry : (k, v) ∈ pg.data.map Item.entry) :
    (∃ lastUpdated header info, s.getLastUpdated srv (srv.encoder l.reducer) = .ok lastUpdated ∧
      l.header = .ok (some header) ∧ l.describe lastUpdated header k v = .ok info) ∧
    ∀ h ∈ l.height, ∀ t ∈ params.toHeight, (h k).val = t.val → t.val + 1 < 256 ^ 8 := by
  have hvalid' : HeightPaginationParams.Valid { params with cursor } := hvalid
  obtain ⟨lastUpdated, parsed, hupdated, hparse, ⟨-, hnil, -⟩ | ⟨header, hheader, hdata, hall⟩⟩ := page_ok hvalid' hpage
  · rw [hnil] at hentry
    cases hentry
  · obtain ⟨info, hinfo⟩ := hall _ hentry
    refine ⟨⟨lastUpdated, header, info, hupdated, hheader, hinfo⟩, ?_⟩
    rw [hdata] at hentry
    have hholds := (mem_listed (parseWith_ok hparse).2.2).mp (List.mem_of_mem_take hentry)
    exact ((l.holds_firstRange params k).mp ((parseWith_ok hparse).2.2 _ hholds.2.2.1)).2.2

theorem arrange_mem {α : Type} {order : OrderParam} {xs : List α} {x : α} : x ∈ order.arrange xs ↔ x ∈ xs := by
  cases order with
  | asc => rfl
  | desc => exact List.mem_reverse

/-- If a list in ascending order begins with the entry that another such list ends with, what is in both is that
entry. -/
theorem eq_of_first_last {xs ys : List (l.K.Val × l.V.Val)} {e x : l.K.Val × l.V.Val}
    (hxs : (e :: xs).Pairwise (fun a b : l.K.Val × l.V.Val => l.K.Lt a.1 b.1))
    (hys : (ys ++ [e]).Pairwise (fun a b : l.K.Val × l.V.Val => l.K.Lt a.1 b.1)) (hx : x ∈ e :: xs)
    (hx' : x ∈ ys ++ [e]) : x = e := by
  rcases List.mem_cons.mp hx with rfl | hx
  · rfl
  · have hlt : l.K.Lt e.1 x.1 := (List.pairwise_cons.mp hxs).1 x hx
    rcases List.mem_append.mp hx' with hinit | hlast
    · exact absurd hlt (key_asymm ((List.pairwise_append.mp hys).2.2 x hinit e List.mem_cons_self))
    · exact List.mem_singleton.mp hlast

/-- **The cursors lead through every matching entry exactly once if and only if the listing is served.** -/
theorem exactlyOnce_page_iff (hvalid : params.Valid) (hcursor : params.cursor = none) :
    ExactlyOnce l l.page params ↔ l.Served params := by
  refine ⟨?_, Served.exactlyOnce hvalid hcursor⟩
  rintro ⟨entries, pages, hsorted, hmem, hfollows, hpaged⟩
  have hpage : ∀ k v, l.Matching params k v → ∃ cursor pg, l.page { params with cursor } = .ok pg ∧
      (k, v) ∈ pg.data.map Item.entry := by
    intro k v hkv
    have hlisted : (k, v) ∈ pages.flatMap (fun pg => pg.data.map Item.entry) := by
      rw [hpaged.entries_eq, arrange_mem]
      exact (hmem k v).mpr hkv
    obtain ⟨pg, hpg, hentry⟩ := List.mem_flatMap.mp hlisted
    obtain ⟨cursor, hserved⟩ := hfollows.served pg hpg
    exact ⟨cursor, pg, hserved, hentry⟩
  have hentry : ∀ k v, l.Matching params k v → (∃ lastUpdated header info,
      s.getLastUpdated srv (srv.encoder l.reducer) = .ok lastUpdated ∧ l.header = .ok (some header) ∧
        l.describe lastUpdated header k v = .ok info) ∧
      ∀ h ∈ l.height, ∀ t ∈ params.toHeight, (h k).val = t.val → t.val + 1 < 256 ^ 8 := by
    intro k v hkv
    obtain ⟨cursor, pg, hserved, hentry⟩ := hpage k v hkv
    exact Served.of_entry hvalid hserved hentry
  obtain ⟨pg, rest, rfl, hfirst⟩ := hfollows.first
  obtain ⟨lastUpdated, parsed, hupdated, hparse, hdata⟩ := page_ok hvalid hfirst
  refine ⟨⟨lastUpdated, hupdated⟩, fun k v hkv => (hentry k v hkv).1, fun k v hkv => (hentry k v hkv).2, ?_⟩
  by_contra hnot
  push Not at hnot
  obtain ⟨hordered, hdesc, k, v, k', v', hkv, hkv', hne⟩ := hnot
  -- the first page begins with the smallest key, which has to be the largest as well
  have horder : params.order.getD .asc = .desc := by
    cases horder : params.order.getD .asc with
    | asc => exact absurd horder hdesc
    | desc => rfl
  obtain ⟨hnone, -⟩ | ⟨header, -, hdata, -⟩ := hdata
  · obtain ⟨⟨_, _, _, -, hsome, -⟩, -⟩ := hentry k v hkv
    rw [hnone] at hsome
    cases hsome
  · rw [parsePage_first hvalid hcursor] at hparse
    cases hparse
    have hscan : l.scanOrder params = .asc := if_neg hordered
    rw [hscan] at hdata
    have hlisted : ∀ k v, l.Matching params k v → (k, v) ∈ l.listed .asc (l.firstRange params) :=
      fun k v hkv => mem_listed_firstRange.mpr ⟨hkv, (hentry k v hkv).2⟩
    obtain ⟨first, behind, hcons⟩ := List.exists_cons_of_ne_nil (List.ne_nil_of_mem (hlisted k v hkv))
    obtain ⟨n, hn⟩ : ∃ n, params.count.getD MAX_PAGE_COUNT = n + 1 := Nat.exists_eq_add_one.mpr hvalid.1
    have hreverse := hpaged.entries_eq
    rw [horder, List.flatMap_cons, hdata, hcons, hn, List.take_succ_cons, List.cons_append] at hreverse
    obtain ⟨tail, htail⟩ : ∃ tail, entries.reverse = first :: tail := ⟨_, hreverse.symm⟩
    have hentries : entries = tail.reverse ++ [first] := by
      rw [← List.reverse_reverse entries, htail, List.reverse_cons]
    have hascending : (l.listed .asc (l.firstRange params)).Pairwise (fun a b => l.K.Lt a.1 b.1) := pairwise_listed_asc
    have hequal : ∀ k v, l.Matching params k v → (k, v) = first := fun k v hkv =>
      eq_of_first_last (hcons ▸ hascending) (hentries ▸ hsorted) (hcons ▸ hlisted k v hkv)
        (hentries ▸ (hmem k v).mpr hkv)
    exact hne (congrArg Prod.fst ((hequal k v hkv).trans (hequal k' v' hkv').symm))

end Listing

end DogeIndexer.Mapi
