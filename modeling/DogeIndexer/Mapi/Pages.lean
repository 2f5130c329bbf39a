import DogeIndexer.Mapi.Listings

/-!
# The pages of a listing

What the steps of a listing do: which keys the range of the first page holds, how a cursor moves the
range, and what the loop over the fetched entries leaves.

* `holds_reducerKeyRange` — the keys of the first range, by what follows the parameters.
* `parseWith_cursor` — a cursor that a page returned leads to the range behind its key.
* `processKvs_eq` — the items of a page, and its cursor.
-/

set_option autoImplicit false

namespace DogeIndexer.Timbre

mutual

theorem Ty.elements_of_ordered : (t : Ty) → t.ordered = true → t.elements = []
  | .uint _, _ => rfl
  | .array _, _ => rfl
  | .varUInt, _ => rfl
  | .tuple fs, ho => fs.elements_of_ordered ho
  | .struct fs, ho => fs.elements_of_ordered ho

theorem Fields.elements_of_ordered : (fs : Fields) → fs.ordered = true → fs.elements = []
  | .last _ t, ho => t.elements_of_ordered ho
  | .cons _ t fs, ho => by
    simp only [Fields.ordered, Bool.and_eq_true] at ho
    rw [Fields.elements, t.elements_of_ordered ho.1, fs.elements_of_ordered ho.2, List.nil_append]

end

mutual

theorem Ty.tagged_of_ordered : (t : Ty) → t.ordered = true → t.tagged = true
  | .uint _, _ => rfl
  | .array _, _ => rfl
  | .varUInt, _ => rfl
  | .tuple fs, ho => fs.tagged_of_ordered ho
  | .struct fs, ho => fs.tagged_of_ordered ho

theorem Fields.tagged_of_ordered : (fs : Fields) → fs.ordered = true → fs.tagged = true
  | .last _ t, ho => t.tagged_of_ordered ho
  | .cons _ t fs, ho => by
    simp only [Fields.ordered, Bool.and_eq_true] at ho
    rw [Fields.tagged, t.tagged_of_ordered ho.1, fs.tagged_of_ordered ho.2, Bool.and_self]

end

/-- Values of the ordered types are read back. -/
theorem Ty.decode_of_ordered {size : Ty → Nat} (t : Ty) (ho : t.ordered = true) (x : t.Val) (r : Bytes) :
    t.decode size (t.encode x ++ r) = .ok (x, r) :=
  t.decode_encode (by simp [t.elements_of_ordered ho]) (t.tagged_of_ordered ho) x (t.sized_of_ordered ho x) r

end DogeIndexer.Timbre

namespace DogeIndexer.Mapi

open Timbre

/-! ## The range of the first page -/

/-- What stands in front of the scanned part of the keys. -/
def keyBase (ns : Namespace) (reducer : Reducer) (A : Ty) (keyParams : Option A.Val) : Bytes :=
  ns.dataPrefix reducer ++ (match keyParams with
    | some p => A.encode p ++ [BREAK]
    | none => [])

/-- **Heights behind a separator**: the keys of such a range begin with what stands in front of it, and what follows is
within the bounds. -/
theorem holds_bounds (e : Bytes) (lower upper : Option Height) (k : Bytes) :
    (⟨(lower.map fun v => e ++ [BREAK] ++ Machine.toBE 8 v.val).getD (e ++ [BREAK]),
      (upper.map fun v => e ++ [BREAK] ++ Machine.toBE 8 v.val).getD (e ++ [BREAK_1])⟩ : Range).Holds k ↔
      ∃ r, k = e ++ [BREAK] ++ r ∧ (∀ v ∈ lower, ¬ r < Machine.toBE 8 v.val) ∧
        ∀ v ∈ upper, r < Machine.toBE 8 v.val := by
  have hrange : ∀ k, ¬ k < e ++ [BREAK] ∧ k < e ++ [BREAK_1] ↔ e ++ [BREAK] <+: k := by
    intro k
    rw [← inRange_prefixKeyRange]
    have hend : (prefixKeyRange (e ++ [BREAK])).2 = e ++ [BREAK_1] := by
      simp [prefixKeyRange, bump, BREAK, BREAK_1]
    rw [InRange, hend]
    simp [prefixKeyRange]
  have hbase : ∀ v : List Byte, ¬ e ++ [BREAK] ++ v < e ++ [BREAK] ∧ e ++ [BREAK] ++ v < e ++ [BREAK_1] :=
    fun v => (hrange _).mpr (List.prefix_append _ v)
  constructor
  · rintro ⟨hlower, hupper⟩
    have hprefix : e ++ [BREAK] <+: k := by
      rw [← hrange]
      constructor
      · cases lower with
        | none => exact hlower
        | some v => exact fun hk => hlower (lt_of_lt_of_le hk (not_lt.mp (hbase (Machine.toBE 8 v.val)).1))
      · cases upper with
        | none => exact hupper
        | some v => exact lt_trans hupper (hbase (Machine.toBE 8 v.val)).2
    obtain ⟨r, rfl⟩ := hprefix
    refine ⟨r, rfl, fun v hv hr => ?_, fun v hv => ?_⟩
    · cases hv
      exact hlower ((append_lt_append_left_iff _ _ _).mpr hr)
    · cases hv
      exact (append_lt_append_left_iff _ _ _).mp hupper
  · rintro ⟨r, rfl, hlower, hupper⟩
    constructor
    · cases lower with
      | none => exact (hbase r).1
      | some v => exact fun hk => hlower v rfl ((append_lt_append_left_iff _ _ _).mp hk)
    · cases upper with
      | none => exact (hbase r).2
      | some v => exact (append_lt_append_left_iff _ _ _).mpr (hupper v rfl)

/-- **The keys of the first range begin with the parameters**, and what follows is within the bounds. -/
theorem holds_reducerKeyRange (ns : Namespace) (reducer : Reducer) (A : Ty) (keyParams : Option A.Val)
    (lower upper : Option Height) (k : Bytes) :
    (reducerKeyRange ns reducer A u64 keyParams lower upper).Holds k ↔
      ∃ r, k = keyBase ns reducer A keyParams ++ r ∧ (∀ v ∈ lower, ¬ r < Machine.toBE 8 v.val) ∧
        ∀ v ∈ upper, r < Machine.toBE 8 v.val := by
  obtain ⟨e, he, hempty⟩ : ∃ e, keyBase ns reducer A keyParams = e ++ [BREAK] ∧
      reducerKeyRange ns reducer A u64 keyParams lower upper =
        ⟨(lower.map (fun v => keyBase ns reducer A keyParams ++ Machine.toBE 8 v.val)).getD (e ++ [BREAK]),
         (upper.map (fun v => keyBase ns reducer A keyParams ++ Machine.toBE 8 v.val)).getD (e ++ [BREAK_1])⟩ := by
    cases keyParams with
    | none =>
      refine ⟨ns.encode ++ [PREFIX_DATA, reducer.encode], by simp [keyBase, Namespace.dataPrefix], ?_⟩
      simp only [reducerKeyRange, reducerMaybeKeyRange, keyBase, List.append_nil]
      rfl
    | some p =>
      refine ⟨ns.encode ++ [PREFIX_DATA, reducer.encode] ++ BREAK :: A.encode p, by
        simp [keyBase, Namespace.dataPrefix], ?_⟩
      simp only [reducerKeyRange, reducerMaybeKeyRange, keyBase]
      rfl
  rw [hempty, he]
  exact holds_bounds e lower upper k

/-! ## Cursors -/

theorem decodeBase64_encodeBase64 (srv : Server) (C : Ty) (ho : C.ordered = true) (c : C.Val) :
    decodeBase64 srv C (encodeBase64 srv C c) = .ok c := by
  have hread : C.decode srv.size (C.encode c) = .ok (c, []) := by
    have happend : C.decode srv.size (C.encode c ++ []) = .ok (c, []) := C.decode_of_ordered ho c []
    rwa [List.append_nil] at happend
  have hempty : isUtf8 [] = true := by decide +kernel
  simp only [decodeBase64, encodeBase64, srv.base64.decode_encode, hread, hempty, if_true]

theorem cursorKey_eq (ns : Namespace) (reducer : Reducer) (A C : Ty) (keyParams : Option A.Val) (c : C.Val) :
    cursorKey ns reducer A C keyParams c = keyBase ns reducer A keyParams ++ C.encode c := by
  cases keyParams with
  | none => simp [cursorKey, keyBase, Namespace.data]
  | some p =>
    have hbreak : u8.encode (⟨96, by decide⟩ : Fin (256 ^ 1)) = [BREAK] := by decide
    simp only [cursorKey, keyBase, Namespace.data, Ty.encode, Fields.encodeTuple]
    rw [Ty.encode] at hbreak
    simp [hbreak]

section Parse

variable {srv : Server} {ns : Namespace} {reducer : Reducer} {A C : Ty} {params : HeightPaginationParams}
  {keyParams : Option A.Val} {lower upper : Option Height}

/-- The page size is from 1 to 100. -/
def HeightPaginationParams.Valid (params : HeightPaginationParams) : Prop :=
  0 < params.count.getD MAX_PAGE_COUNT ∧ params.count.getD MAX_PAGE_COUNT ≤ MAX_PAGE_COUNT

theorem parseWith_first (hvalid : params.Valid) (hcursor : params.cursor = none) :
    parseWith srv ns reducer A C params keyParams lower upper =
      .ok ⟨params.count.getD MAX_PAGE_COUNT, params.order.getD .asc,
        reducerKeyRange ns reducer A u64 keyParams lower upper⟩ := by
  have hcount : ¬ (params.count.getD MAX_PAGE_COUNT > MAX_PAGE_COUNT ∨ params.count.getD MAX_PAGE_COUNT = 0) := by
    have := hvalid.1
    have := hvalid.2
    omega
  simp only [parseWith, if_neg hcount, hcursor]

/-- **A cursor leads to the range behind its key.** -/
theorem parseWith_cursor (hvalid : params.Valid) (ho : C.ordered = true) {c : C.Val}
    (hcursor : params.cursor = some (encodeBase64 srv C c))
    (hadmits : (reducerKeyRange ns reducer A u64 keyParams lower upper).Admits
      (keyBase ns reducer A keyParams ++ C.encode c)) :
    parseWith srv ns reducer A C params keyParams lower upper =
      .ok ⟨params.count.getD MAX_PAGE_COUNT, params.order.getD .asc,
        (reducerKeyRange ns reducer A u64 keyParams lower upper).behind (params.order.getD .asc)
          (keyBase ns reducer A keyParams ++ C.encode c)⟩ := by
  have hcount : ¬ (params.count.getD MAX_PAGE_COUNT > MAX_PAGE_COUNT ∨ params.count.getD MAX_PAGE_COUNT = 0) := by
    have := hvalid.1
    have := hvalid.2
    omega
  simp only [parseWith, if_neg hcount, hcursor, decodeBase64_encodeBase64 srv C ho, cursorKey_eq]
  change (if ¬ _ then _ else _) = _
  rw [if_neg (not_not.mpr hadmits)]

/-- What is parsed has the size and the order of the request, and a part of the first range. -/
theorem parseWith_ok {page : ParsedPaginationParams}
    (h : parseWith srv ns reducer A C params keyParams lower upper = .ok page) :
    page.count = params.count.getD MAX_PAGE_COUNT ∧ page.order = params.order.getD .asc ∧
      ∀ k, page.range.Holds k → (reducerKeyRange ns reducer A u64 keyParams lower upper).Holds k := by
  simp only [parseWith] at h
  split at h
  · cases h
  · cases hcursor : params.cursor with
    | none =>
      simp only [hcursor] at h
      cases h
      exact ⟨rfl, rfl, fun k hk => hk⟩
    | some text =>
      simp only [hcursor] at h
      cases hdecode : decodeBase64 srv C text with
      | error e =>
        rw [hdecode] at h
        cases h
      | ok c =>
        rw [hdecode] at h
        change (if ¬ _ then _ else _) = _ at h
        split at h
        · cases h
        · rename_i hadmits
          cases h
          exact ⟨rfl, rfl, fun k hk => ((Range.holds_behind (not_not.mp hadmits) k).mp hk).1⟩

/-- One entry more than a page has is within a `u32`. -/
theorem parseWith_count {page : ParsedPaginationParams}
    (h : parseWith srv ns reducer A C params keyParams lower upper = .ok page) : page.count + 1 < 2 ^ 32 := by
  have hcount := (parseWith_ok h).1
  simp only [parseWith] at h
  split at h
  · cases h
  · rename_i hvalid
    have hle := (not_or.mp hvalid).1
    rw [MAX_PAGE_COUNT] at hle hcount
    omega

end Parse

/-! ## The loop over the fetched entries -/

section Process

variable {K V : Ty} {ι : Type} {count : Nat} {cursorOf : K.Val → String} {describe : K.Val → V.Val → MapiResult ι}

/-- The item of an entry. -/
def describeItem (describe : K.Val → V.Val → MapiResult ι) (kv : K.Val × V.Val) : MapiResult (Item K V ι) := do
  let info ← describe kv.1 kv.2
  .ok ⟨kv.1, kv.2, info⟩

/-- The cursor of a page: that of its last entry, if there is an entry behind it. -/
def pageCursor (cursorOf : K.Val → String) (size : Nat) (kvs : List (K.Val × V.Val)) : Option String :=
  if size < kvs.length then (kvs[size - 1]?).map (fun kv => cursorOf kv.1) else none

/-- **The items of a page and its cursor**, for at most one entry more than the page holds. -/
theorem processKvs_eq {i : Nat} {kvs : List (K.Val × V.Val)} {items : List (Item K V ι)} (hi : i < count)
    (hlen : i + kvs.length ≤ count + 1) :
    processKvs count cursorOf describe i kvs none items = (do
      let described ← (kvs.take (count - i)).mapM (describeItem describe)
      .ok (items ++ described, pageCursor cursorOf (count - i) kvs)) := by
  induction kvs generalizing i items with
  | nil => simp [processKvs, pageCursor]
  | cons kv kvs ih =>
    obtain ⟨key, value⟩ := kv
    obtain ⟨n, hn⟩ : ∃ n, count - i = n + 1 := ⟨count - i - 1, by omega⟩
    rw [hn, List.take_succ_cons, List.mapM_cons]
    cases kvs with
    | nil =>
      simp only [processKvs, describeItem, List.take_nil, List.mapM_nil]
      cases describe key value with
      | error e => rfl
      | ok info => simp [pageCursor]
    | cons next kvs =>
      simp only [List.length_cons] at hlen
      by_cases hlast : i = count - 1
      · have hzero : n = 0 := by omega
        have hnil : kvs = [] := List.length_eq_zero_iff.mp (by omega)
        subst hzero hnil
        simp only [processKvs, if_pos hlast, describeItem, List.take_zero, List.mapM_nil]
        cases describe key value with
        | error e => rfl
        | ok info => simp [pageCursor]
      · simp only [processKvs, if_neg hlast]
        have hnext : count - (i + 1) = n := by omega
        cases hd : describe key value with
        | error e => simp [describeItem, hd]
        | ok info =>
          have hlen' : i + 1 + (next :: kvs).length ≤ count + 1 := by
            simp only [List.length_cons]
            omega
          simp only [describeItem, hd, MapiResult.ok_bind]
          rw [ih (by omega) hlen', hnext]
          cases (List.take n (next :: kvs)).mapM (describeItem describe) with
          | error e => rfl
          | ok described =>
            obtain ⟨m, rfl⟩ : ∃ m, n = m + 1 := ⟨n - 1, by omega⟩
            simp [pageCursor]

end Process

end DogeIndexer.Mapi
