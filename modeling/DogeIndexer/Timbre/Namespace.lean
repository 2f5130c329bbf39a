import DogeIndexer.Timbre.KeyOrder

/-!
# Namespaces

Model of `Namespace` and `Prefix` of `crates/timbre-xbt/src/encdec/namespace.rs`, of the tags of
`encdec/builder.rs` and of `prefix_key_range`: the keys that an instance writes, and the range of
keys that belongs to it.

Principal results: `inRange_prefixKeyRange` — the range of a prefix holds the keys that begin with
it; `key_ranges_exact` — so do the ranges of a namespace; `key_injective` — different keys have
different bytes; `apart_iff` — the instance whose range holds a key of another one.
-/

set_option autoImplicit false

namespace DogeIndexer.Timbre

/-- `Reducer`. -/
inductive Reducer where
  | etchingByRuneId
  | mintsByRuneId
  | utxosByRuneId
  | utxosByScriptHash
  | runesByUtxo
  | runeInfoByRuneId
  | scriptByScriptHash
  | scriptHashByAddressPayloadHash
  | runeIdByRuneName
  | inscriptionsByUtxo
  | brc20TotalBalanceByScriptHash
  | brc20AvailableBalanceByScriptHash
  | brc20TermsByTicker
  | balancesByBrc20
  | txsByScriptHash
  | runeBalancesByScriptHash
  | inscriptionsByScriptHash
  | contentByInscriptionId
  | transferInscriptionsByScriptHash
  | satsPerVbByBlock
  | inscriptionUtxosByScriptHash
  | inscriptionActivityByBlock
  | blockByTxHash
  | heightByBlockHash
  | inscriptionActivityByTx
  | txsByInscription
  | txInfo
  | blockInfo
  | txsByBlock
  | balancesByRuneId
  | spendingTxByTxo
  | runeUtxosByScriptHash
  | txsByRuneId
  | txFirstSeenTimestamp
  | runeTxsByScriptHash
  | satBalanceByScriptHash
  | satTxsByScriptHash
  | inscriptionActivityByScriptHash
  deriving DecidableEq, Repr

namespace Reducer

/-- The discriminants. -/
def encode : Reducer → Byte
  | etchingByRuneId => 97
  | mintsByRuneId => 98
  | utxosByRuneId => 99
  | utxosByScriptHash => 100
  | runesByUtxo => 101
  | runeInfoByRuneId => 102
  | scriptByScriptHash => 103
  | scriptHashByAddressPayloadHash => 104
  | runeIdByRuneName => 105
  | inscriptionsByUtxo => 106
  | brc20TotalBalanceByScriptHash => 107
  | brc20AvailableBalanceByScriptHash => 108
  | brc20TermsByTicker => 109
  | balancesByBrc20 => 110
  | txsByScriptHash => 111
  | runeBalancesByScriptHash => 112
  | inscriptionsByScriptHash => 113
  | contentByInscriptionId => 114
  | transferInscriptionsByScriptHash => 115
  | satsPerVbByBlock => 116
  | inscriptionUtxosByScriptHash => 117
  | inscriptionActivityByBlock => 118
  | blockByTxHash => 119
  | heightByBlockHash => 120
  | inscriptionActivityByTx => 121
  | txsByInscription => 122
  | txInfo => 123
  | blockInfo => 124
  | txsByBlock => 125
  | balancesByRuneId => 126
  | spendingTxByTxo => 127
  | runeUtxosByScriptHash => 129
  | txsByRuneId => 130
  | txFirstSeenTimestamp => 131
  | runeTxsByScriptHash => 132
  | satBalanceByScriptHash => 133
  | satTxsByScriptHash => 134
  | inscriptionActivityByScriptHash => 135

/-- The type of the keys of a reducer; no keys are written for `RuneInfoByRuneId`. -/
def key : Reducer → Option Ty
  | etchingByRuneId => some EtchingByRuneId.key
  | mintsByRuneId => some MintsByRuneId.key
  | utxosByRuneId => some UtxosByRuneId.key
  | utxosByScriptHash => some UtxosByScriptHash.key
  | runesByUtxo => some RunesByUtxo.key
  | runeInfoByRuneId => none
  | scriptByScriptHash => some ScriptByScriptHash.key
  | scriptHashByAddressPayloadHash => some ScriptHashByAddressPayloadHash.key
  | runeIdByRuneName => some RuneIdByRuneName.key
  | inscriptionsByUtxo => some InscriptionsByUtxo.key
  | brc20TotalBalanceByScriptHash => some Brc20BalancesByScriptHash.key
  | brc20AvailableBalanceByScriptHash => some Brc20BalancesByScriptHash.key
  | brc20TermsByTicker => some Brc20TermsByTicker.key
  | balancesByBrc20 => some BalancesByBrc20.key
  | txsByScriptHash => some TxsByScriptHash.key
  | runeBalancesByScriptHash => some RuneBalancesByScriptHash.key
  | inscriptionsByScriptHash => some InscriptionsByScriptHash.key
  | contentByInscriptionId => some ContentByInscriptionId.key
  | transferInscriptionsByScriptHash => some TransferInscriptionsByScriptHash.key
  | satsPerVbByBlock => some SatsPerVbByBlock.key
  | inscriptionUtxosByScriptHash => some InscriptionUtxosByScriptHash.key
  | inscriptionActivityByBlock => some InscriptionActivityByBlock.key
  | blockByTxHash => some BlockByTxHash.key
  | heightByBlockHash => some HeightByBlockHash.key
  | inscriptionActivityByTx => some InscriptionActivityByTx.key
  | txsByInscription => some TxsByInscription.key
  | txInfo => some TxInfo.key
  | blockInfo => some BlockInfo.key
  | txsByBlock => some TxsByBlock.key
  | balancesByRuneId => some BalancesByRuneId.key
  | spendingTxByTxo => some SpendingTxByTxo.key
  | runeUtxosByScriptHash => some RuneUtxosByScriptHash.key
  | txsByRuneId => some TxsByRuneId.key
  | txFirstSeenTimestamp => some TxFirstSeenTimestamp.key
  | runeTxsByScriptHash => some RuneTxsByScriptHash.key
  | satBalanceByScriptHash => some SatBalanceByScriptHash.key
  | satTxsByScriptHash => some SatTxsByScriptHash.key
  | inscriptionActivityByScriptHash => some InscriptionActivityByScriptHash.key

/-- Every reducer, by discriminant. -/
def all : List Reducer :=
  [etchingByRuneId, mintsByRuneId, utxosByRuneId, utxosByScriptHash, runesByUtxo, runeInfoByRuneId,
   scriptByScriptHash, scriptHashByAddressPayloadHash, runeIdByRuneName, inscriptionsByUtxo,
   brc20TotalBalanceByScriptHash, brc20AvailableBalanceByScriptHash, brc20TermsByTicker, balancesByBrc20,
   txsByScriptHash, runeBalancesByScriptHash, inscriptionsByScriptHash, contentByInscriptionId,
   transferInscriptionsByScriptHash, satsPerVbByBlock, inscriptionUtxosByScriptHash,
   inscriptionActivityByBlock, blockByTxHash, heightByBlockHash, inscriptionActivityByTx, txsByInscription,
   txInfo, blockInfo, txsByBlock, balancesByRuneId, spendingTxByTxo, runeUtxosByScriptHash, txsByRuneId,
   txFirstSeenTimestamp, runeTxsByScriptHash, satBalanceByScriptHash, satTxsByScriptHash,
   inscriptionActivityByScriptHash]

theorem mem_all (r : Reducer) : r ∈ all := by
  cases r <;> decide

theorem encode_injective {r s : Reducer} (h : r.encode = s.encode) : r = s :=
  List.inj_on_of_nodup_map (f := encode) (l := all) (by decide) (mem_all r) (mem_all s) h

end Reducer

/-! ## Ranges of prefixes -/

/-- The loop of `prefix_key_range` from the last byte on: 255s are dropped, the first other byte is increased. -/
def bump : Bytes → Bytes
  | [] => []
  | b :: l => if b ≠ 255 then (b + 1) :: l else bump l

/-- `prefix_key_range`; an empty end is no bound. -/
def prefixKeyRange (p : Bytes) : Bytes × Bytes := (p, (bump p.reverse).reverse)

/-- The keys of a range. -/
def InRange (range : Bytes × Bytes) (k : Bytes) : Prop := ¬ k < range.1 ∧ (range.2 = [] ∨ k < range.2)

theorem bump_append_singleton (l : Bytes) (b : Byte) :
    bump (l ++ [b]) = if bump l = [] then bump [b] else bump l ++ [b] := by
  induction l with
  | nil => simp [bump]
  | cons c l ih =>
    rw [List.cons_append, bump, bump]
    split
    · simp
    · exact ih

/-- The end of a range, from the first byte on. -/
theorem prefixKeyRange_cons (b : Byte) (p : Bytes) :
    (prefixKeyRange (b :: p)).2 = if (prefixKeyRange p).2 = [] then (if b ≠ 255 then [b + 1] else [])
      else b :: (prefixKeyRange p).2 := by
  simp only [prefixKeyRange, List.reverse_cons, bump_append_singleton, List.reverse_eq_nil_iff]
  by_cases h : bump p.reverse = []
  · rw [if_pos h, if_pos h]
    by_cases hb : b = 255
    · simp [bump, hb]
    · simp [bump, hb]
  · rw [if_neg h, if_neg h]
    simp

/-- A range has no end exactly when all bytes of its prefix are 255. -/
theorem end_eq_nil_iff (p : Bytes) : (prefixKeyRange p).2 = [] ↔ ∀ b ∈ p, b = 255 := by
  induction p with
  | nil => simp [prefixKeyRange, bump]
  | cons b p ih =>
    rw [prefixKeyRange_cons, List.forall_mem_cons, ← ih]
    by_cases hend : (prefixKeyRange p).2 = []
    · by_cases hb : b = 255
      · simp [hend, hb]
      · simp [hend, hb]
    · simp [hend]

theorem val_add_one {b : Byte} (h : b ≠ 255) : (b + 1).val = b.val + 1 := by
  have hlt : b.val < 255 := Nat.lt_of_le_of_ne (Nat.le_of_lt_succ b.isLt) (fun hv => h (Fin.ext hv))
  rw [Fin.val_add]
  exact Nat.mod_eq_of_lt (Nat.succ_lt_succ hlt)

/-- The end of a range is behind every key with the first byte of the prefix whose rest is below the end of the rest. -/
theorem cons_lt_end_iff (b : Byte) (p k : Bytes) :
    ((prefixKeyRange (b :: p)).2 = [] ∨ b :: k < (prefixKeyRange (b :: p)).2) ↔
      ((prefixKeyRange p).2 = [] ∨ k < (prefixKeyRange p).2) := by
  rw [prefixKeyRange_cons]
  by_cases hend : (prefixKeyRange p).2 = []
  · rw [if_pos hend]
    refine iff_of_true ?_ (.inl hend)
    by_cases hb : b = 255
    · exact .inl (if_neg (not_not.mpr hb))
    · rw [if_pos hb]
      refine .inr (List.cons_lt_cons_iff.mpr (.inl ?_))
      rw [Fin.lt_def, val_add_one hb]
      exact Nat.lt_succ_self _
  · rw [if_neg hend, List.cons_lt_cons_iff]
    simp [hend]

/-- No key with a larger first byte is below the end of a range. -/
theorem not_cons_lt_end {b c : Byte} (h : b < c) (p k : Bytes) :
    ¬ ((prefixKeyRange (b :: p)).2 = [] ∨ c :: k < (prefixKeyRange (b :: p)).2) := by
  rw [prefixKeyRange_cons]
  by_cases hend : (prefixKeyRange p).2 = []
  · have hb : b ≠ 255 := by
      rintro rfl
      exact absurd h (not_lt.mpr (Fin.le_last c))
    rw [if_pos hend, if_pos hb, List.cons_lt_cons_iff]
    have hc : ¬ c < b + 1 := by
      rw [Fin.lt_def, val_add_one hb]
      exact Nat.not_lt.mpr h
    simp [hc]
  · rw [if_neg hend, List.cons_lt_cons_iff]
    simp [h.not_gt, h.ne']

/-- **The range of a prefix holds exactly the keys that begin with it.** -/
theorem inRange_prefixKeyRange (p k : Bytes) : InRange (prefixKeyRange p) k ↔ p <+: k := by
  induction p generalizing k with
  | nil => simp [InRange, prefixKeyRange, bump]
  | cons b p ih =>
    cases k with
    | nil => simp [InRange, prefixKeyRange]
    | cons c k =>
      rw [List.cons_prefix_cons, ← ih k]
      rcases lt_trichotomy c b with hlt | rfl | hgt
      · refine iff_of_false (fun h => h.1 ?_) (fun h => hlt.ne' h.1)
        exact List.cons_lt_cons_iff.mpr (.inl hlt)
      · have hstart : c :: k < c :: p ↔ k < p := by simp
        unfold InRange
        rw [cons_lt_end_iff]
        change (¬ c :: k < c :: p ∧ _) ↔ (c = c ∧ ¬ k < p ∧ _)
        rw [hstart]
        simp
      · exact iff_of_false (fun h => not_cons_lt_end hgt p k h.2) (fun h => hgt.ne h.1)

/-! ## Keys of an instance -/

def PREFIX_BATCH_COMPLETE : Byte := 66
def PREFIX_CURSOR : Byte := 67
def PREFIX_DATA : Byte := 68
def PREFIX_INFO : Byte := 73
def PREFIX_ROLLBACK : Byte := 82

structure Namespace where
  dataplaneId : Byte
  instanceId : Byte
  deriving DecidableEq

namespace Namespace

def encode (ns : Namespace) : Bytes := [ns.dataplaneId, ns.instanceId]

def dataplaneKeyRange (ns : Namespace) : Bytes × Bytes := prefixKeyRange [ns.dataplaneId]

def instanceKeyRange (ns : Namespace) : Bytes × Bytes := prefixKeyRange ns.encode

def batchCompleteKeyRange (ns : Namespace) : Bytes × Bytes :=
  prefixKeyRange (ns.encode ++ [PREFIX_BATCH_COMPLETE, BREAK])

end Namespace

/-- **A range of keys is exactly the keys with the prefix**, unbounded only when there is no byte to increase; so are
the ranges of a dataplane, of an instance and of the batches that an instance completed. -/
theorem key_ranges_exact (p k : Bytes) (ns : Namespace) :
    (InRange (prefixKeyRange p) k ↔ p <+: k) ∧
      ((prefixKeyRange p).2 = [] ↔ ∀ b ∈ p, b = 255) ∧
      (InRange ns.dataplaneKeyRange k ↔ k.head? = some ns.dataplaneId) ∧
      (InRange ns.instanceKeyRange k ↔ ns.encode <+: k) ∧
      (InRange ns.batchCompleteKeyRange k ↔ ns.encode ++ [PREFIX_BATCH_COMPLETE, BREAK] <+: k) := by
  refine ⟨inRange_prefixKeyRange p k, end_eq_nil_iff p, ?_, inRange_prefixKeyRange _ k, inRange_prefixKeyRange _ k⟩
  rw [Namespace.dataplaneKeyRange, inRange_prefixKeyRange]
  cases k with
  | nil => simp
  | cons b k => simp [eq_comm]

/-- What the keys built by `Prefix` are made from. -/
inductive StoredKey where
  | cursor
  | info
  | data (reducer : Reducer) (t : Ty) (ht : reducer.key = some t) (key : t.Val) (hkey : t.Sized key)
  | rollback (key : Rollback.metadataKey.Val) (hkey : Rollback.metadataKey.Sized key)

/-- `Prefix`: `cursor`, `info`, `data` and `rollback`. -/
def Namespace.key (ns : Namespace) : StoredKey → Bytes
  | .cursor => ns.encode ++ [PREFIX_CURSOR]
  | .info => [PREFIX_INFO, BREAK] ++ ns.encode
  | .data reducer t _ key _ => ns.encode ++ PREFIX_DATA :: reducer.encode :: BREAK :: t.encode key
  | .rollback key _ => ns.encode ++ PREFIX_ROLLBACK :: BREAK :: Rollback.metadataKey.encode key

/-- `Prefix::data` without the key. -/
def Namespace.dataPrefix (ns : Namespace) (reducer : Reducer) : Bytes :=
  ns.encode ++ [PREFIX_DATA, reducer.encode, BREAK]

/-- `Prefix::data`. -/
def Namespace.data (ns : Namespace) (reducer : Reducer) (t : Ty) (key : t.Val) : Bytes :=
  ns.dataPrefix reducer ++ t.encode key

theorem Namespace.dataPrefix_length (ns : Namespace) (reducer : Reducer) : (ns.dataPrefix reducer).length = 5 := rfl

/-- The keys of a reducer are among the stored types. -/
theorem key_mem_schema (reducer : Reducer) (t : Ty) (ht : reducer.key = some t) : t ∈ schema := by
  cases reducer <;> cases ht <;> simp [schema]

/-- Keys of rollback data are longer than the namespace of an `info` key. -/
theorem metadataKey_ne_nil (key : Rollback.metadataKey.Val) : Rollback.metadataKey.encode key ≠ [] := by
  rw [Rollback.encode_metadataKey]
  simp

theorem encode_injective {t : Ty} (ht : t ∈ schema) {x y : t.Val} (hx : t.Sized x) (hy : t.Sized y)
    (h : t.encode x = t.encode y) : x = y :=
  encode_prefix_free t (schema_tagged t ht) hx hy (h ▸ List.prefix_rfl)

/-- Keys of one reducer have different bytes. -/
theorem data_injective {ns : Namespace} {reducer : Reducer} {t : Ty} (ht : t ∈ schema) {x y : t.Val} (hx : t.Sized x)
    (hy : t.Sized y) (h : ns.data reducer t x = ns.data reducer t y) : x = y :=
  encode_injective ht hx hy (List.append_cancel_left h)

/-- **Different keys have different bytes**, within one namespace and across namespaces. -/
theorem key_injective {ns ns' : Namespace} {k k' : StoredKey} (h : ns.key k = ns'.key k') : ns = ns' ∧ k = k' := by
  obtain ⟨dataplane, inst⟩ := ns
  obtain ⟨dataplane', inst'⟩ := ns'
  have hcd : PREFIX_CURSOR ≠ PREFIX_DATA := by decide
  have hcr : PREFIX_CURSOR ≠ PREFIX_ROLLBACK := by decide
  have hdr : PREFIX_DATA ≠ PREFIX_ROLLBACK := by decide
  cases k <;> cases k' <;>
    simp only [Namespace.key, Namespace.encode, List.cons_append, List.nil_append, List.cons.injEq, reduceCtorEq,
      hcd, hcd.symm, hcr, hcr.symm, hdr, hdr.symm, and_false, false_and, and_true, true_and] at h
  case cursor.cursor => exact ⟨by rw [h.1, h.2], rfl⟩
  case info.info => exact ⟨by rw [h.1, h.2], rfl⟩
  case info.rollback key hkey => exact absurd h.2.2.2.2.symm (metadataKey_ne_nil key)
  case rollback.info key hkey => exact absurd h.2.2.2.2 (metadataKey_ne_nil key)
  case data.data reducer t ht key hkey reducer' t' ht' key' hkey' =>
    obtain ⟨rfl, rfl, hred, henc⟩ := h
    cases Reducer.encode_injective hred
    cases ht.symm.trans ht'
    cases encode_injective (key_mem_schema reducer t ht) hkey hkey' henc
    exact ⟨rfl, rfl⟩
  case rollback.rollback key hkey key' hkey' =>
    obtain ⟨rfl, rfl, henc⟩ := h
    cases encode_injective (by simp [schema]) hkey hkey' henc
    exact ⟨rfl, rfl⟩

/-- The namespace whose range begins like every `info` key. -/
def infoNamespace : Namespace := ⟨PREFIX_INFO, BREAK⟩

/-- A key of another instance lies in the range of an instance only if it is an `info` key and the range that of
`infoNamespace`. -/
theorem inRange_key_iff {ns ns' : Namespace} (hne : ns' ≠ ns) (k : StoredKey) :
    InRange ns.instanceKeyRange (ns'.key k) ↔ k = .info ∧ ns = infoNamespace := by
  obtain ⟨dataplane, inst⟩ := ns
  obtain ⟨dataplane', inst'⟩ := ns'
  have hother : ¬ (dataplane = dataplane' ∧ inst = inst') := by
    rintro ⟨rfl, rfl⟩
    exact hne rfl
  rw [Namespace.instanceKeyRange, inRange_prefixKeyRange]
  cases k with
  | info => simp [Namespace.key, Namespace.encode, infoNamespace]
  | cursor => simpa [Namespace.key, Namespace.encode] using hother
  | data reducer t ht key hkey => simpa [Namespace.key, Namespace.encode] using hother
  | rollback key hkey => simpa [Namespace.key, Namespace.encode] using hother

/-- **An instance is apart from the others exactly when it is not the one that the `info` keys fall into**: no key of
another instance lies in its range, and none of its keys is a key of another instance or one of its own keys of
another kind. -/
theorem apart_iff (ns : Namespace) :
    ((∀ ns' ≠ ns, ∀ k, ¬ InRange ns.instanceKeyRange (ns'.key k)) ∧
      ∀ ns' k k', ns.key k = ns'.key k' → ns = ns' ∧ k = k') ↔ ns ≠ infoNamespace := by
  constructor
  · rintro ⟨hapart, -⟩ rfl
    have hne : (⟨0, 0⟩ : Namespace) ≠ infoNamespace := by decide
    exact hapart ⟨0, 0⟩ hne .info ((inRange_key_iff hne .info).mpr ⟨rfl, rfl⟩)
  · intro hns
    refine ⟨fun ns' hne k h => hns ((inRange_key_iff hne k).mp h).2, fun ns' k k' h => key_injective h⟩

/-- The `info` key of instance `(0, 0)` in the range of instance `(73, 96)`. -/
theorem info_key_in_foreign_range :
    (⟨0, 0⟩ : Namespace) ≠ ⟨73, 96⟩ ∧
      InRange (⟨73, 96⟩ : Namespace).instanceKeyRange ((⟨0, 0⟩ : Namespace).key .info) :=
  ⟨by decide, (inRange_key_iff (by decide) .info).mpr ⟨rfl, rfl⟩⟩

end DogeIndexer.Timbre
