import DogeIndexer.Compressor.Serve
import DogeIndexer.Compressor.ChainTables

/-!
# Backfill paging

A client that pages through the stored chain, with the last block of a page as the cursor of the next request.

* `page_at` — the page after a stored block.
* `pages_visit_all` — the pages are the stored blocks, in order, each with its own resolver.
-/

set_option autoImplicit false

namespace DogeIndexer.Compressor

/-! ## The client -/

/-- The stored blocks in height order, each with the resolver of its height. -/
def storedBlocks (o : HashOrder) (t : Tables) : List Api.BlockWithContext :=
  t.blockByHeight.entries.filterMap fun e =>
    (t.resolverByHeight.get e.1).map fun entry => pagedBlock o e.1 e.2.1 e.2.2 entry

/-- `Worker::schedule` while dumping: the cursor moves to the last block returned, if there is one. -/
def nextRequest (cursor : Option Api.BlockRef) (page : Api.PageBlocksWithCtxResponse) : Option Api.BlockRef :=
  match page.blocks.getLast? with
  | some last => last.ref
  | none => cursor

/-- A number of requests, one after the other. -/
def requestPages (o : HashOrder) (t : Tables) (maxItems : Nat) :
    Nat → Option Api.BlockRef → Except Status (List Api.PageBlocksWithCtxResponse)
  | 0, _ => .ok []
  | n + 1, cursor => do
    let page ← pageBlocksWithContext o t cursor maxItems
    let pages ← requestPages o t maxItems n (nextRequest cursor page)
    return page :: pages

/-- The cursor is behind the first `p` blocks. -/
inductive Behind (t : Tables) : Option Api.BlockRef → Nat → Prop
  | start : Behind t none 0
  | block {p : Nat} {e : Nat × BlockHash × Block} (h : t.blockByHeight.entries[p]? = some e) :
      Behind t (some (blockRefMessage e.1 e.2.1)) (p + 1)

section

variable {db : ChainDB} {o : HashOrder} {cursor : Option Api.BlockRef} {p maxItems : Nat}

/-! ## One page -/

/-- Blocks and resolvers stand at the same heights, with the same hashes. -/
theorem Aligned.pairs (h : Aligned db) :
    db.tables.blockByHeight.entries.map Prod.fst = db.tables.resolverByHeight.entries.map Prod.fst ∧
      ∀ e ∈ db.tables.blockByHeight.entries.zip db.tables.resolverByHeight.entries,
        e.1.1 = e.2.1 ∧ e.1.2.1 = e.2.2.hash := by
  have hkeys := Table.keys_eq h.heights
  refine ⟨hkeys, fun e he => ?_⟩
  have hkey : e.1.1 = e.2.1 := by
    have hzip : ∀ {l : List (Nat × BlockHash × Block)} {l' : List (Nat × ResolverEntry)},
        l.map Prod.fst = l'.map Prod.fst → ∀ e ∈ l.zip l', e.1.1 = e.2.1 := by
      intro l
      induction l with
      | nil => intro l' _ e he; cases he
      | cons a l ih =>
        intro l' heq e he
        cases l' with
        | nil => cases he
        | cons b l' =>
          obtain ⟨hab, hrest⟩ := List.cons.inj heq
          rcases List.mem_cons.mp he with rfl | he
          · exact hab
          · exact ih hrest e he
    exact hzip hkeys e he
  obtain ⟨hblock, hentry⟩ := List.of_mem_zip he
  refine ⟨hkey, ?_⟩
  have hget : db.tables.blockByHeight.get e.1.1 = some (e.1.2.1, e.1.2.2) := Table.mem_entries.mp hblock
  have hget' : db.tables.resolverByHeight.get e.1.1 = some e.2.2 := by
    rw [hkey]
    exact Table.mem_entries.mp hentry
  exact (h.hashes _ _ _ _ hget hget').1.symm

/-- The stored blocks, from the two tables side by side. -/
theorem Aligned.storedBlocks_eq (h : Aligned db) (o : HashOrder) :
    storedBlocks o db.tables =
      (db.tables.blockByHeight.entries.zip db.tables.resolverByHeight.entries).map
        fun e => pagedBlock o e.1.1 e.1.2.1 e.1.2.2 e.2.2 := by
  obtain ⟨hkeys, hpairs⟩ := h.pairs
  have hlength : db.tables.blockByHeight.entries.length = db.tables.resolverByHeight.entries.length := by
    have := congrArg List.length hkeys
    simpa using this
  have hblocks : db.tables.blockByHeight.entries =
      (db.tables.blockByHeight.entries.zip db.tables.resolverByHeight.entries).map Prod.fst :=
    (List.map_fst_zip (le_of_eq hlength)).symm
  unfold storedBlocks
  conv_lhs => rw [hblocks]
  rw [List.filterMap_map, ← List.filterMap_eq_map]
  refine List.filterMap_congr fun e he => ?_
  have hget : db.tables.resolverByHeight.get e.1.1 = some e.2.2 := by
    rw [(hpairs e he).1]
    exact Table.mem_entries.mp (List.of_mem_zip he).2
  change (db.tables.resolverByHeight.get e.1.1).map _ = _
  rw [hget]
  rfl

/-- What is scanned after the cursor. -/
theorem Behind.scans (h : Behind db.tables cursor p) (haligned : Aligned db) :
    afterIntersect cursor
        (db.tables.blockByHeight.entriesFrom ((cursor.map Api.BlockRef.height).getD 0)) =
      .ok (db.tables.blockByHeight.entries.drop p) ∧
    (if cursor.isSome then
        (db.tables.resolverByHeight.entriesFrom ((cursor.map Api.BlockRef.height).getD 0)).tail
      else db.tables.resolverByHeight.entriesFrom ((cursor.map Api.BlockRef.height).getD 0)) =
      db.tables.resolverByHeight.entries.drop p := by
  cases h with
  | start =>
    have hall : ∀ {V : Type} (t : Table Nat V), t.entriesFrom 0 = t.entries :=
      fun t => List.filter_eq_self.mpr fun e _ => decide_eq_true (Nat.zero_le e.1)
    exact ⟨congrArg Except.ok (hall _), hall _⟩
  | @block p e hp =>
    have hblocks := Table.entriesFrom_eq_drop hp
    obtain ⟨hlt, heq⟩ := List.getElem?_eq_some_iff.mp hp
    have hresolver : ∃ r, db.tables.resolverByHeight.entries[p]? = some r ∧ r.1 = e.1 := by
      have hkeys := congrArg (fun l => l[p]?) haligned.pairs.1
      simp only [List.getElem?_map, hp, Option.map_some] at hkeys
      obtain ⟨r, hr, hkey⟩ := Option.map_eq_some_iff.mp hkeys.symm
      exact ⟨r, hr, hkey⟩
    obtain ⟨r, hr, hkey⟩ := hresolver
    have hresolvers := Table.entriesFrom_eq_drop hr
    rw [hkey] at hresolvers
    change afterIntersect (some (blockRefMessage e.1 e.2.1)) (db.tables.blockByHeight.entriesFrom e.1) = _ ∧
      (db.tables.resolverByHeight.entriesFrom e.1).tail = _
    rw [hblocks, hresolvers, List.tail_drop]
    refine ⟨?_, rfl⟩
    rw [List.drop_eq_getElem_cons hlt, heq]
    unfold afterIntersect
    simp [blockRefMessage]

/-- Conversions that all succeed. -/
theorem mapM_pageBlock {l : List ((Nat × BlockHash × Block) × (Nat × ResolverEntry))}
    (h : ∀ e ∈ l, e.1.2.1 = e.2.2.hash) :
    l.mapM (pageBlock o) = .ok (l.map fun e => pagedBlock o e.1.1 e.1.2.1 e.1.2.2 e.2.2) := by
  induction l with
  | nil => rfl
  | cons e l ih =>
    have hone : pageBlock o e = .ok (pagedBlock o e.1.1 e.1.2.1 e.1.2.2 e.2.2) :=
      if_neg (not_not.mpr (h e List.mem_cons_self))
    rw [List.mapM_cons, hone, ih fun e' he' => h e' (List.mem_cons_of_mem _ he')]
    rfl

/-- **The page after a stored block**, or the first one. -/
theorem page_at (haligned : Aligned db) (hmax : 1 ≤ maxItems) (h : Behind db.tables cursor p) :
    pageBlocksWithContext o db.tables cursor maxItems = .ok {
      blocks := ((storedBlocks o db.tables).drop p).take maxItems
      nextCursor := if p + maxItems < db.tables.blockByHeight.entries.length then
          ((db.tables.blockByHeight.entries.drop p).take maxItems).getLast?.map fun e => blockRefMessage e.1 e.2.1
        else none
      chainTip := db.tables.blockByHeight.lastEntry.map fun e => blockRefMessage e.1 e.2.1 } := by
  obtain ⟨hblocks, hresolvers⟩ := h.scans haligned
  obtain ⟨hkeys, hpairs⟩ := haligned.pairs
  have hlength : db.tables.blockByHeight.entries.length = db.tables.resolverByHeight.entries.length := by
    have := congrArg List.length hkeys
    simpa using this
  have hzip : ((db.tables.blockByHeight.entries.drop p).take maxItems).zip
      ((db.tables.resolverByHeight.entries.drop p).take maxItems) =
      ((db.tables.blockByHeight.entries.zip db.tables.resolverByHeight.entries).drop p).take maxItems := by
    unfold List.zip
    rw [← List.take_zipWith, ← List.drop_zipWith]
  have hpage := mapM_pageBlock (o := o) (l := ((db.tables.blockByHeight.entries.zip
    db.tables.resolverByHeight.entries).drop p).take maxItems)
    fun e he => (hpairs e (List.mem_of_mem_drop (List.mem_of_mem_take he))).2
  rw [List.map_take, List.map_drop, ← haligned.storedBlocks_eq o] at hpage
  have hmore : ((db.tables.blockByHeight.entries.drop p).take (maxItems + 1)).length = maxItems + 1 ↔
      p + maxItems < db.tables.blockByHeight.entries.length := by
    rw [List.length_take, List.length_drop]
    omega
  unfold pageBlocksWithContext
  rw [if_neg (not_lt.mpr hmax)]
  simp only [hblocks, hresolvers]
  change (if _ then _ else _ : Except Status Api.PageBlocksWithCtxResponse) = _
  rw [List.take_take, min_eq_left (Nat.le_succ maxItems), hzip, hpage]
  rw [if_neg]
  · simp only [hmore]
    rfl
  · rw [not_not, List.length_take, List.length_take, List.length_drop, List.length_drop, hlength]

/-! ## All pages -/

/-- A stored block is returned under its own reference. -/
theorem Aligned.storedBlocks_ref (h : Aligned db) {i : Nat} {served : Api.BlockWithContext}
    (hi : (storedBlocks o db.tables)[i]? = some served) :
    ∃ e, db.tables.blockByHeight.entries[i]? = some e ∧ served.ref = some (blockRefMessage e.1 e.2.1) := by
  rw [h.storedBlocks_eq o, List.getElem?_map] at hi
  obtain ⟨⟨e, r⟩, hpair, rfl⟩ := Option.map_eq_some_iff.mp hi
  exact ⟨e, (List.getElem?_zip_eq_some.mp hpair).1, rfl⟩

theorem Aligned.storedBlocks_length (h : Aligned db) (o : HashOrder) :
    (storedBlocks o db.tables).length = db.tables.blockByHeight.entries.length := by
  have hlength : db.tables.blockByHeight.entries.length = db.tables.resolverByHeight.entries.length := by
    have := congrArg List.length h.pairs.1
    simpa using this
  rw [h.storedBlocks_eq o, List.length_map, List.length_zip, ← hlength, min_self]

/-- The last element of a page. -/
theorem getLast?_page {α : Type} {l : List α} (hmax : 1 ≤ maxItems) (hp : p < l.length) :
    ((l.drop p).take maxItems).getLast? = l[min (p + maxItems) l.length - 1]? := by
  rw [List.getLast?_eq_getElem?, List.length_take, List.length_drop, List.getElem?_take_of_lt (by omega),
    List.getElem?_drop]
  congr 1
  omega

/-- The next cursor is behind the blocks returned so far. -/
theorem Behind.next (h : Behind db.tables cursor p) (haligned : Aligned db) (hmax : 1 ≤ maxItems)
    (hp : p ≤ db.tables.blockByHeight.entries.length) {page : Api.PageBlocksWithCtxResponse}
    (hpage : page.blocks = ((storedBlocks o db.tables).drop p).take maxItems) :
    Behind db.tables (nextRequest cursor page) (min (p + maxItems) db.tables.blockByHeight.entries.length) := by
  have hlength := haligned.storedBlocks_length o
  rcases Nat.lt_or_eq_of_le hp with hlt | heq
  · -- the page has a last block
    have hlast : page.blocks.getLast? = (storedBlocks o db.tables)[min (p + maxItems)
        db.tables.blockByHeight.entries.length - 1]? := by
      rw [hpage, getLast?_page hmax (by omega), hlength]
    have hserved : min (p + maxItems) db.tables.blockByHeight.entries.length - 1 <
        (storedBlocks o db.tables).length := by
      omega
    rw [List.getElem?_eq_getElem hserved] at hlast
    obtain ⟨e, he, href⟩ := haligned.storedBlocks_ref (List.getElem?_eq_getElem hserved)
    unfold nextRequest
    rw [hlast]
    simp only
    rw [href]
    have hbehind := Behind.block he
    rwa [Nat.sub_add_cancel (by omega)] at hbehind
  · have hempty : page.blocks = [] := by
      rw [hpage, List.drop_of_length_le (by omega), List.take_nil]
    unfold nextRequest
    rw [hempty, min_eq_right (by omega)]
    simpa [← heq] using h

/-- A page of a sequence of requests from the `p`-th block on. -/
def IsPage (o : HashOrder) (t : Tables) (maxItems p : Nat) (page : Api.PageBlocksWithCtxResponse) : Prop :=
  page.blocks = ((storedBlocks o t).drop p).take maxItems ∧
    (page.nextCursor.isSome = true ↔ p + maxItems < t.blockByHeight.entries.length) ∧
    ∀ cursor, page.nextCursor = some cursor → ∃ last, page.blocks.getLast? = some last ∧ last.ref = some cursor

/-- The page of a request. -/
theorem page_isPage (haligned : Aligned db) (hmax : 1 ≤ maxItems) (h : Behind db.tables cursor p) :
    ∃ page, pageBlocksWithContext o db.tables cursor maxItems = .ok page ∧ IsPage o db.tables maxItems p page := by
  refine ⟨_, page_at haligned hmax h, rfl, ?_, ?_⟩
  · simp only
    split
    · rename_i hmore
      refine ⟨fun _ => hmore, fun _ => ?_⟩
      have hne : (db.tables.blockByHeight.entries.drop p).take maxItems ≠ [] := by
        refine List.ne_nil_of_length_pos ?_
        rw [List.length_take, List.length_drop]
        omega
      rw [List.getLast?_eq_some_getLast hne]
      rfl
    · rename_i hmore
      exact ⟨fun hsome => (by cases hsome), fun hlt => absurd hlt hmore⟩
  · intro cursor' hcursor
    simp only at hcursor ⊢
    split at hcursor
    · rename_i hmore
      obtain ⟨e, he, rfl⟩ := Option.map_eq_some_iff.mp hcursor
      have hlength := haligned.storedBlocks_length o
      rw [getLast?_page hmax (by omega)] at he
      have hserved : min (p + maxItems) (storedBlocks o db.tables).length - 1 < (storedBlocks o db.tables).length := by
        omega
      rw [getLast?_page hmax (by omega), List.getElem?_eq_getElem hserved]
      obtain ⟨e', he', href⟩ := haligned.storedBlocks_ref (List.getElem?_eq_getElem hserved)
      rw [← hlength, he'] at he
      cases he
      exact ⟨_, rfl, href⟩
    · cases hcursor

/-- A number of requests from a cursor on. -/
theorem requestPages_from (haligned : Aligned db) (hmax : 1 ≤ maxItems) (n : Nat)
    (h : Behind db.tables cursor p) (hp : p ≤ db.tables.blockByHeight.entries.length) :
    ∃ pages, requestPages o db.tables maxItems n cursor = .ok pages ∧ pages.length = n ∧
      pages.flatMap Api.PageBlocksWithCtxResponse.blocks =
        ((storedBlocks o db.tables).drop p).take (n * maxItems) ∧
      ∀ j page, pages[j]? = some page →
        IsPage o db.tables maxItems (min (p + j * maxItems) db.tables.blockByHeight.entries.length) page := by
  have hlength := haligned.storedBlocks_length o
  induction n generalizing cursor p with
  | zero =>
    refine ⟨[], rfl, rfl, ?_, fun j page hj => (by cases hj)⟩
    rw [Nat.zero_mul, List.take_zero]
    rfl
  | succ n ih =>
    obtain ⟨page, hpage, hispage⟩ := page_isPage (o := o) haligned hmax h
    obtain ⟨pages, hpages, hcount, hblocks, hall⟩ :=
      ih (h.next haligned hmax hp hispage.1) (Nat.min_le_right _ _)
    refine ⟨page :: pages, ?_, by rw [List.length_cons, hcount], ?_, ?_⟩
    · unfold requestPages
      rw [hpage]
      change (requestPages o db.tables maxItems n (nextRequest cursor page) >>= fun pages => pure (page :: pages)) = _
      rw [hpages]
      rfl
    · rw [List.flatMap_cons, hblocks, hispage.1, Nat.succ_mul, Nat.add_comm (n * maxItems) maxItems, List.take_add,
        List.drop_drop]
      congr 2
      rcases Nat.lt_or_ge (p + maxItems) db.tables.blockByHeight.entries.length with hlt | hge
      · rw [min_eq_left (le_of_lt hlt)]
      · rw [min_eq_right hge, List.drop_of_length_le (le_of_eq hlength), List.drop_of_length_le (by omega)]
    · intro j page' hj
      cases j with
      | zero =>
        cases hj
        rw [Nat.zero_mul, Nat.add_zero, min_eq_left hp]
        exact hispage
      | succ j =>
        have hrest := hall j page' hj
        have hposition : min (min (p + maxItems) db.tables.blockByHeight.entries.length + j * maxItems)
            db.tables.blockByHeight.entries.length =
              min (p + (j + 1) * maxItems) db.tables.blockByHeight.entries.length := by
          rw [Nat.succ_mul]
          omega
        rwa [hposition] at hrest

/-- A cursor that is not on the chain. -/
theorem page_rejected (hmax : 1 ≤ maxItems) {intersect : Api.BlockRef}
    (h : ∀ e ∈ db.tables.blockByHeight.entries, blockRefMessage e.1 e.2.1 ≠ intersect) :
    ∃ message, pageBlocksWithContext o db.tables (some intersect) maxItems = .error ⟨.notFound, message⟩ := by
  have hrejected : ∃ message, afterIntersect (some intersect)
      (db.tables.blockByHeight.entriesFrom intersect.height) = .error ⟨.notFound, message⟩ := by
    unfold afterIntersect
    simp only
    split
    · exact ⟨_, rfl⟩
    · rename_i foundHeight foundHash block rest hscan
      split
      · exact ⟨_, rfl⟩
      · split
        · exact ⟨_, rfl⟩
        · rename_i hheight hhash
          have hmem : (foundHeight, foundHash, block) ∈ db.tables.blockByHeight.entriesFrom intersect.height := by
            rw [hscan]
            exact List.mem_cons_self
          refine absurd ?_ (h _ (List.mem_of_mem_filter hmem))
          unfold blockRefMessage
          rw [not_not.mp hheight, not_not.mp hhash]
  obtain ⟨message, hmessage⟩ := hrejected
  refine ⟨message, ?_⟩
  unfold pageBlocksWithContext
  rw [if_neg (not_lt.mpr hmax)]
  change (afterIntersect (some intersect) (db.tables.blockByHeight.entriesFrom intersect.height) >>= _) = _
  rw [hmessage]
  rfl

/-- **Paging visits every stored block once.**  Requests without a cursor and then with the last block returned give
the stored blocks in height order, `maxItems` at a time, each with the resolver of its height; a next cursor is
given exactly when more blocks remain, and it is the last block returned; a cursor that is not on the chain is
rejected. -/
theorem pages_visit_all (haligned : Aligned db) (hmax : 1 ≤ maxItems) :
    (∀ n, ∃ pages, requestPages o db.tables maxItems n none = .ok pages ∧ pages.length = n ∧
      pages.flatMap Api.PageBlocksWithCtxResponse.blocks = (storedBlocks o db.tables).take (n * maxItems) ∧
      ∀ j page, pages[j]? = some page →
        page.blocks = ((storedBlocks o db.tables).drop (j * maxItems)).take maxItems ∧
        (page.nextCursor.isSome = true ↔ (j + 1) * maxItems < db.tables.blockByHeight.entries.length) ∧
        ∀ cursor, page.nextCursor = some cursor →
          ∃ last, page.blocks.getLast? = some last ∧ last.ref = some cursor) ∧
    (storedBlocks o db.tables).length = db.tables.blockByHeight.entries.length ∧
    (∀ (i : Nat) served, (storedBlocks o db.tables)[i]? = some served →
      ∃ height hash block entry, db.tables.blockByHeight.entries[i]? = some (height, hash, block) ∧
        db.tables.resolverByHeight.get height = some entry ∧ served = pagedBlock o height hash block entry) ∧
    ∀ intersect, (∀ e ∈ db.tables.blockByHeight.entries, blockRefMessage e.1 e.2.1 ≠ intersect) →
      ∃ message, pageBlocksWithContext o db.tables (some intersect) maxItems = .error ⟨.notFound, message⟩ := by
  have hlength := haligned.storedBlocks_length o
  refine ⟨fun n => ?_, hlength, ?_, fun intersect => page_rejected hmax⟩
  · obtain ⟨pages, hpages, hcount, hblocks, hall⟩ :=
      requestPages_from (o := o) haligned hmax n (Behind.start (t := db.tables)) (Nat.zero_le _)
    refine ⟨pages, hpages, hcount, hblocks, fun j page hj => ?_⟩
    obtain ⟨hpage, hmore, hcursor⟩ := hall j page hj
    rw [Nat.zero_add] at hpage hmore
    refine ⟨?_, ?_, hcursor⟩
    · rw [hpage]
      rcases Nat.le_total (j * maxItems) db.tables.blockByHeight.entries.length with hle | hge
      · rw [min_eq_left hle]
      · rw [min_eq_right hge, List.drop_of_length_le (le_of_eq hlength), List.drop_of_length_le (by omega)]
    · rw [hmore, Nat.succ_mul]
      omega
  · intro i served hi
    rw [haligned.storedBlocks_eq o, List.getElem?_map] at hi
    obtain ⟨⟨⟨height, hash, block⟩, key, entry⟩, hpair, rfl⟩ := Option.map_eq_some_iff.mp hi
    obtain ⟨hblock, hentry⟩ := List.getElem?_zip_eq_some.mp hpair
    have hkey := (haligned.pairs.2 _ (List.mem_of_getElem? hpair)).1
    refine ⟨height, hash, block, entry, hblock, ?_, rfl⟩
    change height = key at hkey
    rw [hkey]
    exact Table.mem_entries.mp (List.mem_of_getElem? hentry)

end

/-- Three blocks in pages of two. -/
theorem pages_visit_all_three_blocks :
    ∃ db : ChainDB, Aligned db ∧ (storedBlocks HashOrder.byKey db.tables).length = 3 ∧
      ∃ pages, requestPages HashOrder.byKey db.tables 2 2 none = .ok pages ∧
        pages.flatMap Api.PageBlocksWithCtxResponse.blocks = (storedBlocks HashOrder.byKey db.tables).take 4 := by
  have hsome : (runCalls emptyScripts fromFirstBlock (Node.open_ true) threeBlocks).isSome = true := by
    decide +kernel
  have hreach := (Run.ofCalls hsome).reach (fun n call => Consecutive n call ∧ Flushed call) (by decide +kernel)
    (by decide +kernel)
  obtain ⟨l, hl, hlinked⟩ := hreach.linked
  have haligned := hl.aligned hlinked
  obtain ⟨hpages, hlength, -⟩ := pages_visit_all (o := HashOrder.byKey) haligned (show 1 ≤ 2 by decide)
  obtain ⟨pages, hok, -, hblocks, -⟩ := hpages 2
  refine ⟨_, haligned, ?_, pages, hok, hblocks⟩
  rw [hlength]
  decide +kernel

end DogeIndexer.Compressor
