import DogeIndexer.Compressor.Inscription

/-!
# The countdown grammar of inscriptions

An inscription is spread over the pushes of the first inputs' scripts: a header in the first
script, then numbered chunks that count down to zero. Here the grammar is stated by itself, over
the pushes a script decodes to, and compared with what the parser of
`storage/inscriptions/inscription.rs` does.

* `CountsDown.append_iff`: a countdown cut between two segments is two countdowns;
* `readScripts_sound`, `readScripts_complete`: the loops read exactly the countdown;
* `parse_countdown`: the parser accepts exactly the grammar, and what is accepted having read
  its last script was partial before it.
-/

set_option autoImplicit false

namespace DogeIndexer.Compressor.InscriptionParser

/-! ## The grammar -/

/-- The indices from `n - 1` down to `m`. -/
def countdown (n m : Nat) : List Nat := (List.range' m (n - m)).reverse

/-- The pushes of one script after the header: chunks, each an index and its data, and the
pushes behind them that carry no chunk. -/
structure Segment where
  chunks : List (Bytes × Bytes)
  skipped : List Bytes

namespace Segment

def pushes (s : Segment) : List Bytes := s.chunks.flatMap (fun c => [c.1, c.2]) ++ s.skipped

def indices (s : Segment) : List (Option Nat) := s.chunks.map fun c => pushDataToNumber c.1

def body (s : Segment) : Bytes := s.chunks.flatMap Prod.snd

end Segment

/-- Number of chunks. -/
def chunkCount (segments : List Segment) : Nat := (segments.flatMap Segment.chunks).length

/-- With `n` chunks to come, the pushes start with the next index and its data. -/
def Continues (n : Nat) (pushes : List Bytes) : Prop :=
  ∃ index data rest, pushes = index :: data :: rest ∧ 0 < n ∧ pushDataToNumber index = some (n - 1)

/-- The chunks of the segments count down from `n` to `m`, and no segment skips over the chunk
that comes next. -/
structure CountsDown (n m : Nat) (segments : List Segment) : Prop where
  le : m ≤ n
  indices : segments.flatMap Segment.indices = (countdown n m).map some
  greedy : ∀ before s after, segments = before ++ s :: after →
    ¬ Continues (n - chunkCount (before ++ [s])) s.skipped

/-- A script whose pushes are those of a segment. -/
def Carries (script : Bytes) (s : Segment) : Prop := decodePushDatas script = some s.pushes

/-- From pushes with `n` chunks to come, all of `scripts` are read too, each of them starting
with a chunk, and `m` chunks are left when `data` has been read. -/
def Follows (n : Nat) (pushes : List Bytes) (scripts : List Bytes) (m : Nat) (data : Bytes) : Prop :=
  ∃ first later, first.pushes = pushes ∧ List.Forall₂ Carries scripts later ∧
    (∀ s ∈ later, s.chunks ≠ []) ∧ CountsDown n m (first :: later) ∧
    data = (first :: later).flatMap Segment.body

/-- All of `scripts` read: the header of the first announces at least one chunk and a content
type, and `m` chunks are left when `body` has been read. -/
inductive Reads : List Bytes → Bytes → Nat → Bytes → Prop
  | intro {script pieces contentType body : Bytes} {pushes scripts : List Bytes} {n m : Nat}
      (header : decodePushDatas script =
        some (ascii ['o', 'r', 'd'] :: pieces :: contentType :: pushes))
      (count : pushDataToNumber pieces = some n) (pos : 1 ≤ n)
      (follows : Follows n pushes scripts m body) :
      Reads (script :: scripts) contentType m body

/-! ## Countdowns -/

theorem countdown_self (n : Nat) : countdown n n = [] := by simp [countdown]

theorem length_countdown (n m : Nat) : (countdown n m).length = n - m := by simp [countdown]

/-- The next index, then the rest of the countdown. -/
theorem countdown_succ {n m : Nat} (h : m ≤ n) : countdown (n + 1) m = n :: countdown n m := by
  have hlen : n + 1 - m = (n - m) + 1 := by omega
  have hlast : m + (n - m) = n := by omega
  simp [countdown, hlen, List.range'_concat, hlast]

theorem countdown_append {n k m : Nat} (hm : m ≤ k) (hk : k ≤ n) :
    countdown n m = countdown n k ++ countdown k m := by
  have hlen : n - m = (k - m) + (n - k) := by omega
  have hstart : m + (k - m) = k := by omega
  rw [countdown, countdown, countdown, ← List.reverse_append, hlen, ← List.range'_append_1, hstart]

@[simp] theorem chunkCount_append (a b : List Segment) :
    chunkCount (a ++ b) = chunkCount a + chunkCount b := by
  simp [chunkCount]

@[simp] theorem chunkCount_cons (s : Segment) (b : List Segment) :
    chunkCount (s :: b) = s.chunks.length + chunkCount b := by
  simp [chunkCount]

@[simp] theorem chunkCount_nil : chunkCount [] = 0 := rfl

theorem length_indices (segments : List Segment) :
    (segments.flatMap Segment.indices).length = chunkCount segments := by
  induction segments with
  | nil => rfl
  | cons s later ih => simp [ih, Segment.indices]

namespace CountsDown

variable {n m k : Nat} {a b segments : List Segment}

theorem chunks (h : CountsDown n m segments) : chunkCount segments = n - m := by
  rw [← length_indices, h.indices, List.length_map, length_countdown]

theorem append (ha : CountsDown n k a) (hb : CountsDown k m b) : CountsDown n m (a ++ b) where
  le := hb.le.trans ha.le
  indices := by
    rw [List.flatMap_append, ha.indices, hb.indices, countdown_append hb.le ha.le, List.map_append]
  greedy := by
    intro before s after h
    rcases List.append_eq_append_iff.mp h with ⟨mid, rfl, hmid⟩ | ⟨mid, hmid, hrest⟩
    · -- the segment is one of `b`
      have hleft := hb.greedy mid s after hmid
      have hcount := ha.chunks
      have hle := ha.le
      have heq : n - chunkCount (a ++ mid ++ [s]) = k - chunkCount (mid ++ [s]) := by
        simp only [chunkCount_append] at *
        omega
      rwa [heq]
    · cases mid with
      | nil =>
        have hleft := hb.greedy [] s after (by simpa using hrest.symm)
        have hcount := ha.chunks
        have hle := ha.le
        have heq : n - chunkCount (before ++ [s]) = k - chunkCount ([] ++ [s]) := by
          simp only [List.append_nil] at hmid
          subst hmid
          simp only [chunkCount_append, List.nil_append]
          omega
        rwa [heq]
      | cons t mid =>
        obtain ⟨rfl, rfl⟩ : s = t ∧ after = mid ++ b := by simpa using hrest
        exact ha.greedy before s mid hmid

/-- **A countdown cut between two segments is two countdowns.** -/
theorem append_iff :
    CountsDown n m (a ++ b) ↔ ∃ k, CountsDown n k a ∧ CountsDown k m b := by
  constructor
  · intro h
    have hcount : chunkCount a + chunkCount b = n - m := by simpa using h.chunks
    have hmn := h.le
    have hk : m ≤ n - chunkCount a := by omega
    have hle : n - chunkCount a ≤ n := Nat.sub_le _ _
    have hcut := h.indices
    rw [List.flatMap_append, countdown_append hk hle, List.map_append] at hcut
    obtain ⟨ha, hb⟩ := List.append_inj hcut
      (by rw [length_indices, List.length_map, length_countdown]; omega)
    refine ⟨n - chunkCount a, ⟨hle, ha, ?_⟩, ⟨hk, hb, ?_⟩⟩
    · intro before s after hs
      exact h.greedy before s (after ++ b) (by simp [hs])
    · intro before s after hs
      have hleft := h.greedy (a ++ before) s after (by simp [hs])
      rwa [List.append_assoc, chunkCount_append, ← Nat.sub_sub] at hleft
  · rintro ⟨k, ha, hb⟩
    exact ha.append hb

theorem cons_iff {s : Segment} :
    CountsDown n m (s :: b) ↔ ∃ k, CountsDown n k [s] ∧ CountsDown k m b :=
  append_iff (a := [s])

/-- One segment: its indices count down, and what it skips is not the next chunk. -/
theorem single_iff {s : Segment} :
    CountsDown n m [s] ↔
      m ≤ n ∧ s.indices = (countdown n m).map some ∧ ¬ Continues m s.skipped := by
  constructor
  · intro h
    have hcount : s.chunks.length = n - m := by simpa using h.chunks
    have hleft := h.greedy [] s [] rfl
    have heq : n - s.chunks.length = m := by have := h.le; omega
    refine ⟨h.le, by simpa using h.indices, ?_⟩
    simpa [heq] using hleft
  · rintro ⟨hle, hind, hskip⟩
    refine ⟨hle, by simpa using hind, ?_⟩
    intro before t after h
    have hcount : s.chunks.length = n - m := by
      have hlen := congrArg List.length hind
      simpa [Segment.indices, length_countdown] using hlen
    obtain ⟨rfl, rfl⟩ : before = [] ∧ s = t := by
      cases before with
      | nil => simpa using (List.cons.inj h).1
      | cons u before => simp at h
    have heq : n - s.chunks.length = m := by omega
    simpa [heq] using hskip

/-- Pushes that do not go on with the next chunk are skipped. -/
theorem skip {pushes : List Bytes} (h : ¬ Continues n pushes) : CountsDown n n [⟨[], pushes⟩] :=
  single_iff.mpr ⟨Nat.le_refl n, by simp [Segment.indices, countdown_self], h⟩

/-- A chunk carries the next index, and the others count down from there. -/
theorem chunk_iff {c : Bytes × Bytes} {cs : List (Bytes × Bytes)} {skipped : List Bytes} :
    CountsDown (n + 1) m [⟨c :: cs, skipped⟩] ↔
      pushDataToNumber c.1 = some n ∧ CountsDown n m [⟨cs, skipped⟩] := by
  rw [single_iff, single_iff]
  constructor
  · rintro ⟨hle, hind, hskip⟩
    have hlen := congrArg List.length hind
    have hm : m ≤ n := by
      simp only [Segment.indices, List.map_cons, List.length_cons, List.length_map,
        length_countdown] at hlen
      omega
    rw [countdown_succ hm] at hind
    obtain ⟨hnum, hind⟩ := List.cons.inj hind
    exact ⟨hnum, hm, hind, hskip⟩
  · rintro ⟨hnum, hle, hind, hskip⟩
    refine ⟨by omega, ?_, hskip⟩
    rw [countdown_succ hle, List.map_cons, ← hind, ← hnum]
    rfl

theorem no_chunks_iff {skipped : List Bytes} :
    CountsDown n m [⟨[], skipped⟩] ↔ n = m ∧ ¬ Continues n skipped := by
  constructor
  · intro h
    have hcount : 0 = n - m := by simpa using h.chunks
    have hle := h.le
    obtain rfl : n = m := by omega
    exact ⟨rfl, (single_iff.mp h).2.2⟩
  · rintro ⟨rfl, hskip⟩
    exact skip hskip

/-- A segment has a chunk exactly if its pushes start with the next one. -/
theorem chunks_ne_nil_iff {s : Segment} (h : CountsDown n m [s]) :
    s.chunks ≠ [] ↔ Continues n s.pushes := by
  obtain ⟨chunks, skipped⟩ := s
  cases chunks with
  | nil => simpa [Segment.pushes] using (no_chunks_iff.mp h).2
  | cons c cs =>
    simp only [ne_eq, reduceCtorEq, not_false_eq_true, true_iff]
    cases n with
    | zero =>
      have hcount := h.chunks
      simp at hcount
    | succ n => exact ⟨c.1, c.2, _, rfl, Nat.succ_pos n, (chunk_iff.mp h).1⟩

end CountsDown

/-! ## The loop over chunks -/

theorem readChunks_sound {n m : Nat} {body out : Bytes} {pushes : List Bytes}
    (h : readChunks n body pushes = (m, out)) :
    ∃ s : Segment, s.pushes = pushes ∧ CountsDown n m [s] ∧ out = body ++ s.body := by
  fun_induction readChunks n body pushes with
  | case1 body number data rest =>
    obtain ⟨rfl, rfl⟩ := Prod.mk.inj h
    refine ⟨⟨[], number :: data :: rest⟩, rfl, CountsDown.skip ?_, by simp [Segment.body]⟩
    rintro ⟨_, _, _, _, hpos, _⟩
    exact Nat.lt_irrefl 0 hpos
  | case2 n body number data rest hpos hnum ih =>
    obtain ⟨s, rfl, hs, rfl⟩ := ih h
    obtain ⟨n, rfl⟩ := Nat.exists_eq_succ_of_ne_zero hpos
    exact ⟨⟨(number, data) :: s.chunks, s.skipped⟩, rfl, CountsDown.chunk_iff.mpr ⟨hnum, hs⟩,
      by simp [Segment.body]⟩
  | case3 n body number data rest hpos hnum =>
    obtain ⟨rfl, rfl⟩ := Prod.mk.inj h
    refine ⟨⟨[], number :: data :: rest⟩, rfl, CountsDown.skip ?_, by simp [Segment.body]⟩
    rintro ⟨_, _, _, hpushes, _, hnext⟩
    obtain ⟨rfl, -⟩ := List.cons.inj hpushes
    exact hnum hnext
  | case4 pushes n body hshort =>
    obtain ⟨rfl, rfl⟩ := Prod.mk.inj h
    refine ⟨⟨[], pushes⟩, rfl, CountsDown.skip ?_, by simp [Segment.body]⟩
    rintro ⟨number, data, rest, hpushes, _, _⟩
    exact hshort number data rest hpushes

theorem readChunks_skipped {n : Nat} {pushes : List Bytes} (body : Bytes)
    (h : ¬ Continues n pushes) : readChunks n body pushes = (n, body) := by
  unfold readChunks
  split
  next number data rest =>
    by_cases hn : n = 0
    · rw [if_pos hn, hn]
    · rw [if_neg hn, if_neg]
      intro hnum
      exact h ⟨number, data, rest, rfl, Nat.pos_of_ne_zero hn, hnum⟩
  · rfl

theorem readChunks_complete {n m : Nat} {s : Segment} (h : CountsDown n m [s]) (body : Bytes) :
    readChunks n body s.pushes = (m, body ++ s.body) := by
  obtain ⟨chunks, skipped⟩ := s
  induction chunks generalizing n body with
  | nil =>
    obtain ⟨rfl, hskip⟩ := CountsDown.no_chunks_iff.mp h
    simpa [Segment.pushes, Segment.body] using readChunks_skipped body hskip
  | cons c cs ih =>
    have hstart : Continues n (Segment.mk (c :: cs) skipped).pushes :=
      h.chunks_ne_nil_iff.mp (by simp)
    obtain ⟨_, _, _, _, hpos, _⟩ := hstart
    obtain ⟨n, rfl⟩ := Nat.exists_eq_succ_of_ne_zero (Nat.ne_of_gt hpos)
    obtain ⟨hnum, hrest⟩ := CountsDown.chunk_iff.mp h
    have hread := ih (body ++ c.2) hrest
    simp only [Segment.pushes, Segment.body, List.flatMap_cons, List.cons_append,
      List.nil_append, List.append_assoc] at hread ⊢
    simp only [readChunks, Nat.succ_ne_zero, if_false, Nat.succ_sub_one, hnum, if_true]
    exact hread

/-! ## The loop over scripts -/

section Scripts

variable {contentType body out : Bytes} {pushes : List Bytes} {n k m : Nat}

theorem readScripts_done (h : readChunks n body pushes = (0, out)) (scripts : List Bytes) :
    readScripts contentType n body pushes scripts = .complete ⟨out, contentType⟩ := by
  cases scripts <;> simp [readScripts, h]

theorem readScripts_last (h : readChunks n body pushes = (k, out)) (hk : 0 < k) :
    readScripts contentType n body pushes [] = .partial_ := by
  unfold readScripts
  rw [h]
  split
  next heq => exact absurd (Prod.mk.inj heq).1 (Nat.ne_of_gt hk)
  · rfl

/-- The next script has to start with the chunk that is expected. -/
theorem readScripts_next {script : Bytes} {next : List Bytes} (h : readChunks n body pushes = (k, out))
    (hscript : decodePushDatas script = some next) (hnext : Continues k next)
    (scripts : List Bytes) :
    readScripts contentType n body pushes (script :: scripts) =
      readScripts contentType k out next scripts := by
  obtain ⟨number, data, rest, rfl, hk, hnum⟩ := hnext
  conv_lhs => unfold readScripts
  rw [h]
  split
  next heq => exact absurd (Prod.mk.inj heq).1 (Nat.ne_of_gt hk)
  next heq =>
    obtain ⟨rfl, rfl⟩ := Prod.mk.inj heq
    simp [hscript, hnum]

theorem readScripts_stop {script : Bytes} (h : readChunks n body pushes = (k, out)) (hk : 0 < k)
    (hscript : ∀ next, decodePushDatas script = some next → ¬ Continues k next)
    (scripts : List Bytes) :
    readScripts contentType n body pushes (script :: scripts) = .none := by
  unfold readScripts
  rw [h]
  split
  next heq => exact absurd (Prod.mk.inj heq).1 (Nat.ne_of_gt hk)
  next heq =>
    obtain ⟨rfl, rfl⟩ := Prod.mk.inj heq
    split
    next number data rest hdec =>
      rw [if_neg]
      intro hnum
      exact hscript _ hdec ⟨number, data, rest, rfl, hk, hnum⟩
    · rfl

end Scripts

namespace Follows

variable {n k m : Nat} {pushes scripts : List Bytes} {data : Bytes}

theorem nil_iff :
    Follows n pushes [] m data ↔
      ∃ s : Segment, s.pushes = pushes ∧ CountsDown n m [s] ∧ data = s.body := by
  constructor
  · rintro ⟨s, later, hpushes, hcarried, -, hcounts, hdata⟩
    obtain rfl := List.forall₂_nil_left_iff.mp hcarried
    exact ⟨s, hpushes, hcounts, by simpa using hdata⟩
  · rintro ⟨s, hpushes, hcounts, hdata⟩
    exact ⟨s, [], hpushes, .nil, by simp, hcounts, by simpa using hdata⟩

theorem cons_iff {script : Bytes} :
    Follows n pushes (script :: scripts) m data ↔
      ∃ s : Segment, s.pushes = pushes ∧ ∃ k, CountsDown n k [s] ∧
        ∃ next, decodePushDatas script = some next ∧ Continues k next ∧
          ∃ rest, Follows k next scripts m rest ∧ data = s.body ++ rest := by
  constructor
  · rintro ⟨s, later, hpushes, hcarried, hstarts, hcounts, hdata⟩
    obtain ⟨t, later, hscript, hrest, rfl⟩ := List.forall₂_cons_left_iff.mp hcarried
    obtain ⟨k, hs, hlater⟩ := CountsDown.cons_iff.mp hcounts
    obtain ⟨_, ht, -⟩ := CountsDown.cons_iff.mp hlater
    have hnext := ht.chunks_ne_nil_iff.mp (hstarts t (by simp))
    refine ⟨s, hpushes, k, hs, t.pushes, hscript, hnext, _, ?_, hdata⟩
    exact ⟨t, later, rfl, hrest, fun u hu => hstarts u (by simp [hu]), hlater, rfl⟩
  · rintro ⟨s, hpushes, k, hs, next, hscript, hnext, rest, ⟨t, later, rfl, hcarried, hstarts,
      hcounts, rfl⟩, hdata⟩
    obtain ⟨_, ht, -⟩ := CountsDown.cons_iff.mp hcounts
    refine ⟨s, t :: later, hpushes, .cons hscript hcarried, ?_,
      CountsDown.cons_iff.mpr ⟨k, hs, hcounts⟩, hdata⟩
    intro u hu
    rcases List.mem_cons.mp hu with rfl | hu
    · exact ht.chunks_ne_nil_iff.mpr hnext
    · exact hstarts u hu

end Follows

/-- What the grammar reads, the loops read: with no chunk left the inscription is complete,
whatever scripts come behind, and otherwise it is partial. -/
theorem readScripts_complete {contentType data : Bytes} {pushes used : List Bytes} {n m : Nat}
    (h : Follows n pushes used m data) (body : Bytes) :
    (m = 0 → ∀ unused, readScripts contentType n body pushes (used ++ unused) =
      .complete ⟨body ++ data, contentType⟩) ∧
    (0 < m → readScripts contentType n body pushes used = .partial_) := by
  induction used generalizing n pushes body data with
  | nil =>
    obtain ⟨s, rfl, hs, rfl⟩ := Follows.nil_iff.mp h
    have hread := readChunks_complete hs body
    refine ⟨?_, fun hm => readScripts_last hread hm⟩
    rintro rfl unused
    exact readScripts_done hread _
  | cons script used ih =>
    obtain ⟨s, rfl, k, hs, next, hscript, hnext, rest, hrest, rfl⟩ := Follows.cons_iff.mp h
    have hread := readChunks_complete hs body
    obtain ⟨hdone, hleft⟩ := ih hrest (body ++ s.body)
    refine ⟨fun hm unused => ?_, fun hm => ?_⟩
    · rw [List.cons_append, readScripts_next hread hscript hnext, hdone hm unused, List.append_assoc]
    · rw [readScripts_next hread hscript hnext, hleft hm]

/-- What the loops read, the grammar reads. -/
theorem readScripts_sound {contentType body : Bytes} {pushes scripts : List Bytes} {n : Nat} :
    (∀ i, readScripts contentType n body pushes scripts = .complete i →
      ∃ used unused data, scripts = used ++ unused ∧ Follows n pushes used 0 data ∧
        i = ⟨body ++ data, contentType⟩) ∧
    (readScripts contentType n body pushes scripts = .partial_ →
      ∃ m data, 0 < m ∧ Follows n pushes scripts m data) := by
  obtain ⟨⟨k, out⟩, hread⟩ : ∃ r, readChunks n body pushes = r := ⟨_, rfl⟩
  obtain ⟨s, hpushes, hs, rfl⟩ := readChunks_sound hread
  induction scripts generalizing n pushes body k s with
  | nil =>
    rcases Nat.eq_zero_or_pos k with rfl | hk
    · rw [readScripts_done hread]
      refine ⟨?_, by simp⟩
      rintro _ ⟨⟩
      exact ⟨[], [], s.body, rfl, Follows.nil_iff.mpr ⟨s, hpushes, hs, rfl⟩, rfl⟩
    · rw [readScripts_last hread hk]
      exact ⟨by simp, fun _ => ⟨k, s.body, hk, Follows.nil_iff.mpr ⟨s, hpushes, hs, rfl⟩⟩⟩
  | cons script scripts ih =>
    rcases Nat.eq_zero_or_pos k with rfl | hk
    · rw [readScripts_done hread]
      refine ⟨?_, by simp⟩
      rintro _ ⟨⟩
      exact ⟨[], script :: scripts, s.body, rfl, Follows.nil_iff.mpr ⟨s, hpushes, hs, rfl⟩, rfl⟩
    · by_cases hnext : ∃ next, decodePushDatas script = some next ∧ Continues k next
      · obtain ⟨next, hscript, hnext⟩ := hnext
        rw [readScripts_next hread hscript hnext]
        obtain ⟨⟨j, out⟩, hread'⟩ : ∃ r, readChunks k (body ++ s.body) next = r := ⟨_, rfl⟩
        obtain ⟨t, ht, hcounts, rfl⟩ := readChunks_sound hread'
        obtain ⟨hcomplete, hpartial⟩ := ih j t ht hcounts hread'
        refine ⟨?_, ?_⟩
        · intro i hi
          obtain ⟨used, unused, data, rfl, hfollows, rfl⟩ := hcomplete i hi
          refine ⟨script :: used, unused, s.body ++ data, rfl, ?_, by simp⟩
          exact Follows.cons_iff.mpr
            ⟨s, hpushes, k, hs, next, hscript, hnext, data, hfollows, rfl⟩
        · intro hi
          obtain ⟨m, data, hm, hfollows⟩ := hpartial hi
          exact ⟨m, s.body ++ data, hm, Follows.cons_iff.mpr
            ⟨s, hpushes, k, hs, next, hscript, hnext, data, hfollows, rfl⟩⟩
      · rw [readScripts_stop hread hk (fun next hscript h => hnext ⟨next, hscript, h⟩)]
        simp

/-! ## The parser -/

theorem parse_of_header {script pieces contentType : Bytes} {pushes : List Bytes} {n : Nat}
    (header : decodePushDatas script =
      some (ascii ['o', 'r', 'd'] :: pieces :: contentType :: pushes))
    (count : pushDataToNumber pieces = some n) (pos : 1 ≤ n) (scripts : List Bytes) :
    parse (script :: scripts) = readScripts contentType n [] pushes scripts := by
  obtain ⟨n, rfl⟩ := Nat.exists_eq_succ_of_ne_zero (Nat.ne_of_gt pos)
  simp [parse, header, count]

/-- Without a header the parser reads nothing. -/
theorem parse_cases (script : Bytes) (scripts : List Bytes) :
    (∃ pieces contentType pushes n, decodePushDatas script =
        some (ascii ['o', 'r', 'd'] :: pieces :: contentType :: pushes) ∧
      pushDataToNumber pieces = some n ∧ 1 ≤ n) ∨
    parse (script :: scripts) = .none := by
  simp only [parse]
  split
  next protocol pieces contentType pushes header =>
    by_cases hord : protocol = ascii ['o', 'r', 'd']
    · subst hord
      rw [if_neg (not_not.mpr rfl)]
      match hcount : pushDataToNumber pieces with
      | none => exact .inr rfl
      | some 0 => exact .inr rfl
      | some (n + 1) =>
        exact .inl ⟨pieces, contentType, pushes, n + 1, header, hcount, Nat.succ_pos n⟩
    · exact .inr (if_pos hord)
  · exact .inr rfl

theorem parse_complete_iff (script : Bytes) (scripts : List Bytes) (i : Inscription) :
    parse (script :: scripts) = .complete i ↔
      ∃ used unused, script :: scripts = used ++ unused ∧ Reads used i.contentType 0 i.body := by
  constructor
  · intro h
    rcases parse_cases script scripts with ⟨pieces, contentType, pushes, n, header, count, pos⟩ | hnone
    · rw [parse_of_header header count pos] at h
      obtain ⟨used, unused, data, rfl, hfollows, rfl⟩ := readScripts_sound.1 i h
      exact ⟨script :: used, unused, rfl, .intro header count pos hfollows⟩
    · simp [hnone] at h
  · rintro ⟨_, unused, hcut, ⟨header, count, pos, follows⟩⟩
    obtain ⟨rfl, rfl⟩ := List.cons.inj hcut
    rw [parse_of_header header count pos]
    simpa using (readScripts_complete follows []).1 rfl unused

theorem parse_partial_iff (script : Bytes) (scripts : List Bytes) :
    parse (script :: scripts) = .partial_ ↔
      ∃ contentType m body, 1 ≤ m ∧ Reads (script :: scripts) contentType m body := by
  constructor
  · intro h
    rcases parse_cases script scripts with ⟨pieces, contentType, pushes, n, header, count, pos⟩ | hnone
    · rw [parse_of_header header count pos] at h
      obtain ⟨m, data, hm, hfollows⟩ := readScripts_sound.2 h
      exact ⟨contentType, m, data, hm, .intro header count pos hfollows⟩
    · simp [hnone] at h
  · rintro ⟨contentType, m, body, hm, ⟨header, count, pos, follows⟩⟩
    rw [parse_of_header header count pos]
    exact (readScripts_complete follows []).2 hm

/-- What has been read with its last script was partial before it. -/
theorem Follows.before_last {n m : Nat} {pushes scripts : List Bytes} {script data : Bytes}
    (h : Follows n pushes (scripts ++ [script]) m data) :
    ∃ k data, 0 < k ∧ Follows n pushes scripts k data := by
  induction scripts generalizing n pushes data with
  | nil =>
    obtain ⟨s, hpushes, k, hs, next, -, ⟨_, _, _, _, hk, _⟩, -⟩ := Follows.cons_iff.mp h
    exact ⟨k, s.body, hk, Follows.nil_iff.mpr ⟨s, hpushes, hs, rfl⟩⟩
  | cons head scripts ih =>
    obtain ⟨s, hpushes, k, hs, next, hscript, hnext, rest, hrest, -⟩ := Follows.cons_iff.mp h
    obtain ⟨j, data, hj, hfollows⟩ := ih hrest
    exact ⟨j, s.body ++ data, hj, Follows.cons_iff.mpr
      ⟨s, hpushes, k, hs, next, hscript, hnext, data, hfollows, rfl⟩⟩

theorem Reads.before_last {head script contentType body : Bytes} {scripts : List Bytes} {m : Nat}
    (h : Reads (head :: scripts ++ [script]) contentType m body) :
    ∃ k data, 1 ≤ k ∧ Reads (head :: scripts) contentType k data := by
  obtain ⟨header, count, pos, follows⟩ := h
  obtain ⟨k, data, hk, hfollows⟩ := follows.before_last
  exact ⟨k, data, hk, .intro header count pos hfollows⟩

/-- **The parser accepts exactly the countdown grammar.** An inscription is complete when the
countdown reaches zero after some of the scripts, whatever the others are, and partial when all
scripts are read with chunks left; anything else is nothing. What is partial, or complete having
read its last script, was partial before that script. -/
theorem parse_countdown (script : Bytes) (scripts : List Bytes) :
    (∀ i, parse (script :: scripts) = .complete i ↔
      ∃ used unused, script :: scripts = used ++ unused ∧ Reads used i.contentType 0 i.body) ∧
    (parse (script :: scripts) = .partial_ ↔
      ∃ contentType m body, 1 ≤ m ∧ Reads (script :: scripts) contentType m body) ∧
    (parse (script :: scripts) = .none ↔
      (¬ ∃ used unused contentType body,
        script :: scripts = used ++ unused ∧ Reads used contentType 0 body) ∧
      ¬ ∃ contentType m body, 1 ≤ m ∧ Reads (script :: scripts) contentType m body) ∧
    ∀ last,
      (parse (script :: scripts ++ [last]) = .partial_ ∨
        ∃ i, parse (script :: scripts ++ [last]) = .complete i ∧
          Reads (script :: scripts ++ [last]) i.contentType 0 i.body) →
      parse (script :: scripts) = .partial_ := by
  refine ⟨parse_complete_iff script scripts, parse_partial_iff script scripts, ?_, ?_⟩
  · constructor
    · intro h
      refine ⟨?_, ?_⟩
      · rintro ⟨used, unused, contentType, body, hcut, hreads⟩
        have hcomplete := (parse_complete_iff script scripts ⟨body, contentType⟩).mpr
          ⟨used, unused, hcut, hreads⟩
        simp [h] at hcomplete
      · intro hreads
        have hpartial := (parse_partial_iff script scripts).mpr hreads
        simp [h] at hpartial
    · rintro ⟨hcomplete, hpartial⟩
      cases h : parse (script :: scripts) with
      | none => rfl
      | partial_ => exact absurd ((parse_partial_iff script scripts).mp h) hpartial
      | complete i =>
        obtain ⟨used, unused, hcut, hreads⟩ := (parse_complete_iff script scripts i).mp h
        exact absurd ⟨used, unused, _, _, hcut, hreads⟩ hcomplete
  · intro last h
    obtain ⟨contentType, m, body, hreads⟩ :
        ∃ contentType m body, Reads (script :: scripts ++ [last]) contentType m body := by
      rcases h with h | ⟨i, -, hreads⟩
      · obtain ⟨contentType, m, body, -, hreads⟩ :=
          (parse_partial_iff script (scripts ++ [last])).mp h
        exact ⟨contentType, m, body, hreads⟩
      · exact ⟨_, _, _, hreads⟩
    obtain ⟨k, data, hk, hbefore⟩ := hreads.before_last
    exact (parse_partial_iff script scripts).mpr ⟨contentType, k, data, hk, hbefore⟩

/-- Two chunks in two scripts; the push behind the first chunk is skipped. -/
example :
    parse [[3, 111, 114, 100, 82, 1, 97, 81, 1, 98, 83], [0, 1, 99], [255]] =
      .complete ⟨[98, 99], [97]⟩ := by decide

end DogeIndexer.Compressor.InscriptionParser
