import DogeIndexer.Lib.Machine
import Mathlib.Data.List.Lex
import Mathlib.Order.Fin.Basic

/-!
# Codes in lexicographic order

Two words are `Before` one another when they differ somewhere and the first difference is in favour
of the left one.  Unlike the lexicographic order this is kept by whatever is appended to either word.

* `Before.append`, `Before.append_left` — composition of codes.
* `Before.lt`, `Before.not_prefix` — the order, and that neither word begins with the other.
* `toBE_before` — big-endian bytes.
* `not_lt_append_bot` — the word right behind another one.
-/

set_option autoImplicit false

namespace DogeIndexer

variable {α : Type} [LinearOrder α]

/-- The words share a beginning, behind which the left one has the smaller letter. -/
def Before (u v : List α) : Prop := ∃ p a s b t, u = p ++ a :: s ∧ v = p ++ b :: t ∧ a < b

namespace Before

variable {u v : List α}

theorem head {a b : α} (h : a < b) (s t : List α) : Before (a :: s) (b :: t) := ⟨[], a, s, b, t, rfl, rfl, h⟩

theorem append (h : Before u v) (r w : List α) : Before (u ++ r) (v ++ w) := by
  obtain ⟨p, a, s, b, t, rfl, rfl, hab⟩ := h
  exact ⟨p, a, s ++ r, b, t ++ w, by simp, by simp, hab⟩

theorem append_left (h : Before u v) (r : List α) : Before (r ++ u) (r ++ v) := by
  obtain ⟨p, a, s, b, t, rfl, rfl, hab⟩ := h
  exact ⟨r ++ p, a, s, b, t, by simp, by simp, hab⟩

theorem lt (h : Before u v) : u < v := by
  obtain ⟨p, a, s, b, t, rfl, rfl, hab⟩ := h
  exact List.Lex.append_left (· < ·) (List.Lex.rel hab) p

theorem not_prefix (h : Before u v) : ¬ u <+: v := by
  obtain ⟨p, a, s, b, t, rfl, rfl, hab⟩ := h
  rw [List.prefix_append_right_inj, List.cons_prefix_cons]
  exact fun hp => hab.ne hp.1

theorem not_prefix_swap (h : Before u v) : ¬ v <+: u := by
  obtain ⟨p, a, s, b, t, rfl, rfl, hab⟩ := h
  rw [List.prefix_append_right_inj, List.cons_prefix_cons]
  exact fun hp => hab.ne' hp.1

/-- Different words of one length are before one another. -/
theorem of_length : ∀ {u v : List α}, u.length = v.length → u < v → Before u v
  | [], [], _, h => absurd h (List.not_lt_nil [])
  | a :: u, b :: v, hlen, h => by
    rcases List.cons_lt_cons_iff.mp h with hab | ⟨rfl, huv⟩
    · exact head hab u v
    · exact (of_length (Nat.succ.inj hlen) huv).append_left [a]

end Before

/-- Between a word and the word with the least letter appended there is no other. -/
theorem not_lt_append_bot {b : α} (hb : ∀ a, ¬ a < b) : ∀ u v : List α, ¬ v < u ++ [b] ↔ u < v
  | [], [] => by simp
  | [], a :: v => by simp [List.cons_lt_cons_iff, hb a]
  | c :: u, [] => by simp
  | c :: u, a :: v => by
    rw [List.cons_append, List.cons_lt_cons_iff, List.cons_lt_cons_iff, ← not_lt_append_bot hb u v]
    rcases lt_trichotomy a c with hlt | rfl | hgt
    · simp [hlt, hlt.not_gt, hlt.ne']
    · simp
    · simp [hgt, hgt.not_gt, hgt.ne']

/-- **Big-endian bytes of one width sort like the numbers.** -/
theorem toBE_before : ∀ (w : Nat) {v v' : Nat}, v < v' → v' < 256 ^ w →
    Before (Machine.toBE w v) (Machine.toBE w v')
  | 0, v, v', hlt, hw => by
    rw [Nat.pow_zero] at hw
    omega
  | w + 1, v, v', hlt, hw => by
    have hdiv : v' / 256 < 256 ^ w := by
      rw [Nat.div_lt_iff_lt_mul (by decide), ← Nat.pow_succ]
      exact hw
    rw [Machine.toBE, Machine.toBE]
    by_cases h : v / 256 < v' / 256
    · exact (toBE_before w h hdiv).append _ _
    · -- the numbers differ in the last byte only
      have heq : v / 256 = v' / 256 := by omega
      rw [heq]
      refine Before.append_left (Before.head ?_ [] []) _
      rw [Fin.lt_def]
      change v % 256 < v' % 256
      omega

theorem append_lt_append_left_iff (p u v : List α) : p ++ u < p ++ v ↔ u < v := by
  induction p with
  | nil => rfl
  | cons a p ih =>
    rw [List.cons_append, List.cons_append, List.cons_lt_cons_iff, ih]
    simp

/-- Words that begin with big-endian bytes are below the bytes of the larger numbers. -/
theorem toBE_append_lt_iff {w v v' : Nat} (hv : v < 256 ^ w) (hv' : v' < 256 ^ w) (r : List Byte) :
    Machine.toBE w v ++ r < Machine.toBE w v' ↔ v < v' := by
  rcases lt_trichotomy v v' with hlt | rfl | hgt
  · have hbefore := (toBE_before w hlt hv').append r []
    rw [List.append_nil] at hbefore
    exact iff_of_true hbefore.lt hlt
  · refine iff_of_false (fun h => ?_) (lt_irrefl v)
    have hnil := (append_lt_append_left_iff (Machine.toBE w v) r []).mp (by rwa [List.append_nil])
    exact List.not_lt_nil r hnil
  · have hbefore := (toBE_before w hgt hv).append [] r
    rw [List.append_nil] at hbefore
    exact iff_of_false hbefore.lt.not_gt hgt.not_gt

end DogeIndexer
