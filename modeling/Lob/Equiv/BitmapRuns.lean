import Lob.Equiv.Bitmap
import Mathlib.Data.List.Induction

/-!
# Runs of `Bitmap`

After any `set` and `clear` calls the scans find what a linear search finds, if the number of bits
is at most `2^64 - 64`.  Past that, `num_bits + 63` wraps in the constructor: the bitmap has no
words, and the scans find nothing whatever has been set (`run_searches_iff`).
-/

namespace Lob.Bitmap

variable {n : ℕ} {cs : List Call} {c : Call} {b : Bitmap} {S : ℕ → Prop} {start : ℕ}

/-! ### What is set -/

theorem run_snoc (n : ℕ) (cs : List Call) (c : Call) : run n (cs ++ [c]) = (run n cs).call c := by
  unfold run
  rw [List.foldl_append]
  rfl

/-- Only the last call counts, if it is on the index. -/
theorem isSet_snoc (cs : List Call) (c : Call) (j : ℕ) :
    IsSet (cs ++ [c]) j ↔ if c.idx = j then c = .set j else IsSet cs j := by
  unfold IsSet
  rw [List.reverse_append, List.reverse_singleton, List.singleton_append, List.find?_cons]
  split_ifs with hj
  · simp [hj]
  · simp [hj]

theorem test_call_iff (j : ℕ) :
    (b.call c).test j = true ↔ if c.idx = j then c = .set j else b.test j = true := by
  cases c with
  | set i =>
    show (b.set i).test j = true ↔ if i = j then Call.set i = .set j else b.test j = true
    rw [test_set_iff, Call.set.injEq]
    split_ifs with hj
    · exact iff_of_true (Or.inr hj.symm) hj
    · exact or_iff_left fun heq => hj heq.symm
  | clear i =>
    show (b.clear i).test j = true ↔ if i = j then Call.clear i = .set j else b.test j = true
    rw [test_clear_iff]
    split_ifs with hj
    · exact iff_of_false (fun h => h.2 hj.symm) nofun
    · exact and_iff_left fun heq => hj heq.symm

/-- The bits of a run are the indices that were last set. -/
theorem test_run_iff (n : ℕ) (cs : List Call) (j : ℕ) :
    (run n cs).test j = true ↔ IsSet cs j := by
  induction cs using List.reverseRecOn with
  | nil =>
    rw [show run n [] = new n from rfl, test_new]
    exact iff_of_false nofun nofun
  | append_singleton cs c ih =>
    rw [run_snoc, test_call_iff, isSet_snoc]
    split_ifs
    · exact Iff.rfl
    · exact ih

theorem numWords_run (n : ℕ) (cs : List Call) : (run n cs).numWords = (n + 63) % 2 ^ 64 / 64 := by
  induction cs using List.reverseRecOn with
  | nil => rfl
  | append_singleton cs c ih =>
    rw [run_snoc, ← ih]
    cases c <;> rfl

theorem run_within (hn : n + 63 < 2 ^ 64) (hcs : ∀ c ∈ cs, c.idx < n) : (run n cs).Within n := by
  induction cs using List.reverseRecOn with
  | nil => exact new_within hn
  | append_singleton cs c ih =>
    rw [run_snoc]
    have h := ih fun c hc => hcs c (List.mem_append_left _ hc)
    have hc := hcs c (List.mem_append_right _ (List.mem_singleton_self c))
    cases c with
    | set i => exact h.set hc
    | clear i => exact h.clear i

/-! ### The scans -/

/-- No index of the bitmap is the sentinel. -/
theorem Within.searches (h : b.Within n) (hn : n + 63 < 2 ^ 64)
    (hS : ∀ j, b.test j = true ↔ S j) (start : ℕ) : b.Searches S start := by
  have hlt : ∀ j, S j → j ≠ kNotFound := by
    intro j hj
    have := h.lt j ((hS j).mpr hj)
    unfold kNotFound sizeMax
    omega
  have hfalse : ∀ j, b.test j = false ↔ ¬S j := by
    intro j
    rw [← hS, Bool.not_eq_true]
  have hnext := findNextSet_spec h start
  have hprev := findPrevSet_spec h start
  simp only [hS, hfalse] at hnext hprev
  constructor
  · rintro ⟨j, hj, hset⟩
    rcases hnext with ⟨-, hnone⟩ | hleast
    · exact absurd hset (hnone j hj)
    · exact hleast
  · rcases hnext with ⟨heq, hnone⟩ | hleast
    · exact iff_of_true heq hnone
    · exact iff_of_false (hlt _ hleast.1.2) fun hnone => hnone _ hleast.1.1 hleast.1.2
  · rintro ⟨j, hj, hset⟩
    rcases hprev with ⟨-, hnone⟩ | hgreatest
    · exact absurd hset (hnone j hj)
    · exact hgreatest
  · rcases hprev with ⟨heq, hnone⟩ | hgreatest
    · exact iff_of_true heq hnone
    · exact iff_of_false (hlt _ hgreatest.1.2) fun hnone => hnone _ hgreatest.1.1 hgreatest.1.2

/-- A bitmap without words finds nothing. -/
theorem searches_of_numWords_eq_zero (h0 : b.numWords = 0) :
    b.Searches S start ↔ ∀ j, ¬S j := by
  have hnext : b.findNextSet start = kNotFound := by
    unfold findNextSet
    exact if_pos (h0 ▸ Nat.zero_le _)
  have hprev : b.findPrevSet start = kNotFound := by
    unfold findPrevSet
    rw [h0]
    rfl
  constructor
  · intro h j hj
    rcases Nat.le_total start j with hle | hle
    · exact h.next_none.mp hnext j hle hj
    · exact h.prev_none.mp hprev j hle hj
  · intro hnone
    constructor
    · rintro ⟨j, -, hj⟩
      exact absurd hj (hnone j)
    · exact iff_of_true hnext fun j _ => hnone j
    · rintro ⟨j, -, hj⟩
      exact absurd hj (hnone j)
    · exact iff_of_true hprev fun j _ => hnone j

end Lob.Bitmap
