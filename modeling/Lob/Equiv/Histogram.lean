import Lob.Histogram
import Mathlib.Data.List.Sort
import Mathlib.Data.Nat.Log

/-!
# Correctness of `LatencyHistogram`

The counters are numbered in one row, the linear ones first: a latency is counted in its `slot`, and
a slot is reported as its `edge`.  `percentile` returns the edge of the first slot up to which the
histogram has counted as many latencies as the threshold says (`search_eq`).

The row is not sorted by its edges.  The first logarithmic slot in use begins at `kLinearMax`, but
its edge is `2 ^ 16`, so that a percentile that falls into it is reported below one that falls on a
latency between these two (`percentile_consistent_iff`).  Apart from that the reported value is the
latency of the given rank, or at least half of it (`search_accurate`).
-/

namespace Lob.LatencyHistogram

variable {xs : List UInt64} {t : UInt64} {i : ℕ}

/-! ### Slots and edges -/

/-- The number of the counter of a latency. -/
def slot (ns : UInt64) : ℕ :=
  if ns.toNat < kLinearMax then ns.toNat else kLinearMax + halve (kLogBuckets - 1) ns 0

/-- What `percentile` returns for a counter. -/
def edge (i : ℕ) : UInt64 :=
  if i < kLinearMax then UInt64.ofNat i else 1 <<< UInt64.ofNat (i - kLinearMax)

theorem halve_eq (n : ℕ) (v : UInt64) (bucket : ℕ) :
    halve n v bucket = bucket + min n v.toNat.log2 := by
  induction n generalizing v bucket with
  | zero => simp [halve]
  | succ n ih =>
    rw [halve]
    split_ifs with hv
    · have hv' : 2 ≤ v.toNat := UInt64.lt_iff_toNat_lt.mp hv
      have hshift : (v >>> 1).toNat = v.toNat / 2 := by
        rw [UInt64.toNat_shiftRight]
        rfl
      rw [ih, hshift, Nat.log2_def v.toNat, if_pos hv']
      omega
    · have hv' : ¬2 ≤ v.toNat := fun h => hv (UInt64.lt_iff_toNat_lt.mpr h)
      rw [Nat.log2_def, if_neg hv', Nat.min_zero, Nat.add_zero]

theorem slot_linear {ns : UInt64} (h : ns.toNat < kLinearMax) : slot ns = ns.toNat := if_pos h

theorem slot_log {ns : UInt64} (h : kLinearMax ≤ ns.toNat) :
    slot ns = kLinearMax + min 29 ns.toNat.log2 := by
  unfold slot
  rw [if_neg (not_lt.mpr h), halve_eq, Nat.zero_add]
  rfl

theorem slot_lt (ns : UInt64) : slot ns < kLinearMax + kLogBuckets := by
  rcases Nat.lt_or_ge ns.toNat kLinearMax with h | h
  · rw [slot_linear h]
    exact Nat.lt_add_right _ h
  · rw [slot_log h]
    have : kLogBuckets = 30 := rfl
    omega

theorem slot_lt_iff {ns : UInt64} (hi : i ≤ kLinearMax) : slot ns < i ↔ ns.toNat < i := by
  rcases Nat.lt_or_ge ns.toNat kLinearMax with h | h
  · rw [slot_linear h]
  · rw [slot_log h]
    omega

theorem log2_mono {m n : ℕ} (h : m ≤ n) : m.log2 ≤ n.log2 := by
  rw [Nat.log2_eq_log_two, Nat.log2_eq_log_two]
  exact Nat.log_mono_right h

theorem slot_mono {a b : UInt64} (h : a ≤ b) : slot a ≤ slot b := by
  have hab : a.toNat ≤ b.toNat := UInt64.le_iff_toNat_le.mp h
  rcases Nat.lt_or_ge a.toNat kLinearMax with ha | ha
  · rw [slot_linear ha]
    by_contra hlt
    exact absurd ((slot_lt_iff ha.le).mp (not_le.mp hlt)) (not_lt.mpr hab)
  · rw [slot_log ha, slot_log (ha.trans hab)]
    have := log2_mono hab
    omega

theorem toNat_edge_linear (h : i < kLinearMax) : (edge i).toNat = i := by
  unfold edge
  rw [if_pos h, UInt64.toNat_ofNat']
  unfold kLinearMax at h
  omega

theorem toNat_edge_log {b : ℕ} (h : b < kLogBuckets) : (edge (kLinearMax + b)).toNat = 2 ^ b := by
  have hb : b < 30 := h
  have hpow : 2 ^ b < 2 ^ 64 := Nat.pow_lt_pow_right (by decide) (by omega)
  unfold edge
  rw [if_neg (by omega), Nat.add_sub_cancel_left, UInt64.toNat_shiftLeft, UInt64.toNat_ofNat',
    show b % 2 ^ 64 % 64 = b by omega, UInt64.toNat_one, Nat.one_shiftLeft,
    Nat.mod_eq_of_lt hpow]

/-- A latency is reported exactly below `kLinearMax`, and never by more than itself. -/
theorem edge_slot_le (ns : UInt64) : (edge (slot ns)).toNat ≤ ns.toNat := by
  rcases Nat.lt_or_ge ns.toNat kLinearMax with h | h
  · rw [slot_linear h, toNat_edge_linear h]
  · have hpos : ns.toNat ≠ 0 := by
      unfold kLinearMax at h
      omega
    have hle : 2 ^ min 29 ns.toNat.log2 ≤ 2 ^ ns.toNat.log2 :=
      Nat.pow_le_pow_right (by decide) (min_le_right _ _)
    rw [slot_log h, toNat_edge_log (by unfold kLogBuckets; omega)]
    exact hle.trans (Nat.log2_self_le hpos)

/-- Up to `2 ^ 30` a latency is less than twice what is reported for it. -/
theorem lt_two_mul_edge_slot {ns : UInt64} (h : kLinearMax ≤ ns.toNat) (hlt : ns.toNat < 2 ^ 30) :
    ns.toNat < 2 * (edge (slot ns)).toNat := by
  have hpos : ns.toNat ≠ 0 := by
    unfold kLinearMax at h
    omega
  have hlog : ns.toNat.log2 < 30 := (Nat.log2_lt hpos).mpr hlt
  rw [slot_log h, toNat_edge_log (by unfold kLogBuckets; omega), min_eq_right (by omega),
    ← pow_succ']
  exact Nat.lt_log2_self

/-! ### The counters -/

/-- The number of latencies counted below slot `i`. -/
def tally (xs : List UInt64) (i : ℕ) : ℕ := xs.countP fun x => slot x < i

/-- The sum of the first `i` counters. -/
def sumTo (counts : ℕ → UInt64) : ℕ → UInt64
  | 0 => 0
  | i + 1 => sumTo counts i + counts i

theorem tally_succ (xs : List UInt64) (i : ℕ) :
    tally xs (i + 1) = tally xs i + xs.countP fun x => slot x = i := by
  unfold tally
  induction xs with
  | nil => rfl
  | cons x xs ih =>
    simp only [List.countP_cons, ih, decide_eq_true_eq]
    split_ifs <;> omega

theorem tally_last (xs : List UInt64) : tally xs (kLinearMax + kLogBuckets) = xs.length :=
  List.countP_eq_length.mpr fun x _ => decide_eq_true (slot_lt x)

/-! ### Recording -/

section Record

variable (h : LatencyHistogram) (ns : UInt64)

theorem record_linear (hi : i < kLinearMax) :
    (h.record ns).linear i = h.linear i + if slot ns = i then 1 else 0 := by
  unfold record
  rcases Nat.lt_or_ge ns.toNat kLinearMax with hns | hns
  · rw [slot_linear hns, if_pos hns]
    by_cases heq : ns.toNat = i
    · subst heq
      simp
    · simp [heq, Function.update_of_ne (Ne.symm heq)]
  · have hne : slot ns ≠ i := by
      rw [slot_log hns]
      omega
    rw [if_neg (not_lt.mpr hns), if_neg hne, UInt64.add_zero]

theorem record_log (b : ℕ) :
    (h.record ns).log b = h.log b + if slot ns = kLinearMax + b then 1 else 0 := by
  unfold record
  rcases Nat.lt_or_ge ns.toNat kLinearMax with hns | hns
  · have hne : slot ns ≠ kLinearMax + b := by
      rw [slot_linear hns]
      omega
    rw [if_pos hns, if_neg hne, UInt64.add_zero]
  · have hslot : slot ns = kLinearMax + halve (kLogBuckets - 1) ns 0 := if_neg (not_lt.mpr hns)
    rw [hslot, if_neg (not_lt.mpr hns)]
    by_cases heq : halve (kLogBuckets - 1) ns 0 = b
    · subst heq
      simp
    · simp [heq, Function.update_of_ne (Ne.symm heq)]

theorem record_total : (h.record ns).total = h.total + 1 := by
  unfold record
  split_ifs <;> rfl

theorem record_max : (h.record ns).max = if ns > h.max then ns else h.max := by
  unfold record
  by_cases hns : ns.toNat < kLinearMax
  · rw [if_pos hns]
  · rw [if_neg hns]

theorem le_record_max {x : UInt64} (hx : x ≤ h.max ∨ x = ns) : x ≤ (h.record ns).max := by
  rw [record_max]
  split_ifs with hgt
  · rcases hx with hx | rfl
    · exact UInt64.le_trans hx (UInt64.le_of_lt hgt)
    · exact UInt64.le_refl x
  · rcases hx with hx | rfl
    · exact hx
    · exact UInt64.not_lt.mp hgt

end Record

/-- Counting one more latency. -/
theorem ofNat_countP_cons (p : UInt64 → Bool) (x : UInt64) (xs : List UInt64) (n : UInt64) :
    n + UInt64.ofNat ((x :: xs).countP p) =
      n + (if p x = true then 1 else 0) + UInt64.ofNat (xs.countP p) := by
  rw [List.countP_cons, UInt64.ofNat_add, UInt64.add_comm (UInt64.ofNat _), UInt64.add_assoc]
  split_ifs <;> rfl

/-- The counters after more latencies. -/
theorem foldl_record (xs : List UInt64) (h : LatencyHistogram) :
    (∀ i < kLinearMax, (xs.foldl record h).linear i =
      h.linear i + UInt64.ofNat (xs.countP fun x => slot x = i)) ∧
    (∀ b, (xs.foldl record h).log b =
      h.log b + UInt64.ofNat (xs.countP fun x => slot x = kLinearMax + b)) ∧
    (xs.foldl record h).total = h.total + UInt64.ofNat xs.length ∧
    ∀ x, x ≤ h.max ∨ x ∈ xs → x ≤ (xs.foldl record h).max := by
  induction xs generalizing h with
  | nil => simp
  | cons ns xs ih =>
    obtain ⟨hlinear, hlog, htotal, hmax⟩ := ih (h.record ns)
    rw [List.foldl_cons]
    refine ⟨fun i hi => ?_, fun b => ?_, ?_, fun x hx => ?_⟩
    · rw [hlinear i hi, record_linear h ns hi, ofNat_countP_cons]
      simp only [decide_eq_true_eq]
    · rw [hlog b, record_log, ofNat_countP_cons]
      simp only [decide_eq_true_eq]
    · rw [htotal, record_total, List.length_cons, UInt64.ofNat_add, UInt64.add_assoc,
        UInt64.add_comm 1]
      rfl
    · apply hmax
      rcases hx with hx | hx
      · exact Or.inl (le_record_max h ns (Or.inl hx))
      · rcases List.mem_cons.mp hx with rfl | hx
        · exact Or.inl (le_record_max h x (Or.inr rfl))
        · exact Or.inr hx

theorem recorded_linear (xs : List UInt64) (hi : i < kLinearMax) :
    (recorded xs).linear i = UInt64.ofNat (xs.countP fun x => slot x = i) :=
  ((foldl_record xs new).1 i hi).trans (UInt64.zero_add _)

theorem recorded_log (xs : List UInt64) (b : ℕ) :
    (recorded xs).log b = UInt64.ofNat (xs.countP fun x => slot x = kLinearMax + b) :=
  ((foldl_record xs new).2.1 b).trans (UInt64.zero_add _)

theorem recorded_total (xs : List UInt64) : (recorded xs).total = UInt64.ofNat xs.length :=
  (foldl_record xs new).2.2.1.trans (UInt64.zero_add _)

theorem le_recorded_max {x : UInt64} (hx : x ∈ xs) : x ≤ (recorded xs).max :=
  (foldl_record xs new).2.2.2 x (Or.inr hx)

/-- The running sum of the linear counters. -/
theorem sumTo_linear (xs : List UInt64) (hi : i ≤ kLinearMax) :
    sumTo (recorded xs).linear i = UInt64.ofNat (tally xs i) := by
  induction i with
  | zero => simp [sumTo, tally]
  | succ i ih =>
    rw [sumTo, ih (Nat.le_of_succ_le hi), recorded_linear xs hi, tally_succ, UInt64.ofNat_add]

/-- The running sum of the logarithmic counters, which come after the linear ones. -/
theorem sumTo_log (xs : List UInt64) (b : ℕ) :
    UInt64.ofNat (tally xs kLinearMax) + sumTo (recorded xs).log b =
      UInt64.ofNat (tally xs (kLinearMax + b)) := by
  induction b with
  | zero => simp [sumTo]
  | succ b ih =>
    rw [sumTo, ← UInt64.add_assoc, ih, recorded_log, ← Nat.add_assoc, tally_succ,
      UInt64.ofNat_add]

/-! ### The search -/

/-- A loop finds the first counter at which the running sum reaches the threshold. -/
theorem scan_eq (counts : ℕ → UInt64) (t base : UInt64) (n i : ℕ) :
    (∃ j, i ≤ j ∧ j < i + n ∧ t ≤ base + sumTo counts (j + 1) ∧
      (∀ k, i ≤ k → k < j → ¬t ≤ base + sumTo counts (k + 1)) ∧
      scan counts t n i (base + sumTo counts i) = (some j, base + sumTo counts (j + 1))) ∨
    ((∀ k, i ≤ k → k < i + n → ¬t ≤ base + sumTo counts (k + 1)) ∧
      scan counts t n i (base + sumTo counts i) = (none, base + sumTo counts (i + n))) := by
  induction n generalizing i with
  | zero => exact Or.inr ⟨fun k hk hlt => absurd hlt (not_lt.mpr hk), rfl⟩
  | succ n ih =>
    have hsum : base + sumTo counts i + counts i = base + sumTo counts (i + 1) :=
      UInt64.add_assoc _ _ _
    rw [scan, hsum]
    by_cases hge : base + sumTo counts (i + 1) ≥ t
    · rw [if_pos hge]
      exact Or.inl ⟨i, le_rfl, by omega, hge, fun k hk hlt => absurd hlt (not_lt.mpr hk), rfl⟩
    · rw [if_neg hge]
      -- the counter does not reach the threshold, so that it may be added to the ones before
      have hcons : ∀ {k}, i ≤ k → (i + 1 ≤ k → ¬t ≤ base + sumTo counts (k + 1)) →
          ¬t ≤ base + sumTo counts (k + 1) := by
        intro k hk hnot
        rcases Nat.eq_or_lt_of_le hk with rfl | hlt
        · exact hge
        · exact hnot hlt
      rcases ih (i + 1) with ⟨j, hij, hj, hreach, hfirst, hscan⟩ | ⟨hnone, hscan⟩
      · exact Or.inl ⟨j, by omega, by omega, hreach,
          fun k hk hlt => hcons hk fun hk => hfirst k hk hlt, hscan⟩
      · refine Or.inr ⟨fun k hk hlt => hcons hk fun hk => hnone k hk (by omega), ?_⟩
        rw [hscan, Nat.succ_add, ← Nat.add_succ]

/-- Up to slot `i` the histogram has counted as many latencies as the threshold says. -/
def Reaches (xs : List UInt64) (t : UInt64) (i : ℕ) : Prop := t ≤ UInt64.ofNat (tally xs (i + 1))

/-- Slot `i` is the first one that reaches the threshold. -/
def First (xs : List UInt64) (t : UInt64) (i : ℕ) : Prop :=
  Reaches xs t i ∧ ∀ j < i, ¬Reaches xs t j

/-- **The search** returns the edge of the first slot that reaches the threshold. -/
theorem search_eq (ht : t ≤ (recorded xs).total) :
    ∃ i < kLinearMax + kLogBuckets, First xs t i ∧ (recorded xs).search t = some (edge i) := by
  have hlinear : ∀ k < kLinearMax,
      t ≤ 0 + sumTo (recorded xs).linear (k + 1) ↔ Reaches xs t k := by
    intro k hk
    rw [UInt64.zero_add, sumTo_linear xs hk]
    rfl
  have hlog : ∀ b, t ≤ UInt64.ofNat (tally xs kLinearMax) + sumTo (recorded xs).log (b + 1) ↔
      Reaches xs t (kLinearMax + b) := by
    intro b
    rw [sumTo_log]
    rfl
  unfold search
  rcases scan_eq (recorded xs).linear t 0 kLinearMax 0 with
    ⟨i, -, hi, hreach, hfirst, hscan⟩ | ⟨hnone, hscan⟩
  · change scan _ t kLinearMax 0 0 = _ at hscan
    rw [Nat.zero_add] at hi
    refine ⟨i, Nat.lt_add_right _ hi, ⟨(hlinear i hi).mp hreach, fun j hj hr => ?_⟩, ?_⟩
    · exact hfirst j (Nat.zero_le j) hj ((hlinear j (hj.trans hi)).mpr hr)
    · rw [hscan]
      unfold edge
      rw [if_pos hi]
  · change scan _ t kLinearMax 0 0 = _ at hscan
    rw [Nat.zero_add, UInt64.zero_add, sumTo_linear xs le_rfl] at hscan
    have hbelow : ∀ k < kLinearMax, ¬Reaches xs t k := fun k hk hr =>
      hnone k (Nat.zero_le k) (by rwa [Nat.zero_add]) ((hlinear k hk).mpr hr)
    rw [hscan]
    dsimp only
    have hbase : UInt64.ofNat (tally xs kLinearMax) + sumTo (recorded xs).log 0 =
        UInt64.ofNat (tally xs kLinearMax) := UInt64.add_zero _
    rcases scan_eq (recorded xs).log t (UInt64.ofNat (tally xs kLinearMax)) kLogBuckets 0 with
      ⟨b, -, hb, hreach, hfirst, hscan'⟩ | ⟨hnone', -⟩
    · rw [Nat.zero_add] at hb
      rw [hbase] at hscan'
      refine ⟨kLinearMax + b, Nat.add_lt_add_left hb _, ⟨(hlog b).mp hreach, fun j hj hr => ?_⟩, ?_⟩
      · rcases Nat.lt_or_ge j kLinearMax with hlt | hge
        · exact hbelow j hlt hr
        · obtain ⟨c, rfl⟩ := Nat.exists_eq_add_of_le hge
          exact hfirst c (Nat.zero_le c) (Nat.lt_of_add_lt_add_left hj) ((hlog c).mpr hr)
      · rw [hscan']
        unfold edge
        rw [if_neg (by omega), Nat.add_sub_cancel_left]
    · -- the last running sum is the total
      refine absurd ?_ (hnone' 29 (by decide) (by decide))
      rw [sumTo_log]
      show t ≤ UInt64.ofNat (tally xs (kLinearMax + kLogBuckets))
      rwa [tally_last, ← recorded_total]

theorem First.exists_mem (h : First xs t i) (ht : t ≠ 0) : ∃ x ∈ xs, slot x = i := by
  by_contra hnone
  have hzero : xs.countP (fun x => slot x = i) = 0 :=
    List.countP_eq_zero.mpr fun x hx => by simpa using fun heq => hnone ⟨x, hx, heq⟩
  have hreach := h.1
  unfold Reaches at hreach
  rw [tally_succ, hzero, Nat.add_zero] at hreach
  -- the slots before would have reached the threshold already
  cases i with
  | zero =>
    have htally : tally xs 0 = 0 := List.countP_eq_zero.mpr fun x _ => by simp
    rw [htally] at hreach
    exact ht (UInt64.le_zero_iff.mp hreach)
  | succ i => exact h.2 i (Nat.lt_succ_self i) hreach

/-- A higher threshold is reached no earlier. -/
theorem First.le {t' : UInt64} {i' : ℕ} (h : First xs t i) (h' : First xs t' i') (htt : t ≤ t') :
    i ≤ i' := by
  by_contra hlt
  exact h.2 i' (not_le.mp hlt) (UInt64.le_trans htt h'.1)

/-! ### Percentiles are monotone, except at the seam -/

/-- A higher percentile is not below a lower one, and not above the maximum. -/
structure Consistent (h : LatencyHistogram) (p q : ℚ) : Prop where
  le : h.percentile p ≤ h.percentile q
  le_max : h.percentile q ≤ h.max

/-- The number of latencies up to `v`, in the 64 bits of the counters. -/
def countUpTo (xs : List UInt64) (v : UInt64) : UInt64 := UInt64.ofNat (xs.countP (· ≤ v))

/-- The rank of the percentile `p`. -/
def rank (xs : List UInt64) (p : ℚ) : UInt64 :=
  UInt64.ofNat (1 ⊔ ⌊((xs.length % 2 ^ 64 : ℕ) : ℚ) * p⌋₊)

/-- The latency of rank `j` is below `kLinearMax`, but above `2 ^ 16`, and that of rank `k` is from
`kLinearMax` on, but below `2 ^ 17`. -/
structure CrossesSeam (xs : List UInt64) (j k : UInt64) : Prop where
  above : ∀ v ≤ 65536, countUpTo xs v < j
  linear : ∃ v < 100000, j ≤ countUpTo xs v
  log : ∀ v < 100000, countUpTo xs v < k
  below : k ≤ countUpTo xs 131071

theorem tally_linear {v : UInt64} (hv : v.toNat < kLinearMax) :
    tally xs (v.toNat + 1) = xs.countP (· ≤ v) := by
  refine List.countP_congr fun x _ => ?_
  rw [decide_eq_true_eq, decide_eq_true_eq, slot_lt_iff hv, Nat.lt_succ_iff,
    UInt64.le_iff_toNat_le]

/-- The first logarithmic slot in use ends at `2 ^ 17`. -/
theorem tally_seam : tally xs (kLinearMax + 16 + 1) = xs.countP (· ≤ 131071) := by
  refine List.countP_congr fun x _ => ?_
  rw [decide_eq_true_eq, decide_eq_true_eq, UInt64.le_iff_toNat_le,
    show (131071 : UInt64).toNat = 131071 from rfl]
  rcases Nat.lt_or_ge x.toNat kLinearMax with hx | hx
  · rw [slot_linear hx]
    unfold kLinearMax at *
    omega
  · have hpos : x.toNat ≠ 0 := by
      unfold kLinearMax at hx
      omega
    have hlog := Nat.log2_lt hpos (k := 17)
    rw [slot_log hx]
    omega

theorem reaches_linear {v : UInt64} (hv : v.toNat < kLinearMax) :
    Reaches xs t v.toNat ↔ t ≤ countUpTo xs v := by
  unfold Reaches countUpTo
  rw [tally_linear hv]

/-- The logarithmic slots before the 16th are not in use. -/
theorem First.ge_of_log (h : First xs t i) (ht : t ≠ 0) (hi : kLinearMax ≤ i) :
    kLinearMax + 16 ≤ i := by
  obtain ⟨x, -, rfl⟩ := h.exists_mem ht
  rcases Nat.lt_or_ge x.toNat kLinearMax with hx | hx
  · rw [slot_linear hx] at hi
    omega
  · have hpos : x.toNat ≠ 0 := by
      unfold kLinearMax at hx
      omega
    have hlog : 16 ≤ x.toNat.log2 := (Nat.le_log2 hpos).mpr (by unfold kLinearMax at hx; omega)
    rw [slot_log hx]
    omega

theorem crossesSeam_iff {t' : UInt64} {i' : ℕ} (h : First xs t i) (h' : First xs t' i')
    (ht' : t' ≠ 0) :
    CrossesSeam xs t t' ↔ 65536 < i ∧ i < kLinearMax ∧ i' = kLinearMax + 16 := by
  have hmax : kLinearMax = 100000 := rfl
  have hlt : ∀ {v : UInt64}, v < 100000 ↔ v.toNat < kLinearMax := UInt64.lt_iff_toNat_lt
  have hle : ∀ {v : UInt64}, v ≤ 65536 ↔ v.toNat ≤ 65536 := UInt64.le_iff_toNat_le
  -- the linear slot `k` as a latency
  have hnat : ∀ {k}, k < kLinearMax → (UInt64.ofNat k).toNat = k := fun hk => by
    rw [UInt64.toNat_ofNat']
    omega
  have hreach : ∀ {t k}, k < kLinearMax → Reaches xs t k → t ≤ countUpTo xs (UInt64.ofNat k) := by
    intro t k hk hr
    exact (reaches_linear (by rwa [hnat hk])).mp (by rwa [hnat hk])
  constructor
  · intro hs
    obtain ⟨v, hv, hjv⟩ := hs.linear
    have hi : i ≤ v.toNat := by
      by_contra hcon
      exact h.2 _ (not_le.mp hcon) ((reaches_linear (hlt.mp hv)).mpr hjv)
    have hlin : i < kLinearMax := hi.trans_lt (hlt.mp hv)
    refine ⟨?_, hlin, ?_⟩
    · by_contra hcon
      have := hs.above (UInt64.ofNat i) (hle.mpr (by rw [hnat hlin]; exact not_lt.mp hcon))
      exact UInt64.not_le.mpr this (hreach hlin h.1)
    · have hge : kLinearMax ≤ i' := by
        by_contra hcon
        have hlin' := not_le.mp hcon
        have := hs.log (UInt64.ofNat i') (hlt.mpr (by rwa [hnat hlin']))
        exact UInt64.not_le.mpr this (hreach hlin' h'.1)
      have hle' : i' ≤ kLinearMax + 16 := by
        by_contra hcon
        refine h'.2 _ (not_le.mp hcon) ?_
        unfold Reaches
        rw [tally_seam]
        exact hs.below
      exact Nat.le_antisymm hle' (h'.ge_of_log ht' hge)
  · rintro ⟨hi, hlin, rfl⟩
    refine ⟨fun v hv => UInt64.not_le.mp fun hcon => ?_, ⟨UInt64.ofNat i, ?_, hreach hlin h.1⟩,
      fun v hv => UInt64.not_le.mp fun hcon => ?_, ?_⟩
    · have hv := hle.mp hv
      exact h.2 v.toNat (by omega) ((reaches_linear (by omega)).mpr hcon)
    · exact hlt.mpr (by rwa [hnat hlin])
    · have hv := hlt.mp hv
      exact h'.2 v.toNat (by omega) ((reaches_linear hv).mpr hcon)
    · have hr := h'.1
      unfold Reaches at hr
      rwa [tally_seam] at hr

/-- Edges of two slots are in order, except across the seam. -/
theorem First.edge_le_iff {t' : UInt64} {i' : ℕ} (h : First xs t i) (h' : First xs t' i')
    (htt : t ≤ t') (ht' : t' ≠ 0) (hi' : i' < kLinearMax + kLogBuckets) :
    edge i ≤ edge i' ↔ ¬CrossesSeam xs t t' := by
  have hii := h.le h' htt
  rw [crossesSeam_iff h h' ht', UInt64.le_iff_toNat_le]
  rcases Nat.lt_or_ge i' kLinearMax with hlin' | hlog'
  · rw [toNat_edge_linear hlin', toNat_edge_linear (hii.trans_lt hlin')]
    exact iff_of_true hii fun hcon => by omega
  obtain ⟨b', rfl⟩ := Nat.exists_eq_add_of_le hlog'
  have hb' : b' < kLogBuckets := Nat.lt_of_add_lt_add_left hi'
  have hge' : 16 ≤ b' := Nat.le_of_add_le_add_left (h'.ge_of_log ht' hlog')
  rw [toNat_edge_log hb']
  rcases Nat.lt_or_ge i kLinearMax with hlin | hlog
  · have hmax : kLinearMax = 100000 := rfl
    rw [toNat_edge_linear hlin]
    rcases Nat.eq_or_lt_of_le hge' with rfl | hgt
    · -- the edge of the first logarithmic slot in use
      have : 2 ^ 16 = 65536 := rfl
      omega
    · have hpow : 2 ^ 17 ≤ 2 ^ b' := Nat.pow_le_pow_right (by decide) hgt
      exact iff_of_true (by omega) fun hcon => by omega
  · obtain ⟨b, rfl⟩ := Nat.exists_eq_add_of_le hlog
    have hbb : b ≤ b' := Nat.le_of_add_le_add_left hii
    rw [toNat_edge_log (hbb.trans_lt hb')]
    exact iff_of_true (Nat.pow_le_pow_right (by decide) hbb) fun hcon => by omega

section Rank

variable {p q : ℚ}

theorem floor_rank_le (xs : List UInt64) (hp : p ≤ 1) :
    ⌊((xs.length % 2 ^ 64 : ℕ) : ℚ) * p⌋₊ ≤ xs.length % 2 ^ 64 := by
  refine (Nat.floor_le_floor (mul_le_of_le_one_right (Nat.cast_nonneg _) hp)).trans ?_
  rw [Nat.floor_natCast]

theorem toNat_rank (xs : List UInt64) (hp : p ≤ 1) :
    (rank xs p).toNat = 1 ⊔ ⌊((xs.length % 2 ^ 64 : ℕ) : ℚ) * p⌋₊ := by
  have hle := floor_rank_le xs hp
  have hlt : xs.length % 2 ^ 64 < 2 ^ 64 := Nat.mod_lt _ (by decide)
  unfold rank
  rw [UInt64.toNat_ofNat', Nat.mod_eq_of_lt]
  omega

/-- The threshold of `percentile`. -/
theorem threshold_eq (hp : p ≤ 1) : (recorded xs).threshold p = rank xs p := by
  have hle := floor_rank_le xs hp
  have hlt : xs.length % 2 ^ 64 < 2 ^ 64 := Nat.mod_lt _ (by decide)
  have htotal : (recorded xs).total.toNat = xs.length % 2 ^ 64 := by
    rw [recorded_total, UInt64.toNat_ofNat']
  apply UInt64.toNat_inj.mp
  rw [toNat_rank xs hp]
  unfold threshold
  rw [htotal]
  generalize ⌊((xs.length % 2 ^ 64 : ℕ) : ℚ) * p⌋₊ = k at hle ⊢
  have hnat : (UInt64.ofNat k).toNat = k := by
    rw [UInt64.toNat_ofNat']
    exact Nat.mod_eq_of_lt (hle.trans_lt hlt)
  dsimp only
  split_ifs with hzero
  · rw [hzero] at hnat
    rw [← hnat]
    rfl
  · have hne : k ≠ 0 := fun hz => hzero (by rw [hz]; rfl)
    rw [hnat]
    omega

theorem rank_ne_zero (hp : p ≤ 1) : rank xs p ≠ 0 := by
  intro hz
  have := toNat_rank xs hp
  rw [hz] at this
  change 0 = _ at this
  omega

theorem rank_mono (xs : List UInt64) (hpq : p ≤ q) (hq : q ≤ 1) : rank xs p ≤ rank xs q := by
  rw [UInt64.le_iff_toNat_le, toNat_rank xs (hpq.trans hq), toNat_rank xs hq]
  apply max_le_max le_rfl
  apply Nat.floor_le_floor
  exact mul_le_mul_of_nonneg_left hpq (Nat.cast_nonneg _)

theorem rank_le_total (hp : p ≤ 1) (hne : (recorded xs).total ≠ 0) :
    rank xs p ≤ (recorded xs).total := by
  have hle := floor_rank_le xs hp
  have hpos : (recorded xs).total.toNat ≠ 0 := fun hz => hne (UInt64.toNat_inj.mp hz)
  rw [recorded_total, UInt64.toNat_ofNat'] at hpos
  rw [UInt64.le_iff_toNat_le, toNat_rank xs hp, recorded_total, UInt64.toNat_ofNat']
  omega

/-- What `percentile` returns: the edge of the first slot that reaches the rank. -/
theorem percentile_eq (hp : p ≤ 1) (hne : (recorded xs).total ≠ 0) :
    ∃ i < kLinearMax + kLogBuckets, First xs (rank xs p) i ∧
      (recorded xs).percentile p = edge i := by
  obtain ⟨i, hi, hfirst, hsearch⟩ := search_eq (rank_le_total hp hne)
  refine ⟨i, hi, hfirst, ?_⟩
  unfold percentile
  rw [if_neg hne, threshold_eq hp, hsearch]
  rfl

end Rank

/-- A percentile is not above the maximum. -/
theorem percentile_le_max (xs : List UInt64) {p : ℚ} (hp : p ≤ 1) :
    (recorded xs).percentile p ≤ (recorded xs).max := by
  by_cases hne : (recorded xs).total = 0
  · unfold percentile
    rw [if_pos hne]
    exact UInt64.zero_le
  · obtain ⟨i, -, hfirst, hval⟩ := percentile_eq hp hne
    obtain ⟨x, hx, rfl⟩ := hfirst.exists_mem (rank_ne_zero hp)
    rw [hval]
    exact UInt64.le_trans (UInt64.le_iff_toNat_le.mpr (edge_slot_le x)) (le_recorded_max hx)

theorem percentile_le_iff (xs : List UInt64) {p q : ℚ} (hpq : p ≤ q) (hq : q ≤ 1) :
    (recorded xs).percentile p ≤ (recorded xs).percentile q ↔
      ¬CrossesSeam xs (rank xs p) (rank xs q) := by
  have hrank := rank_mono xs hpq hq
  by_cases hne : (recorded xs).total = 0
  · -- both percentiles are reported as zero, and both ranks are one
    have hlen : xs.length % 2 ^ 64 = 0 := by
      have := congrArg UInt64.toNat hne
      rwa [recorded_total, UInt64.toNat_ofNat'] at this
    have heq : rank xs p = rank xs q := by
      unfold rank
      rw [hlen, Nat.cast_zero, zero_mul, zero_mul]
    refine iff_of_true ?_ fun hs => ?_
    · unfold percentile
      rw [if_pos hne, if_pos hne]
      exact UInt64.zero_le
    · obtain ⟨v, hv, hle⟩ := hs.linear
      have hlt := hs.log v hv
      rw [← heq] at hlt
      exact UInt64.not_le.mpr hlt hle
  · obtain ⟨i, hi, hfirst, hval⟩ := percentile_eq (hpq.trans hq) hne
    obtain ⟨i', hi', hfirst', hval'⟩ := percentile_eq hq hne
    rw [hval, hval']
    exact hfirst.edge_le_iff hfirst' hrank (rank_ne_zero hq) hi'

/-- **Percentiles are consistent** if and only if they do not cross the seam. -/
theorem percentile_consistent_iff (xs : List UInt64) {p q : ℚ} (hpq : p ≤ q) (hq : q ≤ 1) :
    Consistent (recorded xs) p q ↔ ¬CrossesSeam xs (rank xs p) (rank xs q) := by
  rw [← percentile_le_iff xs hpq hq]
  exact ⟨Consistent.le, fun hle => ⟨hle, percentile_le_max xs hq⟩⟩

/-- Latencies below `kLinearMax` and above it. -/
def mixedLatencies : List UInt64 := [250000, 7, 99999, 40000, 100000, 7, 1048576]

/-- The ranks of the two percentiles are 3 and 6. -/
theorem mixed_percentile_consistent_iff :
    (rank mixedLatencies (1 / 2) = 3 ∧ rank mixedLatencies (9 / 10) = 6) ∧
      (Consistent (recorded mixedLatencies) (1 / 2) (9 / 10) ↔
        ¬CrossesSeam mixedLatencies (rank mixedLatencies (1 / 2))
          (rank mixedLatencies (9 / 10))) := by
  refine ⟨?_, percentile_consistent_iff mixedLatencies (by norm_num) (by norm_num)⟩
  have hmedian : ⌊(7 / 2 : ℚ)⌋₊ = 3 := (Nat.floor_eq_iff (by norm_num)).mpr (by norm_num)
  have hhigh : ⌊(63 / 10 : ℚ)⌋₊ = 6 := (Nat.floor_eq_iff (by norm_num)).mpr (by norm_num)
  have hlen : mixedLatencies.length = 7 := rfl
  unfold rank
  rw [hlen]
  norm_num [hmedian, hhigh]
  decide

/-- Of two latencies around `kLinearMax` the lower one is reported for the median, and a lower
value for the maximum. -/
theorem seam_not_consistent :
    ¬∀ (xs : List UInt64) (p q : ℚ), 0 ≤ p → p ≤ q → q ≤ 1 → Consistent (recorded xs) p q := by
  intro hall
  have hle := (hall [99999, 100000] (1 / 2) 1 (by norm_num) (by norm_num) le_rfl).le
  refine (percentile_le_iff _ (by norm_num) le_rfl).mp hle ?_
  have hp : rank [99999, 100000] (1 / 2) = 1 := by
    unfold rank
    norm_num
  have hq : rank [99999, 100000] 1 = 2 := by
    unfold rank
    norm_num
    rfl
  rw [hp, hq]
  refine ⟨fun v hv => ?_, ⟨99999, by decide, by decide⟩, fun v hv => ?_, by decide⟩
  · have h1 : ¬99999 ≤ v := fun hcon => by
      have := UInt64.le_trans hcon hv
      exact absurd this (by decide)
    have h2 : ¬100000 ≤ v := fun hcon => by
      have := UInt64.le_trans hcon hv
      exact absurd this (by decide)
    simp [countUpTo, h1, h2]
  · have h2 : ¬100000 ≤ v := UInt64.not_le.mpr hv
    by_cases h1 : 99999 ≤ v
    · simp [countUpTo, h1, h2]
    · simp [countUpTo, h1, h2]

/-! ### Percentiles are accurate -/

/-- The `k`-th smallest of the latencies, counted from 1. -/
def kthSmallest (xs : List UInt64) (k : ℕ) : Option UInt64 := (xs.mergeSort (· ≤ ·))[k - 1]?

/-- Fewer than `k` latencies are below the `k`-th smallest one, and `k` or more up to it. -/
theorem kthSmallest_spec {k : ℕ} {s : UInt64} (hk : 1 ≤ k) (hs : kthSmallest xs k = some s) :
    xs.countP (· < s) < k ∧ k ≤ xs.countP (· ≤ s) := by
  have hperm : (xs.mergeSort (· ≤ ·)).Perm xs := List.mergeSort_perm _ _
  have hsorted : (xs.mergeSort (· ≤ ·)).Pairwise fun a b => decide (a ≤ b) = true := by
    apply List.pairwise_mergeSort
    · intro a b c hab hbc
      simp only [decide_eq_true_eq] at *
      exact UInt64.le_trans hab hbc
    · intro a b
      simp only [Bool.or_eq_true, decide_eq_true_eq]
      exact UInt64.le_total a b
  rw [← hperm.countP_eq, ← hperm.countP_eq]
  unfold kthSmallest at hs
  obtain ⟨hlt, hget⟩ := List.getElem?_eq_some_iff.mp hs
  generalize xs.mergeSort (· ≤ ·) = l at *
  -- the latencies before the `k`-th are no greater than it, and those after it no smaller
  have hsplit : l = l.take (k - 1) ++ s :: l.drop k := by
    have hdrop := List.drop_eq_getElem_cons hlt
    rw [hget, Nat.sub_add_cancel hk] at hdrop
    rw [← hdrop, List.take_append_drop]
  have hlen : (l.take (k - 1)).length = k - 1 := List.length_take_of_le hlt.le
  rw [hsplit] at hsorted ⊢
  obtain ⟨-, hafter, hbefore⟩ := List.pairwise_append.mp hsorted
  have hge : ∀ x ∈ s :: l.drop k, s ≤ x := by
    intro x hx
    rcases List.mem_cons.mp hx with rfl | hx
    · exact UInt64.le_refl x
    · exact of_decide_eq_true ((List.pairwise_cons.mp hafter).1 x hx)
  have hle : ∀ x ∈ l.take (k - 1), x ≤ s := fun x hx =>
    of_decide_eq_true (hbefore x hx s List.mem_cons_self)
  constructor
  · have hzero : (s :: l.drop k).countP (· < s) = 0 :=
      List.countP_eq_zero.mpr fun x hx => by simpa using hge x hx
    have := List.countP_le_length (p := (· < s)) (l := l.take (k - 1))
    rw [List.countP_append, hzero]
    omega
  · have hall : (l.take (k - 1)).countP (· ≤ s) = k - 1 :=
      (List.countP_eq_length.mpr fun x hx => decide_eq_true (hle x hx)).trans hlen
    rw [List.countP_append, hall, List.countP_cons_of_pos (by simp)]
    omega

/-- The latencies in slots before that of the `k`-th smallest one are fewer than `k`, and with its
own slot they are not. -/
theorem kthSmallest_slot {k : ℕ} {s : UInt64} (hk : 1 ≤ k) (hs : kthSmallest xs k = some s) :
    k ≤ tally xs (slot s + 1) ∧ ∀ j < slot s, tally xs (j + 1) < k := by
  obtain ⟨hbelow, hupto⟩ := kthSmallest_spec hk hs
  constructor
  · refine hupto.trans (List.countP_mono_left fun x _ hx => ?_)
    simp only [decide_eq_true_eq] at hx ⊢
    exact Nat.lt_succ_of_le (slot_mono hx)
  · intro j hj
    refine (List.countP_mono_left fun x _ hx => ?_).trans_lt hbelow
    simp only [decide_eq_true_eq] at hx ⊢
    by_contra hcon
    have hle := slot_mono (UInt64.not_lt.mp hcon)
    omega

/-- What the counters and the search say about the latencies.  A threshold `k` is reported as the
`k`-th smallest one, up to the resolution of the counters, and never by `return max_`. -/
structure Accurate (xs : List UInt64) : Prop where
  counted : ((List.range kLinearMax).map fun i => ((recorded xs).linear i).toNat).sum +
    ((List.range kLogBuckets).map fun b => ((recorded xs).log b).toNat).sum = xs.length
  reported : ∀ k s, 1 ≤ k → k ≤ (recorded xs).total.toNat → kthSmallest xs k = some s →
    ∃ v, (recorded xs).search (UInt64.ofNat k) = some v ∧
      (s < 100000 → v = s) ∧ v ≤ s ∧
      (100000 ≤ s → s.toNat < 2 ^ 30 → s.toNat < 2 * v.toNat)

theorem sum_counters (hlen : xs.length < 2 ^ 64) (counts : ℕ → UInt64) (base : ℕ) {n : ℕ}
    (h : ∀ i < n, counts i = UInt64.ofNat (xs.countP fun x => slot x = base + i)) :
    tally xs base + ((List.range n).map fun i => (counts i).toNat).sum = tally xs (base + n) := by
  induction n with
  | zero => simp
  | succ n ih =>
    have hle : (xs.countP fun x => slot x = base + n) ≤ xs.length := List.countP_le_length
    rw [List.range_succ, List.map_append, List.sum_append, ← Nat.add_assoc,
      ih fun i hi => h i (Nat.lt_succ_of_lt hi), ← Nat.add_assoc, tally_succ, List.map_singleton,
      List.sum_singleton, h n (Nat.lt_succ_self n), UInt64.toNat_ofNat',
      Nat.mod_eq_of_lt (hle.trans_lt hlen)]

/-- **The reported values are accurate** as long as the counters do not wrap around. -/
theorem search_accurate (hlen : xs.length < 2 ^ 64) : Accurate xs := by
  have hsmall : ∀ n ≤ xs.length, (UInt64.ofNat n).toNat = n := fun n hn => by
    rw [UInt64.toNat_ofNat', Nat.mod_eq_of_lt (hn.trans_lt hlen)]
  have htotal : (recorded xs).total.toNat = xs.length := by
    rw [recorded_total, hsmall _ le_rfl]
  constructor
  · have hlinear := sum_counters hlen (recorded xs).linear 0 fun i (hi : i < kLinearMax) => by
      rw [Nat.zero_add, recorded_linear xs hi]
    have hlog := sum_counters hlen (recorded xs).log kLinearMax
      fun b (_ : b < kLogBuckets) => recorded_log xs b
    have hzero : tally xs 0 = 0 := List.countP_eq_zero.mpr fun x _ => by simp
    rw [hzero, Nat.zero_add, Nat.zero_add] at hlinear
    rw [hlinear, hlog, tally_last]
  · intro k s hk hkt hs
    rw [htotal] at hkt
    obtain ⟨hreach, hbefore⟩ := kthSmallest_slot hk hs
    have hk' : UInt64.ofNat k ≤ (recorded xs).total := by
      rw [UInt64.le_iff_toNat_le, hsmall k hkt, htotal]
      exact hkt
    obtain ⟨i, -, hfirst, hsearch⟩ := search_eq hk'
    have hreaches : ∀ j, Reaches xs (UInt64.ofNat k) j ↔ k ≤ tally xs (j + 1) := by
      intro j
      unfold Reaches
      rw [UInt64.le_iff_toNat_le, hsmall k hkt, hsmall (tally xs (j + 1)) List.countP_le_length]
    -- the first slot that reaches `k` is that of the `k`-th smallest latency
    obtain rfl : i = slot s := by
      rcases Nat.lt_trichotomy i (slot s) with hlt | heq | hgt
      · exact absurd ((hreaches i).mp hfirst.1) (not_le.mpr (hbefore i hlt))
      · exact heq
      · exact absurd ((hreaches _).mpr hreach) (hfirst.2 _ hgt)
    refine ⟨_, hsearch, fun hlt => ?_, UInt64.le_iff_toNat_le.mpr (edge_slot_le s),
      fun hge => lt_two_mul_edge_slot (UInt64.le_iff_toNat_le.mp hge)⟩
    have hlin : s.toNat < kLinearMax := UInt64.lt_iff_toNat_lt.mp hlt
    apply UInt64.toNat_inj.mp
    rw [slot_linear hlin, toNat_edge_linear hlin]

theorem mixed_search_accurate : Accurate mixedLatencies := search_accurate (by decide)

/-- After `2 ^ 64` zeros the counter of zero is zero, and one more latency is reported as the
smallest of all. -/
theorem wrapped_not_accurate : ¬∀ xs : List UInt64, xs ≠ [] → Accurate xs := by
  intro hall
  obtain ⟨n, hn⟩ : ∃ n : ℕ, n = 2 ^ 64 := ⟨_, rfl⟩
  set xs : List UInt64 := List.replicate n 0 ++ [5] with hxs
  have htotal : (recorded xs).total = 1 := by
    rw [recorded_total, hxs, List.length_append, List.length_replicate, hn]
    rfl
  have hzero : (0 : UInt64) ∈ xs :=
    List.mem_append_left _ (List.mem_replicate.mpr ⟨by omega, rfl⟩)
  -- the smallest latency is zero
  have hpos : 0 < (xs.mergeSort (· ≤ ·)).length := by
    rw [List.length_mergeSort]
    exact List.length_pos_of_mem hzero
  have hs : kthSmallest xs 1 = some (xs.mergeSort (· ≤ ·))[0] := List.getElem?_eq_getElem hpos
  have hmin : (xs.mergeSort (· ≤ ·))[0] = 0 := by
    have hlt := (kthSmallest_spec le_rfl hs).1
    by_contra hne
    have hcount := List.countP_eq_zero.mp (Nat.lt_one_iff.mp hlt) 0 hzero
    exact hcount (decide_eq_true (UInt64.pos_iff_ne_zero.mpr hne))
  rw [hmin] at hs
  have hk : 1 ≤ (recorded xs).total.toNat := by
    rw [htotal]
    rfl
  obtain ⟨v, hv, heq, -, -⟩ :=
    (hall xs (List.ne_nil_of_mem hzero)).reported 1 0 le_rfl hk hs
  obtain rfl := heq (by decide)
  -- but slot 0 does not reach the threshold
  have hle : UInt64.ofNat 1 ≤ (recorded xs).total := by
    rw [htotal]
    exact UInt64.le_refl 1
  obtain ⟨i, -, hfirst, hsearch⟩ := search_eq hle
  have hedge : edge i = 0 := Option.some.inj (hsearch.symm.trans hv)
  obtain ⟨x, hx, rfl⟩ := hfirst.exists_mem (by decide)
  have hslot : slot 0 = 0 ∧ slot 5 = 5 := ⟨by decide, by decide⟩
  rcases List.mem_append.mp hx with hx | hx
  · rw [List.eq_of_mem_replicate hx, hslot.1] at hfirst
    have hreach := hfirst.1
    have htally : tally xs 1 = n := by
      rw [hxs]
      unfold tally
      rw [List.countP_append, List.countP_replicate]
      simp [hslot]
    unfold Reaches at hreach
    rw [htally, hn] at hreach
    exact absurd hreach (by decide)
  · rw [List.mem_singleton.mp hx, hslot.2] at hedge
    exact absurd hedge (by decide)

end Lob.LatencyHistogram
