import Lob.Equiv.Histogram
import Lob.Equiv.Snapshot

/-!
# The files with the latencies

The counters of a histogram survive the way through the file (`load_writeCsv`), and what
`plot_latency.py` reports of them is the latency of the rank that is asked for, up to the resolution
of the counters (`plotted`).  The files of a replay have one latency for each call on the book
(`main_latencies`).
-/

namespace Lob

open LatencyHistogram PlotLatency

/-! ### Reading what was written -/

/-- A counter as a row of the file. -/
def csvRow (x : ℕ × ℕ) : List (List Char) := [Csv.natural x.1, Csv.natural x.2]

theorem readRow_csvRow (x : ℕ × ℕ) : readRow (csvRow x) = some x := by
  unfold csvRow readRow
  simp only [Csv.natural?_natural]
  rfl

theorem plain_csvRow (x : ℕ × ℕ) : ∀ f ∈ csvRow x, Csv.Plain f := by
  unfold csvRow
  simp only [List.forall_mem_cons]
  exact ⟨Csv.plain_natural _, Csv.plain_natural _, nofun⟩

def csvHeader : List (List Char) := ["ns".toList, "count".toList]

theorem writeCsv_eq (h : LatencyHistogram) :
    h.writeCsv = Csv.write (csvHeader :: h.csvLines.map csvRow) := by
  have hheader : "ns,count\n".toList = Csv.row csvHeader := by decide
  unfold writeCsv Csv.write
  rw [hheader, List.flatMap_cons]
  rfl

/-- **The counters survive the file.** -/
theorem load_writeCsv (h : LatencyHistogram) : load h.writeCsv = some h.csvLines := by
  have hread : Csv.read h.writeCsv = csvHeader :: h.csvLines.map csvRow := by
    rw [writeCsv_eq]
    refine Csv.read_write fun r hr => ?_
    rcases List.mem_cons.mp hr with rfl | hr
    · exact ⟨by decide, by decide⟩
    · obtain ⟨x, -, rfl⟩ := List.mem_map.mp hr
      exact ⟨List.cons_ne_nil _ _, plain_csvRow x⟩
  have hall : ∀ r ∈ h.csvLines.map csvRow, decide (r.length = 2) = true := fun r hr => by
    obtain ⟨x, -, rfl⟩ := List.mem_map.mp hr
    rfl
  unfold load
  rw [hread, List.drop_succ_cons, List.drop_zero, List.filter_eq_self.mpr hall]
  have hlines := Csv.mapM_map readRow_csvRow h.csvLines
  rwa [List.map_id'] at hlines

/-! ### The counters -/

section Counters

variable {xs : List UInt64} {i n : ℕ}

/-- How many of the latencies are counted in slot `i`. -/
def counter (xs : List UInt64) (i : ℕ) : ℕ := xs.countP fun x => slot x = i

/-- The slots with latencies among the `n` slots from `i` on, as rows. -/
def slotRows (xs : List UInt64) (i n : ℕ) : List (ℕ × ℕ) :=
  ((List.range' i n).filter fun j => counter xs j ≠ 0).map fun j =>
    ((edge j).toNat, counter xs j)

theorem toNat_counter (hlen : xs.length < 2 ^ 64) (i : ℕ) :
    (UInt64.ofNat (counter xs i)).toNat = counter xs i := by
  have hle : counter xs i ≤ xs.length := List.countP_le_length
  rw [UInt64.toNat_ofNat', Nat.mod_eq_of_lt (hle.trans_lt hlen)]

theorem ofNat_counter_ne (hlen : xs.length < 2 ^ 64) (i : ℕ) :
    UInt64.ofNat (counter xs i) ≠ 0 ↔ counter xs i ≠ 0 := by
  have hcounter := toNat_counter hlen i
  refine not_congr ⟨fun h => ?_, fun h => by rw [h]; rfl⟩
  rw [h] at hcounter
  exact hcounter.symm

theorem slotRows_append (xs : List UInt64) (i m n : ℕ) :
    slotRows xs i (m + n) = slotRows xs i m ++ slotRows xs (i + m) n := by
  unfold slotRows
  rw [← List.range'_append_1, List.filter_append, List.map_append]

/-- The counters that are not zero, as rows. -/
theorem rows_eq (hlen : xs.length < 2 ^ 64) (counts : ℕ → UInt64) (e : ℕ → ℕ) (base n : ℕ)
    (hcounts : ∀ j < n, counts j = UInt64.ofNat (counter xs (base + j)))
    (hedge : ∀ j < n, (edge (base + j)).toNat = e j) :
    (((List.range n).filter fun j => counts j ≠ 0).map fun j => (e j, (counts j).toNat)) =
      slotRows xs base n := by
  unfold slotRows
  rw [List.range'_eq_map_range, List.filter_map, List.map_map]
  have hfilter : ((List.range n).filter fun j => counts j ≠ 0) =
      (List.range n).filter ((fun j => decide (counter xs j ≠ 0)) ∘ (base + ·)) := by
    refine List.filter_congr fun j hj => ?_
    rw [hcounts j (List.mem_range.mp hj)]
    exact decide_eq_decide.mpr (ofNat_counter_ne hlen _)
  rw [hfilter]
  refine List.map_congr_left fun j hj => ?_
  have hj := List.mem_range.mp (List.mem_of_mem_filter hj)
  rw [hcounts j hj, toNat_counter hlen, ← hedge j hj]
  rfl

/-- The rows of the file are the slots with latencies. -/
theorem csvLines_recorded (hlen : xs.length < 2 ^ 64) :
    (recorded xs).csvLines = slotRows xs 0 (kLinearMax + kLogBuckets) := by
  have hlinear := rows_eq hlen (recorded xs).linear (fun i => i) 0 kLinearMax
    (fun j hj => by rw [Nat.zero_add]; exact recorded_linear xs hj)
    (fun j hj => by rw [Nat.zero_add]; exact toNat_edge_linear hj)
  have hlog := rows_eq hlen (recorded xs).log (fun b => 1 <<< b) kLinearMax kLogBuckets
    (fun b _ => recorded_log xs b)
    (fun b hb => (toNat_edge_log hb).trans (Nat.one_shiftLeft b).symm)
  unfold csvLines
  rw [slotRows_append, Nat.zero_add]
  exact congrArg₂ (· ++ ·) hlinear hlog

theorem slotRows_one (xs : List UInt64) (i : ℕ) :
    slotRows xs i 1 = if counter xs i = 0 then [] else [((edge i).toNat, counter xs i)] := by
  unfold slotRows
  by_cases h : counter xs i = 0 <;> simp [h]

theorem sum_slotRows (xs : List UInt64) (i n : ℕ) :
    tally xs i + ((slotRows xs i n).map Prod.snd).sum = tally xs (i + n) := by
  induction n with
  | zero => rfl
  | succ n ih =>
    have hone : ((slotRows xs (i + n) 1).map Prod.snd).sum = counter xs (i + n) := by
      rw [slotRows_one]
      split_ifs with h
      · exact h.symm
      · rfl
    rw [slotRows_append, List.map_append, List.sum_append, hone, ← Nat.add_assoc, ih]
    exact (tally_succ xs (i + n)).symm

/-- **The loop of the script** returns the edge of the first slot with latencies that reaches the
target. -/
theorem scan_slotRows {target : ℚ} {j : ℕ} (hij : i ≤ j) (hj : j < i + n)
    (hpos : counter xs j ≠ 0) (hreach : target ≤ tally xs (j + 1))
    (hbefore : ∀ k < j, counter xs k ≠ 0 → (tally xs (k + 1) : ℚ) < target) :
    scan target (slotRows xs i n) (tally xs i) = some (edge j).toNat := by
  induction n generalizing i with
  | zero => exact absurd hj (not_lt.mpr hij)
  | succ n ih =>
    have hsum : tally xs i + counter xs i = tally xs (i + 1) := (tally_succ xs i).symm
    rw [Nat.add_comm n 1, slotRows_append, slotRows_one]
    rcases Nat.eq_or_lt_of_le hij with rfl | hlt
    · rw [if_neg hpos]
      show (if _ then _ else _) = _
      rw [hsum, if_pos hreach]
    · have hlater := ih hlt (by omega)
      split_ifs with hzero
      · -- a slot without latencies has no row
        rw [hzero, Nat.add_zero] at hsum
        rw [List.nil_append, hsum]
        exact hlater
      · show (if _ then _ else _) = _
        rw [hsum, if_neg (not_le.mpr (hbefore i hlt hzero))]
        exact hlater

theorem tally_zero (xs : List UInt64) : tally xs 0 = 0 :=
  List.countP_eq_zero.mpr fun x _ => by simp

theorem counter_ne_zero {s : UInt64} (hs : s ∈ xs) : counter xs (slot s) ≠ 0 := fun hzero =>
  List.countP_eq_zero.mp hzero s hs (decide_eq_true rfl)

theorem mem_of_kthSmallest {k : ℕ} {s : UInt64} (hs : kthSmallest xs k = some s) : s ∈ xs :=
  (List.mergeSort_perm xs _).mem_iff.mp (List.mem_of_getElem? hs)

theorem sum_allRows (xs : List UInt64) :
    ((slotRows xs 0 (kLinearMax + kLogBuckets)).map Prod.snd).sum = xs.length := by
  have hsum := sum_slotRows xs 0 (kLinearMax + kLogBuckets)
  rwa [tally_zero, Nat.zero_add, Nat.zero_add, tally_last] at hsum

theorem percentile_slotRows {p : ℚ} {s : UInt64}
    (hs : kthSmallest xs (max 1 ⌈(xs.length : ℚ) * p⌉₊) = some s) :
    PlotLatency.percentile (slotRows xs 0 (kLinearMax + kLogBuckets)) p =
      (edge (slot s)).toNat := by
  obtain ⟨hreach, hbefore⟩ := kthSmallest_slot (le_max_left _ _) hs
  have hmem := mem_of_kthSmallest hs
  have htarget : (xs.length : ℚ) * p ≤ tally xs (slot s + 1) :=
    (Nat.le_ceil _).trans (Nat.cast_le.mpr ((le_max_right 1 _).trans hreach))
  have hfirst : ∀ k < slot s, counter xs k ≠ 0 → (tally xs (k + 1) : ℚ) < xs.length * p := by
    intro k hk hpos
    have hone : 1 ≤ tally xs (k + 1) := by
      rw [tally_succ]
      exact (Nat.one_le_iff_ne_zero.mpr hpos).trans (Nat.le_add_left _ _)
    exact Nat.lt_ceil.mp ((lt_max_iff.mp (hbefore k hk)).resolve_left (not_lt.mpr hone))
  have hscan : scan (xs.length * p) (slotRows xs 0 (kLinearMax + kLogBuckets)) (tally xs 0) =
      some (edge (slot s)).toNat :=
    scan_slotRows (Nat.zero_le _) (by rw [Nat.zero_add]; exact slot_lt s) (counter_ne_zero hmem)
      htarget hfirst
  rw [tally_zero] at hscan
  unfold PlotLatency.percentile
  dsimp only
  rw [sum_allRows, if_neg (List.length_pos_of_mem hmem).ne', hscan]
  rfl

/-- What the file has of the latencies, and what the script makes of it: a row for each slot with
latencies, as many counts as latencies, and as a percentile the lower edge of the slot of the
latency that has the rank. -/
structure Plotted (xs : List UInt64) (rows : List (ℕ × ℕ)) : Prop where
  loads : load (recorded xs).writeCsv = some rows
  rows_eq : rows = slotRows xs 0 (kLinearMax + kLogBuckets)
  sum_eq : (rows.map Prod.snd).sum = xs.length
  percentile_eq : ∀ p s, kthSmallest xs (max 1 ⌈(xs.length : ℚ) * p⌉₊) = some s →
    PlotLatency.percentile rows p = (edge (slot s)).toNat

theorem slotRows_plotted (hlen : xs.length < 2 ^ 64) :
    Plotted xs (slotRows xs 0 (kLinearMax + kLogBuckets)) := by
  refine ⟨?_, rfl, sum_allRows xs, fun p s hs => percentile_slotRows hs⟩
  rw [load_writeCsv, csvLines_recorded hlen]

/-- **The script plots what was recorded**, as long as the counters do not wrap around. -/
theorem plotted (hlen : xs.length < 2 ^ 64) : ∃ rows, Plotted xs rows :=
  ⟨_, slotRows_plotted hlen⟩

theorem mixed_plotted : ∃ rows, Plotted mixedLatencies rows := plotted (by decide)

end Counters

/-! ### The files of a replay -/

theorem length_logged (clock : ℕ → UInt64) (log : List Call) (op : Timed) :
    (logged clock log op).length = (log.map Call.timed).count op := by
  induction log using List.reverseRecOn with
  | nil => rfl
  | append_singleton log c ih =>
    rw [logged_concat, List.length_append, ih, List.map_append, List.count_append,
      List.map_singleton, List.count_singleton]
    by_cases h : c.timed = op <;> simp [h]

section Program

variable {M : Type} [IdMap M] {args : Args} {file : MappedFile} {clock : ℕ → UInt64}

/-- **A file with latencies** is that of as many as the handler has counted calls. -/
theorem main_latencies {out : Output M} (hmain : main args file clock = .ok out)
    {f : Timed → List Char} (hf : out.latencies = some f) {op : Timed}
    (hcalls : out.final.handler.calls op < 2 ^ 64) :
    ∃ xs rows, f op = (recorded xs).writeCsv ∧ Plotted xs rows ∧ load (f op) = some rows ∧
      xs.length = out.final.handler.calls op := by
  have hsize : file.size ≠ 0 := by
    intro hzero
    unfold main at hmain
    rw [if_pos hzero] at hmain
    cases hmain
  cases hrun : ((args.handler : ReplayHandler M).replay file.calls).run [] with
  | error e trades =>
    rw [main_of_error args file clock hsize hrun] at hmain
    cases hmain
  | ok h trades =>
    obtain ⟨out', hmain', -, hwritten⟩ := main_of_ok args file clock hsize hrun
    rw [hmain'] at hmain
    split_ifs at hmain
    obtain rfl := Except.ok.inj hmain
    rw [hwritten.latencies_eq] at hf
    split_ifs at hf
    obtain rfl := Option.some.inj hf
    have hlen := length_logged clock ((args.handler : ReplayHandler M).made [] file.calls) op
    rw [hwritten.count_eq, ← hwritten.handler_eq] at hlen
    have hplotted := slotRows_plotted (hlen ▸ hcalls)
    exact ⟨_, _, rfl, hplotted, hplotted.loads, hlen⟩

end Program

theorem sampleFile_latencies :
    ∃ (out : Output (OrderIdMap Ptr)) (f : Timed → List Char),
      main sampleArgs sampleMapped (fun k => UInt64.ofNat (k * k)) = .ok out ∧
      out.latencies = some f ∧ ∃ xs rows, f .submit = (recorded xs).writeCsv ∧ Plotted xs rows ∧
        load (f .submit) = some rows ∧ xs.length = out.final.handler.calls .submit := by
  have hread := sampleFile_tapeFile.readable
  obtain ⟨h, hrun, hcalls⟩ : ∃ h, ((sampleArgs.handler : ReplayHandler (OrderIdMap Ptr)).replay
      sampleMapped.calls).run [] = .ok h [] ∧ h.calls .submit = 2 := by
    rw [MappedFile.calls_eq hread, sampleFile_tapeFile.parse.1]
    exact ⟨_, rfl, rfl⟩
  obtain ⟨out, hmain, -, hwritten⟩ :=
    main_of_ok sampleArgs sampleMapped (fun k => UInt64.ofNat (k * k)) (by decide) hrun
  rw [if_pos hread] at hmain
  refine ⟨out, _, hmain, hwritten.latencies_eq, main_latencies hmain hwritten.latencies_eq ?_⟩
  rw [hwritten.handler_eq, hcalls]
  decide

end Lob
