import Lob.General.Csv
import Lob.Types
import Mathlib.Algebra.Order.Floor.Semiring
import Mathlib.Data.Rat.Floor
import Mathlib.Logic.Function.Basic

/-!
# `LatencyHistogram`

The latency histogram of `histogram.hpp`: one counter for each nanosecond below `kLinearMax`, and
above that one for each power of two.  The counters are 64-bit words.  The product of `percentile`,
a `double` in the source, is exact here.  `PlotLatency` reads the file that the histogram writes.
-/

namespace Lob

structure LatencyHistogram where
  linear : ℕ → UInt64
  log : ℕ → UInt64
  total : UInt64
  max : UInt64
  sumNs : UInt64

namespace LatencyHistogram

def kLinearMax : ℕ := 100000
def kLogBuckets : ℕ := 30

def new : LatencyHistogram where
  linear := fun _ => 0
  log := fun _ => 0
  total := 0
  max := 0
  sumNs := 0

/-- The halving loop of `record`.  The first argument is `kLogBuckets - 1 - bucket`. -/
def halve : ℕ → UInt64 → ℕ → ℕ
  | 0, _, bucket => bucket
  | n + 1, v, bucket => if v > 1 then halve n (v >>> 1) (bucket + 1) else bucket

def record (h : LatencyHistogram) (ns : UInt64) : LatencyHistogram :=
  let h :=
    if ns.toNat < kLinearMax then
      { h with linear := Function.update h.linear ns.toNat (h.linear ns.toNat + 1) }
    else
      let bucket := halve (kLogBuckets - 1) ns 0
      { h with log := Function.update h.log bucket (h.log bucket + 1) }
  { h with
    total := h.total + 1
    max := if ns > h.max then ns else h.max
    sumNs := h.sumNs + ns }

/-- A loop of `percentile`: the first of the next `n` counters with which the running sum reaches
the threshold, if there is one, and the running sum after it. -/
def scan (counts : ℕ → UInt64) (threshold : UInt64) : ℕ → ℕ → UInt64 → Option ℕ × UInt64
  | 0, _, running => (none, running)
  | n + 1, i, running =>
    let running := running + counts i
    if running ≥ threshold then (some i, running) else scan counts threshold n (i + 1) running

/-- The value at which one of the two loops returns. -/
def search (h : LatencyHistogram) (threshold : UInt64) : Option UInt64 :=
  match scan h.linear threshold kLinearMax 0 0 with
  | (some i, _) => some (UInt64.ofNat i)
  | (none, running) =>
    match scan h.log threshold kLogBuckets 0 running with
    -- the lower edge of the bucket
    | (some b, _) => some (1 <<< UInt64.ofNat b)
    | (none, _) => none

def threshold (h : LatencyHistogram) (p : ℚ) : UInt64 :=
  let threshold := UInt64.ofNat ⌊(h.total.toNat : ℚ) * p⌋₊
  if threshold = 0 then 1 else threshold

def percentile (h : LatencyHistogram) (p : ℚ) : UInt64 :=
  if h.total = 0 then 0 else (h.search (h.threshold p)).getD h.max

/-- The lines of `write_csv`: the counters that are not zero, each with the lower edge of its
bucket. -/
def csvLines (h : LatencyHistogram) : List (ℕ × ℕ) :=
  (((List.range kLinearMax).filter fun i => h.linear i ≠ 0).map fun i =>
      (i, (h.linear i).toNat)) ++
    (((List.range kLogBuckets).filter fun b => h.log b ≠ 0).map fun b =>
      (1 <<< b, (h.log b).toNat))

def writeCsv (h : LatencyHistogram) : List Char :=
  "ns,count\n".toList ++ Csv.write (h.csvLines.map fun x => [Csv.natural x.1, Csv.natural x.2])

/-- The histogram after the latencies `xs` have been recorded, in this order. -/
def recorded (xs : List UInt64) : LatencyHistogram := xs.foldl record new

end LatencyHistogram

/-! ### `plot_latency.py` -/

namespace PlotLatency

def readRow : List (List Char) → Option (ℕ × ℕ)
  | [ns, count] => do return (← Csv.natural? ns, ← Csv.natural? count)
  | _ => none

/-- The rows below the header, without those that do not have two fields. -/
def load (text : List Char) : Option (List (ℕ × ℕ)) :=
  (((Csv.read text).drop 1).filter fun r => r.length = 2).mapM readRow

/-- The loop of `percentile`: the first row with which the counts reach the target. -/
def scan (target : ℚ) : List (ℕ × ℕ) → ℕ → Option ℕ
  | [], _ => none
  | (ns, count) :: rows, acc =>
    if ((acc + count : ℕ) : ℚ) ≥ target then some ns else scan target rows (acc + count)

/-- The product, a `float` in the source, is exact here. -/
def percentile (rows : List (ℕ × ℕ)) (p : ℚ) : ℕ :=
  let total := (rows.map Prod.snd).sum
  if total = 0 then 0
  else (scan (total * p) rows 0).getD ((rows.getLast?.map Prod.fst).getD 0)

end PlotLatency

end Lob
