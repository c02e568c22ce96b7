import Lob.General.Csv
import Lob.Histogram
import Lob.Replay
import Lob.Tape
import Mathlib.Data.List.Dedup
import Mathlib.Data.List.Sort

/-!
# The program of `replay.cpp`

The handler with its latency histograms (`TimedHandler`), the snapshot that is written at the end
(`OrderBook.writeSnapshot`), and `main` from the bytes of the file to the text of the output files.
`Tape.snapshot` is the snapshot that the book of the exchange gives.

What the machine decides is a parameter: the memory past the file (`MappedFile`), the size up to
which a vector can be made (`Args.vectorMax`), and the readings of the clock, which are arbitrary
numbers (`clock k` for the call `k` of `now_ns`).  The summary, which is made of floating-point
numbers, and the messages on `stderr` are left out.
-/

namespace Lob

open Itch

/-! ### The handler with its histograms -/

/-- The three histograms. -/
inductive Timed where
  | submit
  | cancel
  | reduce
  deriving DecidableEq, Repr

structure TimedHandler (M : Type) where
  handler : ReplayHandler M
  hist : Timed → LatencyHistogram := fun _ => .new
  /-- The number of calls of `now_ns`. -/
  readings : ℕ := 0

namespace TimedHandler

variable {M : Type} [IdMap M] (clock : ℕ → UInt64)

/-- `time_`, for a call on the book. -/
def time (t : TimedHandler M) (op : Timed) (fn : OrderBook M → SinkM (OrderBook M)) :
    SinkM (TimedHandler M) := do
  let t0 := clock t.readings
  let book ← fn t.handler.book
  let t1 := clock (t.readings + 1)
  return { handler := { t.handler with book }
           hist := Function.update t.hist op ((t.hist op).record (t1 - t0))
           readings := t.readings + 2 }

/-- The handler with a counter raised. -/
def count (t : TimedHandler M) (raise : ReplayHandler M → ReplayHandler M) : TimedHandler M :=
  { t with handler := raise t.handler }

def onAddOrder (t : TimedHandler M) (a : AddOrder) : SinkM (TimedHandler M) :=
  if a.stockLocate ≠ t.handler.targetLocate then return t
  else do
    let t ← t.time clock .submit fun book => do
      let (book, _) ←
        book.submitOrder (t.handler.order a.orderRef a.side a.price a.shares a.tsNs)
      return book
    return t.count fun h => { h with adds := h.adds + 1 }

def onOrderExecuted (t : TimedHandler M) (e : OrderExecuted) : SinkM (TimedHandler M) :=
  if e.stockLocate ≠ t.handler.targetLocate then return t
  else do
    let t ← t.time clock .reduce fun book => do
      let (_, book) ← quiet (book.reduce e.orderRef e.executedShares)
      return book
    return t.count fun h => { h with execs := h.execs + 1 }

def onOrderExecutedWithPrice (t : TimedHandler M) (e : OrderExecutedWithPrice) :
    SinkM (TimedHandler M) :=
  if e.stockLocate ≠ t.handler.targetLocate then return t
  else do
    let t ← t.time clock .reduce fun book => do
      let (_, book) ← quiet (book.reduce e.orderRef e.executedShares)
      return book
    return t.count fun h => { h with execs := h.execs + 1 }

def onOrderCancel (t : TimedHandler M) (c : OrderCancel) : SinkM (TimedHandler M) :=
  if c.stockLocate ≠ t.handler.targetLocate then return t
  else do
    let t ← t.time clock .reduce fun book => do
      let (_, book) ← quiet (book.reduce c.orderRef c.cancelledShares)
      return book
    return t.count fun h => { h with cancels := h.cancels + 1 }

def onOrderDelete (t : TimedHandler M) (d : OrderDelete) : SinkM (TimedHandler M) :=
  if d.stockLocate ≠ t.handler.targetLocate then return t
  else do
    let t ← t.time clock .cancel fun book => do
      let (_, book) ← quiet (book.cancel d.orderRef)
      return book
    return t.count fun h => { h with deletes := h.deletes + 1 }

/-- The lookup of the order that is replaced is not timed. -/
def onOrderReplace (t : TimedHandler M) (r : OrderReplace) : SinkM (TimedHandler M) :=
  if r.stockLocate ≠ t.handler.targetLocate then return t
  else do
    match ← quiet (t.handler.book.find r.originalOrderRef) with
    | none => return t.count fun h => { h with replacesSkipped := h.replacesSkipped + 1 }
    | some o =>
      let original ← quiet (t.handler.book.slab.read o)
      let t ← t.time clock .cancel fun book => do
        let (_, book) ← quiet (book.cancel r.originalOrderRef)
        return book
      let t ← t.time clock .submit fun book => do
        let (book, _) ← book.submitOrder
          (t.handler.order r.newOrderRef original.side r.price r.shares r.tsNs)
        return book
      return t.count fun h => { h with replaces := h.replaces + 1 }

def onMessage (t : TimedHandler M) : Message → SinkM (TimedHandler M)
  | .stockDirectory d => return t.count fun h => h.onStockDirectory d
  | .addOrder a => t.onAddOrder clock a
  | .orderExecuted e => t.onOrderExecuted clock e
  | .orderExecutedWithPrice e => t.onOrderExecutedWithPrice clock e
  | .orderCancel c => t.onOrderCancel clock c
  | .orderDelete d => t.onOrderDelete clock d
  | .orderReplace r => t.onOrderReplace clock r
  | .systemEvent _ => return t
  | .unhandled _ _ => return t

def replay (t : TimedHandler M) : List Message → SinkM (TimedHandler M)
  | [] => return t
  | m :: ms => do
    let t ← t.onMessage clock m
    replay t ms

end TimedHandler

/-! ### The snapshot -/

/-- The fields of a line of the snapshot: the side, the rank of the level, its price, its quantity
and the number of its orders. -/
def LevelSnapshot.fields (label : Char) (l : LevelSnapshot) (level : ℕ) : List (List Char) :=
  [[label], Csv.natural level, Csv.integer l.price.toInt, Csv.natural l.qty.toNat,
    Csv.natural l.count.toNat]

/-- The lines of one side. -/
def snapshotLines (label : Char) (ls : List LevelSnapshot) : List (List (List Char)) :=
  ls.zipIdx.map fun x => x.1.fields label x.2

/-- The text of the snapshot. -/
def OrderBook.snapshotText {M : Type} (b : OrderBook M) (topN : ℕ) : List Char :=
  "side,level,price,quantity,order_count\n".toList ++
    Csv.write (snapshotLines 'B' (b.topN .buy topN)) ++
    Csv.write (snapshotLines 'A' (b.topN .sell topN))

/-- `write_snapshot`.  It makes two vectors of `topN` levels first, which throw above
`vectorMax`. -/
def OrderBook.writeSnapshot {M : Type} (b : OrderBook M) (vectorMax topN : ℕ) :
    Option (List Char) :=
  if topN ≤ vectorMax then some (b.snapshotText topN) else none

/-- A line of the snapshot as `csv.DictReader` has it, with its fields as numbers. -/
structure SnapshotLine where
  side : Side
  level : ℕ
  price : ℤ
  quantity : ℕ
  orderCount : ℕ
  deriving DecidableEq, Repr

/-- The label of the bids is `B`, and any other one is that of the asks. -/
def readLine : List (List Char) → Option SnapshotLine
  | [label, level, price, quantity, count] => do
    return { side := if label = ['B'] then .buy else .sell
             level := ← Csv.natural? level
             price := ← Csv.integer? price
             quantity := ← Csv.natural? quantity
             orderCount := ← Csv.natural? count }
  | _ => none

/-- The lines of a snapshot below its header. -/
def readSnapshot (text : List Char) : Option (List SnapshotLine) :=
  ((Csv.read text).drop 1).mapM readLine

/-! ### What a snapshot is to show -/

namespace Tape

variable (itchTick : Int32) (l : Tape) (s : Side)

/-- A price of side `s` is no worse than another one. -/
def NotWorse (s : Side) (p q : ℕ) : Prop :=
  match s with
  | .buy => q ≤ p
  | .sell => p ≤ q

instance (s : Side) : DecidableRel (NotWorse s) := fun p q => by
  unfold NotWorse
  cases s <;> infer_instance

/-- The live orders at a price. -/
def ordersAt (p : ℕ) : Tape := l.filter fun o => o.side = s ∧ o.ticks itchTick = p

/-- The prices of the live orders, best first and each once. -/
def prices : List ℕ :=
  ((l.filter fun o => o.side = s).map fun o => o.ticks itchTick).dedup.insertionSort (NotWorse s)

/-- The line for a price.  Totals are kept in 32 bits. -/
def line (p level : ℕ) : SnapshotLine where
  side := s
  level := level
  price := p
  quantity := ((l.ordersAt itchTick s p).map fun o => o.shares.toNat).sum % 2 ^ 32
  orderCount := (l.ordersAt itchTick s p).length

/-- The `n` best prices of each side. -/
def snapshot (n : ℕ) : List SnapshotLine :=
  [Side.buy, Side.sell].flatMap fun s => ((l.prices itchTick s).take n).zipIdx.map fun x =>
    l.line itchTick s x.1 x.2

end Tape

/-! ### `main` -/

/-- The arguments of the program, and what the machine can do for them.  The file and the directory
of the output are not among them. -/
structure Args where
  symbol : List UInt8
  cfg : Config
  itchTick : Int32
  topN : ℕ
  snapshotOnly : Bool
  tick_ne : itchTick ≠ 0
  /-- The most levels (of 12 bytes) that the vectors of `write_snapshot` can be made for.  They
  throw `bad_alloc` if the memory does not suffice, and `length_error` above their `max_size()`. -/
  vectorMax : ℕ
  vectorMax_le : vectorMax * 12 < 2 ^ 63

/-- The handler that the program starts with. -/
def Args.handler {M : Type} [IdMap M] (args : Args) : ReplayHandler M :=
  .new args.cfg args.symbol args.itchTick args.tick_ne

/-- `MappedFile`.  The bytes past the file are those that its last page or another mapping has. -/
structure MappedFile where
  data : ℕ → UInt8
  size : ℕ
  /-- The first address, from the start of the file, that cannot be read. -/
  readable : ℕ
  size_le : size ≤ readable

namespace MappedFile

variable (file : MappedFile)

/-- The frames that `parse` handles before it reads what cannot be read. -/
def handled : List Handled :=
  (Itch.parse file.data file.size).value.1.takeWhile fun f =>
    f.handling.reads.all fun a => a < file.readable

/-- The calls of the handler, in order. -/
def calls : List Message := file.handled.map fun f => f.handling.value

/-- `parse` reads what can be read. -/
def Readable : Prop := ∀ a ∈ (Itch.parse file.data file.size).reads, a < file.readable

instance : Decidable file.Readable := by unfold Readable; infer_instance

end MappedFile

/-- The ways the program can fail before it has written its output. -/
inductive MainError where
  /-- `MappedFile` throws: an empty file cannot be mapped. -/
  | cannotMap
  /-- A call on the book does not return. -/
  | fault (f : Fault)
  /-- `parse` reads an address that cannot be read. -/
  | cannotRead
  deriving DecidableEq, Repr

/-- What the program has worked out and written. -/
structure Output (M : Type) where
  /-- The number of messages that `parse` reports. -/
  messages : ℕ
  final : TimedHandler M
  /-- The files with the latencies. -/
  latencies : Option (Timed → List Char)
  /-- There is none if `write_snapshot` throws, which it is called for last. -/
  snapshot : Option (List Char)

/-- What the program writes once `parse` has returned. -/
def Args.output {M : Type} (args : Args) (messages : ℕ) (t : TimedHandler M) : Output M where
  messages := messages
  final := t
  latencies := if args.snapshotOnly then none else some fun op => (t.hist op).writeCsv
  snapshot := t.handler.book.writeSnapshot args.vectorMax args.topN

def main {M : Type} [IdMap M] (args : Args) (file : MappedFile) (clock : ℕ → UInt64) :
    Except MainError (Output M) :=
  if file.size = 0 then .error .cannotMap
  else
    match (({ handler := args.handler } : TimedHandler M).replay clock file.calls).run [] with
    | .error f _ => .error (.fault f)
    | .ok t _ =>
      if file.Readable then .ok (args.output (Itch.count file.data file.size) t)
      else .error .cannotRead

end Lob
