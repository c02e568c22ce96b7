import Lob.Calls
import Lob.Itch

/-!
# The replay handler of `replay.cpp`

`ReplayHandler` drives a book with the messages of one symbol.  The handler hands the trades of its
book to a sink that drops them; here they stay visible in `SinkM`.  The histograms of the latencies
and the printing are left out.

A file is shorter than `2^64` bytes, so that the counters never wrap around.
-/

namespace Lob

open Itch

/-- `symbol_matches`: the wanted symbol is padded with spaces on the right. -/
def symbolMatches (wire : Symbol) (want : List UInt8) : Bool :=
  (List.finRange 8).all fun i => wire[i] == want.getD i ' '.toUInt8

/-- The division by `itch_tick_` has no meaning for a tick of zero. -/
structure ReplayHandler (M : Type) where
  book : OrderBook M
  symbol : List UInt8
  itchTick : Int32
  targetLocate : UInt16 := 0
  adds : ℕ := 0
  execs : ℕ := 0
  cancels : ℕ := 0
  deletes : ℕ := 0
  replaces : ℕ := 0
  replacesSkipped : ℕ := 0
  tick_ne : itchTick ≠ 0

/-- The price of the book for a price on the wire, with both casts of the source. -/
def enginePrice (itchTick : Int32) (price : UInt32) : Price := (price / itchTick.toUInt32).toInt32

namespace ReplayHandler

variable {M : Type} [IdMap M]

/-- A handler with a fresh book. -/
def new (cfg : Config) (symbol : List UInt8) (itchTick : Int32) (tick_ne : itchTick ≠ 0) :
    ReplayHandler M where
  book := .new cfg
  symbol := symbol
  itchTick := itchTick
  tick_ne := tick_ne

/-- The message counters. -/
def counters {M : Type} (h : ReplayHandler M) : List ℕ :=
  [h.adds, h.execs, h.cancels, h.deletes, h.replaces, h.replacesSkipped]

theorem sum_counters {M : Type} (h : ReplayHandler M) : h.counters.sum =
    h.adds + h.execs + h.cancels + h.deletes + h.replaces + h.replacesSkipped := by
  unfold counters
  simp only [List.sum_cons, List.sum_nil]
  omega

/-- The order that the handler submits. -/
def order (h : ReplayHandler M) (ref : UInt64) (side : Side) (price shares : UInt32)
    (tsNs : UInt64) : NewOrder :=
  { id := ref, side, type := .limit, tif := .gtc, price := enginePrice h.itchTick price,
    qty := shares, ts := tsNs }

def onStockDirectory (h : ReplayHandler M) (d : StockDirectory) : ReplayHandler M :=
  if h.targetLocate = 0 ∧ symbolMatches d.stock h.symbol then
    { h with targetLocate := d.stockLocate }
  else h

def onAddOrder (h : ReplayHandler M) (a : AddOrder) : SinkM (ReplayHandler M) :=
  if a.stockLocate ≠ h.targetLocate then return h
  else do
    let (book, _) ← h.book.submitOrder (h.order a.orderRef a.side a.price a.shares a.tsNs)
    return { h with book, adds := h.adds + 1 }

def onOrderExecuted (h : ReplayHandler M) (e : OrderExecuted) : SinkM (ReplayHandler M) :=
  if e.stockLocate ≠ h.targetLocate then return h
  else do
    let (_, book) ← quiet (h.book.reduce e.orderRef e.executedShares)
    return { h with book, execs := h.execs + 1 }

def onOrderExecutedWithPrice (h : ReplayHandler M) (e : OrderExecutedWithPrice) :
    SinkM (ReplayHandler M) :=
  if e.stockLocate ≠ h.targetLocate then return h
  else do
    let (_, book) ← quiet (h.book.reduce e.orderRef e.executedShares)
    return { h with book, execs := h.execs + 1 }

def onOrderCancel (h : ReplayHandler M) (c : OrderCancel) : SinkM (ReplayHandler M) :=
  if c.stockLocate ≠ h.targetLocate then return h
  else do
    let (_, book) ← quiet (h.book.reduce c.orderRef c.cancelledShares)
    return { h with book, cancels := h.cancels + 1 }

def onOrderDelete (h : ReplayHandler M) (d : OrderDelete) : SinkM (ReplayHandler M) :=
  if d.stockLocate ≠ h.targetLocate then return h
  else do
    let (_, book) ← quiet (h.book.cancel d.orderRef)
    return { h with book, deletes := h.deletes + 1 }

/-- A replace is a `cancel` and a `submit` under the new reference, on the side of the order that
is replaced. -/
def onOrderReplace (h : ReplayHandler M) (r : OrderReplace) : SinkM (ReplayHandler M) :=
  if r.stockLocate ≠ h.targetLocate then return h
  else do
    match ← quiet (h.book.find r.originalOrderRef) with
    | none => return { h with replacesSkipped := h.replacesSkipped + 1 }
    | some o =>
      let original ← quiet (h.book.slab.read o)
      let (_, book) ← quiet (h.book.cancel r.originalOrderRef)
      let (book, _) ←
        book.submitOrder (h.order r.newOrderRef original.side r.price r.shares r.tsNs)
      return { h with book, replaces := h.replaces + 1 }

/-- The call of the handler.  The callbacks that it does not override do nothing. -/
def onMessage (h : ReplayHandler M) : Message → SinkM (ReplayHandler M)
  | .stockDirectory d => return h.onStockDirectory d
  | .addOrder a => h.onAddOrder a
  | .orderExecuted e => h.onOrderExecuted e
  | .orderExecutedWithPrice e => h.onOrderExecutedWithPrice e
  | .orderCancel c => h.onOrderCancel c
  | .orderDelete d => h.onOrderDelete d
  | .orderReplace r => h.onOrderReplace r
  | .systemEvent _ => return h
  | .unhandled _ _ => return h

/-- The handler after the messages, one after the other. -/
def replay (h : ReplayHandler M) : List Message → SinkM (ReplayHandler M)
  | [] => return h
  | m :: ms => do
    let h ← h.onMessage m
    replay h ms

end ReplayHandler

end Lob
