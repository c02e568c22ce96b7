import Lob.Types
import Lob.Bitmap
import Lob.OrderIdMap
import Lob.SlabAllocator
import Lob.IntrusiveList
import Mathlib.Algebra.Ring.Int.Defs

/-!
# `OrderBook`

The matching engine of `order_book.hpp`.  The book is generic in its id index (`IdMap`), which is
the hash table `OrderIdMap` in the source.  Calls that never touch the trade sink run in
`Except Fault`; `match_`, `submit` and `modify` run in `SinkM`, whose state is the list of trades
handed to the sink so far and survives a fault.

A loop whose fuel runs out is `Fault.hang`.
-/

namespace Lob

/-- The operations of an index from order ids to orders.  `none` means that the call does not
return. -/
class IdMap (M : Type) where
  new : ℕ → M
  insert : M → OrderId → Ptr → Option (Bool × M)
  find : M → OrderId → Option (Option Ptr)
  erase : M → OrderId → Option (Bool × M)

instance : IdMap (OrderIdMap Ptr) where
  new := OrderIdMap.new
  insert m id p := m.insert id (some p)
  find := OrderIdMap.find
  erase := OrderIdMap.erase

/-- `OrderBook::Config`.  The level arrays (24 bytes a level) and the slab (40 bytes a slot) are
allocated by the constructor, and no object is as large as `2^63` bytes. -/
structure Config where
  basePrice : Price
  numLevels : ℕ
  maxOrders : ℕ
  levels_fit : numLevels * 24 < 2 ^ 63
  orders_fit : maxOrders * 40 < 2 ^ 63

/-- The slots of the slab are all in its block. -/
theorem Config.slab_fits (cfg : Config) : cfg.maxOrders * SlabAllocator.slotBytes < 2 ^ 64 :=
  cfg.orders_fit.trans (by decide)

/-- `OrderBook::LevelSnapshot`. -/
structure LevelSnapshot where
  price : Price
  qty : Quantity
  count : UInt32
  deriving DecidableEq, Repr

structure OrderBook (M : Type) where
  cfg : Config
  slab : SlabAllocator
  idMap : M
  bidLevels : ℕ → PriceLevel
  askLevels : ℕ → PriceLevel
  bidBitmap : Bitmap
  askBitmap : Bitmap
  bestBidIdx : ℕ
  bestAskIdx : ℕ

/-- Computations that hand trades to the sink. -/
abbrev SinkM := EStateM Fault (List Trade)

def onTrade (t : Trade) : SinkM Unit := modify (· ++ [t])

/-- `static_cast<std::size_t>` of a 32-bit signed integer. -/
def toSize (x : Int32) : ℕ := (x.toInt % 2 ^ 64).toNat

/-- A call that does not return is a fault. -/
def orHang {α : Type} : Option α → Except Fault α
  | some a => .ok a
  | none => .error .hang

/-- Run a computation that does not touch the sink. -/
def quiet {α : Type} : Except Fault α → SinkM α
  | .ok a => pure a
  | .error e => throw e

namespace OrderBook

def kNoBest : ℕ := sizeMax

def nextPow2Loop (n : ℕ) : ℕ → ℕ → ℕ
  | 0, p => p
  | fuel + 1, p => if p < n then nextPow2Loop n fuel (p <<< 1) else p

/-- Sixty-four doublings reach every 64-bit `n` up to `2^63`. -/
def nextPow2 (n : ℕ) : ℕ := nextPow2Loop n 64 1

variable {M : Type} [IdMap M]

def new (cfg : Config) : OrderBook M where
  cfg := cfg
  slab := .new cfg.maxOrders
  idMap := IdMap.new (nextPow2 (cfg.maxOrders * 2))
  bidLevels := fun _ => {}
  askLevels := fun _ => {}
  bidBitmap := .new cfg.numLevels
  askBitmap := .new cfg.numLevels
  bestBidIdx := kNoBest
  bestAskIdx := kNoBest

/-! ### Helpers -/

section Helpers

variable (b : OrderBook M)

def priceToIdx (p : Price) : UInt32 := (p - b.cfg.basePrice).toUInt32

def idxToPrice (i : ℕ) : Price := b.cfg.basePrice + Int32.ofNat i

def inRange (p : Price) : Bool :=
  b.cfg.basePrice ≤ p && toSize (p - b.cfg.basePrice) < b.cfg.numLevels

def level (s : Side) (i : ℕ) : PriceLevel :=
  match s with
  | .buy => b.bidLevels i
  | .sell => b.askLevels i

/-- Assignment through the reference that `level_` returns. -/
def setLevel (s : Side) (i : ℕ) (l : PriceLevel) : OrderBook M :=
  match s with
  | .buy => { b with bidLevels := Function.update b.bidLevels i l }
  | .sell => { b with askLevels := Function.update b.askLevels i l }

def wouldCross (side : Side) (p : Price) : Bool :=
  match side with
  | .buy => b.bestAskIdx ≠ kNoBest && toSize (p - b.cfg.basePrice) ≥ b.bestAskIdx
  | .sell => b.bestBidIdx ≠ kNoBest && toSize (p - b.cfg.basePrice) ≤ b.bestBidIdx

/-- The loop of `can_fully_fill` for a buy order. -/
def canFillAsks (limit : ℕ) (qty : Quantity) : ℕ → ℕ → Quantity → Except Fault Bool
  | 0, _, _ => throw .hang
  | fuel + 1, i, acc =>
    if i ≠ kNoBest ∧ i ≤ limit then
      let acc := acc + (b.askLevels i).totalQty
      if acc ≥ qty then return true
      else
        let i := b.askBitmap.findNextSet (i + 1)
        if i = Bitmap.kNotFound then return false else canFillAsks limit qty fuel i acc
    else return false

/-- The loop of `can_fully_fill` for a sell order. -/
def canFillBids (limit : ℕ) (qty : Quantity) : ℕ → ℕ → Quantity → Except Fault Bool
  | 0, _, _ => throw .hang
  | fuel + 1, i, acc =>
    if i ≠ kNoBest ∧ i ≥ limit then
      let acc := acc + (b.bidLevels i).totalQty
      if acc ≥ qty then return true
      else if i = 0 then return false
      else
        let i := b.bidBitmap.findPrevSet (i - 1)
        if i = Bitmap.kNotFound then return false else canFillBids limit qty fuel i acc
    else return false

/-- The limit `kInvalidPrice` stands for a market order. -/
def canFullyFill (side : Side) (limitPrice : Price) (qty : Quantity) : Except Fault Bool :=
  let isMarket := limitPrice = kInvalidPrice
  match side with
  | .buy =>
    -- `num_levels - 1` in 64-bit arithmetic
    let limit := if isMarket then (b.cfg.numLevels + sizeMax) % 2 ^ 64
      else (b.priceToIdx limitPrice).toNat
    b.canFillAsks limit qty (b.cfg.numLevels + 1) b.bestAskIdx 0
  | .sell =>
    let limit := if isMarket then 0 else (b.priceToIdx limitPrice).toNat
    b.canFillBids limit qty (b.cfg.numLevels + 1) b.bestBidIdx 0

end Helpers

/-! ### Queries -/

def bestBid (b : OrderBook M) : Price :=
  if b.bestBidIdx = kNoBest then kInvalidPrice else b.idxToPrice b.bestBidIdx

def bestAsk (b : OrderBook M) : Price :=
  if b.bestAskIdx = kNoBest then kInvalidPrice else b.idxToPrice b.bestAskIdx

def totalAt (b : OrderBook M) (side : Side) (price : Price) : Quantity :=
  if b.inRange price then (b.level side (b.priceToIdx price).toNat).totalQty else 0

/-- The loop of `top_n` over the bids.  The first argument is `n - written`, and the list is what
is still to be written. -/
def topBids (b : OrderBook M) : ℕ → ℕ → List LevelSnapshot
  | 0, _ => []
  | n + 1, i =>
    if i ≠ kNoBest then
      let lvl := b.bidLevels i
      let next := if i = 0 then Bitmap.kNotFound else b.bidBitmap.findPrevSet (i - 1)
      ⟨b.idxToPrice i, lvl.totalQty, lvl.count⟩ ::
        if next = Bitmap.kNotFound then [] else topBids b n next
    else []

/-- The loop of `top_n` over the asks. -/
def topAsks (b : OrderBook M) : ℕ → ℕ → List LevelSnapshot
  | 0, _ => []
  | n + 1, i =>
    if i ≠ kNoBest then
      let lvl := b.askLevels i
      let next := b.askBitmap.findNextSet (i + 1)
      ⟨b.idxToPrice i, lvl.totalQty, lvl.count⟩ ::
        if next = Bitmap.kNotFound then [] else topAsks b n next
    else []

/-- The levels that `top_n` writes to its output. -/
def topN (b : OrderBook M) (side : Side) (n : ℕ) : List LevelSnapshot :=
  match side with
  | .buy => b.topBids n b.bestBidIdx
  | .sell => b.topAsks n b.bestAskIdx

def openOrders (b : OrderBook M) : ℕ := b.slab.inUse

def find (b : OrderBook M) (id : OrderId) : Except Fault (Option Ptr) :=
  orHang (IdMap.find b.idMap id)

/-! ### Passive operations -/

/-- `id_map_.erase(id)`, whose answer is ignored. -/
def eraseId (b : OrderBook M) (id : OrderId) : Except Fault (OrderBook M) := do
  let (_, idMap) ← orHang (IdMap.erase b.idMap id)
  return { b with idMap }

def deallocate (b : OrderBook M) (o : Ptr) : Except Fault (OrderBook M) := do
  let slab ← b.slab.deallocate o
  return { b with slab }

/-- The end of `insert_resting_` for a level that was empty: its bit is set and the best index
updated. -/
def occupy (b : OrderBook M) (side : Side) (idx : ℕ) : OrderBook M :=
  match side with
  | .buy =>
    { b with
      bidBitmap := b.bidBitmap.set idx
      bestBidIdx := if b.bestBidIdx = kNoBest ∨ idx > b.bestBidIdx then idx else b.bestBidIdx }
  | .sell =>
    { b with
      askBitmap := b.askBitmap.set idx
      bestAskIdx := if b.bestAskIdx = kNoBest ∨ idx < b.bestAskIdx then idx else b.bestAskIdx }

def insertResting (b : OrderBook M) (id : OrderId) (side : Side) (price : Price)
    (qty : Quantity) : Except Fault (OrderBook M) := do
  match b.slab.allocate with
  | (none, _) => throw .slabExhausted
  | (some o, slab) =>
    let idx := b.priceToIdx price
    let slab ← slab.write o fun _ =>
      { prev := none, next := none, orderId := id, quantity := qty, price := price,
        levelIdx := idx, side := side }
    let lvl := b.level side idx.toNat
    let wasEmpty := lvl.isEmpty
    let (orders, slab) ← lvl.orders.pushBack slab o
    let lvl := { orders, totalQty := lvl.totalQty + qty, count := lvl.count + 1 }
    let b := { b with slab }.setLevel side idx.toNat lvl
    let b := if wasEmpty then b.occupy side idx.toNat else b
    let (_, idMap) ← orHang (IdMap.insert b.idMap id o)
    return { b with idMap }

/-- The end of `remove_from_book_` for a level whose count has become zero: its bit is cleared
and, if it was the best level, the best index recovered from the bitmap. -/
def vacate (b : OrderBook M) (side : Side) (idx : ℕ) : OrderBook M :=
  match side with
  | .buy =>
    let bitmap := b.bidBitmap.clear idx
    let best :=
      if b.bestBidIdx = idx then
        if idx = 0 then kNoBest
        else
          let p := bitmap.findPrevSet (idx - 1)
          if p = Bitmap.kNotFound then kNoBest else p
      else b.bestBidIdx
    { b with bidBitmap := bitmap, bestBidIdx := best }
  | .sell =>
    let bitmap := b.askBitmap.clear idx
    let best :=
      if b.bestAskIdx = idx then
        let n := bitmap.findNextSet (idx + 1)
        if n = Bitmap.kNotFound then kNoBest else n
      else b.bestAskIdx
    { b with askBitmap := bitmap, bestAskIdx := best }

def removeFromBook (b : OrderBook M) (o : Ptr) : Except Fault (OrderBook M) := do
  let order ← b.slab.read o
  let idx := order.levelIdx.toNat
  let lvl := b.level order.side idx
  let (orders, slab) ← lvl.orders.unlink b.slab o
  let lvl := { orders, totalQty := lvl.totalQty - order.quantity, count := lvl.count - 1 }
  let b := { b with slab }.setLevel order.side idx lvl
  return if lvl.isEmpty then b.vacate order.side idx else b

/-- The three steps by which `cancel` and `reduce` drop the order `o` found under `id`. -/
def dropOrder (b : OrderBook M) (id : OrderId) (o : Ptr) : Except Fault (OrderBook M) := do
  let b ← b.removeFromBook o
  let b ← b.eraseId id
  b.deallocate o

def cancel (b : OrderBook M) (id : OrderId) : Except Fault (Bool × OrderBook M) := do
  match ← b.find id with
  | none => return (false, b)
  | some o =>
    let b ← b.dropOrder id o
    return (true, b)

/-- `o->quantity = qty` together with the same change of the level's total, `total_qty -= by`. -/
def shrinkOrder (b : OrderBook M) (o : Ptr) (order : Order) (qty delta : Quantity) :
    Except Fault (OrderBook M) := do
  let slab ← b.slab.write o fun q => { q with quantity := qty }
  let lvl := b.level order.side order.levelIdx.toNat
  return { b with slab }.setLevel order.side order.levelIdx.toNat
    { lvl with totalQty := lvl.totalQty - delta }

def reduce (b : OrderBook M) (id : OrderId) (delta : Quantity) :
    Except Fault (Bool × OrderBook M) := do
  match ← b.find id with
  | none => return (false, b)
  | some o =>
    let order ← b.slab.read o
    if delta ≥ order.quantity then
      let b ← b.dropOrder id o
      return (true, b)
    else
      let b ← b.shrinkOrder o order (order.quantity - delta) delta
      return (true, b)

/-! ### Matching -/

/-- The head of level `i` gives up `fill`; an order filled in full leaves the level, the id map
and the slab. -/
def takeFromHead (b : OrderBook M) (side : Side) (i : ℕ) (head : Ptr) (order : Order)
    (fill : Quantity) : Except Fault (OrderBook M) := do
  let slab ← b.slab.write head fun q => { q with quantity := order.quantity - fill }
  let lvl := b.level side i
  let lvl := { lvl with totalQty := lvl.totalQty - fill }
  let b := { b with slab }.setLevel side i lvl
  if order.quantity - fill = 0 then
    let (orders, slab) ← lvl.orders.unlink b.slab head
    let b := { b with slab }.setLevel side i { lvl with orders, count := lvl.count - 1 }
    let b ← b.eraseId order.orderId
    b.deallocate head
  else return b

/-- The inner loop of `match_`, at level `i`. -/
def fillLevel (aggressorSide : Side) (aggressorId : OrderId) (ts : Timestamp) (i : ℕ) :
    ℕ → OrderBook M → Quantity → SinkM (OrderBook M × Quantity)
  | 0, _, _ => throw .hang
  | fuel + 1, b, remaining =>
    if remaining > 0 then
      match (b.level (opposite aggressorSide) i).orders.head with
      | none => return (b, remaining)
      | some head => do
        let order ← quiet (b.slab.read head)
        let fill := min remaining order.quantity
        onTrade { restingId := order.orderId, aggressorId, price := b.idxToPrice i,
                  quantity := fill, ts, aggressorSide }
        let b ← quiet (b.takeFromHead (opposite aggressorSide) i head order fill)
        fillLevel aggressorSide aggressorId ts i fuel b (remaining - fill)
    else return (b, remaining)

/-- Whether level `i` is past the limit; the limit `kNoBest` means there is none. -/
def pastLimit (aggressorSide : Side) (limit i : ℕ) : Bool :=
  match aggressorSide with
  | .buy => limit ≠ kNoBest && i > limit
  | .sell => limit ≠ kNoBest && i < limit

/-- The emptied level `i` loses its bit and the next best level is looked up. -/
def advance (b : OrderBook M) (aggressorSide : Side) (i : ℕ) : ℕ × OrderBook M :=
  match aggressorSide with
  | .buy =>
    let bitmap := b.askBitmap.clear i
    let next := bitmap.findNextSet (i + 1)
    let best := if next = Bitmap.kNotFound then kNoBest else next
    (best, { b with askBitmap := bitmap, bestAskIdx := best })
  | .sell =>
    let bitmap := b.bidBitmap.clear i
    if i = 0 then (kNoBest, { b with bidBitmap := bitmap, bestBidIdx := kNoBest })
    else
      let prev := bitmap.findPrevSet (i - 1)
      let best := if prev = Bitmap.kNotFound then kNoBest else prev
      (best, { b with bidBitmap := bitmap, bestBidIdx := best })

/-- The outer loop of `match_`. -/
def matchLoop (aggressorSide : Side) (limit : ℕ) (aggressorId : OrderId) (ts : Timestamp) :
    ℕ → OrderBook M → ℕ → Quantity → SinkM (OrderBook M × Quantity)
  | 0, _, _, _ => throw .hang
  | fuel + 1, b, i, remaining =>
    if i ≠ kNoBest ∧ remaining > 0 then
      if pastLimit aggressorSide limit i then return (b, remaining)
      else do
        let (b, remaining) ←
          fillLevel aggressorSide aggressorId ts i (b.slab.capacity + 2) b remaining
        if (b.level (opposite aggressorSide) i).isEmpty then
          let (i, b) := b.advance aggressorSide i
          matchLoop aggressorSide limit aggressorId ts fuel b i remaining
        else return (b, remaining)
    else return (b, remaining)

def match_ (aggressorSide : Side) (b : OrderBook M) (limit : ℕ) (remaining : Quantity)
    (aggressorId : OrderId) (ts : Timestamp) : SinkM (OrderBook M × Quantity) :=
  let i := match aggressorSide with
    | .buy => b.bestAskIdx
    | .sell => b.bestBidIdx
  matchLoop aggressorSide limit aggressorId ts (b.cfg.numLevels + 1) b i remaining

/-! ### `submit` and `modify` -/

/-- The aggressive phase of `submit`: only if the order is not post-only and there is something to
cross. -/
def aggress (b : OrderBook M) (id : OrderId) (side : Side) (type : OrderType) (tif : TimeInForce)
    (price : Price) (qty : Quantity) (ts : Timestamp) : SinkM (OrderBook M × Quantity) :=
  if tif ≠ .postOnly ∧ (type = .market ∨ b.wouldCross side price) then
    match_ side b (if type = .market then kNoBest else (b.priceToIdx price).toNat) qty id ts
  else return (b, qty)

/-- The matching and resting phases of `submit`, once the checks have passed. -/
def execute (b : OrderBook M) (id : OrderId) (side : Side) (type : OrderType) (tif : TimeInForce)
    (price : Price) (qty : Quantity) (ts : Timestamp) : SinkM (OrderBook M × SubmitResult) := do
  let (b, remaining) ← b.aggress id side type tif price qty ts
  if remaining = 0 then return (b, ⟨.fullyFilled, qty, 0⟩)
  else if tif = .ioc ∨ type = .market then
    let filled := qty - remaining
    return (b, ⟨if filled > 0 then .partiallyFilled else .cancelled, filled, remaining⟩)
  else
    let b ← quiet (b.insertResting id side price remaining)
    return (b, ⟨if qty = remaining then .accepted else .partiallyFilled,
      qty - remaining, remaining⟩)

/-- The fill-or-kill check of `submit`: whether the pre-walk kills the order. -/
def fokKills (b : OrderBook M) (side : Side) (type : OrderType) (tif : TimeInForce)
    (price : Price) (qty : Quantity) : Except Fault Bool :=
  if tif = .fok then do
    let fillable ← b.canFullyFill side (if type = .market then kInvalidPrice else price) qty
    return !fillable
  else return false

def submit (b : OrderBook M) (id : OrderId) (side : Side) (type : OrderType) (tif : TimeInForce)
    (price : Price) (qty : Quantity) (ts : Timestamp) : SinkM (OrderBook M × SubmitResult) := do
  if qty = 0 ∨ id = kInvalidOrderId then return (b, ⟨.rejected, 0, 0⟩)
  else
    match ← quiet (b.find id) with
    | some _ => return (b, ⟨.rejected, 0, 0⟩)
    | none =>
      if type ≠ .market ∧ ¬b.inRange price then return (b, ⟨.rejected, 0, 0⟩)
      else
        let killed ← quiet (b.fokKills side type tif price qty)
        if killed then return (b, ⟨.cancelled, 0, qty⟩)
        else if tif = .postOnly ∧ b.wouldCross side price then return (b, ⟨.cancelled, 0, qty⟩)
        else b.execute id side type tif price qty ts

def modify (b : OrderBook M) (id : OrderId) (newQty : Quantity) (newPrice : Price)
    (ts : Timestamp) : SinkM (OrderBook M × SubmitResult) := do
  match ← quiet (b.find id) with
  | none => return (b, ⟨.rejected, 0, 0⟩)
  | some o =>
    let order ← quiet (b.slab.read o)
    if newPrice = order.price ∧ newQty > 0 ∧ newQty ≤ order.quantity then
      let b ← quiet (b.shrinkOrder o order newQty (order.quantity - newQty))
      return (b, ⟨.accepted, 0, newQty⟩)
    else
      let (_, b) ← quiet (b.cancel id)
      b.submit id order.side .limit .gtc newPrice newQty ts

end OrderBook

end Lob
