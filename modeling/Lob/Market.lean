import Lob.Calls
import Mathlib.Data.List.Dedup
import Mathlib.Data.List.Sort

/-!
# The market

What the engine is for, without levels, slots or an index: for each side the list of its orders,
the best price first and the oldest order first at each price (`Market`).  An incoming order is
filled greedily from the front of the other side, as far as its limit allows, and what is left of
it goes behind the orders that are as good (`Market.submit`).
-/

namespace Lob

/-- An order as the participants know it. -/
structure Entry where
  id : OrderId
  price : Price
  qty : Quantity
  deriving DecidableEq, Repr

namespace Entry

def size (e : Entry) : ℕ := e.qty.toNat

/-- The order after giving `n`. -/
def shrink (e : Entry) (n : ℕ) : Entry := { e with qty := e.qty - UInt32.ofNat n }

/-- What a `reduce` leaves of an order. -/
def reduce (e : Entry) (delta : Quantity) : Option Entry :=
  if delta < e.qty then some { e with qty := e.qty - delta } else none

/-- The test of `modify` for a change that keeps the order in its place. -/
def KeepsPlace (e : Entry) (newQty : Quantity) (newPrice : Price) : Prop :=
  newPrice = e.price ∧ newQty > 0 ∧ newQty ≤ e.qty

instance (e : Entry) (newQty : Quantity) (newPrice : Price) :
    Decidable (e.KeepsPlace newQty newPrice) := by unfold KeepsPlace; infer_instance

end Entry

/-- The order trades at this price. -/
def NewOrder.acceptsPrice (o : NewOrder) (p : Price) : Bool :=
  o.type = .market ||
    match o.side with
    | .buy => p ≤ o.price
    | .sell => o.price ≤ p

/-- Among the orders of side `s`, price `p` comes before price `q`. -/
def PriceBefore (s : Side) (p q : Price) : Prop :=
  match s with
  | .buy => q < p
  | .sell => p < q

instance (s : Side) (p q : Price) : Decidable (PriceBefore s p q) := by
  unfold PriceBefore; cases s <;> infer_instance

/-- The price is one of the book's. -/
def Config.Lists (cfg : Config) (p : Price) : Prop :=
  cfg.basePrice.toInt ≤ p.toInt ∧ p.toInt < cfg.basePrice.toInt + cfg.numLevels

instance (cfg : Config) (p : Price) : Decidable (cfg.Lists p) := by
  unfold Config.Lists; infer_instance

/-- For each side its orders, by price and then by time. -/
abbrev Market := Side → List Entry

namespace Market

def empty : Market := fun _ => []

/-- An order with this id is in the market. -/
def Rests (m : Market) (id : OrderId) : Prop := ∃ e ∈ m .buy ++ m .sell, e.id = id

instance (m : Market) (id : OrderId) : Decidable (m.Rests id) := by unfold Rests; infer_instance

/-- The order with this id, and its side. -/
def find (m : Market) (id : OrderId) : Option (Side × Entry) :=
  match (m .buy).find? fun e => e.id = id with
  | some e => some (.buy, e)
  | none => ((m .sell).find? fun e => e.id = id).map fun e => (.sell, e)

/-- How many orders rest. -/
def size (m : Market) : ℕ := (m .buy).length + (m .sell).length

/-- The order with this id becomes what `f` makes of it. -/
def amend (m : Market) (id : OrderId) (f : Entry → Option Entry) : Market :=
  fun s => (m s).filterMap fun e => if e.id = id then f e else some e

/-! ### Orders that come in -/

section Incoming

variable (m : Market) (o : NewOrder)

/-- The orders that the incoming one can trade with. -/
def matching : List Entry := (m (opposite o.side)).filter fun e => o.acceptsPrice e.price

/-- The quantity that the incoming order finds. -/
def available : ℕ := Greedy.total Entry.size (m.matching o)

def trades : List Trade :=
  (Greedy.fills Entry.size (m.matching o) o.qty.toNat).map fun f =>
    { restingId := f.1.id, aggressorId := o.id, price := f.1.price,
      quantity := UInt32.ofNat f.2, ts := o.ts, aggressorSide := o.side }

/-- The market after the trades. -/
def fill : Market :=
  Function.update m (opposite o.side)
    (Greedy.leftover Entry.size Entry.shrink (m.matching o) o.qty.toNat ++
      (m (opposite o.side)).filter fun e => !o.acceptsPrice e.price)

/-- The order rests with the quantity `n`, behind those that come before it or have its price. -/
def rest (n : Quantity) : Market :=
  Function.update m o.side
    ((m o.side).orderedInsert (fun e e' => PriceBefore o.side e.price e'.price) ⟨o.id, o.price, n⟩)

/-- What the trades leave of the order. -/
def remainder : Quantity := UInt32.ofNat (o.qty.toNat - m.available o)

/-- The order is refused. -/
def Refuses (cfg : Config) : Prop :=
  o.qty = 0 ∨ o.id = kInvalidOrderId ∨ m.Rests o.id ∨ (o.type ≠ .market ∧ ¬cfg.Lists o.price)

/-- The order is cancelled at once: a fill-or-kill order that cannot be filled, or a post-only order
that would have to trade. -/
def Kills : Prop :=
  (o.tif = .fok ∧ m.available o < o.qty.toNat) ∨
    (o.tif = .postOnly ∧ (o.type = .market ∨ m.matching o ≠ []))

instance (cfg : Config) : Decidable (m.Refuses o cfg) := by unfold Refuses; infer_instance

instance : Decidable (m.Kills o) := by unfold Kills; infer_instance

end Incoming

/-- The trades are handed to the sink. -/
def emit (ts : List Trade) : SinkM Unit := modify (· ++ ts)

/-- What becomes of an order, once it has traded.  There is room for `cfg.maxOrders` orders. -/
def settle (cfg : Config) (m : Market) (o : NewOrder) : SinkM (Market × SubmitResult) :=
  let n := m.remainder o
  if n = 0 then return (m.fill o, ⟨.fullyFilled, o.qty, 0⟩)
  else if o.tif = .ioc ∨ o.type = .market then
    return (m.fill o, ⟨if n = o.qty then .cancelled else .partiallyFilled, o.qty - n, n⟩)
  else if (m.fill o).size = cfg.maxOrders then throw .slabExhausted
  else
    return ((m.fill o).rest o n,
      ⟨if n = o.qty then .accepted else .partiallyFilled, o.qty - n, n⟩)

def submit (cfg : Config) (m : Market) (o : NewOrder) : SinkM (Market × SubmitResult) :=
  if m.Refuses o cfg then return (m, ⟨.rejected, 0, 0⟩)
  else if m.Kills o then return (m, ⟨.cancelled, 0, o.qty⟩)
  else do
    emit (m.trades o)
    m.settle cfg o

/-- A `modify` that does not keep the order in its place cancels it and submits another one, whether
or not that one is refused. -/
def modify (cfg : Config) (m : Market) (id : OrderId) (newQty : Quantity) (newPrice : Price)
    (ts : Timestamp) : SinkM (Market × SubmitResult) :=
  match m.find id with
  | none => return (m, ⟨.rejected, 0, 0⟩)
  | some (side, e) =>
    if e.KeepsPlace newQty newPrice then
      return (m.amend id fun e => some { e with qty := newQty }, ⟨.accepted, 0, newQty⟩)
    else
      (m.amend id fun _ => none).submit cfg
        { id, side, type := .limit, tif := .gtc, price := newPrice, qty := newQty, ts }

/-! ### Queries -/

/-- `best_bid` or `best_ask`. -/
def best (m : Market) (s : Side) : Price :=
  match m s with
  | [] => kInvalidPrice
  | e :: _ => e.price

/-- The orders at a price. -/
def ordersAt (m : Market) (s : Side) (p : Price) : List Entry := (m s).filter fun e => e.price = p

/-- Totals and counts are kept in 32 bits. -/
def totalAt (m : Market) (s : Side) (p : Price) : Quantity :=
  UInt32.ofNat (Greedy.total Entry.size (m.ordersAt s p))

def levelAt (m : Market) (s : Side) (p : Price) : LevelSnapshot :=
  ⟨p, m.totalAt s p, UInt32.ofNat (m.ordersAt s p).length⟩

/-- The prices with orders, best first. -/
def prices (m : Market) (s : Side) : List Price := ((m s).map Entry.price).dedup

def depth (m : Market) (s : Side) : List LevelSnapshot := (m.prices s).map (m.levelAt s)

/-- The quantity that a fill-or-kill order finds fits into 32 bits. -/
def Countable (m : Market) : Call → Prop
  | .submit o => o.tif = .fok → m.available o < 2 ^ 32
  | _ => True

instance (m : Market) (c : Call) : Decidable (m.Countable c) := by
  cases c <;> unfold Countable <;> infer_instance

end Market

end Lob
