import Lob.Calls

/-!
# Where the quantity of an order goes

An account for each order that comes to rest: the quantity it rests with, and what it has since
lost to trades, to `reduce`, to a `modify` that keeps it in its place, and to the `cancel` that
takes it off the book (`Account`).  The accounts of a run (`Ledgered`) are kept from outside, by
what a client of the book sees: the call, the trades handed to the sink, and the orders that `find`
returns before and after the call.
-/

namespace Lob

/-- The life of an order in the book. -/
structure Account where
  id : OrderId
  rested : ℕ
  traded : ℕ := 0
  reduced : ℕ := 0
  lowered : ℕ := 0
  discarded : ℕ := 0
  /-- The order is still in the book. -/
  live : Bool := true
  deriving DecidableEq, Repr

/-- What the order has lost. -/
def Account.spent (a : Account) : ℕ := a.traded + a.reduced + a.lowered + a.discarded

/-- The quantity that the order `id` gave in the trades. -/
def tradedBy (id : OrderId) (trades : List Trade) : ℕ :=
  ((trades.filter fun t => t.restingId = id).map fun t => t.quantity.toNat).sum

/-- The test of `modify` for a change that keeps the order in its place. -/
def Order.keepsPlace (order : Order) (newQty : Quantity) (newPrice : Price) : Bool :=
  newPrice = order.price && newQty > 0 && newQty ≤ order.quantity

/-- What the call itself takes from the order that it names.  A `reduce` takes no more than is
left. -/
def Account.charge (a : Account) (order : Order) : Call → Account
  | .submit _ => a
  | .cancel _ => { a with discarded := a.discarded + order.quantity.toNat }
  | .reduce _ delta => { a with reduced := a.reduced + min delta.toNat order.quantity.toNat }
  | .modify _ newQty newPrice _ =>
    if order.keepsPlace newQty newPrice then
      { a with lowered := a.lowered + (order.quantity.toNat - newQty.toNat) }
    else { a with discarded := a.discarded + order.quantity.toNat }

/-- The entries for a call that found the order as `order`. -/
def Account.enter (a : Account) (order : Order) (c : Call) (trades : List Trade) : Account :=
  let a := { a with traded := a.traded + tradedBy a.id trades }
  if c.target = some a.id then a.charge order c else a

namespace OrderBook

variable {M : Type} [IdMap M]

/-- The order that `find` returns. -/
def lookup (b : OrderBook M) (id : OrderId) : Option Order :=
  match b.find id with
  | .ok (some o) => some (b.slab.storage o).value
  | _ => none

/-- The quantity that rests under the id. -/
def openQty (b : OrderBook M) (id : OrderId) : ℕ :=
  match b.lookup id with
  | some order => order.quantity.toNat
  | none => 0

/-- The id under which the call can let a new order rest: a `submit` that of its order, and a
`modify` that of the order it resubmits. -/
def restsUnder (b : OrderBook M) : Call → Option OrderId
  | .submit o => if b.lookup o.id = none then some o.id else none
  | .modify id newQty newPrice _ =>
    match b.lookup id with
    | some order => if order.keepsPlace newQty newPrice then none else some id
    | none => none
  | _ => none

/-- The account after a call from `b` to `b'`.  It is closed when its order leaves the book, which
it does, too, before another one rests under its id. -/
def recordIn (b : OrderBook M) (c : Call) (trades : List Trade) (b' : OrderBook M) (a : Account) :
    Account :=
  if a.live then
    match b.lookup a.id with
    | none => a
    | some order =>
      { a.enter order c trades with
        live := (b'.lookup a.id).isSome && b.restsUnder c ≠ some a.id }
  else a

/-- The account of the order that has come to rest in a call from `b` to `b'`. -/
def opened (b : OrderBook M) (c : Call) (b' : OrderBook M) : List Account :=
  match b.restsUnder c with
  | none => []
  | some id =>
    match b'.lookup id with
    | none => []
    | some order => [{ id, rested := order.quantity.toNat }]

def record (b : OrderBook M) (c : Call) (trades : List Trade) (b' : OrderBook M)
    (l : List Account) : List Account :=
  l.map (b.recordIn c trades b') ++ b.opened c b'

/-- The book `b` is reached from a fresh one by calls that return, and `l` are the accounts of all
orders that have rested. -/
inductive Ledgered (cfg : Config) : OrderBook M → List Account → Prop where
  | new : Ledgered cfg (new cfg) []
  | step {b b' : OrderBook M} {l : List Account} {c : Call} {ts trades : List Trade}
    (h : Ledgered cfg b l) (hexec : (b.exec c).run ts = .ok b' (ts ++ trades)) :
    Ledgered cfg b' (b.record c trades b' l)

/-- The accounts `l` are balanced, and the open ones are those of the orders in the book. -/
structure Conserved (b : OrderBook M) (l : List Account) : Prop where
  balanced : ∀ a ∈ l, a.rested = a.traded + a.reduced + a.lowered + a.discarded +
    if a.live then b.openQty a.id else 0
  live_iff : ∀ id, (∃ a ∈ l, a.live = true ∧ a.id = id) ↔ b.queue.Rests id
  live_nodup : ((l.filter Account.live).map Account.id).Nodup

/-- The trades of a `submit` make up what it says to have filled, and nothing but what it says to
remain has come to rest, under its id. -/
structure Accounted (b : OrderBook M) (o : NewOrder) (trades : List Trade) (b' : OrderBook M)
    (res : SubmitResult) : Prop where
  filled_eq : (trades.map fun t => t.quantity.toNat).sum = res.filledQty.toNat
  rested : b'.openQty o.id = b.openQty o.id ∨
    b.openQty o.id = 0 ∧ b'.openQty o.id = res.remainingQty.toNat
  others : ∀ id ≠ o.id, b'.openQty id ≤ b.openQty id

end OrderBook

end Lob
