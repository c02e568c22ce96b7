import Lob.OrderBook
import Lob.General.Linked
import Lob.General.Greedy

/-!
# The book as queues

What the order book is for: for each side and level a queue of resting orders, oldest first
(`Queues`), against which an incoming order is filled greedily, best level first.  `OrderBook.queue`
reads a queue off the memory of the book.

`OrderBook.resting` lists all orders of a side in this order, and `OrderBook.visible` the levels
whose bit is set.
-/

namespace Lob

/-- A resting order: its slot in the slab, its id, its price and its open quantity. -/
structure Resting where
  slot : Ptr
  id : OrderId
  price : Price
  qty : Quantity
  deriving DecidableEq, Repr

namespace Resting

def size (r : Resting) : ℕ := r.qty.toNat

/-- The order after giving `n`. -/
def shrink (r : Resting) (n : ℕ) : Resting := { r with qty := r.qty - UInt32.ofNat n }

/-- The trade in which the order gives `n` to an incoming order. -/
def trade (aggressorId : OrderId) (aggressorSide : Side) (ts : Timestamp) (r : Resting) (n : ℕ) :
    Trade :=
  { restingId := r.id, aggressorId, price := r.price, quantity := UInt32.ofNat n, ts,
    aggressorSide }

end Resting

/-- The abstract book. -/
abbrev Queues := Side → ℕ → List Resting

namespace Queues

def empty : Queues := fun _ _ => []

def set (A : Queues) (s : Side) (i : ℕ) (q : List Resting) : Queues :=
  Function.update A s (Function.update (A s) i q)

/-- The orders of the levels `ls` of side `s`, one level after the other. -/
def orders (A : Queues) (s : Side) (ls : List ℕ) : List Resting := ls.flatMap (A s)

/-- An order with this id rests. -/
def Rests (A : Queues) (id : OrderId) : Prop := ∃ s i, ∃ r ∈ A s i, r.id = id

end Queues

/-- Level `i` is a better one than level `j` for those who trade against side `s`. -/
def Better (s : Side) (i j : ℕ) : Prop :=
  match s with
  | .buy => j < i
  | .sell => i < j

/-- All levels, best first. -/
def ladder (s : Side) (n : ℕ) : List ℕ :=
  match s with
  | .buy => (List.range n).reverse
  | .sell => List.range n

namespace OrderBook

variable {M : Type} (b : OrderBook M)

/-- The slots linked on a level, in order. -/
def slots (s : Side) (i : ℕ) : List Ptr :=
  Links.walk (fun p => (b.slab.storage p).value.next) b.slab.capacity (b.level s i).orders.head

def queue : Queues := fun s i => (b.slots s i).map fun p =>
  ⟨p, (b.slab.storage p).value.orderId, (b.slab.storage p).value.price,
    (b.slab.storage p).value.quantity⟩

def bitmap (s : Side) : Bitmap :=
  match s with
  | .buy => b.bidBitmap
  | .sell => b.askBitmap

def bestIdx (s : Side) : ℕ :=
  match s with
  | .buy => b.bestBidIdx
  | .sell => b.bestAskIdx

/-- The orders of side `s`: the best level first, and the oldest order first at each level. -/
def resting (s : Side) : List Resting := b.queue.orders s (ladder s b.cfg.numLevels)

/-- The levels of side `s` whose bit is set, best first. -/
def visible (s : Side) : List ℕ := (ladder s b.cfg.numLevels).filter (b.bitmap s).test

/-- The levels among `ls` at or better than the limit of an incoming order. -/
def upTo (aggressorSide : Side) (limit : ℕ) (ls : List ℕ) : List ℕ :=
  ls.filter fun i => !pastLimit aggressorSide limit i

end OrderBook

end Lob
