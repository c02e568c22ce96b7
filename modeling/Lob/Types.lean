import Mathlib.Algebra.Ring.Nat

/-!
# Basic types of the order book

`types.hpp` and `order.hpp`.  The fixed-width integers of the source are Lean's own (`Int32`,
`UInt32`, `UInt64`).  `std::size_t` values are natural numbers; the in-band sentinel
`static_cast<std::size_t>(-1)` is `sizeMax`.  A pointer to an `Order` is the number of its slot
in the slab, and a nullable pointer is an `Option`.
-/

namespace Lob

/-- Prices are signed so that sentinels can be represented. -/
abbrev Price := Int32
abbrev Quantity := UInt32
abbrev OrderId := UInt64
/-- Nanoseconds since session midnight. -/
abbrev Timestamp := UInt64

/-- The largest `std::size_t`, `static_cast<std::size_t>(-1)`. -/
def sizeMax : ℕ := 2 ^ 64 - 1

def kInvalidPrice : Price := -1
def kInvalidOrderId : OrderId := 0

inductive Side where
  | buy
  | sell
  deriving DecidableEq, Repr, Inhabited

def opposite : Side → Side
  | .buy => .sell
  | .sell => .buy

inductive OrderType where
  | limit
  | market
  deriving DecidableEq, Repr, Inhabited

inductive TimeInForce where
  | gtc
  | day
  | ioc
  | fok
  | postOnly
  deriving DecidableEq, Repr, Inhabited

structure Trade where
  restingId : OrderId
  aggressorId : OrderId
  price : Price
  quantity : Quantity
  ts : Timestamp
  aggressorSide : Side
  deriving DecidableEq, Repr

inductive OrderStatus where
  | accepted
  | fullyFilled
  | partiallyFilled
  | cancelled
  | rejected
  deriving DecidableEq, Repr, Inhabited

structure SubmitResult where
  status : OrderStatus
  filledQty : Quantity
  remainingQty : Quantity
  deriving DecidableEq, Repr

/-- The address of a slot of the slab. -/
abbrev Ptr := ℕ

/-- A resting order.  The intrusive list links and the cached level index live in the order. -/
structure Order where
  prev : Option Ptr := none
  next : Option Ptr := none
  orderId : OrderId := kInvalidOrderId
  quantity : Quantity := 0
  price : Price := 0
  levelIdx : UInt32 := 0
  side : Side := .buy
  deriving DecidableEq, Repr, Inhabited

/-- The ways a call can fail to return. -/
inductive Fault where
  /-- A loop never reaches its exit. -/
  | hang
  /-- `assert(o != nullptr)` in `insert_resting_`: the slab has no free slot. -/
  | slabExhausted
  /-- A slot that is on the free list is read or written as an `Order`. -/
  | useAfterFree
  /-- A slot that is on the free list is deallocated. -/
  | doubleFree
  /-- A slot that is not in the block of the slab is written. -/
  | outOfBlock
  /-- A number of 64 bits is shifted by 64 bits, which is undefined. -/
  | shiftTooWide
  deriving DecidableEq, Repr

@[simp] theorem opposite_opposite (s : Side) : opposite (opposite s) = s := by cases s <;> rfl

theorem opposite_ne (s : Side) : opposite s ≠ s := by cases s <;> decide

end Lob
