import Lob.Types
import Mathlib.Logic.Function.Basic

/-!
# `OrderIdMap`

The open-addressing hash table of `order_id_map.hpp`: linear probing, an empty slot marked by
the id `kInvalidOrderId`, backshift deletion.  The table is generic in the type `α` of
addresses; a slot's `value` is a nullable pointer.

Every loop of the source is `for (;;)`.  A probe that has not stopped after `mask + 1` steps has
seen every slot and repeats itself for ever, so it is `none`; the backshift loop gets enough fuel
for every slot to be shifted into its own hash slot.
-/

namespace Lob

structure OrderIdMap.Slot (α : Type) where
  id : OrderId := kInvalidOrderId
  value : Option α := none
  deriving DecidableEq, Repr

structure OrderIdMap (α : Type) where
  mask : ℕ
  slots : ℕ → OrderIdMap.Slot α
  size : UInt64

namespace OrderIdMap

variable {α : Type}

/-- splitmix64. -/
def hash (x : OrderId) : UInt64 :=
  let x := (x ^^^ (x >>> 30)) * 0xbf58476d1ce4e5b9
  let x := (x ^^^ (x >>> 27)) * 0x94d049bb133111eb
  x ^^^ (x >>> 31)

/-- For `n ≤ 2 ^ 63`: above that the shift of the source is by 64 bits. -/
def roundUpPow2 (n : ℕ) : ℕ :=
  if n < 2 then 2 else 1 <<< (64 - (BitVec.ofNat 64 (n - 1)).clz.toNat)

/-- The table that the constructor makes if `round_up_pow2` is defined: every slot empty with a
null pointer. -/
def new (initialCapacity : ℕ) : OrderIdMap α where
  mask := roundUpPow2 initialCapacity - 1
  slots := fun _ => {}
  size := 0

/-- The constructor.  `make_unique` gives the slots that are asked for. -/
def construct (initialCapacity : ℕ) : Except Fault (OrderIdMap α) :=
  if initialCapacity ≤ 2 ^ 63 then .ok (new initialCapacity) else .error .shiftTooWide

def capacity (m : OrderIdMap α) : ℕ := m.mask + 1

/-- The slot where the probe for `id` starts, `hash(id) & mask_`. -/
def homeSlot (m : OrderIdMap α) (id : OrderId) : ℕ := (hash id).toNat &&& m.mask

def nextSlot (m : OrderIdMap α) (i : ℕ) : ℕ := (i + 1) &&& m.mask

/-- The probe loop shared by the three operations: the first slot from `i` on that holds `id` or
is empty. -/
def probe (m : OrderIdMap α) (id : OrderId) : ℕ → ℕ → Option ℕ
  | 0, _ => none
  | fuel + 1, i =>
    if (m.slots i).id = id ∨ (m.slots i).id = kInvalidOrderId then some i
    else m.probe id fuel (m.nextSlot i)

/-- The probe of a whole call. -/
def locate (m : OrderIdMap α) (id : OrderId) : Option ℕ := m.probe id (m.mask + 1) (m.homeSlot id)

def insert (m : OrderIdMap α) (id : OrderId) (value : Option α) :
    Option (Bool × OrderIdMap α) := do
  let i ← m.locate id
  if (m.slots i).id = kInvalidOrderId then
    return (true, { m with slots := Function.update m.slots i ⟨id, value⟩, size := m.size + 1 })
  else
    return (false, m)

/-- The comparison with `id` comes before the test for an empty slot. -/
def find (m : OrderIdMap α) (id : OrderId) : Option (Option α) := do
  let i ← m.locate id
  if (m.slots i).id = id then return (m.slots i).value else return none

/-- `slots_[hole].id = kInvalidOrderId; --size_`: the pointer stays in the slot. -/
def vacate (m : OrderIdMap α) (hole : ℕ) : OrderIdMap α :=
  { m with
    slots := Function.update m.slots hole { m.slots hole with id := kInvalidOrderId }
    size := m.size - 1 }

/-- The backshift loop of `erase`: the entry after the hole moves into it until the slot after
the hole is empty or holds an entry in its own hash slot. -/
def backshift (m : OrderIdMap α) : ℕ → ℕ → Option (Bool × OrderIdMap α)
  | 0, _ => none
  | fuel + 1, hole =>
    let next := m.nextSlot hole
    let n := m.slots next
    if n.id = kInvalidOrderId then some (true, m.vacate hole)
    else
      let ideal := m.homeSlot n.id
      -- `(next - ideal) & mask_` in 64-bit arithmetic
      let distNext := (next + 2 ^ 64 - ideal) % 2 ^ 64 &&& m.mask
      if distNext = 0 then some (true, m.vacate hole)
      else backshift { m with slots := Function.update m.slots hole n } fuel next

def erase (m : OrderIdMap α) (id : OrderId) : Option (Bool × OrderIdMap α) := do
  let i ← m.locate id
  if (m.slots i).id = id then m.backshift ((m.mask + 1) * (m.mask + 1)) i
  else return (false, m)

end OrderIdMap

end Lob
