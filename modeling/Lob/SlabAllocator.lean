import Lob.Types
import Mathlib.Data.Finset.Basic
import Mathlib.Logic.Function.Basic

/-!
# `SlabAllocator`

The slab of `slab_allocator.hpp` for `T = Order`.  A slot is the `union` of an `Order` and a
free-list link: the link occupies the first bytes of the slot, which are the bytes of
`Order::prev` (`Slot.next`).  Besides its bytes a slot carries the ghost flag `live`, set while
the slot is handed out; the program never reads it, and an access that the flag forbids is a
`Fault`.
-/

namespace Lob

structure Slot where
  value : Order := {}
  live : Bool := false
  deriving DecidableEq, Repr, Inhabited

namespace Slot

/-- The free-list link of the `union`. -/
def next (s : Slot) : Option Ptr := s.value.prev

def setNext (s : Slot) (p : Option Ptr) : Slot := { s with value := { s.value with prev := p } }

end Slot

structure SlabAllocator where
  capacity : ℕ
  storage : Ptr → Slot
  freeHead : Option Ptr
  inUse : ℕ

namespace SlabAllocator

/-- `sizeof(Slot)`. -/
def slotBytes : ℕ := 40

/-- The size of the block that the constructor asks for, `capacity * sizeof(Slot)` in
`std::size_t`. -/
def blockBytes (capacity : ℕ) : ℕ := capacity * slotBytes % 2 ^ 64

/-- The slab before the constructor's loop. -/
def unthreaded (capacity : ℕ) : SlabAllocator :=
  { capacity, storage := fun _ => {}, freeHead := none, inUse := 0 }

/-- One round of the constructor's loop. -/
def threadSlot (i : ℕ) (s : SlabAllocator) : SlabAllocator :=
  { s with
    storage := Function.update s.storage i ((s.storage i).setNext s.freeHead)
    freeHead := some i }

/-- The constructor's loop `for (i = capacity_; i-- > 0;)`, on a block of `bytes` bytes. -/
def threadBlock (bytes : ℕ) : ℕ → SlabAllocator → Except Fault SlabAllocator
  | 0, s => .ok s
  | i + 1, s =>
    if bytes < (i + 1) * slotBytes then .error .outOfBlock else threadBlock bytes i (s.threadSlot i)

/-- The constructor.  `operator new[]` gives the block that is asked for. -/
def construct (capacity : ℕ) : Except Fault SlabAllocator :=
  threadBlock (blockBytes capacity) capacity (unthreaded capacity)

/-- The constructor's loop where every slot is in the block. -/
def thread : ℕ → SlabAllocator → SlabAllocator
  | 0, s => s
  | i + 1, s => thread i (s.threadSlot i)

/-- The slab that the constructor makes if every slot is in the block. -/
def new (capacity : ℕ) : SlabAllocator := thread capacity (unthreaded capacity)

/-- `nullptr` (`none`) when the pool is exhausted. -/
def allocate (s : SlabAllocator) : Option Ptr × SlabAllocator :=
  match s.freeHead with
  | none => (none, s)
  | some p =>
    (some p, { s with
      storage := Function.update s.storage p { s.storage p with live := true }
      freeHead := (s.storage p).next
      inUse := s.inUse + 1 })

def deallocate (s : SlabAllocator) (p : Ptr) : Except Fault SlabAllocator :=
  if (s.storage p).live then
    .ok { s with
      storage := Function.update s.storage p
        { (s.storage p).setNext s.freeHead with live := false }
      freeHead := some p
      inUse := s.inUse - 1 }
  else .error .doubleFree

/-- Reading the `Order` at `p`. -/
def read (s : SlabAllocator) (p : Ptr) : Except Fault Order :=
  if (s.storage p).live then .ok (s.storage p).value else .error .useAfterFree

/-- Assigning to fields of the `Order` at `p`. -/
def write (s : SlabAllocator) (p : Ptr) (f : Order → Order) : Except Fault SlabAllocator :=
  if (s.storage p).live then
    .ok { s with
      storage := Function.update s.storage p
        { s.storage p with value := f (s.storage p).value } }
  else .error .useAfterFree

/-! ### Runs -/

/-- The states of a slab whose client gives back only slots that it holds, and writes whatever it
likes into those.  It holds the slots `A`: those that `allocate` has returned and that it has not
given back since. -/
inductive Reaches (capacity : ℕ) : SlabAllocator → Finset Ptr → Prop where
  | new {s : SlabAllocator} (hs : construct capacity = .ok s) : Reaches capacity s ∅
  | exhausted {s s' : SlabAllocator} {A : Finset Ptr} (h : Reaches capacity s A)
    (ha : s.allocate = (none, s')) : Reaches capacity s' A
  | allocate {s s' : SlabAllocator} {A : Finset Ptr} {p : Ptr} (h : Reaches capacity s A)
    (ha : s.allocate = (some p, s')) : Reaches capacity s' (insert p A)
  | deallocate {s s' : SlabAllocator} {A : Finset Ptr} {p : Ptr} (h : Reaches capacity s A)
    (hp : p ∈ A) (hd : s.deallocate p = .ok s') : Reaches capacity s' (A.erase p)
  | overwrite {s s' : SlabAllocator} {A : Finset Ptr} {p : Ptr} (h : Reaches capacity s A)
    (hp : p ∈ A) (o : Order) (hw : s.write p (fun _ => o) = .ok s') : Reaches capacity s' A

end SlabAllocator

end Lob
