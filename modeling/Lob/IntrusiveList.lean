import Lob.SlabAllocator

/-!
# `IntrusiveList` and `PriceLevel`

The doubly linked list of `intrusive_list.hpp`, with its links inside the orders of the slab, and
the price level built on it.
-/

namespace Lob

structure IntrusiveList where
  head : Option Ptr := none
  tail : Option Ptr := none
  deriving DecidableEq, Repr, Inhabited

namespace IntrusiveList

def isEmpty (l : IntrusiveList) : Bool := l.head.isNone

def pushBack (l : IntrusiveList) (mem : SlabAllocator) (node : Ptr) :
    Except Fault (IntrusiveList × SlabAllocator) := do
  let mem ← mem.write node fun o => { o with prev := l.tail, next := none }
  match l.tail with
  | some t =>
    let mem ← mem.write t fun o => { o with next := some node }
    return ({ l with tail := some node }, mem)
  | none => return ({ head := some node, tail := some node }, mem)

/-- `if (p) p->next = n; else head_ = n;` -/
def linkNext (l : IntrusiveList) (mem : SlabAllocator) (p n : Option Ptr) :
    Except Fault (IntrusiveList × SlabAllocator) :=
  match p with
  | some p => do
    let mem ← mem.write p fun o => { o with next := n }
    return (l, mem)
  | none => return ({ l with head := n }, mem)

/-- `if (n) n->prev = p; else tail_ = p;` -/
def linkPrev (l : IntrusiveList) (mem : SlabAllocator) (p n : Option Ptr) :
    Except Fault (IntrusiveList × SlabAllocator) :=
  match n with
  | some n => do
    let mem ← mem.write n fun o => { o with prev := p }
    return (l, mem)
  | none => return ({ l with tail := p }, mem)

/-- The node keeps its own `prev` and `next`. -/
def unlink (l : IntrusiveList) (mem : SlabAllocator) (node : Ptr) :
    Except Fault (IntrusiveList × SlabAllocator) := do
  let o ← mem.read node
  let (l, mem) ← l.linkNext mem o.prev o.next
  l.linkPrev mem o.prev o.next

/-! ### A family of lists

Lists that share one memory of nodes.  Their nodes are the slots that are handed out. -/

structure Family (ι : Type) where
  lists : ι → IntrusiveList
  mem : SlabAllocator

/-- A call on the list `i`. -/
inductive Call (ι : Type) where
  | pushBack (i : ι) (node : Ptr)
  | unlink (i : ι) (node : Ptr)
  deriving DecidableEq, Repr

variable {ι : Type} [DecidableEq ι]

def Family.call (f : Family ι) : Call ι → Except Fault (Family ι)
  | .pushBack i node => do
    let (l, mem) ← (f.lists i).pushBack f.mem node
    return { lists := Function.update f.lists i l, mem }
  | .unlink i node => do
    let (l, mem) ← (f.lists i).unlink f.mem node
    return { lists := Function.update f.lists i l, mem }

def Family.run (f : Family ι) : List (Call ι) → Except Fault (Family ι)
  | [] => return f
  | c :: cs => do
    let f ← f.call c
    f.run cs

/-- What a call does to the sequences that the lists stand for. -/
def Call.apply (ps : ι → List Ptr) : Call ι → ι → List Ptr
  | .pushBack i node => Function.update ps i (ps i ++ [node])
  | .unlink i node => Function.update ps i ((ps i).erase node)

def applyAll (ps : ι → List Ptr) (cs : List (Call ι)) : ι → List Ptr := cs.foldl Call.apply ps

/-- A node that is pushed is on no list, and one that is unlinked is on the list. -/
def Call.Proper (mem : SlabAllocator) (ps : ι → List Ptr) : Call ι → Prop
  | .pushBack _ node => (mem.storage node).live = true ∧ ∀ j, node ∉ ps j
  | .unlink i node => node ∈ ps i

def AllProper (mem : SlabAllocator) (ps : ι → List Ptr) : List (Call ι) → Prop
  | [] => True
  | c :: cs => c.Proper mem ps ∧ AllProper mem (c.apply ps) cs

end IntrusiveList

/-- The orders resting at one price of one side, oldest first, with their total quantity and
their number kept in 32 bits. -/
structure PriceLevel where
  orders : IntrusiveList := {}
  totalQty : Quantity := 0
  count : UInt32 := 0
  deriving DecidableEq, Repr, Inhabited

def PriceLevel.isEmpty (l : PriceLevel) : Bool := l.count == 0

end Lob
