import Lob.General.BoundedQueue
import Mathlib.Algebra.Ring.Nat
import Mathlib.Logic.Function.Basic

/-!
# `SpscRing`

The ring buffer of `spsc_ring.hpp` for one producer and one consumer.  A load, a check, a copy and
a store of `try_push` and `try_pop` are a step each (`producerStep`, `consumerStep`), and an
`Action` says whose turn it is, so that a run (`Trace`) is any interleaving of the two.  What a
step does is reported as an `Event`.
-/

namespace Lob

structure SpscRing (T : Type) where
  mask : UInt64
  buf : ℕ → T
  head : UInt64
  cachedTail : UInt64
  tail : UInt64
  cachedHead : UInt64

namespace SpscRing

variable {T : Type}

/-- The assertion of the constructor: a power of two from 2 to `2^63`. -/
def IsCapacity (C : ℕ) : Prop := ∃ k, 0 < k ∧ k < 64 ∧ C = 2 ^ k

/-- `std::make_unique` initializes the elements. -/
def new [Inhabited T] (capacity : UInt64) : SpscRing T where
  mask := capacity - 1
  buf := fun _ => default
  head := 0
  cachedTail := 0
  tail := 0
  cachedHead := 0

/-- The element `buf_[cursor & mask_]`. -/
def slot (r : SpscRing T) (cursor : UInt64) : ℕ := (cursor &&& r.mask).toNat

def capacity (r : SpscRing T) : UInt64 := r.mask + 1

/-- `next - cached_tail_ > mask_ + 1`. -/
def full (r : SpscRing T) (head : UInt64) : Bool := head + 1 - r.cachedTail > r.mask + 1

/-- Where the producer is in `try_push`, with the value to be pushed and `head`. -/
inductive Producer (T : Type) where
  | idle
  | check (v : T) (head : UInt64)
  | refresh (v : T) (head : UInt64)
  | recheck (v : T) (head : UInt64)
  | copy (v : T) (head : UInt64)
  | store (v : T) (head : UInt64)

/-- Where the consumer is in `try_pop`, with `tail`, and the value once it has been copied. -/
inductive Consumer (T : Type) where
  | idle
  | check (tail : UInt64)
  | refresh (tail : UInt64)
  | recheck (tail : UInt64)
  | copy (tail : UInt64)
  | store (tail : UInt64) (out : T)

/-- What a step does, as far as others can tell. -/
inductive Event (T : Type) where
  | silent
  /-- `cached_tail_` is loaded anew. -/
  | refreshTail
  /-- `cached_head_` is loaded anew. -/
  | refreshHead
  /-- `try_push(v)` returns true. -/
  | pushed (v : T)
  /-- `try_push` returns false. -/
  | full
  /-- `try_pop` returns true with the value `v`. -/
  | popped (v : T)
  /-- `try_pop` returns false. -/
  | empty

/-- The next step of `try_push`.  An idle producer calls `try_push(v)`. -/
def producerStep (r : SpscRing T) (v : T) : Producer T → Event T × SpscRing T × Producer T
  | .idle => (.silent, r, .check v r.head)
  | .check v head =>
    if r.full head then (.silent, r, .refresh v head) else (.silent, r, .copy v head)
  | .refresh v head => (.refreshTail, { r with cachedTail := r.tail }, .recheck v head)
  | .recheck v head => if r.full head then (.full, r, .idle) else (.silent, r, .copy v head)
  | .copy v head =>
    (.silent, { r with buf := Function.update r.buf (r.slot head) v }, .store v head)
  | .store v head => (.pushed v, { r with head := head + 1 }, .idle)

/-- The next step of `try_pop`.  An idle consumer calls `try_pop`. -/
def consumerStep (r : SpscRing T) : Consumer T → Event T × SpscRing T × Consumer T
  | .idle => (.silent, r, .check r.tail)
  | .check tail =>
    if tail = r.cachedHead then (.silent, r, .refresh tail) else (.silent, r, .copy tail)
  | .refresh tail => (.refreshHead, { r with cachedHead := r.head }, .recheck tail)
  | .recheck tail =>
    if tail = r.cachedHead then (.empty, r, .idle) else (.silent, r, .copy tail)
  | .copy tail => (.silent, r, .store tail (r.buf (r.slot tail)))
  | .store tail out => (.popped out, { r with tail := tail + 1 }, .idle)

/-! ### Runs -/

/-- The ring with its two users. -/
structure State (T : Type) where
  ring : SpscRing T
  producer : Producer T := .idle
  consumer : Consumer T := .idle

/-- Whose turn it is.  A producer that is not in a call makes one with the value `v`. -/
inductive Action (T : Type) where
  | producer (v : T)
  | consumer

def step (s : State T) : Action T → Event T × State T
  | .producer v =>
    let (e, ring, producer) := s.ring.producerStep v s.producer
    (e, { s with ring, producer })
  | .consumer =>
    let (e, ring, consumer) := s.ring.consumerStep s.consumer
    (e, { s with ring, consumer })

/-- The events of a run from a fresh ring, with the state that it ends in. -/
inductive Trace [Inhabited T] (capacity : UInt64) : List (Event T) → State T → Prop where
  | new : Trace capacity [] { ring := new capacity }
  | step {es : List (Event T)} {s : State T} (h : Trace capacity es s) (a : Action T) :
    Trace capacity (es ++ [(step s a).1]) (step s a).2

/-! ### Reports -/

open BoundedQueue (Op)

/-- The operation that a call has performed when it returns true. -/
def Event.op : Event T → Option (Op T)
  | .pushed v => some (.push v)
  | .popped v => some (.pop v)
  | _ => none

def ops (es : List (Event T)) : List (Op T) := es.filterMap Event.op

/-- The values pushed successfully, in order. -/
def pushed (es : List (Event T)) : List T := BoundedQueue.pushes (ops es)

/-- The values popped successfully, in order. -/
def popped (es : List (Event T)) : List T := BoundedQueue.pops (ops es)

/-- The number of values that have been pushed and not yet been popped. -/
def outstanding (es : List (Event T)) : ℕ := (pushed es).length - (popped es).length

/-- The event is a report of the producer. -/
def Event.byProducer : Event T → Bool
  | .refreshTail | .pushed _ | .full => true
  | _ => false

/-- The event is a report of the consumer. -/
def Event.byConsumer : Event T → Bool
  | .refreshHead | .popped _ | .empty => true
  | _ => false

/-- The last report among `es` of the party `mine` is `e`, and `P` holds of the events before
it. -/
def Since (mine : Event T → Bool) (e : Event T) (es : List (Event T))
    (P : List (Event T) → Prop) : Prop :=
  ∃ before after, es = before ++ e :: after ∧ (∀ x ∈ after, mine x = false) ∧ P before

/-- **A bounded queue.**  The values popped are the first of the values pushed, no more than `C`
values are outstanding, and a call fails only if the queue was full, or empty, when it looked. -/
structure BoundedFifo (C : ℕ) (es : List (Event T)) : Prop where
  fifo : popped es <+: pushed es
  bounded : outstanding es ≤ C
  full : ∀ pre post, es = pre ++ .full :: post →
    Since Event.byProducer .refreshTail pre fun before => outstanding before = C
  empty : ∀ pre post, es = pre ++ .empty :: post →
    Since Event.byConsumer .refreshHead pre fun before => outstanding before = 0

/-! ### `size_approx`

A call of `size_approx` loads the two cursors one after the other, and C++ leaves open which one
comes first.  The thread that makes the calls is the producer, the consumer or a third one.  The
loads leave the ring alone, so the calls of one thread do not affect those of another. -/

inductive LoadOrder where
  | headFirst
  | tailFirst

/-- Where a thread is in `size_approx`, with the cursor that it has loaded. -/
inductive SizeApprox where
  | idle
  | loadTail (head : UInt64)
  | loadHead (tail : UInt64)

inductive Caller where
  | producer
  | consumer
  | observer

/-- The ring with its two users and the thread that calls `size_approx`. -/
structure Watched (T : Type) where
  state : State T
  sizeApprox : SizeApprox := .idle

/-- Whose turn it is: that of a user of the ring, or that of `size_approx`.  A thread that is not
in `size_approx` calls it with the order `order` of the loads. -/
inductive Move (T : Type) where
  | act (a : Action T)
  | load (order : LoadOrder)

inductive Report (T : Type) where
  | event (e : Event T)
  /-- The first of the two cursors is loaded. -/
  | loaded (order : LoadOrder)
  /-- `size_approx` returns `n`. -/
  | size (n : UInt64)

/-- The next load of `size_approx`. -/
def sizeApproxStep (r : SpscRing T) (order : LoadOrder) : SizeApprox → Report T × SizeApprox
  | .idle =>
    match order with
    | .headFirst => (.loaded .headFirst, .loadTail r.head)
    | .tailFirst => (.loaded .tailFirst, .loadHead r.tail)
  | .loadTail head => (.size (head - r.tail), .idle)
  | .loadHead tail => (.size (r.head - tail), .idle)

def move (w : Watched T) : Move T → Report T × Watched T
  | .act a =>
    let (e, state) := step w.state a
    (.event e, { w with state })
  | .load order =>
    let (report, sizeApprox) := w.state.ring.sizeApproxStep order w.sizeApprox
    (report, { w with sizeApprox })

/-- A thread is in one call at a time. -/
def Caller.May (caller : Caller) (w : Watched T) : Move T → Prop
  | .act (.producer _) => caller = .producer → w.sizeApprox = .idle
  | .act .consumer => caller = .consumer → w.sizeApprox = .idle
  | .load _ => (caller = .producer → w.state.producer = .idle) ∧
    (caller = .consumer → w.state.consumer = .idle)

/-- The reports of a run in which `caller` calls `size_approx`, with the state that it ends in. -/
inductive WatchedTrace [Inhabited T] (caller : Caller) (capacity : UInt64) :
    List (Report T) → Watched T → Prop where
  | new : WatchedTrace caller capacity [] { state := { ring := new capacity } }
  | move {rs : List (Report T)} {w : Watched T} (h : WatchedTrace caller capacity rs w)
    {m : Move T} (hm : caller.May w m) :
    WatchedTrace caller capacity (rs ++ [(move w m).1]) (move w m).2

/-- What the users of the ring report. -/
def Report.event? : Report T → Option (Event T)
  | .event e => some e
  | _ => none

def events (rs : List (Report T)) : List (Event T) := rs.filterMap Report.event?

/-- The number of outstanding values that two loads make out, the first after the events `before`
and the second after those `between` as well. -/
def LoadOrder.seen (before between : List (Event T)) : LoadOrder → ℤ
  | .headFirst => (outstanding before : ℤ) - (popped between).length
  | .tailFirst => (outstanding before : ℤ) + (pushed between).length

/-! ### The round trip

One thread pushes the values of a list, each with `while (!ring.try_push(i))`, and another one calls
`try_pop` until it has received as many values as it is to. -/

structure RoundTrip (T : Type) where
  state : State T
  /-- The values that have not been pushed, the next one first. -/
  todo : List T
  received : List T := []

namespace RoundTrip

inductive Thread where
  | producer
  | consumer

/-- The two threads before their first step. -/
def start [Inhabited T] (capacity : UInt64) (values : List T) : RoundTrip T where
  state := { ring := new capacity }
  todo := values

/-- The next step of a thread, when `n` values are to be received.  A thread whose loop has ended
takes no more steps. -/
def turn (n : ℕ) (x : RoundTrip T) : Thread → RoundTrip T
  | .producer =>
    match x.todo with
    | [] => x
    | v :: todo =>
      match step x.state (.producer v) with
      | (.pushed _, state) => { x with state, todo }
      | (_, state) => { x with state }
  | .consumer =>
    if x.received.length < n then
      match step x.state .consumer with
      | (.popped v, state) => { x with state, received := x.received ++ [v] }
      | (_, state) => { x with state }
    else x

/-- Both loops have ended, and `values` have been received. -/
structure Delivered (values : List T) (x : RoundTrip T) : Prop where
  received_eq : x.received = values
  todo_eq : x.todo = []
  producer_eq : x.state.producer = .idle
  consumer_eq : x.state.consumer = .idle

end RoundTrip

end SpscRing

end Lob
