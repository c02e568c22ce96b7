import Lob.Types

/-!
# `itch.hpp` and `itch_parser.cpp`

The messages of the ITCH subset and the parser.  The parser works on a memory `data`, which gives
a byte for every address from the start of the buffer on, also for those past its end; `Reads`
keeps the addresses that a computation has read.  A call of the handler is a `Message`.

Positions are natural numbers: no buffer is as large as `2^63` bytes.
-/

namespace Lob

namespace Itch

def kFrameLengthBytes : ℕ := 2

/-- The message types that the parser unpacks. -/
inductive MessageType where
  | systemEvent
  | stockDirectory
  | addOrder
  | addOrderMpid
  | orderExecuted
  | orderExecutedWithPrice
  | orderCancel
  | orderDelete
  | orderReplace
  deriving DecidableEq, Repr

namespace MessageType

/-- The type byte. -/
def code : MessageType → UInt8
  | systemEvent => 'S'.toUInt8
  | stockDirectory => 'R'.toUInt8
  | addOrder => 'A'.toUInt8
  | addOrderMpid => 'F'.toUInt8
  | orderExecuted => 'E'.toUInt8
  | orderExecutedWithPrice => 'C'.toUInt8
  | orderCancel => 'X'.toUInt8
  | orderDelete => 'D'.toUInt8
  | orderReplace => 'U'.toUInt8

def all : List MessageType :=
  [systemEvent, stockDirectory, addOrder, addOrderMpid, orderExecuted, orderExecutedWithPrice,
    orderCancel, orderDelete, orderReplace]

/-- The label that a `switch` on the type byte goes to, if it is not `default`. -/
def ofByte (type : UInt8) : Option MessageType := all.find? fun t => t.code == type

end MessageType

/-- Eight characters, padded with spaces on the right. -/
abbrev Symbol := Vector UInt8 8

structure AddOrder where
  stockLocate : UInt16
  trackingNumber : UInt16
  tsNs : UInt64
  orderRef : UInt64
  side : Side
  shares : UInt32
  stock : Symbol
  price : UInt32
  deriving DecidableEq, Repr

structure OrderExecuted where
  stockLocate : UInt16
  tsNs : UInt64
  orderRef : UInt64
  executedShares : UInt32
  matchNumber : UInt64
  deriving DecidableEq, Repr

structure OrderExecutedWithPrice where
  stockLocate : UInt16
  tsNs : UInt64
  orderRef : UInt64
  executedShares : UInt32
  matchNumber : UInt64
  printable : Bool
  executionPrice : UInt32
  deriving DecidableEq, Repr

structure OrderCancel where
  stockLocate : UInt16
  tsNs : UInt64
  orderRef : UInt64
  cancelledShares : UInt32
  deriving DecidableEq, Repr

structure OrderDelete where
  stockLocate : UInt16
  tsNs : UInt64
  orderRef : UInt64
  deriving DecidableEq, Repr

structure OrderReplace where
  stockLocate : UInt16
  tsNs : UInt64
  originalOrderRef : UInt64
  newOrderRef : UInt64
  shares : UInt32
  price : UInt32
  deriving DecidableEq, Repr

structure SystemEvent where
  tsNs : UInt64
  eventCode : UInt8
  deriving DecidableEq, Repr

structure StockDirectory where
  stockLocate : UInt16
  tsNs : UInt64
  stock : Symbol
  marketCategory : UInt8
  deriving DecidableEq, Repr

/-- A call of the `ItchHandler`. -/
inductive Message where
  | systemEvent (ev : SystemEvent)
  | stockDirectory (sd : StockDirectory)
  | addOrder (a : AddOrder)
  | orderExecuted (e : OrderExecuted)
  | orderExecutedWithPrice (e : OrderExecutedWithPrice)
  | orderCancel (c : OrderCancel)
  | orderDelete (d : OrderDelete)
  | orderReplace (r : OrderReplace)
  | unhandled (type : UInt8) (length : ℕ)
  deriving DecidableEq, Repr

/-- The locate of an order message. -/
def Message.orderLocate : Message → Option UInt16
  | .addOrder a => some a.stockLocate
  | .orderExecuted e => some e.stockLocate
  | .orderExecutedWithPrice e => some e.stockLocate
  | .orderCancel c => some c.stockLocate
  | .orderDelete d => some d.stockLocate
  | .orderReplace r => some r.stockLocate
  | _ => none

/-! ### Reading memory -/

/-- A value with the addresses that have been read for it. -/
structure Reads (α : Type) where
  value : α
  reads : List ℕ

instance : Monad Reads where
  pure a := ⟨a, []⟩
  bind x f := ⟨(f x.value).value, x.reads ++ (f x.value).reads⟩

section Readers

variable (data : ℕ → UInt8) (p : ℕ)

def byte : Reads UInt8 := ⟨data p, [p]⟩

def be16 : Reads UInt16 := do
  let b0 ← byte data p
  let b1 ← byte data (p + 1)
  return (b0.toUInt16 <<< 8) ||| b1.toUInt16

def be32 : Reads UInt32 := do
  let b0 ← byte data p
  let b1 ← byte data (p + 1)
  let b2 ← byte data (p + 2)
  let b3 ← byte data (p + 3)
  return (b0.toUInt32 <<< 24) ||| (b1.toUInt32 <<< 16) ||| (b2.toUInt32 <<< 8) ||| b3.toUInt32

/-- ITCH timestamps are 48-bit nanoseconds since session midnight. -/
def be48 : Reads UInt64 := do
  let b0 ← byte data p
  let b1 ← byte data (p + 1)
  let b2 ← byte data (p + 2)
  let b3 ← byte data (p + 3)
  let b4 ← byte data (p + 4)
  let b5 ← byte data (p + 5)
  return (b0.toUInt64 <<< 40) ||| (b1.toUInt64 <<< 32) ||| (b2.toUInt64 <<< 24) |||
    (b3.toUInt64 <<< 16) ||| (b4.toUInt64 <<< 8) ||| b5.toUInt64

def be64 : Reads UInt64 := do
  let hi ← be32 data p
  let lo ← be32 data (p + 4)
  return (hi.toUInt64 <<< 32) ||| lo.toUInt64

def readSymbol : Reads Symbol := ⟨Vector.ofFn fun i => data (p + i), List.range' p 8⟩

end Readers

/-! ### The parser -/

/-- The `switch` of `parse`, for a message whose body of length `msgLen` starts at `m`. -/
def decode (data : ℕ → UInt8) (m : ℕ) (msgLen : UInt16) : Reads Message := do
  let type ← byte data m
  match MessageType.ofByte type with
  | some .systemEvent =>
    let tsNs ← be48 data (m + 5)
    let eventCode ← byte data (m + 11)
    return .systemEvent { tsNs, eventCode }
  | some .stockDirectory =>
    let stockLocate ← be16 data (m + 1)
    let tsNs ← be48 data (m + 5)
    let stock ← readSymbol data (m + 11)
    let marketCategory ← byte data (m + 19)
    return .stockDirectory { stockLocate, tsNs, stock, marketCategory }
  | some .addOrder | some .addOrderMpid =>
    let stockLocate ← be16 data (m + 1)
    let trackingNumber ← be16 data (m + 3)
    let tsNs ← be48 data (m + 5)
    let orderRef ← be64 data (m + 11)
    let indicator ← byte data (m + 19)
    let side := if indicator = 'B'.toUInt8 then .buy else .sell
    let shares ← be32 data (m + 20)
    let stock ← readSymbol data (m + 24)
    let price ← be32 data (m + 32)
    return .addOrder { stockLocate, trackingNumber, tsNs, orderRef, side, shares, stock, price }
  | some .orderExecuted =>
    let stockLocate ← be16 data (m + 1)
    let tsNs ← be48 data (m + 5)
    let orderRef ← be64 data (m + 11)
    let executedShares ← be32 data (m + 19)
    let matchNumber ← be64 data (m + 23)
    return .orderExecuted { stockLocate, tsNs, orderRef, executedShares, matchNumber }
  | some .orderExecutedWithPrice =>
    let stockLocate ← be16 data (m + 1)
    let tsNs ← be48 data (m + 5)
    let orderRef ← be64 data (m + 11)
    let executedShares ← be32 data (m + 19)
    let matchNumber ← be64 data (m + 23)
    let flag ← byte data (m + 31)
    let printable := flag == 'Y'.toUInt8
    let executionPrice ← be32 data (m + 32)
    return .orderExecutedWithPrice
      { stockLocate, tsNs, orderRef, executedShares, matchNumber, printable, executionPrice }
  | some .orderCancel =>
    let stockLocate ← be16 data (m + 1)
    let tsNs ← be48 data (m + 5)
    let orderRef ← be64 data (m + 11)
    let cancelledShares ← be32 data (m + 19)
    return .orderCancel { stockLocate, tsNs, orderRef, cancelledShares }
  | some .orderDelete =>
    let stockLocate ← be16 data (m + 1)
    let tsNs ← be48 data (m + 5)
    let orderRef ← be64 data (m + 11)
    return .orderDelete { stockLocate, tsNs, orderRef }
  | some .orderReplace =>
    let stockLocate ← be16 data (m + 1)
    let tsNs ← be48 data (m + 5)
    let originalOrderRef ← be64 data (m + 11)
    let newOrderRef ← be64 data (m + 19)
    let shares ← be32 data (m + 27)
    let price ← be32 data (m + 31)
    return .orderReplace { stockLocate, tsNs, originalOrderRef, newOrderRef, shares, price }
  | none => return .unhandled type msgLen.toNat

/-- A frame that `parse` has handled: where its body is, and what it read and delivered. -/
structure Handled where
  body : ℕ
  msgLen : UInt16
  handling : Reads Message

/-- The loop of `parse`.  The answer is `count` with the frames handled. -/
def parseLoop (data : ℕ → UInt8) (len pos count : ℕ) : Reads (List Handled × ℕ) :=
  if _h : pos + kFrameLengthBytes ≤ len then do
    let msgLen ← be16 data pos
    -- a truncated tail ends the loop
    if pos + kFrameLengthBytes + msgLen.toNat > len then return ([], count)
    else
      let m := pos + kFrameLengthBytes
      let handling := decode data m msgLen
      let _ ← handling
      let (later, count) ← parseLoop data len (m + msgLen.toNat) (count + 1)
      return (⟨m, msgLen, handling⟩ :: later, count)
  else return ([], count)
termination_by len - pos
decreasing_by
  unfold kFrameLengthBytes at *
  omega

def parse (data : ℕ → UInt8) (len : ℕ) : Reads (List Handled × ℕ) := parseLoop data len 0 0

/-- The calls of the handler, in order. -/
def calls (data : ℕ → UInt8) (len : ℕ) : List Message :=
  (parse data len).value.1.map fun f => f.handling.value

/-- The number of messages that `parse` reports. -/
def count (data : ℕ → UInt8) (len : ℕ) : ℕ := (parse data len).value.2

end Itch

end Lob
