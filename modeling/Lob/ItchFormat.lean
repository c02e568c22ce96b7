import Lob.Itch
import Lob.General.BigEndian
import Mathlib.Logic.Relation

/-!
# The ITCH wire format

What the parser is for.  A buffer is a sequence of frames, each a two-byte length and a body of
that length (`FrameAt`).  `Wire` is a message of the TotalView-ITCH 5.0 format with all its fields,
`Wire.body` its bytes and `Wire.call` what a handler is to be told.
-/

namespace Lob.Itch

/-! ### Frames of a buffer -/

section Buffer

variable (data : ℕ → UInt8) (len : ℕ)

/-- The length that the frame at `pos` announces. -/
def frameLength (pos : ℕ) : ℕ := BigEndian.value [data pos, data (pos + 1)]

/-- The frame at `pos` ends within the buffer. -/
def Complete (pos : ℕ) : Prop := pos + kFrameLengthBytes + frameLength data pos ≤ len

/-- A frame starts at `pos'` where the one at `pos` ends. -/
def NextFrame (pos pos' : ℕ) : Prop :=
  Complete data len pos ∧ pos' = pos + kFrameLengthBytes + frameLength data pos

/-- A frame starts at `pos`. -/
def FrameAt (pos : ℕ) : Prop := Relation.ReflTransGen (NextFrame data len) 0 pos

/-- How many bytes of a body of this type the parser unpacks. -/
def extent (type : UInt8) : ℕ :=
  match MessageType.ofByte type with
  | some .systemEvent => 12
  | some .stockDirectory => 20
  | some .addOrder | some .addOrderMpid => 36
  | some .orderExecuted => 31
  | some .orderExecutedWithPrice => 36
  | some .orderCancel => 23
  | some .orderDelete => 19
  | some .orderReplace => 35
  | none => 1

/-- No complete frame announces fewer bytes than are unpacked for its type. -/
def LongEnough : Prop :=
  ∀ pos, FrameAt data len pos → Complete data len pos →
    extent (data (pos + kFrameLengthBytes)) ≤ frameLength data pos

/-- **The parser reads only inside the frame** that it handles, so that it reads nothing past the
buffer and delivers nothing that depends on other bytes. -/
structure ReadsInside : Prop where
  confined : ∀ f ∈ (parse data len).value.1, ∀ a ∈ f.handling.reads,
    f.body ≤ a ∧ a < f.body + f.msgLen.toNat
  inBuffer : ∀ a ∈ (parse data len).reads, a < len
  independent : ∀ f ∈ (parse data len).value.1, ∀ data' : ℕ → UInt8,
    (∀ a, f.body ≤ a → a < f.body + f.msgLen.toNat → data' a = data a) →
      (decode data' f.body f.msgLen).value = f.handling.value

end Buffer

/-! ### Messages on the wire -/

/-- A message with the fields that are on the wire. -/
inductive Wire where
  | systemEvent (locate tracking : UInt16) (ev : SystemEvent)
  | stockDirectory (tracking : UInt16) (sd : StockDirectory) (rest : Vector UInt8 19)
  | addOrder (a : AddOrder)
  | addOrderMpid (a : AddOrder) (mpid : Vector UInt8 4)
  | orderExecuted (tracking : UInt16) (e : OrderExecuted)
  | orderExecutedWithPrice (tracking : UInt16) (e : OrderExecutedWithPrice)
  | orderCancel (tracking : UInt16) (c : OrderCancel)
  | orderDelete (tracking : UInt16) (d : OrderDelete)
  | orderReplace (tracking : UInt16) (r : OrderReplace)
  | other (type : UInt8) (rest : List UInt8)

namespace Wire

open BigEndian (encode)

/-- The eleven bytes that all messages start with. -/
def header (type : MessageType) (locate tracking : UInt16) (tsNs : UInt64) : List UInt8 :=
  type.code :: (encode 2 locate.toNat ++ encode 2 tracking.toNat ++ encode 6 tsNs.toNat)

def sideCode : Side → UInt8
  | .buy => 'B'.toUInt8
  | .sell => 'S'.toUInt8

def printableCode (printable : Bool) : UInt8 := if printable then 'Y'.toUInt8 else 'N'.toUInt8

def addOrderBody (type : MessageType) (a : AddOrder) : List UInt8 :=
  header type a.stockLocate a.trackingNumber a.tsNs ++ encode 8 a.orderRef.toNat ++
    [sideCode a.side] ++ encode 4 a.shares.toNat ++ a.stock.toList ++ encode 4 a.price.toNat

/-- The body of the message. -/
def body : Wire → List UInt8
  | systemEvent locate tracking ev =>
    header .systemEvent locate tracking ev.tsNs ++ [ev.eventCode]
  | stockDirectory tracking sd rest =>
    header .stockDirectory sd.stockLocate tracking sd.tsNs ++ sd.stock.toList ++
      [sd.marketCategory] ++ rest.toList
  | addOrder a => addOrderBody .addOrder a
  | addOrderMpid a mpid => addOrderBody .addOrderMpid a ++ mpid.toList
  | orderExecuted tracking e =>
    header .orderExecuted e.stockLocate tracking e.tsNs ++ encode 8 e.orderRef.toNat ++
      encode 4 e.executedShares.toNat ++ encode 8 e.matchNumber.toNat
  | orderExecutedWithPrice tracking e =>
    header .orderExecutedWithPrice e.stockLocate tracking e.tsNs ++ encode 8 e.orderRef.toNat ++
      encode 4 e.executedShares.toNat ++ encode 8 e.matchNumber.toNat ++
      [printableCode e.printable] ++ encode 4 e.executionPrice.toNat
  | orderCancel tracking c =>
    header .orderCancel c.stockLocate tracking c.tsNs ++ encode 8 c.orderRef.toNat ++
      encode 4 c.cancelledShares.toNat
  | orderDelete tracking d =>
    header .orderDelete d.stockLocate tracking d.tsNs ++ encode 8 d.orderRef.toNat
  | orderReplace tracking r =>
    header .orderReplace r.stockLocate tracking r.tsNs ++ encode 8 r.originalOrderRef.toNat ++
      encode 8 r.newOrderRef.toNat ++ encode 4 r.shares.toNat ++ encode 4 r.price.toNat
  | other type rest => type :: rest

/-- The call that the message is to lead to, in a frame of length `length`. -/
def call (length : ℕ) : Wire → Message
  | systemEvent _ _ ev => .systemEvent ev
  | stockDirectory _ sd _ => .stockDirectory sd
  | addOrder a => .addOrder a
  | addOrderMpid a _ => .addOrder a
  | orderExecuted _ e => .orderExecuted e
  | orderExecutedWithPrice _ e => .orderExecutedWithPrice e
  | orderCancel _ c => .orderCancel c
  | orderDelete _ d => .orderDelete d
  | orderReplace _ r => .orderReplace r
  | other type _ => .unhandled type length

/-- Timestamps have 48 bits on the wire, and `other` is for the types that are not listed. -/
def Valid : Wire → Prop
  | systemEvent _ _ ev => ev.tsNs.toNat < 2 ^ 48
  | stockDirectory _ sd _ => sd.tsNs.toNat < 2 ^ 48
  | addOrder a => a.tsNs.toNat < 2 ^ 48
  | addOrderMpid a _ => a.tsNs.toNat < 2 ^ 48
  | orderExecuted _ e => e.tsNs.toNat < 2 ^ 48
  | orderExecutedWithPrice _ e => e.tsNs.toNat < 2 ^ 48
  | orderCancel _ c => c.tsNs.toNat < 2 ^ 48
  | orderDelete _ d => d.tsNs.toNat < 2 ^ 48
  | orderReplace _ r => r.tsNs.toNat < 2 ^ 48
  | other type _ => MessageType.ofByte type = none

end Wire

/-- A message with the bytes that follow it in its frame. -/
structure Frame where
  wire : Wire
  trailing : List UInt8
  valid : wire.Valid
  fits : (wire.body ++ trailing).length < 2 ^ 16

namespace Frame

def length (f : Frame) : ℕ := (f.wire.body ++ f.trailing).length

def bytes (f : Frame) : List UInt8 :=
  BigEndian.encode 2 f.length ++ (f.wire.body ++ f.trailing)

def call (f : Frame) : Message := f.wire.call f.length

end Frame

/-- The memory has the bytes `bs` from the address `p` on. -/
def Holds (data : ℕ → UInt8) (p : ℕ) (bs : List UInt8) : Prop :=
  ∀ i b, bs[i]? = some b → data (p + i) = b

end Lob.Itch
