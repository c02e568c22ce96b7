import Lob.Queues
import Lob.Itch

/-!
# The book of the exchange

What the order messages of one security say (`Tape`): the orders that are live on the exchange, in
the order in which they arrived, with their prices on the wire.  A message is accepted when it names
live orders, and no more shares of them than are left.

`OrderBook.Reconstructs` says that a book is that of the exchange, its prices counted in ticks.
-/

namespace Lob

open Itch

/-- A live order of the exchange. -/
structure Listed where
  ref : UInt64
  side : Side
  price : UInt32
  shares : UInt32
  deriving DecidableEq, Repr

/-- The order after the one with the reference has lost `n` shares.  It leaves with the last one. -/
def Listed.lessen (o : Listed) (ref : UInt64) (n : UInt32) : Option Listed :=
  if o.ref = ref then if n < o.shares then some { o with shares := o.shares - n } else none
  else some o

/-- The live orders, the oldest first. -/
abbrev Tape := List Listed

namespace Tape

/-- An order of the tape has this reference. -/
def Live (l : Tape) (ref : UInt64) : Prop := ∃ o ∈ l, o.ref = ref

def lessen (l : Tape) (ref : UInt64) (n : UInt32) : Tape := l.filterMap fun o => o.lessen ref n

def without (l : Tape) (ref : UInt64) : Tape := l.filter fun o => o.ref ≠ ref

/-- The live orders after a message.  An order that is replaced leaves its place. -/
def step (l : Tape) : Message → Tape
  | .addOrder a => l ++ [⟨a.orderRef, a.side, a.price, a.shares⟩]
  | .orderExecuted e => l.lessen e.orderRef e.executedShares
  | .orderExecutedWithPrice e => l.lessen e.orderRef e.executedShares
  | .orderCancel c => l.lessen c.orderRef c.cancelledShares
  | .orderDelete d => l.without d.orderRef
  | .orderReplace r =>
    match l.find? fun o => o.ref = r.originalOrderRef with
    | some o => l.without r.originalOrderRef ++ [⟨r.newOrderRef, o.side, r.price, r.shares⟩]
    | none => l
  | _ => l

/-- The live orders after a message of any security, for that with locate `t`. -/
def next (t : UInt16) (l : Tape) (m : Message) : Tape :=
  if m.orderLocate = some t then l.step m else l

/-- The message is valid as to references and shares. -/
def Accepts (l : Tape) : Message → Prop
  | .addOrder a => a.orderRef ≠ 0 ∧ ¬l.Live a.orderRef ∧ 0 < a.shares
  | .orderExecuted e => ∃ o ∈ l, o.ref = e.orderRef ∧ e.executedShares ≤ o.shares
  | .orderExecutedWithPrice e => ∃ o ∈ l, o.ref = e.orderRef ∧ e.executedShares ≤ o.shares
  | .orderCancel c => ∃ o ∈ l, o.ref = c.orderRef ∧ c.cancelledShares ≤ o.shares
  | .orderDelete d => l.Live d.orderRef
  | .orderReplace r =>
    l.Live r.originalOrderRef ∧ r.newOrderRef ≠ 0 ∧ ¬l.Live r.newOrderRef ∧ 0 < r.shares
  | _ => True

/-- Every bid is below every ask. -/
def Uncrossed (l : Tape) : Prop :=
  ∀ x ∈ l, ∀ y ∈ l, x.side = .buy → y.side = .sell → x.price < y.price

instance (l : Tape) (ref : UInt64) : Decidable (l.Live ref) := by unfold Live; infer_instance

instance (l : Tape) (m : Message) : Decidable (l.Accepts m) := by
  cases m <;> unfold Accepts <;> infer_instance

instance (l : Tape) : Decidable l.Uncrossed := by unfold Uncrossed; infer_instance

/-- The live orders after the messages. -/
def after (t : UInt16) (l : Tape) (ms : List Message) : Tape := ms.foldl (next t) l

end Tape

/-! ### In ticks of the engine -/

/-- The ticks of the price.  The tick is divided by as an unsigned number. -/
def Listed.ticks (o : Listed) (itchTick : Int32) : ℕ := (o.price / itchTick.toUInt32).toNat

/-- An order as the book and the tape both have it. -/
structure Quote where
  ref : UInt64
  ticks : ℤ
  shares : UInt32
  deriving DecidableEq, Repr

def Listed.quote (itchTick : Int32) (o : Listed) : Quote := ⟨o.ref, o.ticks itchTick, o.shares⟩

def Resting.quote (r : Resting) : Quote := ⟨r.id, r.price.toInt, r.qty⟩

namespace Tape

/-- The orders of the tape at level `i` of side `s`. -/
def level (cfg : Config) (itchTick : Int32) (l : Tape) (s : Side) (i : ℕ) : List Quote :=
  (l.filter fun o => o.side = s ∧ (o.ticks itchTick : ℤ) = cfg.basePrice.toInt + i).map
    (Listed.quote itchTick)

/-- All prices are whole ticks, and prices of the book; no more orders are live than the book has
room for; and the book of the exchange is not crossed. -/
structure Fits (cfg : Config) (itchTick : Int32) (l : Tape) : Prop where
  whole : ∀ o ∈ l, o.price % itchTick.toUInt32 = 0
  inWindow : ∀ o ∈ l, cfg.basePrice.toInt ≤ o.ticks itchTick ∧
    o.ticks itchTick < cfg.basePrice.toInt + cfg.numLevels ∧ o.ticks itchTick < 2 ^ 31
  room : l.length ≤ cfg.maxOrders
  uncrossed : l.Uncrossed

instance (cfg : Config) (itchTick : Int32) (l : Tape) : Decidable (Fits cfg itchTick l) :=
  decidable_of_iff ((∀ o ∈ l, o.price % itchTick.toUInt32 = 0) ∧
      (∀ o ∈ l, cfg.basePrice.toInt ≤ o.ticks itchTick ∧
        o.ticks itchTick < cfg.basePrice.toInt + cfg.numLevels ∧ o.ticks itchTick < 2 ^ 31) ∧
      l.length ≤ cfg.maxOrders ∧ l.Uncrossed)
    ⟨fun h => ⟨h.1, h.2.1, h.2.2.1, h.2.2.2⟩, fun h => ⟨h.whole, h.inWindow, h.room, h.uncrossed⟩⟩

/-- The messages are a valid tape for the locate `t`, among any messages of other locates. -/
def Valid (cfg : Config) (itchTick : Int32) (t : UInt16) : Tape → List Message → Prop
  | _, [] => True
  | l, m :: ms => (m.orderLocate = some t → l.Accepts m) ∧ Fits cfg itchTick (l.next t m) ∧
    Valid cfg itchTick t (l.next t m) ms

instance instDecidableValid (cfg : Config) (itchTick : Int32) (t : UInt16) :
    ∀ (l : Tape) (ms : List Message), Decidable (Valid cfg itchTick t l ms)
  | _, [] => isTrue trivial
  | l, m :: ms =>
    have := instDecidableValid cfg itchTick t (l.next t m) ms
    inferInstanceAs (Decidable ((m.orderLocate = some t → l.Accepts m) ∧
      Fits cfg itchTick (l.next t m) ∧ Valid cfg itchTick t (l.next t m) ms))

end Tape

/-- **The book is that of the exchange**: at each level the live orders of the tape, in the order in
which they arrived. -/
def OrderBook.Reconstructs {M : Type} (b : OrderBook M) (itchTick : Int32) (l : Tape) : Prop :=
  ∀ s i, (b.queue s i).map Resting.quote = l.level b.cfg itchTick s i

end Lob
