import Lob.Queues

/-!
# Calls and runs

The four calls that change a book (`Call`), the levels that an incoming order is filled from
(`OrderBook.sources`), and the runs of a fresh book (`Run`).  A call that ends in a fault has no
book after it, so that a run goes through calls that return.
-/

namespace Lob

/-- The arguments of `submit`. -/
structure NewOrder where
  id : OrderId
  side : Side
  type : OrderType
  tif : TimeInForce
  price : Price
  qty : Quantity
  ts : Timestamp
  deriving DecidableEq, Repr

/-- The trades in which the order is filled greedily from the resting orders `q`. -/
def NewOrder.trades (o : NewOrder) (q : List Resting) : List Trade :=
  (Greedy.fills Resting.size q o.qty.toNat).map fun f => f.1.trade o.id o.side o.ts f.2

/-- The resting order is at or better than the limit of the incoming order. -/
def NewOrder.accepts (o : NewOrder) (r : Resting) : Bool :=
  o.type = .market ||
    match o.side with
    | .buy => r.price ≤ o.price
    | .sell => o.price ≤ r.price

/-- The test of `modify` for a change that keeps the order in its place. -/
def Resting.InPlace (r : Resting) (newQty : Quantity) (newPrice : Price) : Prop :=
  newPrice = r.price ∧ newQty > 0 ∧ newQty ≤ r.qty

/-- The order that `modify` submits in place of the order `r` of side `s`. -/
def Resting.replacement (r : Resting) (s : Side) (newQty : Quantity) (newPrice : Price)
    (ts : Timestamp) : NewOrder :=
  { id := r.id, side := s, type := .limit, tif := .gtc, price := newPrice, qty := newQty, ts }

inductive Call where
  | submit (o : NewOrder)
  | cancel (id : OrderId)
  | reduce (id : OrderId) (delta : Quantity)
  | modify (id : OrderId) (newQty : Quantity) (newPrice : Price) (ts : Timestamp)
  deriving DecidableEq, Repr

/-- The id of the order that a `cancel`, `reduce` or `modify` is about. -/
def Call.target : Call → Option OrderId
  | .submit _ => none
  | .cancel id => some id
  | .reduce id _ => some id
  | .modify id _ _ _ => some id

namespace OrderBook

variable {M : Type}

/-- The limit that `submit` passes to `match_`. -/
def limitOf (b : OrderBook M) (o : NewOrder) : ℕ :=
  if o.type = .market then kNoBest else (b.priceToIdx o.price).toNat

/-- The visible levels at or better than the limit of the order, best first. -/
def crossing (b : OrderBook M) (o : NewOrder) : List ℕ :=
  upTo o.side (b.limitOf o) (b.visible (opposite o.side))

/-- The levels that the order is filled from. -/
def sources (b : OrderBook M) (o : NewOrder) : List ℕ :=
  if o.tif = .postOnly then [] else b.crossing o

/-- The orders that an incoming order is to be filled from, best price first and then oldest
first. -/
def reference (b : OrderBook M) (o : NewOrder) : List Resting :=
  (b.resting (opposite o.side)).filter o.accepts

variable [IdMap M]

def submitOrder (b : OrderBook M) (o : NewOrder) : SinkM (OrderBook M × SubmitResult) :=
  b.submit o.id o.side o.type o.tif o.price o.qty o.ts

/-- The book after a call. -/
def exec (b : OrderBook M) : Call → SinkM (OrderBook M)
  | .submit o => do
    let (b, _) ← b.submitOrder o
    return b
  | .cancel id => do
    let (_, b) ← quiet (b.cancel id)
    return b
  | .reduce id delta => do
    let (_, b) ← quiet (b.reduce id delta)
    return b
  | .modify id newQty newPrice ts => do
    let (b, _) ← b.modify id newQty newPrice ts
    return b

/-- The result of a `submit` that returns. -/
def result (b : OrderBook M) (o : NewOrder) : Option SubmitResult :=
  match (b.submitOrder o).run [] with
  | .ok (_, res) _ => some res
  | .error _ _ => none

theorem result_eq_some {b : OrderBook M} {o : NewOrder} {res : SubmitResult}
    (h : b.result o = some res) :
    ∃ b' trades', (b.submitOrder o).run [] = .ok (b', res) trades' := by
  unfold result at h
  cases hx : (b.submitOrder o).run [] with
  | ok x trades' =>
    rw [hx] at h
    obtain rfl := Option.some.inj h
    exact ⟨x.1, trades', rfl⟩
  | error e trades' =>
    rw [hx] at h
    cases h

/-- The call returns. -/
def returns (b : OrderBook M) (c : Call) : Bool :=
  match (b.exec c).run [] with
  | .ok _ _ => true
  | .error _ _ => false

/-- The book after a call that returns. -/
def after (b : OrderBook M) (c : Call) : OrderBook M :=
  match (b.exec c).run [] with
  | .ok b' _ => b'
  | .error _ _ => b

/-- The book `b` is reached from a fresh one by calls that return and meet the condition `ok` in
the state they are made in. -/
inductive Run (ok : OrderBook M → Call → Prop) (cfg : Config) : OrderBook M → Prop where
  | new : Run ok cfg (new cfg)
  | step {b b' : OrderBook M} {c : Call} {ts ts' : List Trade} (h : Run ok cfg b) (hok : ok b c)
    (hexec : (b.exec c).run ts = .ok b' ts') : Run ok cfg b'

theorem Run.mono {ok ok' : OrderBook M → Call → Prop} {cfg : Config} {b : OrderBook M}
    (hok : ∀ b c, ok b c → ok' b c) (h : Run ok cfg b) : Run ok' cfg b := by
  induction h with
  | new => exact .new
  | step _ hc hexec ih => exact .step ih (hok _ _ hc) hexec

theorem Run.after {ok : OrderBook M → Call → Prop} {cfg : Config} {b : OrderBook M}
    (h : Run ok cfg b) {c : Call} (hok : ok b c) (hc : b.returns c = true) :
    Run ok cfg (b.after c) := by
  unfold OrderBook.after
  unfold returns at hc
  cases hexec : (b.exec c).run [] with
  | ok b' ts' => exact .step h hok hexec
  | error e ts' =>
    rw [hexec] at hc
    cases hc

/-- A book that some run reaches. -/
def Reachable (cfg : Config) (b : OrderBook M) : Prop := Run (fun _ _ => True) cfg b

end OrderBook

/-! ### A small book -/

/-- Four levels, from price 0 on, and room for four orders. -/
def smallConfig : Config := ⟨0, 4, 4, by decide, by decide⟩

/-- A limit order that rests until it is cancelled. -/
def gtcOrder (id : OrderId) (side : Side) (price : Price) (qty : Quantity) : NewOrder :=
  { id, side, type := .limit, tif := .gtc, price, qty, ts := 0 }

end Lob
