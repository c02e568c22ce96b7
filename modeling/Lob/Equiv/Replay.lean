import Lob.Replay
import Lob.Tape
import Lob.Equiv.OrderBook.Lifecycle

/-!
# Replay reconstructs the book of the exchange

`Mirrors` relates a handler to the tape that it has seen: each level of its book holds the live
orders of that level.  Every valid message keeps it (`Mirrors.onMessage`), as `cancel`, `reduce` and
a `submit` that crosses nothing do to the queues what the message does to the tape.  So does every
valid tape (`reconstructed`).
-/

namespace Lob

open Itch Queues OrderBook

variable {M : Type} {A : Queues} {l : Tape} {cfg : Config} {itchTick : Int32} {t : UInt16}
  {s : Side} {i : ℕ}

/-! ### The same step on queues and tapes -/

/-- What is left of an order that loses `n` shares. -/
def Quote.lessen (q : Quote) (ref : UInt64) (n : UInt32) : Option Quote :=
  if q.ref = ref then if n < q.shares then some { q with shares := q.shares - n } else none
  else some q

/-- The levels of the tape are those of the queues. -/
def View (cfg : Config) (itchTick : Int32) (A : Queues) (l : Tape) : Prop :=
  ∀ s i, (A s i).map Resting.quote = l.level cfg itchTick s i

theorem View.without (h : View cfg itchTick A l) (ref : UInt64) :
    View cfg itchTick (A.without ref) (l.without ref) := by
  intro s i
  have hqueue : ((A s i).filter fun r => r.id ≠ ref).map Resting.quote =
      ((A s i).map Resting.quote).filter fun q => q.ref ≠ ref := by
    rw [List.filter_map]
    rfl
  show ((A s i).filter fun r => r.id ≠ ref).map Resting.quote = _
  rw [hqueue, h s i]
  unfold Tape.level Tape.without
  rw [List.filter_map, List.filter_comm]
  rfl

theorem Resting.quote_lessen (r : Resting) (ref : UInt64) (n : UInt32) :
    (r.lessen ref n).map Resting.quote = r.quote.lessen ref n := by
  unfold Resting.lessen Quote.lessen
  show _ = if r.id = ref then if n < r.qty then _ else _ else _
  split_ifs <;> rfl

theorem Listed.quote_lessen (itchTick : Int32) (o : Listed) (ref : UInt64) (n : UInt32) :
    (o.lessen ref n).map (Listed.quote itchTick) = (o.quote itchTick).lessen ref n := by
  unfold Listed.lessen Quote.lessen
  show _ = if o.ref = ref then if n < o.shares then _ else _ else _
  split_ifs <;> rfl

/-- An order that loses shares keeps all but these. -/
theorem Listed.lessen_fields {o o' : Listed} {ref : UInt64} {n : UInt32}
    (h : o.lessen ref n = some o') : o'.ref = o.ref ∧ o'.side = o.side ∧ o'.price = o.price := by
  unfold Listed.lessen at h
  split_ifs at h <;> obtain rfl := Option.some.inj h <;> exact ⟨rfl, rfl, rfl⟩

theorem View.lessen (h : View cfg itchTick A l) (ref : UInt64) (n : UInt32) :
    View cfg itchTick (A.lessen ref n) (l.lessen ref n) := by
  intro s i
  show ((A s i).filterMap fun r => r.lessen ref n).map Resting.quote = _
  rw [List.map_filterMap, funext fun r => Resting.quote_lessen r ref n]
  show (A s i).filterMap ((fun q => q.lessen ref n) ∘ Resting.quote) = _
  rw [← List.filterMap_map, h s i]
  unfold Tape.level Tape.lessen
  rw [List.filterMap_map, List.filterMap_filter, List.filter_filterMap, List.map_filterMap]
  refine List.filterMap_congr fun o _ => ?_
  -- a loss of shares leaves the order on its level
  have hquote := o.quote_lessen itchTick ref n
  show (if _ then (o.quote itchTick).lessen ref n else none) = _
  rw [← hquote]
  cases hlessen : o.lessen ref n with
  | none => simp
  | some o' =>
    obtain ⟨-, hside, hprice⟩ := Listed.lessen_fields hlessen
    unfold Listed.ticks
    simp only [Option.filter_some, hside, hprice]
    split_ifs <;> rfl

/-- The price on the wire and that of the book, as long as this is not negative. -/
theorem toInt_enginePrice {o : Listed} (h : o.ticks itchTick < 2 ^ 31) :
    (enginePrice itchTick o.price).toInt = o.ticks itchTick := by
  have hbits : (enginePrice itchTick o.price).toBitVec.toNat = o.ticks itchTick := rfl
  have hint := BitVec.toInt_eq_toNat_of_lt (x := (enginePrice itchTick o.price).toBitVec) (by omega)
  rw [hbits] at hint
  exact hint

theorem View.append (h : View cfg itchTick A l) {o : Listed} {k : ℕ} {p : Ptr}
    (hlt : o.ticks itchTick < 2 ^ 31) (hk : o.ticks itchTick = cfg.basePrice.toInt + k) :
    View cfg itchTick
      (A.set o.side k (A o.side k ++ [⟨p, o.ref, enginePrice itchTick o.price, o.shares⟩]))
      (l ++ [o]) := by
  intro s i
  have hlevel : ∀ s i, Tape.level cfg itchTick (l ++ [o]) s i = l.level cfg itchTick s i ++
      Tape.level cfg itchTick [o] s i := by
    intro s i
    unfold Tape.level
    rw [List.filter_append, List.map_append]
  rw [hlevel]
  revert s i
  apply set_forall (P := fun s i q => q.map Resting.quote =
    l.level cfg itchTick s i ++ Tape.level cfg itchTick [o] s i)
  · rw [List.map_append, h]
    congr 1
    unfold Tape.level
    rw [List.filter_cons_of_pos (by simp [hk])]
    show [Quote.mk o.ref (enginePrice itchTick o.price).toInt o.shares] = _
    rw [toInt_enginePrice hlt]
    rfl
  · intro s i hne
    unfold Tape.level
    rw [h s i, List.filter_cons_of_neg, List.filter_nil]
    · exact (List.append_nil _).symm
    · simp only [decide_eq_true_eq, not_and]
      rintro rfl hi
      exact hne rfl (by omega)

/-! ### Orders of the tape and of the book -/

theorem View.mem_tape (h : View cfg itchTick A l) {r : Resting} (hr : r ∈ A s i) :
    ∃ o ∈ l, o.quote itchTick = r.quote ∧ o.side = s := by
  have hmem := List.mem_map_of_mem (f := Resting.quote) hr
  rw [h s i] at hmem
  obtain ⟨o, ho, hquote⟩ := List.mem_map.mp hmem
  obtain ⟨ho, hat⟩ := List.mem_filter.mp ho
  exact ⟨o, ho, hquote, (of_decide_eq_true hat).1⟩

theorem View.mem_book (h : View cfg itchTick A l) {o : Listed} (ho : o ∈ l)
    (hle : cfg.basePrice.toInt ≤ o.ticks itchTick) :
    ∃ i, ∃ r ∈ A o.side i, r.quote = o.quote itchTick := by
  obtain ⟨k, hk⟩ := Int.le.dest hle
  have hmem : o.quote itchTick ∈ l.level cfg itchTick o.side k :=
    List.mem_map_of_mem (List.mem_filter.mpr ⟨ho, by simp [hk]⟩)
  rw [← h] at hmem
  obtain ⟨r, hr, hquote⟩ := List.mem_map.mp hmem
  exact ⟨k, r, hr, hquote⟩

/-- An order rests under an id if and only if it is live under this reference. -/
theorem View.rests_iff (h : View cfg itchTick A l) (hfits : l.Fits cfg itchTick) (ref : UInt64) :
    A.Rests ref ↔ l.Live ref := by
  constructor
  · rintro ⟨s, i, r, hr, rfl⟩
    obtain ⟨o, ho, hquote, -⟩ := h.mem_tape hr
    exact ⟨o, ho, congrArg Quote.ref hquote⟩
  · rintro ⟨o, ho, rfl⟩
    obtain ⟨i, r, hr, hquote⟩ := h.mem_book ho (hfits.inWindow o ho).1
    exact ⟨o.side, i, r, hr, congrArg Quote.ref hquote⟩

/-- In ticks, the order `o` is at or through the price of the order `y` of the other side. -/
def Listed.Meets (itchTick : Int32) (o y : Listed) : Prop :=
  match o.side with
  | .buy => enginePrice itchTick y.price ≤ enginePrice itchTick o.price
  | .sell => enginePrice itchTick o.price ≤ enginePrice itchTick y.price

instance (itchTick : Int32) (o y : Listed) : Decidable (o.Meets itchTick y) := by
  unfold Listed.Meets
  split <;> infer_instance

/-- Whole ticks compare as the prices on the wire. -/
theorem enginePrice_lt {x y : Listed} (hx : x.ticks itchTick < 2 ^ 31)
    (hy : y.ticks itchTick < 2 ^ 31) (hwhole : y.price % itchTick.toUInt32 = 0)
    (h : x.price < y.price) : enginePrice itchTick x.price < enginePrice itchTick y.price := by
  have hticks : x.ticks itchTick < y.ticks itchTick := by
    unfold Listed.ticks
    rw [UInt32.toNat_div, UInt32.toNat_div]
    refine Nat.div_lt_div_of_lt_of_dvd (Nat.dvd_of_mod_eq_zero ?_) (UInt32.lt_iff_toNat_lt.mp h)
    rw [← UInt32.toNat_mod, hwhole]
    rfl
  rw [Int32.lt_iff_toInt_lt, toInt_enginePrice hx, toInt_enginePrice hy]
  exact Int.ofNat_lt.mpr hticks

/-- Orders at whole ticks that are apart on the exchange are apart in the book. -/
theorem Listed.not_meets_of_whole {o y : Listed} (huncrossed : l.Uncrossed) (ho : o ∈ l)
    (hy : y ∈ l) (hside : y.side = opposite o.side)
    (hwhole : ∀ x ∈ l, x.price % itchTick.toUInt32 = 0)
    (hsmall : ∀ x ∈ l, x.ticks itchTick < 2 ^ 31) : ¬o.Meets itchTick y := by
  unfold Listed.Meets
  cases hs : o.side with
  | buy =>
    rw [hs] at hside
    have hlt := enginePrice_lt (hsmall o ho) (hsmall y hy) (hwhole y hy)
      (huncrossed o ho y hy hs hside)
    exact Int32.not_le.mpr hlt
  | sell =>
    rw [hs] at hside
    have hlt := enginePrice_lt (hsmall y hy) (hsmall o ho) (hwhole o ho)
      (huncrossed y hy o ho hside hs)
    exact Int32.not_le.mpr hlt

theorem Tape.Fits.left {o : Listed} (h : Tape.Fits cfg itchTick (l ++ [o])) :
    l.Fits cfg itchTick where
  whole x hx := h.whole x (List.mem_append_left _ hx)
  inWindow x hx := h.inWindow x (List.mem_append_left _ hx)
  room := by
    have hroom := h.room
    rw [List.length_append] at hroom
    exact (Nat.le_add_right _ _).trans hroom
  uncrossed x hx y hy := h.uncrossed x (List.mem_append_left _ hx) y (List.mem_append_left _ hy)

/-- The order that a replace brings to the tape has the side of the one that it replaces. -/
theorem Tape.step_replace {r : OrderReplace} (h : l.Live r.originalOrderRef) :
    ∃ o ∈ l, o.ref = r.originalOrderRef ∧ l.step (.orderReplace r) =
      l.without r.originalOrderRef ++ [⟨r.newOrderRef, o.side, r.price, r.shares⟩] := by
  obtain ⟨o, hfind⟩ : ∃ o, l.find? (fun o => o.ref = r.originalOrderRef) = some o := by
    obtain ⟨o, ho, href⟩ := h
    exact Option.isSome_iff_exists.mp (List.find?_isSome.mpr ⟨o, ho, decide_eq_true href⟩)
  refine ⟨o, List.mem_of_find?_eq_some hfind, by simpa using List.find?_some hfind, ?_⟩
  unfold Tape.step
  dsimp only
  rw [hfind]

theorem Tape.not_live_without {ref : UInt64} (h : ¬l.Live ref) (old : UInt64) :
    ¬(l.without old).Live ref := by
  rintro ⟨o, ho, href⟩
  exact h ⟨o, List.mem_of_mem_filter ho, href⟩

/-! ### Messages and calls -/

/-- The call by id that the handler makes for a message of its security. -/
def Itch.Message.call : Message → Option Call
  | .orderExecuted e => some (.reduce e.orderRef e.executedShares)
  | .orderExecutedWithPrice e => some (.reduce e.orderRef e.executedShares)
  | .orderCancel c => some (.reduce c.orderRef c.cancelledShares)
  | .orderDelete d => some (.cancel d.orderRef)
  | .orderReplace r => some (.cancel r.originalOrderRef)
  | _ => none

theorem Tape.step_reduces {m : Message} {ref : UInt64} {n : UInt32}
    (h : m.call = some (.reduce ref n)) (l : Tape) : l.step m = l.lessen ref n := by
  cases m with
  | orderExecuted | orderExecutedWithPrice | orderCancel =>
    cases h
    rfl
  | _ => cases h

/-- The handler takes a book over, and counts the message. -/
structure Commits (h : ReplayHandler M) (f : OrderBook M → ReplayHandler M) : Prop where
  book_eq : ∀ b, (f b).book = b
  symbol_eq : ∀ b, (f b).symbol = h.symbol
  tick_eq : ∀ b, (f b).itchTick = h.itchTick
  target_eq : ∀ b, (f b).targetLocate = h.targetLocate
  count_eq : ∀ b, (f b).counters.sum = h.counters.sum + 1

theorem commits_adds (h : ReplayHandler M) :
    Commits h fun book => { h with book, adds := h.adds + 1 } :=
  ⟨fun _ => rfl, fun _ => rfl, fun _ => rfl, fun _ => rfl,
    fun _ => by simp only [ReplayHandler.sum_counters]; omega⟩

theorem commits_execs (h : ReplayHandler M) :
    Commits h fun book => { h with book, execs := h.execs + 1 } :=
  ⟨fun _ => rfl, fun _ => rfl, fun _ => rfl, fun _ => rfl,
    fun _ => by simp only [ReplayHandler.sum_counters]; omega⟩

theorem commits_cancels (h : ReplayHandler M) :
    Commits h fun book => { h with book, cancels := h.cancels + 1 } :=
  ⟨fun _ => rfl, fun _ => rfl, fun _ => rfl, fun _ => rfl,
    fun _ => by simp only [ReplayHandler.sum_counters]; omega⟩

theorem commits_deletes (h : ReplayHandler M) :
    Commits h fun book => { h with book, deletes := h.deletes + 1 } :=
  ⟨fun _ => rfl, fun _ => rfl, fun _ => rfl, fun _ => rfl,
    fun _ => by simp only [ReplayHandler.sum_counters]; omega⟩

theorem commits_replaces (h : ReplayHandler M) :
    Commits h fun book => { h with book, replaces := h.replaces + 1 } :=
  ⟨fun _ => rfl, fun _ => rfl, fun _ => rfl, fun _ => rfl,
    fun _ => by simp only [ReplayHandler.sum_counters]; omega⟩

/-! ### A new order -/

/-- The order that the handler submits for an order of the tape. -/
def Listed.toOrder (itchTick : Int32) (o : Listed) (tsNs : UInt64) : NewOrder :=
  { id := o.ref, side := o.side, type := .limit, tif := .gtc,
    price := enginePrice itchTick o.price, qty := o.shares, ts := tsNs }

theorem toOrder_accepts_buy {o : Listed} (hs : o.side = .buy) {tsNs : UInt64} (r : Resting) :
    (o.toOrder itchTick tsNs).accepts r = decide (r.price ≤ enginePrice itchTick o.price) := by
  unfold NewOrder.accepts Listed.toOrder
  rw [hs]
  rfl

theorem toOrder_accepts_sell {o : Listed} (hs : o.side = .sell) {tsNs : UInt64} (r : Resting) :
    (o.toOrder itchTick tsNs).accepts r = decide (enginePrice itchTick o.price ≤ r.price) := by
  unfold NewOrder.accepts Listed.toOrder
  rw [hs]
  rfl

theorem Listed.accepts_eq_false {o y : Listed} {tsNs : UInt64} {r : Resting}
    (hmeets : ¬o.Meets itchTick y) (hprice : enginePrice itchTick y.price = r.price) :
    (o.toOrder itchTick tsNs).accepts r = false := by
  unfold Listed.Meets at hmeets
  cases hs : o.side with
  | buy =>
    rw [hs, hprice] at hmeets
    rw [toOrder_accepts_buy hs]
    exact decide_eq_false hmeets
  | sell =>
    rw [hs, hprice] at hmeets
    rw [toOrder_accepts_sell hs]
    exact decide_eq_false hmeets

variable [IdMap M] [IndexedBy M]

/-- **An order that crosses nothing on the exchange** comes to rest. -/
theorem View.submit (h : View cfg itchTick A l) {b : OrderBook M} (hgood : Good b A)
    (hcfg : b.cfg = cfg) (hbase : 0 ≤ cfg.basePrice.toInt) {o : Listed}
    (hfits : Tape.Fits cfg itchTick (l ++ [o])) (href : o.ref ≠ 0) (hlive : ¬l.Live o.ref)
    (hshares : 0 < o.shares) (tsNs : UInt64) (trades : List Trade) :
    ∃ b' A', (b.submitOrder (o.toOrder itchTick tsNs)).run trades =
        .ok (b', ⟨.accepted, 0, o.shares⟩) trades ∧
      b'.cfg = cfg ∧ Good b' A' ∧ View cfg itchTick A' (l ++ [o]) := by
  have ho : o ∈ l ++ [o] := List.mem_append_right _ (List.mem_singleton_self o)
  obtain ⟨hle, hlt, hsmall⟩ := hfits.inWindow o ho
  obtain ⟨k, hk⟩ := Int.le.dest hle
  have hprice := toInt_enginePrice hsmall
  have hrange : b.inRange (enginePrice itchTick o.price) = true := by
    subst hcfg
    exact inRange_of_level (hprice.trans hk.symm) (by omega) (by omega)
  have hidx : (b.priceToIdx (enginePrice itchTick o.price)).toNat = k := by
    obtain ⟨j, -, -, hj, hidx, -⟩ := inRange_spec hrange
    rw [hcfg] at hj
    omega
  have hrejects : ¬Rejects b A (o.toOrder itchTick tsNs) := by
    rintro (hqty | hid | hrests | ⟨-, hout⟩)
    · exact UInt32.pos_iff_ne_zero.mp hshares hqty
    · exact href hid
    · exact hlive ((h.rests_iff hfits.left _).mp hrests)
    · exact hout hrange
  -- the exchange would have executed the order otherwise
  have hapart : ∀ i, b.bit (opposite o.side) i = true → ∀ r ∈ A (opposite o.side) i,
      (o.toOrder itchTick tsNs).accepts r = false := by
    intro i _ r hr
    obtain ⟨y, hy, hquote, hside⟩ := h.mem_tape hr
    have hy' : y ∈ l ++ [o] := List.mem_append_left _ hy
    have hsmall := fun x hx => (hfits.inWindow x hx).2.2
    have hyprice : enginePrice itchTick y.price = r.price := by
      apply Int32.toInt_inj.mp
      rw [toInt_enginePrice (hsmall y hy')]
      exact congrArg Quote.ticks hquote
    exact Listed.accepts_eq_false
      (Listed.not_meets_of_whole hfits.uncrossed ho hy' hside hfits.whole hsmall) hyprice
  have hsrc : b.sources (o.toOrder itchTick tsNs) = [] :=
    hgood.sources_of_apart (o := o.toOrder itchTick tsNs) (fun _ => hrange) hapart
  rcases hgood.submit_appends rfl rfl hrejects hsrc trades with
    ⟨hfull, -⟩ | ⟨b', p, hrun, hb, hgood'⟩
  · -- the book has a slot for each live order
    have hopen : b.openOrders ≤ (l.map Listed.ref).length := by
      refine hgood.openOrders_le fun id hid => ?_
      obtain ⟨y, hy, hyid⟩ := (h.rests_iff hfits.left id).mp hid
      exact List.mem_map.mpr ⟨y, hy, hyid⟩
    have hroom := hfits.room
    rw [List.length_append, List.length_singleton] at hroom
    rw [hfull, hcfg, List.length_map] at hopen
    omega
  · have happend := h.append (p := p) hsmall hk.symm
    rw [← hidx] at happend
    exact ⟨b', _, hrun, hb.trans hcfg, hgood', happend⟩

/-! ### The calls of the handler -/

section Calls

variable {h : ReplayHandler M} {b' : OrderBook M} {trades trades' : List Trade}

omit [IndexedBy M] in
/-- An order message that carries another locate than the handler is ignored. -/
theorem onMessage_ignored {m : Message} {c : UInt16} (hm : m.orderLocate = some c)
    (hc : c ≠ h.targetLocate) : (h.onMessage m).run trades = .ok h trades := by
  cases m with
  | systemEvent | unhandled | stockDirectory => cases hm
  | addOrder | orderExecuted | orderExecutedWithPrice | orderCancel | orderDelete | orderReplace =>
    obtain rfl := Option.some.inj hm
    refine congrArg (fun x => EStateM.run x trades) (if_pos hc)

omit [IndexedBy M] in
/-- A message of another security does nothing once the locate is known. -/
theorem onMessage_other {m : Message} (htarget : h.targetLocate ≠ 0)
    (hm : m.orderLocate ≠ some h.targetLocate) : (h.onMessage m).run trades = .ok h trades := by
  cases m with
  | systemEvent | unhandled => rfl
  | stockDirectory d =>
    show EStateM.Result.ok (h.onStockDirectory d) trades = _
    unfold ReplayHandler.onStockDirectory
    rw [if_neg fun hcon => htarget hcon.1]
  | addOrder | orderExecuted | orderExecutedWithPrice | orderCancel | orderDelete | orderReplace =>
    exact onMessage_ignored rfl fun heq => hm (congrArg some heq)

omit [IndexedBy M] in
theorem replay_cons {m : Message} {ms : List Message} {h' : ReplayHandler M}
    (hm : (h.onMessage m).run trades = .ok h' trades') :
    (h.replay (m :: ms)).run trades = (h'.replay ms).run trades' :=
  sink_bind hm _

omit [IndexedBy M] in
theorem onAddOrder_eq {a : AddOrder} (ha : a.stockLocate = h.targetLocate) :
    h.onAddOrder a = do
      let (book, _) ← h.book.submitOrder (h.order a.orderRef a.side a.price a.shares a.tsNs)
      return { h with book, adds := h.adds + 1 } :=
  if_neg (not_not.mpr ha)

omit [IndexedBy M] in
theorem onAddOrder_run {a : AddOrder} (ha : a.stockLocate = h.targetLocate) {res : SubmitResult}
    (hrun : (h.book.submitOrder (h.order a.orderRef a.side a.price a.shares a.tsNs)).run trades =
      .ok (b', res) trades') :
    (h.onAddOrder a).run trades = .ok { h with book := b', adds := h.adds + 1 } trades' := by
  rw [onAddOrder_eq ha, sink_bind hrun]
  rfl

omit [IndexedBy M] in
/-- The messages that take shares from an order do so by a `reduce`. -/
theorem onMessage_reduces {m : Message} {ref : UInt64} {n : UInt32}
    (hm : m.orderLocate = some h.targetLocate) (hcall : m.call = some (.reduce ref n)) :
    ∃ f, Commits h f ∧ h.onMessage m = do
      let (_, book) ← quiet (h.book.reduce ref n)
      return f book := by
  cases m with
  | orderExecuted | orderExecutedWithPrice =>
    cases hcall
    exact ⟨_, commits_execs h, if_neg (not_not.mpr (Option.some.inj hm))⟩
  | orderCancel =>
    cases hcall
    exact ⟨_, commits_cancels h, if_neg (not_not.mpr (Option.some.inj hm))⟩
  | _ => cases hcall

omit [IndexedBy M] in
theorem onMessage_deletes {d : OrderDelete} (hd : d.stockLocate = h.targetLocate) :
    ∃ f, Commits h f ∧ h.onMessage (.orderDelete d) = do
      let (_, book) ← quiet (h.book.cancel d.orderRef)
      return f book :=
  ⟨_, commits_deletes h, if_neg (not_not.mpr hd)⟩

omit [IndexedBy M] in
/-- A message whose call by id returns. -/
theorem onMessage_of_call {m : Message} {f : OrderBook M → ReplayHandler M}
    {x : Except Fault (Bool × OrderBook M)} {found : Bool}
    (hon : h.onMessage m = do
      let (_, book) ← quiet x
      return f book)
    (hx : x = .ok (found, b')) (trades : List Trade) :
    (h.onMessage m).run trades = .ok (f b') trades := by
  rw [hon, sink_bind (quiet_ok hx trades)]
  rfl

/-- A replace takes the side from the order that it finds. -/
theorem onOrderReplace_run {r : OrderReplace} (hr : r.stockLocate = h.targetLocate)
    (hgood : Good h.book A) {original : Resting} (ho : original ∈ A s i)
    (hid : original.id = r.originalOrderRef) {found : Bool} {b₁ : OrderBook M}
    (hcancel : h.book.cancel r.originalOrderRef = .ok (found, b₁)) {res : SubmitResult}
    (hrun : (b₁.submitOrder (h.order r.newOrderRef s r.price r.shares r.tsNs)).run trades =
      .ok (b', res) trades') :
    (h.onOrderReplace r).run trades =
      .ok { h with book := b', replaces := h.replaces + 1 } trades' := by
  obtain ⟨xs, ys, hq⟩ := List.append_of_mem ho
  have hfind : h.book.find r.originalOrderRef = .ok (some original.slot) := hid ▸ hgood.find_some hq
  have hside := (hgood.core.placed s i original ho).side_eq
  unfold ReplayHandler.onOrderReplace
  rw [if_neg (not_not.mpr hr), sink_bind (quiet_ok hfind trades)]
  dsimp only
  rw [sink_bind (quiet_ok (hgood.read_eq hq) trades), sink_bind (quiet_ok hcancel trades), hside]
  dsimp only
  rw [sink_bind hrun]
  rfl

end Calls

/-! ### Every valid message -/

/-- The book is that of the tape. -/
structure Mirrors (cfg : Config) (itchTick : Int32) (b : OrderBook M) (A : Queues) (l : Tape) :
    Prop where
  good : Good b A
  cfg_eq : b.cfg = cfg
  view : View cfg itchTick A l

variable {b : OrderBook M}

theorem Mirrors.lessen {b' : OrderBook M} (h : Mirrors cfg itchTick b A l) {ref : UInt64}
    {n : UInt32} (hgood : Good b' (A.lessen ref n)) (hcfg : b'.cfg = b.cfg) :
    Mirrors cfg itchTick b' (A.lessen ref n) (l.lessen ref n) where
  good := hgood
  cfg_eq := hcfg.trans h.cfg_eq
  view := h.view.lessen ref n

theorem Mirrors.without {b' : OrderBook M} (h : Mirrors cfg itchTick b A l) {ref : UInt64}
    (hgood : Good b' (A.without ref)) (hcfg : b'.cfg = b.cfg) :
    Mirrors cfg itchTick b' (A.without ref) (l.without ref) where
  good := hgood
  cfg_eq := hcfg.trans h.cfg_eq
  view := h.view.without ref

theorem Mirrors.append (h : Mirrors cfg itchTick b A l) (hbase : 0 ≤ cfg.basePrice.toInt)
    {o : Listed} (hfits : Tape.Fits cfg itchTick (l ++ [o])) (href : o.ref ≠ 0)
    (hlive : ¬l.Live o.ref) (hshares : 0 < o.shares) (tsNs : UInt64) (trades : List Trade) :
    ∃ b' A', (b.submitOrder (o.toOrder itchTick tsNs)).run trades =
        .ok (b', ⟨.accepted, 0, o.shares⟩) trades ∧
      Mirrors cfg itchTick b' A' (l ++ [o]) := by
  obtain ⟨b', A', hrun, hcfg, hgood, hview⟩ :=
    h.view.submit h.good h.cfg_eq hbase hfits href hlive hshares tsNs trades
  exact ⟨b', A', hrun, hgood, hcfg, hview⟩

/-! ### The run -/

section Run

variable {M : Type} [IdMap M] [IndexedBy M] {h : ReplayHandler M} {A : Queues} {trades : List Trade}

/-- The handler is on the track of the tape. -/
structure Follows (cfg : Config) (itchTick : Int32) (t : UInt16) (h : ReplayHandler M) (A : Queues)
    (l : Tape) : Prop where
  tick_eq : h.itchTick = itchTick
  target_eq : h.targetLocate = t
  mirrors : Mirrors cfg itchTick h.book A l

/-- A message that names an order of the tape takes shares from it. -/
theorem Follows.reduce (hf : Follows cfg itchTick t h A l) {ref : UInt64} {n : UInt32}
    (hsafe : Safe h.book A (.reduce ref n)) :
    ∃ found b', h.book.reduce ref n = .ok (found, b') ∧
      Mirrors cfg itchTick b' (A.lessen ref n) (l.lessen ref n) := by
  obtain ⟨found, b', hreduce, hcfg, hgood⟩ := hf.mirrors.good.reduce_lessen hsafe
  exact ⟨found, b', hreduce, hf.mirrors.lessen hgood hcfg⟩

theorem Follows.cancel (hf : Follows cfg itchTick t h A l) {ref : UInt64}
    (hsafe : Safe h.book A (.cancel ref)) :
    ∃ found b', h.book.cancel ref = .ok (found, b') ∧
      Mirrors cfg itchTick b' (A.without ref) (l.without ref) := by
  obtain ⟨found, b', hcancel, hcfg, -, hgood⟩ := hf.mirrors.good.cancel_without hsafe
  exact ⟨found, b', hcancel, hf.mirrors.without hgood hcfg⟩

theorem Follows.commits {f : OrderBook M → ReplayHandler M} {b' : OrderBook M} {A' : Queues}
    {l' : Tape} (hf : Follows cfg itchTick t h A l) (hcommits : Commits h f)
    (hm : Mirrors cfg itchTick b' A' l') : Follows cfg itchTick t (f b') A' l' where
  tick_eq := (hcommits.tick_eq b').trans hf.tick_eq
  target_eq := (hcommits.target_eq b').trans hf.target_eq
  mirrors := by rwa [hcommits.book_eq]

theorem Follows.onMessage_reduces {m : Message} {ref : UInt64} {n : UInt32}
    (hf : Follows cfg itchTick t h A l) (hm : m.orderLocate = some t)
    (hcall : m.call = some (.reduce ref n)) (hsafe : Safe h.book A (.reduce ref n))
    (trades : List Trade) :
    ∃ h' A', (h.onMessage m).run trades = .ok h' trades ∧
      Follows cfg itchTick t h' A' (l.step m) := by
  rw [← hf.target_eq] at hm
  obtain ⟨f, hcommits, hon⟩ := Lob.onMessage_reduces hm hcall
  obtain ⟨found, b', hreduce, hmirrors⟩ := hf.reduce hsafe
  rw [Tape.step_reduces hcall]
  exact ⟨f b', _, onMessage_of_call hon hreduce trades, hf.commits hcommits hmirrors⟩

/-- The order that is replaced gives its side to the new one. -/
theorem Follows.onOrderReplace (hf : Follows cfg itchTick t h A l)
    (hbase : 0 ≤ cfg.basePrice.toInt) (hnow : l.Fits cfg itchTick) {r : OrderReplace}
    (hr : r.stockLocate = t) (hsafe : Safe h.book A (.cancel r.originalOrderRef))
    (haccepts : l.Accepts (.orderReplace r))
    (hfits : (l.step (.orderReplace r)).Fits cfg itchTick) (trades : List Trade) :
    ∃ h' A', (h.onOrderReplace r).run trades = .ok h' trades ∧
      Follows cfg itchTick t h' A' (l.step (.orderReplace r)) := by
  obtain ⟨htick, htarget, hm⟩ := hf
  obtain ⟨hold, hne, hnew, hshares⟩ := haccepts
  -- the tape and the book find the same order
  obtain ⟨o, ho, href, hstep⟩ := Tape.step_replace hold
  obtain ⟨i, original, horiginal, hquote⟩ := hm.view.mem_book ho (hnow.inWindow o ho).1
  have hid : original.id = r.originalOrderRef := (congrArg Quote.ref hquote).trans href
  rw [hstep] at hfits ⊢
  obtain ⟨found, b₁, hcancel, hm₁⟩ := Follows.cancel ⟨htick, htarget, hm⟩ hsafe
  have hgone := Tape.not_live_without hnew r.originalOrderRef
  obtain ⟨b', A', hrun, hm'⟩ := hm₁.append hbase hfits hne hgone hshares r.tsNs trades
  subst htick
  exact ⟨_, A', onOrderReplace_run (hr.trans htarget.symm) hm.good horiginal hid hcancel hrun,
    rfl, htarget, hm'⟩

/-- **Every message of a valid tape** does to the book what it does to the tape, and no trade
happens. -/
theorem Follows.onMessage (hf : Follows cfg itchTick t h A l) (hbase : 0 ≤ cfg.basePrice.toInt)
    (ht : t ≠ 0) (hnow : l.Fits cfg itchTick) {m : Message}
    (hsafe : m.orderLocate = some t → ∀ c, m.call = some c → Safe h.book A c)
    (haccepts : m.orderLocate = some t → l.Accepts m)
    (hfits : (l.next t m).Fits cfg itchTick) (trades : List Trade) :
    ∃ h' A', (h.onMessage m).run trades = .ok h' trades ∧
      Follows cfg itchTick t h' A' (l.next t m) := by
  have htarget := hf.target_eq
  unfold Tape.next at hfits ⊢
  by_cases hm : m.orderLocate = some t
  · rw [if_pos hm] at hfits ⊢
    have haccepts := haccepts hm
    have hsafe := hsafe hm
    cases m with
    | systemEvent | unhandled | stockDirectory => cases hm
    | addOrder a =>
      have hloc : a.stockLocate = h.targetLocate := (Option.some.inj hm).trans htarget.symm
      obtain ⟨hne, hlive, hshares⟩ := haccepts
      obtain ⟨b', A', hrun, hmirrors⟩ :=
        hf.mirrors.append hbase hfits hne hlive hshares a.tsNs trades
      have horder : h.order a.orderRef a.side a.price a.shares a.tsNs =
          Listed.toOrder itchTick ⟨a.orderRef, a.side, a.price, a.shares⟩ a.tsNs := by
        unfold ReplayHandler.order
        rw [hf.tick_eq]
        rfl
      rw [← horder] at hrun
      exact ⟨_, A', onAddOrder_run hloc hrun, hf.tick_eq, htarget, hmirrors⟩
    | orderExecuted | orderExecutedWithPrice | orderCancel =>
      exact hf.onMessage_reduces hm rfl (hsafe _ rfl) trades
    | orderDelete d =>
      obtain ⟨found, b', hcancel, hmirrors⟩ := hf.cancel (hsafe _ rfl)
      obtain ⟨f, hcommits, hon⟩ := onMessage_deletes ((Option.some.inj hm).trans htarget.symm)
      exact ⟨f b', _, onMessage_of_call hon hcancel trades, hf.commits hcommits hmirrors⟩
    | orderReplace r =>
      exact hf.onOrderReplace hbase hnow (Option.some.inj hm) (hsafe _ rfl) haccepts hfits trades
  · rw [if_neg hm]
    rw [← htarget] at ht hm
    exact ⟨h, A, onMessage_other ht hm, hf⟩

theorem Follows.replay {M : Type} [LawfulIdMap M] {h : ReplayHandler M} {ms : List Message}
    (hf : Follows cfg itchTick t h A l)
    (hbase : 0 ≤ cfg.basePrice.toInt) (ht : t ≠ 0) (hnow : l.Fits cfg itchTick)
    (hvalid : l.Valid cfg itchTick t ms) (trades : List Trade) :
    ∃ h' A', (h.replay ms).run trades = .ok h' trades ∧
      Follows cfg itchTick t h' A' (l.after t ms) := by
  induction ms generalizing h A l with
  | nil => exact ⟨h, A, rfl, hf⟩
  | cons m ms ih =>
    obtain ⟨haccepts, hfits, hvalid⟩ := hvalid
    obtain ⟨h₁, A₁, hrun, hf₁⟩ := hf.onMessage hbase ht hnow
      (fun _ c _ => safe_of_lawful h.book A c) haccepts hfits trades
    obtain ⟨h', A', hrun', hf'⟩ := ih hf₁ hfits hvalid
    exact ⟨h', A', (replay_cons hrun).trans hrun', hf'⟩

theorem Tape.Valid.left {ms ms' : List Message} (h : l.Valid cfg itchTick t (ms ++ ms')) :
    l.Valid cfg itchTick t ms := by
  induction ms generalizing l with
  | nil => trivial
  | cons m ms ih =>
    obtain ⟨haccepts, hfits, h⟩ := h
    exact ⟨haccepts, hfits, ih h⟩

/-- A fresh handler that has seen the directory message of its symbol. -/
theorem onStockDirectory_follows (cfg : Config) {symbol : List UInt8} (tick_ne : itchTick ≠ 0)
    {d : StockDirectory} (hd : symbolMatches d.stock symbol = true) :
    Follows cfg itchTick d.stockLocate
      ((ReplayHandler.new cfg symbol itchTick tick_ne : ReplayHandler M).onStockDirectory d)
      Queues.empty [] := by
  unfold ReplayHandler.onStockDirectory
  rw [if_pos ⟨rfl, hd⟩]
  exact ⟨rfl, rfl, new_good cfg, rfl, fun _ _ => rfl⟩

end Run

/-- **Replay reconstructs the book of the exchange**: after every message of a valid tape the book
of the handler holds the live orders, level by level in the order of their arrival, and no trade
has happened. -/
theorem ReplayHandler.reconstructs {M : Type} [LawfulIdMap M] {cfg : Config}
    (hbase : 0 ≤ cfg.basePrice.toInt) {symbol : List UInt8} {itchTick : Int32}
    (tick_ne : itchTick ≠ 0) {d : StockDirectory} (hd : symbolMatches d.stock symbol = true)
    (hlocate : d.stockLocate ≠ 0) {ms : List Message}
    (hvalid : Tape.Valid cfg itchTick d.stockLocate [] ms) {seen later : List Message}
    (hms : ms = seen ++ later) (trades : List Trade) :
    ∃ h', ((ReplayHandler.new cfg symbol itchTick tick_ne : ReplayHandler M).replay
        (.stockDirectory d :: seen)).run trades = .ok h' trades ∧
      h'.book.Reconstructs itchTick (Tape.after d.stockLocate [] seen) := by
  have hf := onStockDirectory_follows (M := M) cfg tick_ne hd
  have hempty : Tape.Fits cfg itchTick [] := ⟨nofun, nofun, Nat.zero_le _, nofun⟩
  rw [hms] at hvalid
  obtain ⟨h', A', hrun, hf'⟩ := hf.replay hbase hlocate hempty hvalid.left trades
  refine ⟨h', hrun, fun s i => ?_⟩
  rw [hf'.mirrors.good.core.queue_eq, hf'.mirrors.cfg_eq]
  exact hf'.mirrors.view s i

/-- A bid and an ask of the symbol, the bid executed in part, and the ask replaced. -/
def sampleTape : List Message :=
  [.addOrder ⟨7, 0, 0, 1, .buy, 5, Vector.replicate 8 32, 100⟩,
    .addOrder ⟨7, 0, 0, 2, .sell, 3, Vector.replicate 8 32, 300⟩,
    .orderDelete ⟨8, 0, 1⟩,
    .orderExecuted ⟨7, 0, 1, 2, 0⟩,
    .orderReplace ⟨7, 0, 2, 3, 4, 200⟩]

theorem sampleTape_reconstructs :
    ∃ h', ((ReplayHandler.new smallConfig [] 100 (by decide) : ReplayHandler PlainIdMap).replay
        (.stockDirectory ⟨7, 0, Vector.replicate 8 32, 0⟩ :: sampleTape)).run [] = .ok h' [] ∧
      h'.book.Reconstructs 100 (Tape.after 7 [] sampleTape) :=
  ReplayHandler.reconstructs (by decide) (by decide) (by decide) (by decide)
    (show Tape.Valid smallConfig 100 7 [] sampleTape by decide) (List.append_nil _).symm []

end Lob
