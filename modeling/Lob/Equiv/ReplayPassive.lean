import Lob.Equiv.Replay
import Lob.Equiv.OrderBook.IdIndex

/-!
# When a replay is passive

The handler submits the orders of the tape, so that the engine matches them itself whenever two
prices that are apart on the wire are not apart in ticks.  `Unmixed` is the condition on a message
under which this does not happen, and under it no message of a tape makes a trade
(`Driven.passive`).

Two orders of a tape that is not crossed may trade as soon as their prices are not whole ticks
(`replay_not_passive`); orders at whole ticks do not (`Listed.not_meets_of_whole`).
-/

namespace Lob

open Itch Queues OrderBook

/-! ### What the handler submits -/

/-- The order is not filled, not even in part. -/
def OrderBook.Unfilled {M : Type} [IdMap M] (b : OrderBook M) (o : NewOrder) : Prop :=
  ∀ b' res trades trades', (b.submitOrder o).run trades = .ok (b', res) trades' →
    trades' = trades ∧ res.status ≠ .fullyFilled ∧ res.status ≠ .partiallyFilled

namespace ReplayHandler

variable {M : Type} [IdMap M]

/-- The order that the handler submits for a message, and the book that it submits it to. -/
def submission (h : ReplayHandler M) : Message → Except Fault (Option (OrderBook M × NewOrder))
  | .addOrder a =>
    if a.stockLocate ≠ h.targetLocate then return none
    else return some (h.book, h.order a.orderRef a.side a.price a.shares a.tsNs)
  | .orderReplace r =>
    if r.stockLocate ≠ h.targetLocate then return none
    else do
      match ← h.book.find r.originalOrderRef with
      | none => return none
      | some o =>
        let original ← h.book.slab.read o
        let (_, book) ← h.book.cancel r.originalOrderRef
        return some (book, h.order r.newOrderRef original.side r.price r.shares r.tsNs)
  | _ => return none

/-- The handler makes no trade of its own: no message leaves one behind, and the order that is
submitted is not filled. -/
structure Passive (h : ReplayHandler M) (m : Message) : Prop where
  quiet : ∀ trades, match (h.onMessage m).run trades with
    | .ok _ trades' => trades' = trades
    | .error _ trades' => trades' = trades
  unfilled : ∀ b o, h.submission m = .ok (some (b, o)) → b.Unfilled o

/-- A handler with a fresh book, bound to the locate. -/
def bound (cfg : Config) (symbol : List UInt8) (itchTick : Int32) (tick_ne : itchTick ≠ 0)
    (t : UInt16) : ReplayHandler M :=
  { new cfg symbol itchTick tick_ne with targetLocate := t }

end ReplayHandler

/-! ### The condition -/

variable {M : Type} {A : Queues} {l : Tape} {itchTick : Int32} {b : OrderBook M} {o y : Listed}
  {m : Message}

/-- The order rests at a level that the bitmap shows. -/
def OrderBook.Shows (b : OrderBook M) (y : Listed) : Prop :=
  ∃ i, b.bit y.side i = true ∧ ∃ r ∈ b.queue y.side i, r.id = y.ref

/-- The book takes the price of the order, and has the order `y` of the other side at or below
it. -/
structure OrderBook.Collides (b : OrderBook M) (itchTick : Int32) (o y : Listed) : Prop where
  inRange : b.inRange (enginePrice itchTick o.price) = true
  side_eq : y.side = opposite o.side
  shows : b.Shows y
  meets : o.Meets itchTick y

/-- The message brings the order to a book.  A replace does when the book has the order that is
replaced. -/
inductive Brings (b : OrderBook M) (l : Tape) : Message → Listed → Prop where
  | add {a : AddOrder} : Brings b l (.addOrder a) ⟨a.orderRef, a.side, a.price, a.shares⟩
  | replace {r : OrderReplace} {x : Listed} (hx : x ∈ l) (href : x.ref = r.originalOrderRef)
    (hrests : b.queue.Rests x.ref) :
    Brings b l (.orderReplace r) ⟨r.newOrderRef, x.side, r.price, r.shares⟩

/-- The index of the book survives the call by id, and the order that the message brings is apart
from all orders of the tape in ticks as well. -/
structure Unmixed [IdMap M] [IndexedBy M] (h : ReplayHandler M) (l : Tape) (m : Message) :
    Prop where
  safe : ∀ c, m.call = some c → Safe h.book h.book.queue c
  apart : ∀ o, Brings h.book l m o → ∀ y ∈ l, ¬h.book.Collides h.itchTick o y

/-- The message is an order message of the security with locate `t`, valid as to references and
shares, and it does not cross the book of the exchange. -/
structure Tape.Admits (l : Tape) (t : UInt16) (m : Message) : Prop where
  locate_eq : m.orderLocate = some t
  accepts : l.Accepts m
  uncrossed : (l.step m).Uncrossed

/-- The handler is reached from `h₀` by messages of the tape `l` that meet the condition `ok`. -/
inductive Driven [IdMap M] (ok : ReplayHandler M → Tape → Message → Prop) (h₀ : ReplayHandler M) :
    ReplayHandler M → Tape → Prop where
  | new : Driven ok h₀ h₀ []
  | step {h h' : ReplayHandler M} {l : Tape} {m : Message} {ts ts' : List Trade}
    (hrun : Driven ok h₀ h l) (hm : l.Admits h.targetLocate m) (hok : ok h l m)
    (hnext : (h.onMessage m).run ts = .ok h' ts') : Driven ok h₀ h' (l.step m)

/-! ### The orders of the book and those of the tape -/

/-- Every resting order is one of the tape, with its side, its price in ticks and its shares.  The
book rejects some orders of the tape. -/
structure Shadows (itchTick : Int32) (A : Queues) (l : Tape) : Prop where
  live : ∀ s i, ∀ r ∈ A s i, l.Live r.id
  same : ∀ s i, ∀ r ∈ A s i, ∀ o ∈ l, o.ref = r.id →
    o.side = s ∧ enginePrice itchTick o.price = r.price ∧ o.shares = r.qty

theorem Shadows.without (h : Shadows itchTick A l) (ref : UInt64) :
    Shadows itchTick (A.without ref) (l.without ref) where
  live s i r hr := by
    obtain ⟨hr, hne⟩ := List.mem_filter.mp hr
    obtain ⟨o, ho, href⟩ := h.live s i r hr
    refine ⟨o, List.mem_filter.mpr ⟨ho, ?_⟩, href⟩
    rwa [href]
  same s i r hr o ho := h.same s i r (List.mem_of_mem_filter hr) o (List.mem_of_mem_filter ho)

theorem Shadows.lessen (h : Shadows itchTick A l) (ref : UInt64) (n : UInt32) :
    Shadows itchTick (A.lessen ref n) (l.lessen ref n) where
  live s i r' hr' := by
    obtain ⟨r, hr, hlessen⟩ := List.mem_filterMap.mp hr'
    obtain ⟨o, ho, href⟩ := h.live s i r hr
    obtain ⟨-, -, hshares⟩ := h.same s i r hr o ho href
    unfold Resting.lessen at hlessen
    split_ifs at hlessen with hid hn <;> obtain rfl := Option.some.inj hlessen
    · refine ⟨{ o with shares := o.shares - n }, List.mem_filterMap.mpr ⟨o, ho, ?_⟩, href⟩
      unfold Listed.lessen
      rw [if_pos (href.trans hid), if_pos (hshares ▸ hn)]
    · refine ⟨o, List.mem_filterMap.mpr ⟨o, ho, ?_⟩, href⟩
      unfold Listed.lessen
      rw [if_neg (href ▸ hid)]
  same s i r' hr' o' ho' heq := by
    obtain ⟨r, hr, hrless⟩ := List.mem_filterMap.mp hr'
    obtain ⟨o, ho, holess⟩ := List.mem_filterMap.mp ho'
    unfold Resting.lessen at hrless
    unfold Listed.lessen at holess
    split_ifs at hrless holess with hid hn href hn' href' <;>
      obtain rfl := Option.some.inj hrless <;> obtain rfl := Option.some.inj holess
    · obtain ⟨hside, hprice, hshares⟩ := h.same s i r hr o ho heq
      exact ⟨hside, hprice, congrArg (· - n) hshares⟩
    · exact absurd (heq.trans hid) href
    · exact absurd (heq.symm.trans href') hid
    · exact h.same s i r hr o ho heq

/-- The tape has a new order, which the book has or does not have. -/
theorem Shadows.append (h : Shadows itchTick A l) (hlive : ¬l.Live o.ref) :
    Shadows itchTick A (l ++ [o]) where
  live s i r hr := by
    obtain ⟨x, hx, href⟩ := h.live s i r hr
    exact ⟨x, List.mem_append_left _ hx, href⟩
  same s i r hr x hx href := by
    rcases List.mem_append.mp hx with hx | hx
    · exact h.same s i r hr x hx href
    · obtain rfl := List.mem_singleton.mp hx
      exact absurd (href ▸ h.live s i r hr) hlive

theorem Shadows.set (h : Shadows itchTick A l) (hlive : ¬l.Live o.ref) (k : ℕ) (p : Ptr) :
    Shadows itchTick
      (A.set o.side k (A o.side k ++ [⟨p, o.ref, enginePrice itchTick o.price, o.shares⟩]))
      (l ++ [o]) := by
  have hold := h.append hlive
  have ho : o ∈ l ++ [o] := List.mem_append_right _ (List.mem_singleton_self o)
  constructor
  · apply set_forall (P := fun _ _ q => ∀ r ∈ q, Tape.Live (l ++ [o]) r.id)
    · intro r hr
      rcases List.mem_append.mp hr with hr | hr
      · exact hold.live _ _ r hr
      · obtain rfl := List.mem_singleton.mp hr
        exact ⟨o, ho, rfl⟩
    · exact fun t j _ => hold.live t j
  · apply set_forall (P := fun t _ q => ∀ r ∈ q, ∀ x ∈ l ++ [o], x.ref = r.id →
      x.side = t ∧ enginePrice itchTick x.price = r.price ∧ x.shares = r.qty)
    · intro r hr x hx href
      rcases List.mem_append.mp hr with hr | hr
      · exact hold.same _ _ r hr x hx href
      · obtain rfl := List.mem_singleton.mp hr
        rcases List.mem_append.mp hx with hx | hx
        · exact absurd ⟨x, hx, href⟩ hlive
        · obtain rfl := List.mem_singleton.mp hx
          exact ⟨rfl, rfl, rfl⟩
    · exact fun t j _ => hold.same t j

/-! ### A submit -/

variable [IdMap M] [IndexedBy M]

/-- **An order that collides with none** is rejected, or comes to rest, or the slab is full. -/
theorem Shadows.submit (h : Shadows itchTick A l) (hgood : Good b A) (hlive : ¬l.Live o.ref)
    (hapart : ∀ y ∈ l, ¬b.Collides itchTick o y) (tsNs : UInt64) (trades : List Trade) :
    (b.submitOrder (o.toOrder itchTick tsNs)).run trades = .error .slabExhausted trades ∨
    ∃ b' res A', (b.submitOrder (o.toOrder itchTick tsNs)).run trades = .ok (b', res) trades ∧
      res.status ≠ .fullyFilled ∧ res.status ≠ .partiallyFilled ∧ Good b' A' ∧
      Shadows itchTick A' (l ++ [o]) := by
  by_cases hrej : Rejects b A (o.toOrder itchTick tsNs)
  · exact Or.inr ⟨b, _, A, hgood.submit_rejects hrej trades, nofun, nofun, hgood, h.append hlive⟩
  have hrange : b.inRange (enginePrice itchTick o.price) = true :=
    inRange_of_not_rejects (o := o.toOrder itchTick tsNs) hrej nofun
  have hsrc : b.sources (o.toOrder itchTick tsNs) = [] := by
    refine hgood.sources_of_apart (o := o.toOrder itchTick tsNs) (fun _ => hrange)
      fun i hbit r hr => ?_
    obtain ⟨y, hy, href⟩ := h.live _ i r hr
    obtain ⟨hside, hprice, -⟩ := h.same _ i r hr y hy href
    rw [← hgood.core.queue_eq] at hr
    rw [← hside] at hbit hr
    exact Listed.accepts_eq_false
      (fun hmeets => hapart y hy ⟨hrange, hside, ⟨i, hbit, r, hr, href.symm⟩, hmeets⟩) hprice
  rcases hgood.submit_appends (o := o.toOrder itchTick tsNs) rfl rfl hrej hsrc trades with
    ⟨-, hfull⟩ | ⟨b', p, hrun, -, hgood'⟩
  · exact Or.inl hfull
  · exact Or.inr ⟨b', _, _, hrun, nofun, nofun, hgood', h.set hlive _ p⟩

theorem Shadows.unfilled (h : Shadows itchTick A l) (hgood : Good b A) (hlive : ¬l.Live o.ref)
    (hapart : ∀ y ∈ l, ¬b.Collides itchTick o y) (tsNs : UInt64) :
    b.Unfilled (o.toOrder itchTick tsNs) := by
  intro b' res trades trades' hrun
  rcases h.submit hgood hlive hapart tsNs trades with
    herror | ⟨b₁, res₁, -, hrun₁, hfull, hpart, -⟩
  · rw [hrun] at herror
    cases herror
  · rw [hrun] at hrun₁
    cases hrun₁
    exact ⟨rfl, hfull, hpart⟩

/-! ### Every message -/

/-- The book is good, and its orders are orders of the tape. -/
structure Keeps (h : ReplayHandler M) (l : Tape) : Prop where
  good : Good h.book h.book.queue
  shadows : Shadows h.itchTick h.book.queue l

/-- What is left of a message: no trade, and the handler on the track of the tape, unless its slab
is full. -/
inductive Goes (h : ReplayHandler M) (l' : Tape) (trades : List Trade) :
    EStateM.Result Fault (List Trade) (ReplayHandler M) → Prop where
  | next {h' : ReplayHandler M} (tick_eq : h'.itchTick = h.itchTick)
    (target_eq : h'.targetLocate = h.targetLocate) (keeps : Keeps h' l') :
    Goes h l' trades (.ok h' trades)
  | full : Goes h l' trades (.error .slabExhausted trades)

variable {h : ReplayHandler M} {trades : List Trade}

theorem Keeps.reduce (hk : Keeps h l) {ref : UInt64} {n : UInt32}
    (hsafe : Safe h.book h.book.queue (.reduce ref n)) :
    ∃ found b', h.book.reduce ref n = .ok (found, b') ∧ Good b' b'.queue ∧
      Shadows h.itchTick b'.queue (l.lessen ref n) := by
  obtain ⟨found, b', hreduce, -, hgood⟩ := hk.good.reduce_lessen hsafe
  refine ⟨found, b', hreduce, ?_⟩
  rw [hgood.core.queue_eq]
  exact ⟨hgood, hk.shadows.lessen ref n⟩

theorem Keeps.cancel (hk : Keeps h l) {ref : UInt64}
    (hsafe : Safe h.book h.book.queue (.cancel ref)) :
    ∃ found b', h.book.cancel ref = .ok (found, b') ∧ b'.cfg = h.book.cfg ∧
      (∀ s i, b'.bit s i = true → h.book.bit s i = true) ∧
      b'.queue = h.book.queue.without ref ∧ Good b' b'.queue ∧
      Shadows h.itchTick b'.queue (l.without ref) := by
  obtain ⟨found, b', hcancel, hcfg, hbit, hgood⟩ := hk.good.cancel_without hsafe
  have hq := hgood.core.queue_eq
  refine ⟨found, b', hcancel, hcfg, hbit, hq, ?_⟩
  rw [hq]
  exact ⟨hgood, hk.shadows.without ref⟩

omit [IdMap M] [IndexedBy M] in
/-- A cancel makes no room for a collision. -/
theorem collides_of_cancel {b' : OrderBook M} {ref : UInt64} (hcfg : b'.cfg = b.cfg)
    (hbit : ∀ s i, b'.bit s i = true → b.bit s i = true) (hq : b'.queue = b.queue.without ref)
    (h : b'.Collides itchTick o y) : b.Collides itchTick o y := by
  obtain ⟨hrange, hside, ⟨i, hset, r, hr, hid⟩, hmeets⟩ := h
  rw [hq] at hr
  rw [inRange_congr hcfg] at hrange
  exact ⟨hrange, hside, ⟨i, hbit _ _ hset, r, List.mem_of_mem_filter hr, hid⟩, hmeets⟩

omit [IndexedBy M] in
/-- A message that submits nothing. -/
theorem unfilled_of_submission_none (hnone : h.submission m = .ok none) (b : OrderBook M)
    (o : NewOrder) (hsome : h.submission m = .ok (some (b, o))) : b.Unfilled o := by
  rw [hnone] at hsome
  cases hsome

omit [IndexedBy M] in
/-- The last thing that a message with a submission does is to submit. -/
theorem onMessage_of_submission {o : NewOrder} (hsub : h.submission m = .ok (some (b, o))) :
    ∃ f, Commits h f ∧ ∀ trades, (h.onMessage m).run trades = (do
      let (book, _) ← b.submitOrder o
      return f book).run trades := by
  cases m with
  | addOrder a =>
    unfold ReplayHandler.submission at hsub
    dsimp only at hsub
    split_ifs at hsub with ha
    · cases hsub
    · cases hsub
      refine ⟨_, commits_adds h, fun trades => ?_⟩
      show (h.onAddOrder a).run trades = _
      rw [onAddOrder_eq (not_not.mp ha)]
  | orderReplace r =>
    unfold ReplayHandler.submission at hsub
    dsimp only at hsub
    split_ifs at hsub with hr
    · cases hsub
    obtain ⟨found, hfind, hsub⟩ := exists_of_bind hsub
    cases found with
    | none => cases hsub
    | some p =>
      dsimp only at hsub
      obtain ⟨original, hread, hsub⟩ := exists_of_bind hsub
      obtain ⟨⟨_, book⟩, hcancel, hsub⟩ := exists_of_bind hsub
      cases hsub
      refine ⟨_, commits_replaces h, fun trades => ?_⟩
      show (h.onOrderReplace r).run trades = _
      unfold ReplayHandler.onOrderReplace
      rw [if_neg hr, sink_bind (quiet_ok hfind trades)]
      dsimp only
      rw [sink_bind (quiet_ok hread trades), sink_bind (quiet_ok hcancel trades)]
  | systemEvent | unhandled | stockDirectory | orderExecuted | orderExecutedWithPrice
  | orderCancel | orderDelete => cases hsub

theorem Goes.commits {f : OrderBook M → ReplayHandler M} {b' : OrderBook M}
    (hcommits : Commits h f) (hgood : Good b' b'.queue)
    (hshadows : Shadows h.itchTick b'.queue l) (trades : List Trade) :
    Goes h l trades (.ok (f b') trades) := by
  refine .next (hcommits.tick_eq b') (hcommits.target_eq b') ⟨?_, ?_⟩
  · rwa [hcommits.book_eq]
  · rwa [hcommits.book_eq, hcommits.tick_eq]

/-- **A message that submits an order** that collides with none. -/
theorem Shadows.settles (hs : Shadows h.itchTick A l) (hgood : Good b A) (hlive : ¬l.Live o.ref)
    (hapart : ∀ y ∈ l, ¬b.Collides h.itchTick o y) {tsNs : UInt64}
    (hsub : h.submission m = .ok (some (b, o.toOrder h.itchTick tsNs))) :
    (∀ trades, Goes h (l ++ [o]) trades ((h.onMessage m).run trades)) ∧
      ∀ b' o', h.submission m = .ok (some (b', o')) → b'.Unfilled o' := by
  constructor
  · intro trades
    obtain ⟨f, hcommits, hon⟩ := onMessage_of_submission hsub
    rw [hon]
    rcases hs.submit hgood hlive hapart tsNs trades with
      herror | ⟨b', res, A', hrun', -, -, hgood', hs'⟩
    · rw [sink_bind_error herror]
      exact .full
    · rw [sink_bind hrun']
      have hq := hgood'.core.queue_eq
      subst hq
      exact .commits hcommits hgood' hs' trades
  · intro b' o' hsub'
    rw [hsub] at hsub'
    cases hsub'
    exact hs.unfilled hgood hlive hapart tsNs

/-- The order that a replace submits, and the book that it submits it to. -/
theorem submission_replace {r : OrderReplace} (hr : r.stockLocate = h.targetLocate) {s : Side}
    {i : ℕ} (hgood : Good h.book A) {original : Resting} (ho : original ∈ A s i)
    (hid : original.id = r.originalOrderRef) {found : Bool} {b₁ : OrderBook M}
    (hcancel : h.book.cancel r.originalOrderRef = .ok (found, b₁)) :
    h.submission (.orderReplace r) =
      .ok (some (b₁, h.order r.newOrderRef s r.price r.shares r.tsNs)) := by
  obtain ⟨xs, ys, hq⟩ := List.append_of_mem ho
  have hfind : h.book.find r.originalOrderRef = .ok (some original.slot) := hid ▸ hgood.find_some hq
  have hside := (hgood.core.placed s i original ho).side_eq
  unfold ReplayHandler.submission
  dsimp only
  rw [if_neg (not_not.mpr hr), OrderBook.bind_ok hfind]
  dsimp only
  rw [OrderBook.bind_ok (hgood.read_eq hq), OrderBook.bind_ok hcancel, hside]
  rfl

/-- A replace of an order that the book has rejected is skipped. -/
theorem Keeps.onOrderReplace_skips (hk : Keeps h l) {r : OrderReplace}
    (hr : r.stockLocate = h.targetLocate) (hsafe : Safe h.book h.book.queue
      (.cancel r.originalOrderRef)) (hrests : ¬h.book.queue.Rests r.originalOrderRef) :
    (∀ trades, (h.onOrderReplace r).run trades =
        .ok { h with replacesSkipped := h.replacesSkipped + 1 } trades) ∧
      h.submission (.orderReplace r) = .ok none := by
  have hfound := hk.good.find_none (hsafe.finds _ rfl hrests) hrests
  constructor
  · intro trades
    unfold ReplayHandler.onOrderReplace
    rw [if_neg (not_not.mpr hr), sink_bind (quiet_ok hfound trades)]
    rfl
  · unfold ReplayHandler.submission
    dsimp only
    rw [if_neg (not_not.mpr hr), OrderBook.bind_ok hfound]
    rfl

theorem Keeps.onOrderReplace (hk : Keeps h l) {r : OrderReplace}
    (hr : r.stockLocate = h.targetLocate) (haccepts : l.Accepts (.orderReplace r))
    (hok : Unmixed h l (.orderReplace r)) :
    (∀ trades, Goes h (l.step (.orderReplace r)) trades ((h.onOrderReplace r).run trades)) ∧
      ∀ b o, h.submission (.orderReplace r) = .ok (some (b, o)) → b.Unfilled o := by
  have hsafe := hok.safe _ rfl
  obtain ⟨hold, -, hnew, -⟩ := haccepts
  obtain ⟨x, hx, href, hstep⟩ := Tape.step_replace hold
  have hgone := Tape.not_live_without hnew r.originalOrderRef
  rw [hstep]
  by_cases hrests : h.book.queue.Rests r.originalOrderRef
  · obtain ⟨s, i, original, horiginal, hid⟩ := hrests
    obtain ⟨hside, -⟩ := hk.shadows.same s i original horiginal x hx (href.trans hid.symm)
    subst hside
    obtain ⟨found, b₁, hcancel, hcfg, hbit, hq, hgood₁, hshadows₁⟩ := hk.cancel hsafe
    refine hshadows₁.settles (o := ⟨r.newOrderRef, x.side, r.price, r.shares⟩) hgood₁
      hgone (fun y hy hcollides => ?_)
      (submission_replace hr hk.good horiginal hid hcancel)
    have hrests : h.book.queue.Rests x.ref := ⟨_, i, original, horiginal, hid.trans href.symm⟩
    exact hok.apart _ (.replace hx href hrests) y (List.mem_of_mem_filter hy)
      (collides_of_cancel hcfg hbit hq hcollides)
  · obtain ⟨hrun, hsub⟩ := hk.onOrderReplace_skips hr hsafe hrests
    have hshadows := (hk.shadows.without r.originalOrderRef).append
      (o := ⟨r.newOrderRef, x.side, r.price, r.shares⟩) hgone
    rw [without_of_not_rests hrests] at hshadows
    constructor
    · intro trades
      rw [hrun]
      exact .next rfl rfl ⟨hk.good, hshadows⟩
    · exact unfilled_of_submission_none hsub

theorem Keeps.onMessage_reduces (hk : Keeps h l) {ref : UInt64} {n : UInt32}
    (hm : m.orderLocate = some h.targetLocate) (hcall : m.call = some (.reduce ref n))
    (hok : Unmixed h l m) (trades : List Trade) :
    Goes h (l.step m) trades ((h.onMessage m).run trades) := by
  obtain ⟨f, hcommits, hon⟩ := Lob.onMessage_reduces hm hcall
  obtain ⟨found, b', hreduce, hgood, hshadows⟩ := hk.reduce (hok.safe _ hcall)
  rw [onMessage_of_call hon hreduce, Tape.step_reduces hcall]
  exact .commits hcommits hgood hshadows trades

/-- **Every message of a tape** that meets the condition. -/
theorem Keeps.onMessage (hk : Keeps h l) (hm : l.Admits h.targetLocate m) (hok : Unmixed h l m) :
    (∀ trades, Goes h (l.step m) trades ((h.onMessage m).run trades)) ∧
      ∀ b o, h.submission m = .ok (some (b, o)) → b.Unfilled o := by
  have hloc := hm.locate_eq
  cases m with
  | systemEvent | unhandled | stockDirectory => cases hloc
  | addOrder a =>
    exact hk.shadows.settles hk.good hm.accepts.2.1 (hok.apart _ .add)
      (if_neg (not_not.mpr (Option.some.inj hloc)))
  | orderReplace r => exact hk.onOrderReplace (Option.some.inj hloc) hm.accepts hok
  | orderExecuted | orderExecutedWithPrice | orderCancel =>
    exact ⟨hk.onMessage_reduces hloc rfl hok, unfilled_of_submission_none rfl⟩
  | orderDelete d =>
    obtain ⟨f, hcommits, hon⟩ := onMessage_deletes (Option.some.inj hloc)
    obtain ⟨found, b', hcancel, -, -, -, hgood, hshadows⟩ := hk.cancel (hok.safe _ rfl)
    refine ⟨fun trades => ?_, unfilled_of_submission_none rfl⟩
    rw [onMessage_of_call hon hcancel]
    exact .commits hcommits hgood hshadows trades

/-! ### The run -/

theorem bound_keeps (cfg : Config) (symbol : List UInt8) (tick_ne : itchTick ≠ 0) (t : UInt16) :
    Keeps (ReplayHandler.bound cfg symbol itchTick tick_ne t : ReplayHandler M) [] := by
  have hgood : Good (OrderBook.new cfg : OrderBook M) Queues.empty := new_good cfg
  constructor
  · show Good (OrderBook.new cfg : OrderBook M) (OrderBook.new cfg : OrderBook M).queue
    rwa [hgood.core.queue_eq]
  · show Shadows itchTick (OrderBook.new cfg : OrderBook M).queue []
    rw [hgood.core.queue_eq]
    exact ⟨nofun, nofun⟩

theorem Driven.keeps {h₀ : ReplayHandler M} (hrun : Driven Unmixed h₀ h l)
    (h₀_keeps : Keeps h₀ []) : Keeps h l := by
  induction hrun with
  | new => exact h₀_keeps
  | @step h h' l m ts ts' _ hm hok hnext ih =>
    have hgoes := (ih.onMessage hm hok).1 ts
    rw [hnext] at hgoes
    cases hgoes with
    | next _ _ hkeeps => exact hkeeps

/-- **No message of a tape makes a trade** as long as each of them meets the condition. -/
theorem Driven.passive {cfg : Config} {symbol : List UInt8} {tick_ne : itchTick ≠ 0} {t : UInt16}
    (hrun : Driven Unmixed (ReplayHandler.bound cfg symbol itchTick tick_ne t) h l)
    (hm : l.Admits h.targetLocate m) (hok : Unmixed h l m) : h.Passive m := by
  have hkeeps := hrun.keeps (bound_keeps cfg symbol tick_ne t)
  obtain ⟨hgoes, hunfilled⟩ := hkeeps.onMessage hm hok
  refine ⟨fun trades => ?_, hunfilled⟩
  have hgoes := hgoes trades
  generalize (h.onMessage m).run trades = x at hgoes ⊢
  cases hgoes with
  | next | full => rfl

/-! ### Prices that are not whole ticks -/

/-- A bid of half a tick. -/
def halfTickBid (t : UInt16) : AddOrder := ⟨t, 0, 0, 3, .buy, 5, Vector.replicate 8 32, 50⟩

theorem halfTickBid_run (h : ReplayHandler (OrderIdMap Ptr))
    (hbook : h.book = OrderBook.new smallConfig) (htick : h.itchTick = 100) :
    ∃ trades', (h.onMessage (.addOrder (halfTickBid h.targetLocate))).run [] =
      .ok { h with book := oneBid, adds := h.adds + 1 } trades' := by
  have hresult : (OrderBook.new smallConfig : OrderBook (OrderIdMap Ptr)).result
      (gtcOrder 3 .buy 0 5) = some ⟨.accepted, 0, 5⟩ := by decide
  obtain ⟨b', trades', hrun⟩ := result_eq_some hresult
  have hbid : oneBid = b' := by
    unfold oneBid OrderBook.after
    rw [exec_submit_ok hrun]
  have horder : h.order 3 .buy 50 5 0 = gtcOrder 3 .buy 0 5 := by
    have hprice : enginePrice 100 50 = 0 := by decide
    unfold ReplayHandler.order
    rw [htick, hprice]
    rfl
  rw [← hbook, ← horder, ← hbid] at hrun
  exact ⟨trades', onAddOrder_run (a := halfTickBid h.targetLocate) rfl hrun⟩

/-- The handler after the bid. -/
def halfTickHandler : ReplayHandler (OrderIdMap Ptr) :=
  { (ReplayHandler.bound smallConfig [] 100 (by decide) 7 : ReplayHandler (OrderIdMap Ptr)) with
    book := oneBid, adds := 1 }

theorem halfTickHandler_driven
    {ok : ReplayHandler (OrderIdMap Ptr) → Tape → Message → Prop}
    (hok : ok (ReplayHandler.bound smallConfig [] 100 (by decide) 7) []
      (.addOrder (halfTickBid 7))) :
    Driven ok (ReplayHandler.bound smallConfig [] 100 (by decide) 7) halfTickHandler
      [⟨3, .buy, 50, 5⟩] := by
  obtain ⟨trades', hrun⟩ :=
    halfTickBid_run (ReplayHandler.bound smallConfig [] 100 (by decide) 7) rfl rfl
  exact Driven.new.step ⟨rfl, by decide, by decide⟩ hok hrun

/-- An ask a tick above the bid. -/
theorem halfTickHandler_passive :
    halfTickHandler.Passive (.addOrder ⟨7, 0, 0, 4, .sell, 5, Vector.replicate 8 32, 160⟩) := by
  refine Driven.passive (halfTickHandler_driven ⟨nofun, ?_⟩) ⟨rfl, by decide, by decide⟩
    ⟨nofun, ?_⟩
  · rintro o - y ⟨⟩
  · rintro o ⟨⟩ y hy ⟨-, -, -, hmeets⟩
    obtain rfl := List.mem_singleton.mp hy
    exact absurd hmeets (by decide)

/-- **Prices that are apart on the wire but not in ticks** trade: a bid at 50 and an ask at 60 with
a tick of 100. -/
theorem replay_not_passive :
    ¬∀ (cfg : Config) (symbol : List UInt8) (itchTick : Int32) (tick_ne : itchTick ≠ 0) (t : UInt16)
      (h : ReplayHandler (OrderIdMap Ptr)) (l : Tape) (m : Message), 0 < itchTick →
      Driven (fun _ _ _ => True) (ReplayHandler.bound cfg symbol itchTick tick_ne t) h l →
      l.Admits h.targetLocate m → h.Passive m := by
  intro hall
  have hpassive := hall smallConfig [] 100 (by decide) 7 halfTickHandler [⟨3, .buy, 50, 5⟩]
    (.addOrder ⟨7, 0, 0, 4, .sell, 5, Vector.replicate 8 32, 60⟩) (by decide)
    (halfTickHandler_driven trivial) ⟨rfl, by decide, by decide⟩
  have hresult : oneBid.result (gtcOrder 4 .sell 0 5) = some ⟨.fullyFilled, 5, 0⟩ := by decide
  obtain ⟨b', trades', hrun⟩ := result_eq_some hresult
  exact (hpassive.unfilled oneBid (gtcOrder 4 .sell 0 5) rfl b' _ [] trades' hrun).2.1 rfl

end Lob
