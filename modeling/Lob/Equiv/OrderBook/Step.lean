import Lob.Equiv.OrderBook.Submit

/-!
# Calls and runs keep the invariant

`Step` lists the outcomes of a call on a book that is `Good` (`Good.exec`): nothing changes, an
order is dropped (`Dropped`) or shrunk in place (`Shrunk`), or an order is submitted, by `modify`
after a drop.  A call that returns leaves a `Good` book (`Step.good`), and a call fails only when
the slab has no slot for an order that is to rest (`Step.fault`).

`Safe` is what a call needs of the id index: every erasure it makes is a good one, and the id it
looks up is answered truthfully.  A lawful index always meets it (`safe_of_lawful`).  An invariant
that every safe call keeps holds after every run (`Run.induction`).
-/

namespace Lob.OrderBook

open Queues

variable {M : Type} {b b' : OrderBook M} {A A' : Queues} {s : Side} {i : ℕ} {r : Resting}
  {xs ys : List Resting} {o : NewOrder} {c : Call} {trades trades' : List Trade}

/-! ### What a call is about -/

/-- The call takes the order `r` of level `i` of side `s` off the book, by its id. -/
inductive Drops (A : Queues) : Call → Side → ℕ → Resting → Prop where
  | cancel {s : Side} {i : ℕ} {r : Resting} (hr : r ∈ A s i) : Drops A (.cancel r.id) s i r
  | reduce {s : Side} {i : ℕ} {r : Resting} {delta : Quantity} (hr : r ∈ A s i)
    (h : r.qty ≤ delta) : Drops A (.reduce r.id delta) s i r
  | modify {s : Side} {i : ℕ} {r : Resting} {newQty : Quantity} {newPrice : Price}
    {ts : Timestamp} (hr : r ∈ A s i) (h : ¬r.InPlace newQty newPrice) :
    Drops A (.modify r.id newQty newPrice ts) s i r

/-- The call executes the order `o`. -/
inductive Executes (b : OrderBook M) (A : Queues) : Call → NewOrder → Prop where
  | submit {o : NewOrder} (h : Passes b A o) : Executes b A (.submit o) o
  | modify {s : Side} {i : ℕ} {r : Resting} {newQty : Quantity} {newPrice : Price}
    {ts : Timestamp} (hr : r ∈ A s i) (h : ¬r.InPlace newQty newPrice) (hqty : newQty ≠ 0)
    (hprice : b.inRange newPrice = true) :
    Executes b A (.modify r.id newQty newPrice ts) (r.replacement s newQty newPrice ts)

/-- The ids that the call erases from the index, one after the other. -/
inductive Erases (b : OrderBook M) (A : Queues) : Call → List OrderId → Prop where
  | submit {o : NewOrder} (h : Passes b A o) : Erases b A (.submit o) (b.filledIds A o)
  | drop {c : Call} {s : Side} {i : ℕ} {r : Resting} (h : Drops A c s i r)
    (hno : ∀ o, ¬Executes b A c o) : Erases b A c [r.id]
  | replace {c : Call} {s : Side} {i : ℕ} {r : Resting} {o : NewOrder} (h : Drops A c s i r)
    (ho : Executes b A c o) : Erases b A c (r.id :: b.filledIds A o)

/-- What the call needs of the id index. -/
structure Safe [IdMap M] [IndexedBy M] (b : OrderBook M) (A : Queues) (c : Call) : Prop where
  erases : ∀ ids, Erases b A c ids → ErasesOk b.idMap ids
  finds : ∀ id, c.target = some id → ¬A.Rests id → IndexedBy.FindOk b.idMap id

theorem safe_of_lawful {M : Type} [LawfulIdMap M] (b : OrderBook M) (A : Queues) (c : Call) :
    Safe b A c := ⟨fun ids _ => erasesOk_of_lawful _ ids, fun _ _ _ => trivial⟩

theorem safe_submit [IdMap M] [IndexedBy M] (h : ErasesOk b.idMap (b.filledIds A o)) :
    Safe b A (.submit o) where
  erases := by
    intro ids he
    cases he with
    | submit _ => exact h
    | drop hd | replace hd => cases hd
  finds := nofun

theorem safe_cancel [IdMap M] [IndexedBy M] {id : OrderId} (hid : id ≠ kInvalidOrderId)
    (h : IndexedBy.EraseOk b.idMap id) : Safe b A (.cancel id) where
  erases := by
    intro ids he
    cases he with
    | drop hd _ =>
      cases hd
      exact ⟨h, fun _ _ => trivial⟩
    | replace _ ho => cases ho
  finds := by
    intro id' heq _
    obtain rfl := Option.some.inj heq
    exact IndexedBy.findOk_of_ne _ hid

/-! ### The outcomes of a call -/

section Outcomes

variable [IdMap M] [IndexedBy M]

/-- The order `r` has been taken off the book. -/
structure Dropped (b : OrderBook M) (A : Queues) (s : Side) (i : ℕ) (xs : List Resting)
    (r : Resting) (ys : List Resting) (b' : OrderBook M) : Prop where
  queue_eq : A s i = xs ++ r :: ys
  cfg_eq : b'.cfg = b.cfg
  bit_iff : ∀ t j, b'.bit t j = true ↔
    b.bit t j = true ∧ ¬(t = s ∧ j = i ∧ (xs ++ ys).length % 2 ^ 32 = 0)
  good : Good b' (A.set s i (xs ++ ys))

/-- The order `r` has been given the quantity `qty`. -/
structure Shrunk (b : OrderBook M) (A : Queues) (s : Side) (i : ℕ) (xs : List Resting)
    (r : Resting) (ys : List Resting) (qty : Quantity) (b' : OrderBook M) : Prop where
  queue_eq : A s i = xs ++ r :: ys
  cfg_eq : b'.cfg = b.cfg
  bit_eq : ∀ t j, b'.bit t j = b.bit t j
  good : Good b' (A.set s i (xs ++ { r with qty := qty } :: ys))

/-- The outcomes of a call. -/
inductive Step (b : OrderBook M) (A : Queues) (trades : List Trade) :
    Call → EStateM.Result Fault (List Trade) (OrderBook M) → Prop where
  | unchanged {c : Call} : Step b A trades c (.ok b trades)
  | dropped {c : Call} {s : Side} {i : ℕ} {r : Resting} {xs ys : List Resting}
    {b' : OrderBook M} (hd : Drops A c s i r) (h : Dropped b A s i xs r ys b') :
    Step b A trades c (.ok b' trades)
  | shrunk {c : Call} {s : Side} {i : ℕ} {r : Resting} {xs ys : List Resting} {qty : Quantity}
    {b' : OrderBook M} (h : Shrunk b A s i xs r ys qty b') : Step b A trades c (.ok b' trades)
  | submitted {o : NewOrder} {b' : OrderBook M} {res : SubmitResult} {trades' : List Trade}
    (h : Submits b A o trades (.ok (b', res) trades')) :
    Step b A trades (.submit o) (.ok b' trades')
  | replaced {s : Side} {i : ℕ} {r : Resting} {xs ys : List Resting} {newQty : Quantity}
    {newPrice : Price} {ts : Timestamp} {b₁ b' : OrderBook M} {res : SubmitResult}
    {trades' : List Trade} (hin : ¬r.InPlace newQty newPrice)
    (h : Dropped b A s i xs r ys b₁)
    (hs : Submits b₁ (A.set s i (xs ++ ys)) (r.replacement s newQty newPrice ts) trades
      (.ok (b', res) trades')) :
    Step b A trades (.modify r.id newQty newPrice ts) (.ok b' trades')
  | full {c : Call} {trades' : List Trade} : Step b A trades c (.error .slabExhausted trades')

/-! ### Every call has one of the outcomes -/

theorem Good.drop (h : Good b A) (hq : A s i = xs ++ r :: ys)
    (hok : IndexedBy.EraseOk b.idMap r.id) :
    ∃ b', b.dropOrder r.id r.slot = .ok b' ∧ Dropped b A s i xs r ys b' ∧
      IdMap.erase b.idMap r.id = some (true, b'.idMap) := by
  obtain ⟨b', hdrop, hcfg, herase, hbit, hgood⟩ := h.dropOrder hq
  exact ⟨b', hdrop, ⟨hq, hcfg, hbit, hgood hok⟩, herase⟩

/-- A level with orders had orders before. -/
theorem Dropped.ne_nil (h : Dropped b A s i xs r ys b') {t : Side} {j : ℕ}
    (hne : A.set s i (xs ++ ys) t j ≠ []) : A t j ≠ [] := by
  revert hne
  apply set_forall (P := fun t j q => q ≠ [] → A t j ≠ [])
  · simp [h.queue_eq]
  · exact fun t j _ => id

theorem Good.shrink (h : Good b A) (hq : A s i = xs ++ r :: ys) {qty delta : Quantity}
    (hqty : qty.toNat + delta.toNat = r.size) (hpos : 0 < qty.toNat) :
    ∃ b', b.shrinkOrder r.slot (b.slab.storage r.slot).value qty delta = .ok b' ∧
      Shrunk b A s i xs r ys qty b' := by
  obtain ⟨b', hshrink, hsame, -, hgood⟩ := h.shrinkOrder hq hqty hpos
  exact ⟨b', hshrink, hq, hsame.cfg_eq, hsame.bit_eq, hgood⟩

/-- The change of `reduce`. -/
theorem Good.shrink_by (h : Good b A) (hq : A s i = xs ++ r :: ys) {delta : Quantity}
    (hlt : delta < r.qty) :
    ∃ b', b.shrinkOrder r.slot (b.slab.storage r.slot).value (r.qty - delta) delta = .ok b' ∧
      Shrunk b A s i xs r ys (r.qty - delta) b' := by
  have hsub : (r.qty - delta).toNat = r.size - delta.toNat :=
    UInt32.toNat_sub_of_le _ _ (UInt32.le_of_lt hlt)
  have hlt' : delta.toNat < r.size := UInt32.lt_iff_toNat_lt.mp hlt
  exact h.shrink hq (by omega) (by omega)

/-- The change of `modify`. -/
theorem Good.shrink_to (h : Good b A) (hq : A s i = xs ++ r :: ys) {newQty : Quantity}
    {newPrice : Price} (hin : r.InPlace newQty newPrice) :
    ∃ b', b.shrinkOrder r.slot (b.slab.storage r.slot).value newQty (r.qty - newQty) = .ok b' ∧
      Shrunk b A s i xs r ys newQty b' := by
  have hle := hin.2.2
  have hsum : newQty.toNat + (r.qty - newQty).toNat = r.size := by
    rw [UInt32.toNat_sub_of_le _ _ hle]
    exact Nat.add_sub_cancel' (UInt32.le_iff_toNat_le.mp hle)
  exact h.shrink hq hsum (UInt32.lt_iff_toNat_lt.mp hin.2.1)

/-- An order is replaced by one of its own side, so that the levels it is filled from are as
before. -/
theorem Dropped.sources_eq (h : Dropped b A s i xs r ys b') (ho : o.side = s) :
    b'.sources o = b.sources o := by
  have hne : opposite o.side ≠ s := ho ▸ opposite_ne _
  -- only a bit of the order's own side may have been cleared
  have hvis : b'.visible (opposite o.side) = b.visible (opposite o.side) := by
    unfold visible
    rw [h.cfg_eq]
    refine List.filter_congr fun j _ => ?_
    rw [Bool.eq_iff_iff]
    exact (h.bit_iff _ j).trans (and_iff_left fun hcon => hne hcon.1)
  unfold sources crossing limitOf priceToIdx
  rw [hvis, h.cfg_eq]

theorem set_opposite {q : List Resting} (ho : o.side = s) :
    A.set s i q (opposite o.side) = A (opposite o.side) := by
  funext j
  exact set_of_ne fun ht => absurd ht (ho ▸ opposite_ne _)

theorem Dropped.filledIds_eq (h : Dropped b A s i xs r ys b') (ho : o.side = s) :
    b'.filledIds (A.set s i (xs ++ ys)) o = b.filledIds A o := by
  unfold filledIds Queues.orders
  rw [h.sources_eq ho, set_opposite ho]

/-- The order that replaces another one is executed if it is valid. -/
theorem Dropped.executes (h : Dropped b A s i xs r ys b') {newQty : Quantity} {newPrice : Price}
    {ts : Timestamp} (hin : ¬r.InPlace newQty newPrice)
    (hp : Passes b' (A.set s i (xs ++ ys)) (r.replacement s newQty newPrice ts)) :
    Executes b A (.modify r.id newQty newPrice ts) (r.replacement s newQty newPrice ts) := by
  have hr : r ∈ A s i := by simp [h.queue_eq]
  refine .modify hr hin (fun hz => hp.not_rejects (Or.inl hz)) ?_
  by_contra hprice
  refine hp.not_rejects (Or.inr (Or.inr (Or.inr ⟨nofun, fun hin' => hprice ?_⟩)))
  exact (inRange_congr h.cfg_eq newPrice).symm.trans hin'

theorem Submits.fault {e : Fault} (h : Submits b A o trades (.error e trades')) :
    e = .slabExhausted := by
  cases h
  rfl

theorem Good.exec_submit (h : Good b A) (hsafe : Safe b A (.submit o)) (trades : List Trade) :
    Step b A trades (.submit o) ((b.exec (.submit o)).run trades) := by
  have hs := h.submit o trades fun hp => hsafe.erases _ (.submit hp)
  unfold exec
  cases hx : (b.submitOrder o).run trades with
  | ok x trades' =>
    rw [hx] at hs
    rw [sink_bind hx]
    exact .submitted hs
  | error e trades' =>
    rw [hx] at hs
    rw [sink_bind_error hx, hs.fault]
    exact .full

theorem Good.exec_cancel (h : Good b A) {id : OrderId} (hsafe : Safe b A (.cancel id))
    (trades : List Trade) : Step b A trades (.cancel id) ((b.exec (.cancel id)).run trades) := by
  unfold exec
  by_cases hrests : A.Rests id
  · obtain ⟨s, i, r, hr, rfl⟩ := hrests
    obtain ⟨xs, ys, hq⟩ := List.append_of_mem hr
    have hd : Drops A (.cancel r.id) s i r := .cancel hr
    obtain ⟨b', hdrop, hdropped, -⟩ := h.drop hq (hsafe.erases _ (.drop hd nofun)).1
    rw [sink_bind (quiet_ok (h.cancel_eq hq hdrop) trades)]
    exact .dropped hd hdropped
  · rw [sink_bind (quiet_ok (h.cancel_none (hsafe.finds id rfl hrests) hrests) trades)]
    exact .unchanged

theorem Good.exec_reduce (h : Good b A) {id : OrderId} {delta : Quantity}
    (hsafe : Safe b A (.reduce id delta)) (trades : List Trade) :
    Step b A trades (.reduce id delta) ((b.exec (.reduce id delta)).run trades) := by
  unfold exec
  by_cases hrests : A.Rests id
  · obtain ⟨s, i, r, hr, rfl⟩ := hrests
    obtain ⟨xs, ys, hq⟩ := List.append_of_mem hr
    by_cases hdelta : r.qty ≤ delta
    · have hd : Drops A (.reduce r.id delta) s i r := .reduce hr hdelta
      obtain ⟨b', hdrop, hdropped, -⟩ := h.drop hq (hsafe.erases _ (.drop hd nofun)).1
      rw [sink_bind (quiet_ok (h.reduce_drop hq hdelta hdrop) trades)]
      exact .dropped hd hdropped
    · have hlt : delta < r.qty := UInt32.not_le.mp hdelta
      obtain ⟨b', hshrink, hshrunk⟩ := h.shrink_by hq hlt
      rw [sink_bind (quiet_ok (h.reduce_shrink hq hlt hshrink) trades)]
      exact .shrunk hshrunk
  · rw [sink_bind (quiet_ok (h.reduce_none (hsafe.finds id rfl hrests) hrests delta) trades)]
    exact .unchanged

theorem Good.exec_modify (h : Good b A) {id : OrderId} {newQty : Quantity} {newPrice : Price}
    {ts : Timestamp} (hsafe : Safe b A (.modify id newQty newPrice ts)) (trades : List Trade) :
    Step b A trades (.modify id newQty newPrice ts)
      ((b.exec (.modify id newQty newPrice ts)).run trades) := by
  unfold exec
  by_cases hrests : A.Rests id
  · obtain ⟨s, i, r, hr, rfl⟩ := hrests
    obtain ⟨xs, ys, hq⟩ := List.append_of_mem hr
    by_cases hin : r.InPlace newQty newPrice
    · obtain ⟨b', hshrink, hshrunk⟩ := h.shrink_to hq hin
      rw [sink_bind (h.modify_shrink hq hin hshrink ts trades)]
      exact .shrunk hshrunk
    · have hd : Drops A (.modify r.id newQty newPrice ts) s i r := .modify hr hin
      -- the erasures of the order that is executed come after that of the dropped one
      have hok : IndexedBy.EraseOk b.idMap r.id := by
        by_cases he : ∃ o, Executes b A (.modify r.id newQty newPrice ts) o
        · obtain ⟨o, ho⟩ := he
          exact (hsafe.erases _ (.replace hd ho)).1
        · exact (hsafe.erases _ (.drop hd (not_exists.mp he))).1
      obtain ⟨b₁, hdrop, hdropped, herase⟩ := h.drop hq hok
      -- the levels that are filled from are those of the other side, which the drop left alone
      have hs := hdropped.good.submit (r.replacement s newQty newPrice ts) trades fun hp => by
        rw [hdropped.filledIds_eq rfl]
        exact (hsafe.erases _ (.replace hd (hdropped.executes hin hp))).2 _ herase
      have hrun := h.modify_submit hq hin hdrop ts trades
      cases hx : (b₁.submitOrder (r.replacement s newQty newPrice ts)).run trades with
      | ok x trades' =>
        rw [hx] at hs hrun
        rw [sink_bind hrun]
        exact .replaced hin hdropped hs
      | error e trades' =>
        rw [hx] at hs hrun
        rw [sink_bind_error hrun, hs.fault]
        exact .full
  · have hrun := h.modify_none (hsafe.finds id rfl hrests) hrests newQty newPrice ts trades
    rw [sink_bind hrun]
    exact .unchanged

/-- **Every call** on a good book has one of the outcomes. -/
theorem Good.exec (h : Good b A) (hsafe : Safe b A c) (trades : List Trade) :
    Step b A trades c ((b.exec c).run trades) := by
  cases c with
  | submit o => exact h.exec_submit hsafe trades
  | cancel id => exact h.exec_cancel hsafe trades
  | reduce id delta => exact h.exec_reduce hsafe trades
  | modify id newQty newPrice ts => exact h.exec_modify hsafe trades

theorem Submits.good {res : SubmitResult} (h : Good b A)
    (hs : Submits b A o trades (.ok (b', res) trades')) : ∃ A', Good b' A' ∧ b'.cfg = b.cfg := by
  cases hs with
  | rejected | killed | crossing => exact ⟨A, h, rfl⟩
  | filled _ hm | dropped _ hm => exact ⟨_, hm.good, hm.cfg_eq⟩
  | rested _ _ _ _ _ hcfg _ hgood => exact ⟨_, hgood, hcfg⟩

theorem Step.good (h : Good b A) (hs : Step b A trades c (.ok b' trades')) :
    ∃ A', Good b' A' ∧ b'.cfg = b.cfg := by
  cases hs with
  | unchanged => exact ⟨A, h, rfl⟩
  | dropped _ hd => exact ⟨_, hd.good, hd.cfg_eq⟩
  | shrunk hs => exact ⟨_, hs.good, hs.cfg_eq⟩
  | submitted hs => exact hs.good h
  | replaced _ hd hs =>
    obtain ⟨A', hgood, hcfg⟩ := hs.good hd.good
    exact ⟨A', hgood, hcfg.trans hd.cfg_eq⟩

theorem Step.fault {e : Fault} (hs : Step b A trades c (.error e trades')) :
    e = .slabExhausted := by
  cases hs
  rfl

/-! ### Runs -/

theorem new_good (cfg : Config) : Good (new cfg : OrderBook M) Queues.empty := by
  have hlevel : ∀ s i, (new cfg : OrderBook M).level s i = {} := fun s i => by cases s <;> rfl
  have hbit : ∀ s i, (new cfg : OrderBook M).bit s i = false := fun s i => by
    cases s <;> exact Bitmap.test_new _ _
  have hbinds : ∀ id p, ¬Queues.empty.Binds id p := fun id p h => by
    obtain ⟨s, i, r, hr, -⟩ := h
    cases hr
  constructor
  · constructor
    · exact SlabAllocator.capacity_new _
    · exact ⟨_, SlabAllocator.new_freeList _⟩
    · intro s i
      rw [hlevel]
      exact Links.linked_nil
    · intro s i r hr
      cases hr
    · intro s i
      rw [hlevel]
      rfl
    · intro s i
      rw [hlevel]
      rfl
    · intro p hp
      have hfree : (((SlabAllocator.new cfg.maxOrders).storage p).live = true) := hp
      rw [SlabAllocator.new_live] at hfree
      cases hfree
    · nofun
    · nofun
  · intro s i r hr
    cases hr
  · constructor
    · intro s
      cases s <;> exact Bitmap.new_within (numLevels_add_lt cfg)
    · intro s
      refine Or.inl ⟨by cases s <;> rfl, fun i hi => ?_⟩
      change OrderBook.bit _ s i = true at hi
      rw [hbit] at hi
      cases hi
  · intro s i hi
    rw [hbit] at hi
    cases hi
  · -- the index of the fresh book is empty, too
    refine ⟨_, IndexedBy.rep_new _ cfg.orders_fit, fun id p => ?_⟩
    exact ⟨nofun, fun h => absurd h (hbinds id p)⟩

/-- **The rule for runs.**  What holds of the fresh book and is kept by every safe call holds
after every run whose calls are safe. -/
theorem Run.induction {ok : OrderBook M → Call → Prop} {cfg : Config} {P : OrderBook M → Prop}
    (hsafe : ∀ b c, ok b c → Safe b b.queue c) (hnew : P (OrderBook.new cfg))
    (hstep : ∀ b c trades b' trades', Good b b.queue → b.cfg = cfg → ok b c → P b →
      Step b b.queue trades c (.ok b' trades') → P b') (h : Run ok cfg b) :
    Good b b.queue ∧ b.cfg = cfg ∧ P b := by
  induction h with
  | new =>
    have hgood : Good (OrderBook.new cfg : OrderBook M) Queues.empty := new_good cfg
    rw [hgood.core.queue_eq]
    exact ⟨hgood, rfl, hnew⟩
  | @step b b' c ts ts' _ hok hexec ih =>
    obtain ⟨hgood, hcfg, hP⟩ := ih
    have hs := hgood.exec (hsafe b c hok) ts
    rw [hexec] at hs
    -- the queues of the next book are read off its memory again
    obtain ⟨A', hgood', hcfg'⟩ := hs.good hgood
    rw [hgood'.core.queue_eq]
    exact ⟨hgood', hcfg'.trans hcfg, hstep b c ts b' ts' hgood hcfg hok hP hs⟩

/-- The book is good after every run whose calls are safe. -/
theorem Run.good {ok : OrderBook M → Call → Prop} {cfg : Config}
    (hsafe : ∀ b c, ok b c → Safe b b.queue c) (h : Run ok cfg b) :
    Good b b.queue ∧ b.cfg = cfg := by
  obtain ⟨hgood, hcfg, -⟩ :=
    h.induction (P := fun _ => True) hsafe trivial fun _ _ _ _ _ _ _ _ _ _ => trivial
  exact ⟨hgood, hcfg⟩

theorem Run.good_queue {cfg : Config} (h : Run (fun b c => Safe b b.queue c) cfg b) :
    Good b b.queue := (Run.good (fun _ _ hok => hok) h).1

end Outcomes

theorem Reachable.good {M : Type} [LawfulIdMap M] {cfg : Config} {b : OrderBook M}
    (h : Reachable cfg b) : Good b b.queue ∧ b.cfg = cfg :=
  Run.good (fun b c _ => safe_of_lawful b b.queue c) h

end Lob.OrderBook
