import Lob.Equiv.SlabPeak
import Lob.Equiv.OrderBook.Occupancy
import Lob.Equiv.OrderBook.Sink

/-!
# The memory that a run touches

A call withdraws orders from the book, each change being one of `Withdrawn`, and at most one order
comes to rest, at the end of the call (`exec_phases`).  So a run in which no more than `n` orders
are open between the calls uses the first `n` slots of the slab and no others, whatever index the
book has (`Run.workingSet`).
-/

namespace Lob

open SlabAllocator (Drained Drains Warm Writes Written warm_new)

/-! ### Lists -/

namespace IntrusiveList

variable {l l' : IntrusiveList} {mem mem' : SlabAllocator} {node : Ptr} {p n : Option Ptr}

theorem pushBack_writes (h : l.pushBack mem node = .ok (l', mem')) : Writes mem mem' := by
  unfold pushBack at h
  obtain ⟨mem₁, hnode, h⟩ := OrderBook.exists_of_bind h
  have hfirst := Relation.ReflTransGen.single (Written.write hnode)
  cases htail : l.tail with
  | none =>
    rw [htail] at h
    cases h
    exact hfirst
  | some t =>
    rw [htail] at h
    obtain ⟨mem₂, hlast, h⟩ := OrderBook.exists_of_bind h
    cases h
    exact hfirst.tail (.write hlast)

theorem linkNext_writes (h : l.linkNext mem p n = .ok (l', mem')) : Writes mem mem' := by
  unfold linkNext at h
  cases p with
  | none =>
    cases h
    exact .refl
  | some p =>
    obtain ⟨mem₁, hwrite, h⟩ := OrderBook.exists_of_bind h
    cases h
    exact .single (.write hwrite)

theorem linkPrev_writes (h : l.linkPrev mem p n = .ok (l', mem')) : Writes mem mem' := by
  unfold linkPrev at h
  cases n with
  | none =>
    cases h
    exact .refl
  | some n =>
    obtain ⟨mem₁, hwrite, h⟩ := OrderBook.exists_of_bind h
    cases h
    exact .single (.write hwrite)

theorem unlink_writes (h : l.unlink mem node = .ok (l', mem')) : Writes mem mem' := by
  unfold unlink at h
  obtain ⟨o, -, h⟩ := OrderBook.exists_of_bind h
  obtain ⟨⟨l₁, mem₁⟩, hnext, h⟩ := OrderBook.exists_of_bind h
  exact (linkNext_writes hnext).trans (linkPrev_writes h)

end IntrusiveList

namespace OrderBook

open IntrusiveList

variable {M : Type} {b b' : OrderBook M} {o : Ptr} {id : OrderId} {side : Side} {i limit fuel : ℕ}
  {price : Price} {qty : Quantity} {type : OrderType} {tif : TimeInForce} {ts : Timestamp}
  {trades trades' : List Trade}

/-! ### The phases of a call -/

section Phases

variable [IdMap M]

/-- One change of the book by which it has no more orders than before. -/
inductive Withdrawn (b b' : OrderBook M) : Prop where
  | drop {id : OrderId} {o : Ptr} (h : b.dropOrder id o = .ok b')
  | shrink {o : Ptr} {order : Order} {qty delta : Quantity}
    (h : b.shrinkOrder o order qty delta = .ok b')
  | take {side : Side} {i : ℕ} {head : Ptr} {order : Order} {fill : Quantity}
    (h : b.takeFromHead side i head order fill = .ok b')
  | advance {side : Side} {i : ℕ} (h : (b.advance side i).2 = b')

abbrev Withdraws : OrderBook M → OrderBook M → Prop := Relation.ReflTransGen Withdrawn

theorem cancel_withdraws {found : Bool} (h : b.cancel id = .ok (found, b')) : Withdraws b b' := by
  unfold cancel at h
  obtain ⟨p, -, h⟩ := exists_of_bind h
  cases p with
  | none =>
    cases h
    exact .refl
  | some o =>
    obtain ⟨b₁, hdrop, h⟩ := exists_of_bind h
    cases h
    exact .single (.drop hdrop)

theorem reduce_withdraws {delta : Quantity} {found : Bool}
    (h : b.reduce id delta = .ok (found, b')) : Withdraws b b' := by
  unfold reduce at h
  obtain ⟨p, -, h⟩ := exists_of_bind h
  cases p with
  | none =>
    cases h
    exact .refl
  | some o =>
    obtain ⟨order, -, h⟩ := exists_of_bind h
    split_ifs at h
    · obtain ⟨b₁, hdrop, h⟩ := exists_of_bind h
      cases h
      exact .single (.drop hdrop)
    · obtain ⟨b₁, hshrink, h⟩ := exists_of_bind h
      cases h
      exact .single (.shrink hshrink)

theorem fillLevel_withdraws {x : OrderBook M × Quantity}
    (h : (fillLevel side id ts i fuel b qty).run trades = .ok x trades') : Withdraws b x.1 := by
  induction fuel generalizing b qty trades with
  | zero => cases h
  | succ fuel ih =>
    unfold fillLevel at h
    split_ifs at h
    · split at h
      · cases h
        exact .refl
      · obtain ⟨order, ts₁, -, h⟩ := exists_of_sink_bind h
        obtain ⟨-, ts₂, -, h⟩ := exists_of_sink_bind h
        obtain ⟨b₁, ts₃, htake, h⟩ := exists_of_sink_bind h
        exact .head (.take (ok_of_quiet htake)) (ih h)
    · cases h
      exact .refl

theorem matchLoop_withdraws {x : OrderBook M × Quantity}
    (h : (matchLoop side limit id ts fuel b i qty).run trades = .ok x trades') :
    Withdraws b x.1 := by
  induction fuel generalizing b i qty trades with
  | zero => cases h
  | succ fuel ih =>
    unfold matchLoop at h
    split_ifs at h
    · cases h
      exact .refl
    · obtain ⟨⟨b₁, remaining⟩, ts₁, hfill, h⟩ := exists_of_sink_bind h
      have hlevel := fillLevel_withdraws hfill
      dsimp only at h hlevel
      split_ifs at h
      · exact (hlevel.tail (.advance rfl)).trans (ih h)
      · cases h
        exact hlevel
    · cases h
      exact .refl

theorem aggress_withdraws {x : OrderBook M × Quantity}
    (h : (b.aggress id side type tif price qty ts).run trades = .ok x trades') :
    Withdraws b x.1 := by
  unfold aggress at h
  split_ifs at h
  · exact matchLoop_withdraws h
  · exact matchLoop_withdraws h
  · cases h
    exact .refl

/-- Orders are withdrawn, and then at most one comes to rest. -/
inductive Phases (b b' : OrderBook M) : Prop where
  | withdraws (h : Withdraws b b')
  | rests {b₁ : OrderBook M} {id : OrderId} {side : Side} {price : Price} {qty : Quantity}
    (h : Withdraws b b₁) (hinsert : b₁.insertResting id side price qty = .ok b')

theorem Phases.after {b₁ : OrderBook M} (h : Withdraws b b₁) (hp : Phases b₁ b') :
    Phases b b' := by
  cases hp with
  | withdraws h' => exact .withdraws (h.trans h')
  | rests h' hinsert => exact .rests (h.trans h') hinsert

theorem execute_phases {x : OrderBook M × SubmitResult}
    (h : (b.execute id side type tif price qty ts).run trades = .ok x trades') :
    Phases b x.1 := by
  unfold execute at h
  obtain ⟨⟨b₁, remaining⟩, ts₁, haggress, h⟩ := exists_of_sink_bind h
  have hfirst := aggress_withdraws haggress
  dsimp only at h hfirst
  by_cases hz : remaining = 0
  · rw [if_pos hz] at h
    cases h
    exact .withdraws hfirst
  by_cases hkept : tif = .ioc ∨ type = .market
  · rw [if_neg hz, if_pos hkept] at h
    cases h
    exact .withdraws hfirst
  · rw [if_neg hz, if_neg hkept] at h
    obtain ⟨b₂, ts₂, hinsert, h⟩ := exists_of_sink_bind h
    cases h
    exact .rests hfirst (ok_of_quiet hinsert)

theorem submit_phases {x : OrderBook M × SubmitResult}
    (h : (b.submit id side type tif price qty ts).run trades = .ok x trades') :
    Phases b x.1 := by
  unfold submit at h
  by_cases hbad : qty = 0 ∨ id = kInvalidOrderId
  · rw [if_pos hbad] at h
    cases h
    exact .withdraws .refl
  rw [if_neg hbad] at h
  obtain ⟨found, ts₁, -, h⟩ := exists_of_sink_bind h
  cases found with
  | some p =>
    cases h
    exact .withdraws .refl
  | none =>
    dsimp only at h
    by_cases hprice : type ≠ .market ∧ ¬b.inRange price = true
    · rw [if_pos hprice] at h
      cases h
      exact .withdraws .refl
    rw [if_neg hprice] at h
    obtain ⟨killed, ts₂, -, h⟩ := exists_of_sink_bind h
    split_ifs at h
    · cases h
      exact .withdraws .refl
    · cases h
      exact .withdraws .refl
    · exact execute_phases h

theorem modify_phases {newQty : Quantity} {newPrice : Price} {x : OrderBook M × SubmitResult}
    (h : (b.modify id newQty newPrice ts).run trades = .ok x trades') : Phases b x.1 := by
  unfold OrderBook.modify at h
  obtain ⟨found, ts₁, -, h⟩ := exists_of_sink_bind h
  cases found with
  | none =>
    cases h
    exact .withdraws .refl
  | some p =>
    obtain ⟨order, ts₂, -, h⟩ := exists_of_sink_bind h
    split_ifs at h
    · obtain ⟨b₁, ts₃, hshrink, h⟩ := exists_of_sink_bind h
      cases h
      exact .withdraws (.single (.shrink (ok_of_quiet hshrink)))
    · obtain ⟨⟨found, b₁⟩, ts₃, hcancel, h⟩ := exists_of_sink_bind h
      exact (submit_phases h).after (cancel_withdraws (ok_of_quiet hcancel))

/-- **A call withdraws orders, and at most one comes to rest**, at the end of the call. -/
theorem exec_phases {c : Call} (h : (b.exec c).run trades = .ok b' trades') : Phases b b' := by
  cases c with
  | submit o =>
    obtain ⟨x, ts₁, hsubmit, h⟩ := exists_of_sink_bind h
    cases h
    exact submit_phases hsubmit
  | cancel id =>
    obtain ⟨x, ts₁, hcancel, h⟩ := exists_of_sink_bind h
    cases h
    exact .withdraws (cancel_withdraws (ok_of_quiet hcancel))
  | reduce id delta =>
    obtain ⟨x, ts₁, hreduce, h⟩ := exists_of_sink_bind h
    cases h
    exact .withdraws (reduce_withdraws (ok_of_quiet hreduce))
  | modify id newQty newPrice ts =>
    obtain ⟨x, ts₁, hmodify, h⟩ := exists_of_sink_bind h
    cases h
    exact modify_phases hmodify

end Phases

/-! ### What the phases do to the slab -/

theorem removeFromBook_writes (h : b.removeFromBook o = .ok b') : Writes b.slab b'.slab := by
  unfold removeFromBook at h
  obtain ⟨order, -, h⟩ := exists_of_bind h
  obtain ⟨⟨orders, slab⟩, hunlink, h⟩ := exists_of_bind h
  cases h
  have hwrites := unlink_writes hunlink
  split_ifs
  · rwa [vacate_eq, slab_setIndex, slab_setLevel]
  · rwa [slab_setLevel]

theorem deallocate_drained (h : b.deallocate o = .ok b') : Drained b.slab b'.slab := by
  unfold OrderBook.deallocate at h
  obtain ⟨slab, hback, h⟩ := exists_of_bind h
  cases h
  exact .deallocate hback

theorem slab_occupy (s : Side) (i : ℕ) : (b.occupy s i).slab = b.slab := by cases s <;> rfl

variable [IdMap M]

theorem eraseId_slab (h : b.eraseId id = .ok b') : b'.slab = b.slab := by
  unfold eraseId at h
  obtain ⟨⟨done, m⟩, -, h⟩ := exists_of_bind h
  cases h
  rfl

theorem Withdrawn.drains (h : Withdrawn b b') : Drains b.slab b'.slab := by
  cases h with
  | drop h =>
    unfold dropOrder at h
    obtain ⟨b₁, hremove, h⟩ := exists_of_bind h
    obtain ⟨b₂, herase, h⟩ := exists_of_bind h
    have hback := deallocate_drained h
    rw [eraseId_slab herase] at hback
    exact (removeFromBook_writes hremove).drains.tail hback
  | shrink h =>
    unfold shrinkOrder at h
    obtain ⟨slab, hwrite, h⟩ := exists_of_bind h
    cases h
    rw [slab_setLevel]
    exact .single (.write (.write hwrite))
  | take h =>
    unfold takeFromHead at h
    obtain ⟨slab, hwrite, h⟩ := exists_of_bind h
    have hfirst : Drains b.slab slab := .single (.write (.write hwrite))
    split_ifs at h
    · obtain ⟨⟨orders, slab₁⟩, hunlink, h⟩ := exists_of_bind h
      obtain ⟨b₁, herase, h⟩ := exists_of_bind h
      have hback := deallocate_drained h
      rw [eraseId_slab herase, slab_setLevel] at hback
      rw [slab_setLevel] at hunlink
      exact (hfirst.trans (unlink_writes hunlink).drains).tail hback
    · cases h
      rwa [slab_setLevel]
  | advance h =>
    subst h
    rw [advance_eq, slab_setIndex]

theorem Withdraws.drains (h : Withdraws b b') : Drains b.slab b'.slab := by
  induction h with
  | refl => exact .refl
  | tail _ hw ih => exact ih.trans hw.drains

/-- An order that comes to rest takes a slot. -/
theorem insertResting_slab (h : b.insertResting id side price qty = .ok b') :
    ∃ p slab, b.slab.allocate = (some p, slab) ∧ Writes slab b'.slab := by
  unfold insertResting at h
  split at h
  · cases h
  next p slab hallocate =>
    obtain ⟨slab₁, hwrite, h⟩ := exists_of_bind h
    obtain ⟨⟨orders, slab₂⟩, hpush, h⟩ := exists_of_bind h
    obtain ⟨⟨done, m⟩, -, h⟩ := exists_of_bind h
    cases h
    refine ⟨p, slab, hallocate, (Relation.ReflTransGen.single (Written.write hwrite)).trans ?_⟩
    have hwrites := pushBack_writes hpush
    split_ifs
    · rwa [slab_occupy, slab_setLevel]
    · rwa [slab_setLevel]

/-! ### Runs -/

theorem after_of_run {c : Call} (h : (b.exec c).run trades = .ok b' trades') : b.after c = b' := by
  unfold OrderBook.after
  cases hrun : (b.exec c).run [] with
  | ok b₁ ts₁ =>
    rw [(blind_exec b c).run_ok hrun] at h
    cases h
    rfl
  | error e ts₁ =>
    rw [(blind_exec b c).run_error hrun] at h
    cases h

theorem warm_exec {c : Call} {capacity n : ℕ} (hw : Warm capacity n b.slab)
    (h : (b.exec c).run trades = .ok b' trades') (hn : b'.openOrders ≤ n) :
    Warm capacity n b'.slab := by
  cases exec_phases h with
  | withdraws h => exact hw.drains h.drains
  | rests h hinsert =>
    obtain ⟨p, slab, hallocate, hwrites⟩ := insertResting_slab hinsert
    refine ((hw.drains h.drains).allocate hallocate ?_).drains hwrites.drains
    rw [← hwrites.inUse]
    exact hn

theorem reaches_exec {c : Call} {capacity : ℕ} {A : Finset Ptr}
    (hs : SlabAllocator.Reaches capacity b.slab A)
    (h : (b.exec c).run trades = .ok b' trades') :
    ∃ A', SlabAllocator.Reaches capacity b'.slab A' := by
  cases exec_phases h with
  | withdraws h => exact h.drains.reaches hs
  | rests h hinsert =>
    obtain ⟨A₁, hs₁⟩ := h.drains.reaches hs
    obtain ⟨p, slab, hallocate, hwrites⟩ := insertResting_slab hinsert
    exact hwrites.drains.reaches (hs₁.allocate hallocate)

/-- What a run in which no more than `n` orders were open has made of the slab. -/
structure WorkingSet (cfg : Config) (n : ℕ) (b : OrderBook M) : Prop where
  /-- The orders are in the first `n` slots. -/
  lt_of_live : ∀ p, (b.slab.storage p).live = true → p < n
  /-- There is no gap between `n` orders. -/
  full : b.openOrders = n → ∀ p, (b.slab.storage p).live = true ↔ p < n
  /-- The other slots are as the constructor left them. -/
  untouched : ∀ p, n ≤ p → b.slab.storage p = (SlabAllocator.new cfg.maxOrders).storage p
  /-- The book writes to the slots that it holds, and gives back none but them. -/
  client : ∃ A, SlabAllocator.Reaches cfg.maxOrders b.slab A ∧
    ∀ p, (b.slab.storage p).live = true ↔ p ∈ A

/-- **A run touches the slots that its peak needs**, and no others. -/
theorem Run.workingSet {cfg : Config} {n : ℕ}
    (h : Run (fun b c => (b.after c).openOrders ≤ n) cfg b) : WorkingSet cfg n b := by
  have hslab : Warm cfg.maxOrders n b.slab ∧ ∃ A, SlabAllocator.Reaches cfg.maxOrders b.slab A := by
    induction h with
    | new => exact ⟨warm_new _ _, ∅, .new (SlabAllocator.construct_eq cfg.slab_fits)⟩
    | step _ hok hexec ih =>
      obtain ⟨hw, A, hs⟩ := ih
      rw [after_of_run hexec] at hok
      exact ⟨warm_exec hw hexec hok, reaches_exec hs hexec⟩
  obtain ⟨hw, A, hs⟩ := hslab
  exact ⟨fun p => hw.lt_of_live, hw.live_iff, hw.cold, A, hs, hs.holding.live_iff⟩

/-- An offer is cancelled before the next one, which is put in its slot. -/
theorem slotReused_workingSet : WorkingSet smallConfig 1
    ((((new smallConfig : OrderBook PlainIdMap).after (.submit (gtcOrder 1 .sell 1 5))).after
      (.cancel 1)).after (.submit (gtcOrder 2 .sell 2 5))) :=
  (((Run.new.after (by decide) (by decide)).after (by decide) (by decide)).after (by decide)
    (by decide)).workingSet

end OrderBook

end Lob
