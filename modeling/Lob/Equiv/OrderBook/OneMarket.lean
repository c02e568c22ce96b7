import Lob.Equiv.OrderBook.MarketRuns

/-!
# Books with one market

Two faithful books with one market answer every sequence of calls alike (`Faithful.answers_congr`),
however their slabs and tables differ.  This holds also where the pre-walk of `submit` goes wrong
because the quantities that it adds up are too large for 32 bits, so that the answers are not those
of the market: the sums depend only on the orders at each price (`Faithful.fokKills_congr`).
-/

namespace Lob.OrderBook

open Queues

variable {M M' : Type} [IdMap M] [IndexedBy M] [IdMap M'] [IndexedBy M'] {b : OrderBook M}
  {b' : OrderBook M'} {o : NewOrder} {s : Side}

omit [IdMap M] [IndexedBy M] in
/-- A level has the orders of the market at its price. -/
theorem Core.level_entries (h : Core b b.queue none) (s : Side) (i : ℕ) :
    (b.queue s i).map Resting.entry =
      (b.market s).filter fun e => e.price.toInt = b.cfg.basePrice.toInt + i := by
  have hlevel : ∀ j, ∀ r ∈ b.queue s j,
      decide (r.price.toInt = b.cfg.basePrice.toInt + i) = decide (j = i) := fun j r hr => by
    have hprice := (h.placed s j r hr).level_eq
    exact decide_eq_decide.mpr (by omega)
  have hresting : (b.resting s).filter (fun r => r.price.toInt = b.cfg.basePrice.toInt + i) =
      b.queue s i := by
    unfold resting
    rw [filter_orders hlevel]
    by_cases hi : i < b.cfg.numLevels
    · rw [ladder_filter_eq hi, orders_cons]
      exact List.append_nil _
    · -- there is no such level
      have hnil : b.queue s i = [] :=
        List.eq_nil_iff_forall_not_mem.mpr fun r hr => hi (h.placed s i r hr).inside
      have hnone : (ladder s b.cfg.numLevels).filter (fun j => j = i) = [] :=
        List.filter_eq_nil_iff.mpr fun j hj heq =>
          hi (of_decide_eq_true heq ▸ mem_ladder.mp hj)
      rw [hnone, hnil]
      rfl
  rw [market_apply, List.filter_map, ← hresting]
  rfl

theorem Faithful.bit_iff (h : Faithful b) (i : ℕ) : b.bit s i = true ↔ b.queue s i ≠ [] :=
  ⟨h.good.backed s i, h.visible s i⟩

/-- Only the total of each level matters to the pre-walk. -/
theorem reaches_congr {A A' : Queues} {ls : List ℕ}
    (hlevel : ∀ i, (A' s i).map Resting.entry = (A s i).map Resting.entry) (acc qty : ℕ) :
    Reaches A' s ls acc qty ↔ Reaches A s ls acc qty := by
  have htotal : ∀ ls, Greedy.total Resting.size (A'.orders s ls) =
      Greedy.total Resting.size (A.orders s ls) := fun ls => by
    rw [← total_entries, ← total_entries]
    unfold Queues.orders
    rw [List.map_flatMap, List.map_flatMap, List.flatMap_congr fun i _ => hlevel i]
  unfold Reaches
  simp only [htotal]

/-! ### What a market decides -/

section Congr

variable (h : Faithful b) (h' : Faithful b') (hcfg : b'.cfg = b.cfg) (hm : b'.market = b.market)

include h h' hcfg hm

theorem Faithful.level_congr (s : Side) (i : ℕ) :
    (b'.queue s i).map Resting.entry = (b.queue s i).map Resting.entry := by
  rw [h.good.core.level_entries, h'.good.core.level_entries, hm, hcfg]

theorem Faithful.visible_congr (s : Side) : b'.visible s = b.visible s := by
  unfold OrderBook.visible
  rw [hcfg]
  refine List.filter_congr fun i _ => Bool.eq_iff_iff.mpr ?_
  have hlevel := congrArg List.length (h.level_congr h' hcfg hm s i)
  rw [List.length_map, List.length_map] at hlevel
  refine (h'.bit_iff i).trans (Iff.trans (not_congr ?_) (h.bit_iff i).symm)
  rw [← List.length_eq_zero_iff, hlevel, List.length_eq_zero_iff]

theorem Faithful.crossing_congr (o : NewOrder) : b'.crossing o = b.crossing o := by
  unfold crossing limitOf priceToIdx
  rw [h.visible_congr h' hcfg hm, hcfg]

theorem Faithful.rejects_congr (hr : ¬Rejects b b.queue o) : ¬Rejects b' b'.queue o := by
  rw [← h'.good.market_refuses_iff h'.base_nonneg, hm, hcfg,
    h.good.market_refuses_iff h.base_nonneg]
  exact hr

/-- The pre-walk kills the same orders, whatever its 32-bit sums have lost. -/
theorem Faithful.fokKills_congr (hr : ¬Rejects b b.queue o) (htif : o.tif = .fok)
    (hk : b.fokKills o.side o.type o.tif o.price o.qty = .ok true) :
    b'.fokKills o.side o.type o.tif o.price o.qty = .ok true := by
  obtain ⟨k, hk₁, hreach⟩ :=
    h.good.fokKills_iff h.base_nonneg htif (inRange_of_not_rejects hr)
  obtain ⟨k', hk', hreach'⟩ := h'.good.fokKills_iff h'.base_nonneg htif
    (inRange_of_not_rejects (h.rejects_congr h' hcfg hm hr))
  rw [h.crossing_congr h' hcfg hm, reaches_congr (h.level_congr h' hcfg hm _), ← hreach]
    at hreach'
  obtain rfl : k = true := Except.ok.inj (hk₁.symm.trans hk)
  rw [hk', (Bool.not_eq_false k').mp (mt hreach'.mp Bool.true_eq_false_eq_False)]

end Congr

/-! ### Answers -/

/-- A fill-or-kill order that the pre-walk kills. -/
theorem Good.submit_killed (h : Good b b.queue) (hr : ¬Rejects b b.queue o) (htif : o.tif = .fok)
    (hk : b.fokKills o.side o.type o.tif o.price o.qty = .ok true) (ts : List Trade) :
    (b.submitOrder o).run ts = .ok (b, ⟨.cancelled, 0, o.qty⟩) ts := by
  have hnot : ¬Passes b b.queue o := fun hp =>
    Bool.false_ne_true (Except.ok.inj (hp.not_killed.symm.trans hk))
  have hs := h.submit o ts fun hp => absurd hp hnot
  generalize (b.submitOrder o).run ts = x at hs ⊢
  cases hs with
  | rejected hbad => exact absurd hbad hr
  | killed => rfl
  | crossing _ hpost => exact absurd (hpost.symm.trans htif) (by decide)
  | filled hp => exact absurd hp hnot
  | dropped hp => exact absurd hp hnot
  | rested hp => exact absurd hp hnot
  | full hp => exact absurd hp hnot

omit [IdMap M] [IndexedBy M] [IdMap M'] [IndexedBy M'] in
theorem ok_of_asMarket {α : Type} {x : EStateM.Result Fault (List Trade) (OrderBook M × α)}
    {b' : OrderBook M'} {a : α} {ts : List Trade} (h : asMarket x = asMarket (.ok (b', a) ts)) :
    ∃ b, x = .ok (b, a) ts ∧ b.market = b'.market := by
  cases x with
  | ok r ts' =>
    obtain ⟨b, a'⟩ := r
    obtain ⟨hpair, rfl⟩ := EStateM.Result.ok.inj h
    obtain ⟨hm, rfl⟩ := Prod.mk.inj hpair
    exact ⟨b, rfl, hm⟩
  | error => cases h

omit [IdMap M] [IndexedBy M] [IdMap M'] [IndexedBy M'] in
theorem error_of_asMarket {α : Type} {x : EStateM.Result Fault (List Trade) (OrderBook M × α)}
    {e : Fault} {ts : List Trade}
    (h : asMarket x = asMarket (.error e ts : EStateM.Result _ _ (OrderBook M' × α))) :
    x = .error e ts := by
  cases x with
  | ok => cases h
  | error =>
    cases h
    rfl

omit [IdMap M] [IndexedBy M] [IdMap M'] [IndexedBy M'] in
theorem asMarket_map_congr {α β : Type} {x : SinkM (OrderBook M × α)}
    {x' : SinkM (OrderBook M' × α)} {ts : List Trade}
    (h : asMarket (x'.run ts) = asMarket (x.run ts)) (f : α → β) :
    asMarket ((do let (b, a) ← x'; return (b, f a) : SinkM (OrderBook M' × β)).run ts) =
      asMarket ((do let (b, a) ← x; return (b, f a) : SinkM (OrderBook M × β)).run ts) := by
  cases hx : x.run ts with
  | ok r ts' =>
    rw [hx] at h
    obtain ⟨b', hx', hm⟩ := ok_of_asMarket h
    rw [sink_bind hx, sink_bind hx']
    exact congrArg (fun m => EStateM.Result.ok (m, f r.2) ts') hm
  | error e ts' =>
    rw [hx] at h
    rw [sink_bind_error hx, sink_bind_error (error_of_asMarket h)]
    rfl

/-- One call has one answer on two books with one market: the same orders are killed, and the others
are answered as the market has it. -/
theorem Faithful.answer_congr (h : Faithful b) (h' : Faithful b') (hcfg : b'.cfg = b.cfg)
    (hm : b'.market = b.market) {c : Call} (hsafe : Safe b b.queue c)
    (hsafe' : Safe b' b'.queue c) (ts : List Trade) :
    asMarket ((b'.answer c).run ts) = asMarket ((b.answer c).run ts) := by
  by_cases hkill : ∃ o, c = .submit o ∧ ¬Rejects b b.queue o ∧ o.tif = .fok ∧
      b.fokKills o.side o.type o.tif o.price o.qty = .ok true
  · obtain ⟨o, rfl, hr, htif, hk⟩ := hkill
    have hrun := h.good.submit_killed hr htif hk ts
    have hrun' := h'.good.submit_killed (h.rejects_congr h' hcfg hm hr) htif
      (h.fokKills_congr h' hcfg hm hr htif hk) ts
    unfold OrderBook.answer
    rw [sink_bind hrun, sink_bind hrun']
    exact congrArg (fun m => EStateM.Result.ok (m, _) ts) hm
  · have hright : ∀ o, c = .submit o → KillsRightly b o := fun o ho hr htif hk =>
      absurd ⟨o, ho, hr, htif, hk⟩ hkill
    have hright' : ∀ o, c = .submit o → KillsRightly b' o := fun o ho hr htif hk =>
      absurd ⟨o, ho, h'.rejects_congr h hcfg.symm hm.symm hr, htif,
        h'.fokKills_congr h hcfg.symm hm.symm hr htif hk⟩ hkill
    rw [h.good.answer_market h.visible h.length_lt h.base_nonneg hsafe hright,
      h'.good.answer_market h'.visible h'.length_lt h'.base_nonneg hsafe' hright', hm, hcfg]

/-- **Two books with one market answer alike.** -/
theorem Faithful.answers_congr (h : Faithful b) (h' : Faithful b') (hcfg : b'.cfg = b.cfg)
    (hm : b'.market = b.market) {cs : List Call}
    (hok : Throughout (fun b c => Safe b b.queue c) b cs)
    (hok' : Throughout (fun b c => Safe b b.queue c) b' cs) (ts : List Trade) :
    asMarket ((b'.answers cs).run ts) = asMarket ((b.answers cs).run ts) := by
  induction cs generalizing b b' ts with
  | nil => exact congrArg (fun m => EStateM.Result.ok (m, _) ts) hm
  | cons c cs ih =>
    obtain ⟨hsafe, hrest⟩ := hok
    obtain ⟨hsafe', hrest'⟩ := hok'
    have hcall := h.answer_congr h' hcfg hm hsafe hsafe' ts
    unfold OrderBook.answers
    cases hrun : (b.answer c).run ts with
    | ok r ts₁ =>
      obtain ⟨b₁, a⟩ := r
      rw [hrun] at hcall
      obtain ⟨b₁', hrun', hm₁⟩ := ok_of_asMarket hcall
      obtain ⟨h₁, hcfg₁⟩ := h.step hsafe hrun
      obtain ⟨h₁', hcfg₁'⟩ := h'.step hsafe' hrun'
      have hcalls := ih h₁ h₁' (by rw [hcfg₁', hcfg, hcfg₁]) hm₁ (hrest _ _ _ _ hrun)
        (hrest' _ _ _ _ hrun') ts₁
      rw [sink_bind hrun, sink_bind hrun']
      exact asMarket_map_congr hcalls (a :: ·)
    | error e ts₁ =>
      rw [hrun] at hcall
      rw [sink_bind_error hrun, sink_bind_error (error_of_asMarket hcall)]
      rfl

end Lob.OrderBook
