import Lob.Equiv.OrderBook.Conservation
import Lob.Equiv.OrderBook.Exhaustion
import Lob.Equiv.OrderBook.Modify
import Lob.Equiv.OrderBook.TopN

/-!
# `modify` at an unchanged price

A `modify` that lowers the quantity of an order keeps the order in its place.  A `cancel` and a new
`submit` lead to the same book, but for the order being the last of its level then; a `modify` that
raises the quantity does just this (`ModifyAgrees`).  It is so if and only if the resubmitted order
finds nothing to trade with and does not bring a hidden level to the top
(`Reachable.modifyAgrees_iff`).
-/

namespace Lob.OrderBook

open Queues

variable {M : Type} {b b' b₁ b₂ b₃ : OrderBook M} {A A' : Queues} {s t : Side} {i j : ℕ}
  {r : Resting} {xs ys : List Resting} {newQty : Quantity}

/-! ### What a client sees -/

/-- Side, price and open quantity of the order that `find` returns. -/
def terms [IdMap M] (b : OrderBook M) (id : OrderId) : Option (Side × Price × Quantity) :=
  (b.lookup id).map fun order => (order.side, order.price, order.quantity)

/-- The same best prices, the same totals and counts, and the same order under every id. -/
structure SameDepth [IdMap M] (b b' : OrderBook M) : Prop where
  best_eq : ∀ s, b'.best s = b.best s
  totalQty_eq : ∀ s i, (b'.level s i).totalQty = (b.level s i).totalQty
  count_eq : ∀ s i, (b'.level s i).count = (b.level s i).count
  terms_eq : ∀ id, b'.terms id = b.terms id

/-- The quantity of the order `r` is lowered in its place, and with a `cancel` and a `submit`. -/
def LowersAlike [IdMap M] (b : OrderBook M) (s : Side) (i : ℕ) (r : Resting) (newQty : Quantity)
    (ts : Timestamp) : Prop :=
  ∀ xs ys trades, b.queue s i = xs ++ r :: ys → ∃ b₁ b₂ b₃ p,
    (b.modify r.id newQty r.price ts).run trades = .ok (b₁, ⟨.accepted, 0, newQty⟩) trades ∧
    b₁.queue = b.queue.set s i (xs ++ { r with qty := newQty } :: ys) ∧
    b.cancel r.id = .ok (true, b₂) ∧
    (b₂.submitOrder (r.replacement s newQty r.price ts)).run trades =
      .ok (b₃, ⟨.accepted, 0, newQty⟩) trades ∧
    b₃.queue = b.queue.set s i (xs ++ ys ++ [⟨p, r.id, r.price, newQty⟩]) ∧ SameDepth b₁ b₃

/-- The quantity of the order `r` is raised, and the order is the last of its level then. -/
def RaisesLast [IdMap M] (b : OrderBook M) (s : Side) (i : ℕ) (r : Resting) (newQty : Quantity)
    (ts : Timestamp) : Prop :=
  ∀ xs ys trades, b.queue s i = xs ++ r :: ys → ∃ b₁ p,
    (b.modify r.id newQty r.price ts).run trades = .ok (b₁, ⟨.accepted, 0, newQty⟩) trades ∧
    b₁.queue = b.queue.set s i (xs ++ ys ++ [⟨p, r.id, r.price, newQty⟩])

/-- **A new quantity at an unchanged price.** -/
structure ModifyAgrees [IdMap M] (b : OrderBook M) (s : Side) (i : ℕ) (r : Resting)
    (newQty : Quantity) (ts : Timestamp) : Prop where
  lowers : newQty ≤ r.qty → LowersAlike b s i r newQty ts
  raises : r.qty < newQty → RaisesLast b s i r newQty ts

/-- When one order of level `i` is taken off and put back, the level is no better than the best one
that showed before. -/
def StaysInRank (b : OrderBook M) (s : Side) (i : ℕ) : Prop :=
  b.bit s i = true ∨ (b.level s i).count ≠ 1 ∨ ∃ j, Better s j i ∧ b.bit s j = true

section Good

variable [IdMap M] [IndexedBy M]

/-! ### Two books with the same orders -/

theorem Good.terms_some (h : Good b A) (hr : r ∈ A s i) :
    b.terms r.id = some (s, r.price, r.qty) := by
  obtain ⟨xs, ys, hq⟩ := List.append_of_mem hr
  have hplaced := h.core.placed s i r hr
  unfold terms lookup
  rw [h.find_some hq]
  show some (_, _, _) = _
  rw [hplaced.side_eq, hplaced.price_eq, hplaced.quantity_eq]

/-- Every order of `A` is in `A'` at the same level, maybe in another slot. -/
def Includes (A A' : Queues) : Prop := ∀ s i, ∀ r ∈ A s i, ∃ p, { r with slot := p } ∈ A' s i

theorem Good.terms_eq (h : Good b A) (h' : Good b' A') (hsub : Includes A A')
    (hsup : Includes A' A) {id : OrderId} (hok : IndexedBy.FindOk b.idMap id)
    (hok' : IndexedBy.FindOk b'.idMap id) : b'.terms id = b.terms id := by
  by_cases hr : A.Rests id
  · obtain ⟨t, j, r, hr, rfl⟩ := hr
    obtain ⟨p, hp⟩ := hsub t j r hr
    exact (h'.terms_some hp).trans (h.terms_some hr).symm
  · have hr' : ¬A'.Rests id := by
      rintro ⟨t, j, r, hmem, rfl⟩
      obtain ⟨p, hp⟩ := hsup t j r hmem
      exact hr ⟨t, j, _, hp, rfl⟩
    unfold terms
    rw [h.lookup_none hok hr, h'.lookup_none hok' hr']

end Good

/-- The order that was the next one is the last one. -/
theorem includes_last {p : Ptr} (r : Resting) (A : Queues) :
    Includes (A.set s i (xs ++ r :: ys)) (A.set s i (xs ++ ys ++ [{ r with slot := p }])) := by
  intro t j
  by_cases htj : t = s ∧ j = i
  · obtain ⟨rfl, rfl⟩ := htj
    rw [set_self, set_self]
    intro x hx
    rcases List.mem_cons.mp (List.perm_middle.mem_iff.mp hx) with rfl | hx
    · exact ⟨p, by simp⟩
    · exact ⟨x.slot, List.mem_append_left _ hx⟩
  · have hne : t = s → j ≠ i := fun ht hj => htj ⟨ht, hj⟩
    rw [set_of_ne hne, set_of_ne hne]
    exact fun x hx => ⟨x.slot, hx⟩

theorem last_includes {p : Ptr} (r : Resting) (A : Queues) :
    Includes (A.set s i (xs ++ ys ++ [{ r with slot := p }])) (A.set s i (xs ++ r :: ys)) := by
  intro t j
  by_cases htj : t = s ∧ j = i
  · obtain ⟨rfl, rfl⟩ := htj
    rw [set_self, set_self]
    intro x hx
    rcases List.mem_append.mp hx with hx | hx
    · exact ⟨x.slot, List.perm_middle.mem_iff.mpr (List.mem_cons_of_mem _ hx)⟩
    · obtain rfl := List.mem_singleton.mp hx
      exact ⟨r.slot, by simp⟩
  · have hne : t = s → j ≠ i := fun ht hj => htj ⟨ht, hj⟩
    rw [set_of_ne hne, set_of_ne hne]
    exact fun x hx => ⟨x.slot, hx⟩

/-- The totals and counts do not depend on the order in which the orders of a level stand. -/
theorem Core.depth_last {p : Ptr} (h : Core b (A.set s i (xs ++ r :: ys)) none)
    (h' : Core b' (A.set s i (xs ++ ys ++ [{ r with slot := p }])) none) (t : Side) (j : ℕ) :
    (b'.level t j).totalQty = (b.level t j).totalQty ∧
      (b'.level t j).count = (b.level t j).count := by
  have hlevel : Greedy.total Resting.size (A.set s i (xs ++ ys ++ [{ r with slot := p }]) t j) =
        Greedy.total Resting.size (A.set s i (xs ++ r :: ys) t j) ∧
      (A.set s i (xs ++ ys ++ [{ r with slot := p }]) t j).length =
        (A.set s i (xs ++ r :: ys) t j).length := by
    by_cases htj : t = s ∧ j = i
    · obtain ⟨rfl, rfl⟩ := htj
      rw [set_self, set_self]
      have hsize : Resting.size { r with slot := p } = r.size := rfl
      constructor
      · simp only [Greedy.total_append, Greedy.total_cons, Greedy.total_nil, hsize]
        omega
      · simp only [List.length_append, List.length_cons, List.length_nil]
        omega
    · have hne : t = s → j ≠ i := fun ht hj => htj ⟨ht, hj⟩
      rw [set_of_ne hne, set_of_ne hne]
      exact ⟨rfl, rfl⟩
  constructor
  · rw [← UInt32.toNat_inj, h'.total_eq, h.total_eq, hlevel.1]
  · rw [← UInt32.toNat_inj, h'.count_eq, h.count_eq, hlevel.2]

/-! ### Cancelling and submitting again -/

section Resubmit

variable [IdMap M] [IndexedBy M] {ts : Timestamp} {trades : List Trade}

/-- Dropping an order does not change what its own side would cross. -/
theorem Dropped.wouldCross_eq (hd : Dropped b A s i xs r ys b') (h : Index b)
    (hprice : b.inRange r.price = true) : b'.wouldCross s r.price = b.wouldCross s r.price := by
  have hprice' := (inRange_congr hd.cfg_eq r.price).trans hprice
  set o := r.replacement s r.qty r.price 0
  have hsrc : b'.crossing o = b.crossing o := hd.sources_eq (o := o) rfl
  have hiff := wouldCross_iff (o := o) h nofun hprice
  have hiff' := wouldCross_iff (o := o) hd.good.index nofun hprice'
  rw [hsrc] at hiff'
  exact Bool.eq_iff_iff.mpr (hiff'.trans hiff.symm)

/-- **The order is put back**, at the end of its level. -/
theorem Good.resubmit (h : Good b A) (hd : Dropped b A s i xs r ys b₂) (hpos : 0 < newQty)
    (hcross : b.wouldCross s r.price = false) (ts : Timestamp) (trades : List Trade) :
    ∃ b₃ p, (b₂.submitOrder (r.replacement s newQty r.price ts)).run trades =
        .ok (b₃, ⟨.accepted, 0, newQty⟩) trades ∧ b₃.cfg = b.cfg ∧
      Good b₃ (A.set s i (xs ++ ys ++ [⟨p, r.id, r.price, newQty⟩])) ∧
      ∀ t j, b₃.bit t j = true ↔
        b.bit t j = true ∨ (t = s ∧ j = i ∧ (xs ++ ys).length % 2 ^ 32 = 0) := by
  have hr : r ∈ A s i := by simp [hd.queue_eq]
  have hplaced := h.core.placed s i r hr
  have hid : r.id ≠ kInvalidOrderId := h.indexed.ne_invalid (binds_of_split hd.queue_eq)
  have hprice := inRange_of_level hplaced.level_eq hplaced.inside hplaced.small
  have hprice₂ := (inRange_congr hd.cfg_eq r.price).trans hprice
  have hidx : (b₂.priceToIdx r.price).toNat = i := by
    rw [priceToIdx_congr hd.cfg_eq]
    exact h.core.priceToIdx_eq hr
  -- the order has given back its slot
  have hroom : b₂.openOrders < b₂.cfg.maxOrders := by
    rw [hd.cfg_eq]
    exact (hd.openOrders_lt h).trans_le h.core.openOrders_le
  obtain ⟨b₃, p, hinsert, hcfg, hbit, hgood⟩ := hd.good.insertResting hroom hid
    (hd.not_rests h) hprice₂ (UInt32.lt_iff_toNat_lt.mp hpos) hidx (s := s)
  rw [set_self, set_set] at hgood
  refine ⟨b₃, p, ?_, hcfg.trans hd.cfg_eq, hgood, fun t j => ?_⟩
  · have hfind := hd.good.find_none (IndexedBy.findOk_of_ne _ hid) (hd.not_rests h)
    have hcross₂ := (hd.wouldCross_eq h.index hprice).trans hcross
    exact submitOrder_passive (o := r.replacement s newQty r.price ts)
      (UInt32.pos_iff_ne_zero.mp hpos) hid hfind rfl nofun nofun hprice₂ hcross₂
      hinsert trades
  · rw [hbit, hd.bit_iff, set_self]
    tauto

/-- An order that makes no trade had nothing to be filled from. -/
theorem Good.sources_of_silent {o : NewOrder} {res : SubmitResult} {trades' : List Trade}
    (h : Good b A) (hp : Passes b A o) (hok : ErasesOk b.idMap (b.filledIds A o))
    (hrun : (b.submitOrder o).run trades = .ok (b', res) trades') (hsilent : trades' = trades) :
    b.sources o = [] := by
  apply h.sources_eq_nil hp.inRange
  by_contra htotal
  obtain ⟨t, new, htrades⟩ :=
    trades_eq_cons (qty_pos hp.not_rejects) (Nat.pos_of_ne_zero htotal)
  have hsome : ∀ l : List Trade, trades ++ l = trades → l ≠ t :: new := by
    rintro _ hl rfl
    cases List.append_right_eq_self.mp hl
  have hs := h.submit o trades fun _ => hok
  rw [hrun] at hs
  cases hs with
  | rejected hr => exact hp.not_rejects hr
  | killed _ _ hk =>
    rw [hp.not_killed] at hk
    cases hk
  | crossing _ ht hc => exact hp.not_crossing ⟨ht, hc⟩
  | filled | dropped | rested => exact hsome _ hsilent htrades

/-- What `modify` with a lower quantity and `cancel` with `submit` leave, if nothing crosses. -/
theorem Good.lowersAlike {M : Type} [LawfulIdMap M] {b : OrderBook M} (h : Good b b.queue)
    (hr : r ∈ b.queue s i) (hpos : 0 < newQty) (hle : newQty ≤ r.qty) (ts : Timestamp)
    (hcross : b.wouldCross s r.price = false) (hrank : b.StaysInRank s i) :
    LowersAlike b s i r newQty ts := by
  intro xs ys trades hq
  have hin : r.InPlace newQty r.price := ⟨rfl, hpos, hle⟩
  obtain ⟨b₁, hshrink, hsh⟩ := h.shrink_to hq hin
  obtain ⟨b₂, hdrop, hd, -⟩ := h.drop hq trivial
  obtain ⟨b₃, p, hsubmit, hcfg, hgood, hbit⟩ := h.resubmit hd hpos hcross ts trades
  refine ⟨b₁, b₂, b₃, p, h.modify_shrink hq hin hshrink ts trades, hsh.good.core.queue_eq,
    h.cancel_eq hq hdrop, hsubmit, hgood.core.queue_eq, fun t => ?_, ?_, ?_, ?_⟩
  · -- the level of the order shows afterwards, if it did not before
    apply best_congr (hcfg.trans hsh.cfg_eq.symm)
    by_cases hts : t = s
    · subst hts
      refine hsh.good.index.bestIdx_eq (c := (xs ++ ys).length % 2 ^ 32 = 0) (i := i)
        hgood.index (fun j => ?_) fun hz => ?_
      · rw [hbit, hsh.bit_eq]
        tauto
      · simp only [hsh.bit_eq]
        refine hrank.imp_right fun hrest => hrest.resolve_left fun hcount => hcount ?_
        rw [← UInt32.toNat_inj, h.core.count_eq, hq]
        simp only [List.length_append, List.length_cons] at hz ⊢
        show _ = 1
        omega
    · refine hsh.good.index.bestIdx_eq (c := False) (i := i) hgood.index (fun j => ?_) nofun
      rw [hbit, hsh.bit_eq]
      tauto
  · exact fun t j => (hsh.good.core.depth_last hgood.core t j).1
  · exact fun t j => (hsh.good.core.depth_last hgood.core t j).2
  · intro id
    exact hsh.good.terms_eq hgood (includes_last _ _) (last_includes { r with qty := newQty } _)
      trivial trivial

/-- A replacement that makes no trade does not cross. -/
theorem Good.not_crossing_of_silent {res : SubmitResult} (h : Good b A)
    (hd : Dropped b A s i xs r ys b₂) (hpos : 0 < newQty) {ts : Timestamp}
    (hok : ErasesOk b₂.idMap
      (b₂.filledIds (A.set s i (xs ++ ys)) (r.replacement s newQty r.price ts)))
    (hrun : (b₂.submitOrder (r.replacement s newQty r.price ts)).run trades =
      .ok (b₃, res) trades) : b.wouldCross s r.price = false := by
  have hplaced := h.core.placed s i r (by simp [hd.queue_eq])
  have hprice := inRange_of_level hplaced.level_eq hplaced.inside hplaced.small
  have hpass : Passes b₂ (A.set s i (xs ++ ys)) (r.replacement s newQty r.price ts) := by
    refine ⟨fun hrej => ?_, rfl, nofun⟩
    rcases (hd.rejects_iff h newQty r.price ts).mp hrej with hz | hout
    · exact UInt32.pos_iff_ne_zero.mp hpos hz
    · exact hout hprice
  have hsrc := hd.good.sources_of_silent hpass hok hrun rfl
  have hcross := wouldCross_iff (o := r.replacement s newQty r.price ts) hd.good.index nofun
    (hpass.inRange nofun)
  rw [← hd.wouldCross_eq h.index hprice, ← Bool.not_eq_true]
  exact fun hc => hcross.mp hc hsrc

/-- If the best prices agree, no hidden level has come to the top. -/
theorem Good.staysInRank_of_best (h : Good b A) (hbase : 0 ≤ b.cfg.basePrice.toInt)
    (hq : A s i = xs ++ r :: ys) (hbest : b₃.best s = b.best s) (hcfg : b₃.cfg = b.cfg)
    (hindex : Index b₃) (hbit : ∀ j, b₃.bit s j = true ↔
      b.bit s j = true ∨ (j = i ∧ (xs ++ ys).length % 2 ^ 32 = 0)) : b.StaysInRank s i := by
  by_contra hrank
  unfold StaysInRank at hrank
  push Not at hrank
  obtain ⟨hhidden, hcount, hnone⟩ := hrank
  have hr : r ∈ A s i := by simp [hq]
  have hplaced := h.core.placed s i r hr
  -- the level shows afterwards, and is the best one
  have hz : (xs ++ ys).length % 2 ^ 32 = 0 := by
    have hlen := h.core.count_eq s i
    rw [hcount, hq] at hlen
    simp only [List.length_append, List.length_cons] at hlen ⊢
    change 1 = _ at hlen
    omega
  have hidx : b₃.bestIdx s = i := by
    refine (hindex.best s).unique (Or.inr ⟨(hbit i).mpr (Or.inr ⟨rfl, hz⟩), fun k hk hki => ?_⟩)
    rcases (hbit k).mp hk with hk | ⟨rfl, -⟩
    · exact hnone k hki hk
    · exact better_ne hki rfl
  have hprice : b.best s = r.price := by
    rw [← hbest, best_eq (by rw [hidx]; exact lt_kNoBest b.cfg hplaced.inside), hidx]
    exact idxToPrice_eq (by rw [hcfg]; exact hplaced.level_eq)
  have hlevel := hplaced.level_eq
  by_cases hne : b.bestIdx s = kNoBest
  · have hinvalid : b.best s = kInvalidPrice := by
      cases s with
      | buy => exact if_pos hne
      | sell => exact if_pos hne
    rw [← hprice, hinvalid] at hlevel
    change -1 = _ at hlevel
    omega
  · have hbestBit := h.index.bit_best hne
    have hp := (h.core.price_of_bit h.backed hbestBit).1
    rw [best_eq hne] at hprice
    rw [hprice] at hp
    obtain rfl : b.bestIdx s = i := by omega
    exact hhidden hbestBit

/-- **A new quantity at an unchanged price** is set as with a `cancel` and a `submit` if and only if
the new order crosses nothing and, where the order could have kept its place, does not bring a
hidden level to the top. -/
theorem Reachable.modifyAgrees_iff {M : Type} [LawfulIdMap M] {cfg : Config} {b : OrderBook M}
    (hbase : 0 ≤ cfg.basePrice.toInt) (h : Reachable cfg b) (hr : r ∈ b.queue s i)
    (hpos : 0 < newQty) (ts : Timestamp) :
    ModifyAgrees b s i r newQty ts ↔
      b.wouldCross s r.price = false ∧ (newQty ≤ r.qty → b.StaysInRank s i) := by
  obtain ⟨hgood, hcfg⟩ := h.good
  have hnot : r.qty < newQty → ¬r.InPlace newQty r.price := fun hlt hin =>
    UInt32.not_le.mpr hlt hin.2.2
  constructor
  · intro hagrees
    obtain ⟨xs, ys, hq⟩ := List.append_of_mem hr
    obtain ⟨b₂, hdrop, hd, -⟩ := hgood.drop hq trivial
    by_cases hle : newQty ≤ r.qty
    · obtain ⟨b₁, b₂', b₃, p, hmodify, -, hcancel, hsubmit, -, hdepth⟩ :=
        hagrees.lowers hle xs ys [] hq
      rw [hgood.cancel_eq hq hdrop] at hcancel
      obtain rfl : b₂ = b₂' := by cases hcancel; rfl
      have hcross := hgood.not_crossing_of_silent hd hpos (erasesOk_of_lawful _ _) hsubmit
      refine ⟨hcross, fun _ => ?_⟩
      obtain ⟨b₁', hshrink, hsh⟩ := hgood.shrink_to hq ⟨rfl, hpos, hle⟩
      rw [hgood.modify_shrink hq ⟨rfl, hpos, hle⟩ hshrink ts []] at hmodify
      obtain rfl : b₁' = b₁ := by cases hmodify; rfl
      obtain ⟨b₃', p', hsubmit', hcfg₃, hgood₃, hbit⟩ := hgood.resubmit hd hpos hcross ts []
      rw [hsubmit] at hsubmit'
      obtain rfl : b₃ = b₃' := by cases hsubmit'; rfl
      -- the quantity of the order plays no part in the best prices
      have hbest : b₃.best s = b.best s := by
        rw [hdepth.best_eq, best_congr hsh.cfg_eq]
        refine hgood.index.bestIdx_eq (c := False) (i := i) hsh.good.index (fun j => ?_) nofun
        rw [hsh.bit_eq]
        tauto
      refine hgood.staysInRank_of_best (hcfg ▸ hbase) hq hbest hcfg₃ hgood₃.index fun j => ?_
      rw [hbit]
      tauto
    · have hlt := UInt32.not_le.mp hle
      refine ⟨?_, fun hle' => absurd hle' hle⟩
      obtain ⟨b₁, p, hmodify, -⟩ := hagrees.raises hlt xs ys [] hq
      rw [hgood.modify_submit hq (hnot hlt) hdrop] at hmodify
      exact hgood.not_crossing_of_silent hd hpos (erasesOk_of_lawful _ _) hmodify
  · rintro ⟨hcross, hrank⟩
    refine ⟨fun hle => hgood.lowersAlike hr hpos hle ts hcross (hrank hle), fun hlt => ?_⟩
    intro xs ys trades hq
    obtain ⟨b₂, hdrop, hd, -⟩ := hgood.drop hq trivial
    obtain ⟨b₃, p, hsubmit, -, hgood₃, -⟩ := hgood.resubmit hd hpos hcross ts trades
    rw [hgood.modify_submit hq (hnot hlt) hdrop]
    exact ⟨b₃, p, hsubmit, hgood₃.core.queue_eq⟩

end Resubmit

theorem tradedBook_modifyAgrees_iff :
    ModifyAgrees tradedBook .sell 1 ⟨0, 1, 1, 2⟩ 1 0 ↔
      tradedBook.wouldCross .sell 1 = false ∧
        ((1 : Quantity) ≤ 2 → tradedBook.StaysInRank .sell 1) :=
  tradedBook_reachable.modifyAgrees_iff (by decide) (by decide) (by decide) 0

/-- A bid rests, and shows, at the price of the hidden asks. -/
theorem bidBesideAsks : ∃ b : OrderBook PlainIdMap, Reachable hugeConfig b ∧
    b.bestBidIdx ≠ kNoBest ∧ ∃ r ∈ b.queue .sell 0, r.price = 0 := by
  obtain ⟨b, h, hbits⟩ := hiddenAsks
  obtain ⟨hgood, hcfg⟩ := h.reachable.good
  obtain ⟨hprice, hidx⟩ := hugeConfig_priceToIdx hcfg
  have hnew : ¬b.queue.Rests (2 ^ 32 + 2) := h.not_rests (by decide)
  have hroom : b.openOrders < b.cfg.maxOrders := by
    rw [h.openOrders_eq, hcfg]
    decide
  have hcross : b.wouldCross .buy 0 = false := by
    have hnone : b.bestAskIdx = kNoBest :=
      (hgood.index.best .sell).unique (Or.inl ⟨rfl, fun i hi => by simp [hbits] at hi⟩)
    unfold wouldCross
    rw [hnone]
    rfl
  have hqty : 0 < (1 : Quantity).toNat := by decide
  obtain ⟨b', p, hinsert, -, hbit, hgood'⟩ :=
    hgood.insertResting (s := .buy) hroom (by decide) hnew hprice hqty hidx
  have hrun := submitOrder_passive (o := gtcOrder (2 ^ 32 + 2) .buy 0 1) (by decide) (by decide)
    (hgood.find_none trivial hnew) rfl (by decide) (by decide) hprice hcross hinsert []
  refine ⟨b', h.reachable.step trivial (exec_submit_ok hrun), ?_, ?_⟩
  · refine hgood'.index.bestIdx_ne (s := .buy) (i := 0) ((hbit _ _).mpr (Or.inr ⟨rfl, rfl, ?_⟩))
    rw [h.bids_eq]
    rfl
  · obtain ⟨r, hr⟩ := h.exists_mem (by decide)
    refine ⟨r, ?_, h.price_eq hr⟩
    rwa [hgood'.core.queue_eq, set_of_ne fun ht => absurd ht (by decide)]

/-- A hidden ask that is put back is traded with the bid. -/
theorem bidBesideAsks_resubmit_trades :
    ¬∀ (cfg : Config) (b : OrderBook PlainIdMap), 0 ≤ cfg.basePrice.toInt → Reachable cfg b →
      ∀ s i, ∀ r ∈ b.queue s i, ∀ newQty, 0 < newQty → ∀ ts, ModifyAgrees b s i r newQty ts := by
  intro hall
  obtain ⟨b, hreachable, hbid, r, hr, hprice⟩ := bidBesideAsks
  obtain ⟨hgood, hcfg⟩ := hreachable.good
  obtain ⟨xs, ys, hq⟩ := List.append_of_mem hr
  have hpos : 0 < r.qty := UInt32.lt_iff_toNat_lt.mpr (hgood.positive _ _ r hr)
  obtain ⟨b₁, b₂, b₃, p, -, -, hcancel, hsubmit, -, -⟩ :=
    (hall _ _ (by decide) hreachable .sell 0 r hr r.qty hpos 0).lowers (UInt32.le_refl _) xs ys
      [] hq
  obtain ⟨b₂', hdrop, hd, -⟩ := hgood.drop hq trivial
  rw [hgood.cancel_eq hq hdrop] at hcancel
  obtain rfl : b₂' = b₂ := by cases hcancel; rfl
  have hcross := hgood.not_crossing_of_silent hd hpos (erasesOk_of_lawful _ _) hsubmit
  -- but the best bid is not below price 0
  have hsize : toSize (0 - hugeConfig.basePrice) = 0 := by decide
  unfold wouldCross at hcross
  rw [hprice, hcfg, hsize] at hcross
  simp [hbid] at hcross

end Lob.OrderBook
