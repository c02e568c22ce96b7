import Lob.Equiv.OrderBook.Rebuild

/-!
# Orders that never rest

An immediate order, which trades what it can and drops the rest, is no more than its quantity: it
may be submitted in any number of pieces (`Reachable.split_alike`).  And an order that is cancelled
as soon as it has traded is an immediate one (`Reachable.cancelled_alike`).
-/

namespace Lob

open OrderBook (Answer)

/-- The order is neither fill-or-kill nor post-only, so that it trades what it can. -/
def NewOrder.Executes (o : NewOrder) : Prop := o.tif ≠ .fok ∧ o.tif ≠ .postOnly

/-- The order trades what it can, and what is left of it is dropped. -/
def NewOrder.Immediate (o : NewOrder) : Prop := o.Executes ∧ (o.tif = .ioc ∨ o.type = .market)

instance (o : NewOrder) : Decidable o.Executes := by
  unfold NewOrder.Executes
  infer_instance

instance (o : NewOrder) : Decidable o.Immediate := by
  unfold NewOrder.Immediate
  infer_instance

theorem NewOrder.executes_ioc (o : NewOrder) : ({ o with tif := .ioc } : NewOrder).Executes :=
  ⟨nofun, nofun⟩

/-- The order in pieces, each with an id and a quantity of its own. -/
def NewOrder.split (o : NewOrder) (pieces : List (OrderId × Quantity)) : List Call :=
  pieces.map fun x => .submit { o with id := x.1, qty := x.2 }

/-- The quantity of the pieces. -/
def piecesQty (pieces : List (OrderId × Quantity)) : ℕ := (pieces.map fun x => x.2.toNat).sum

/-- The quantity that a `submit` or `modify` filled. -/
def OrderBook.Answer.filled : Answer → ℕ
  | .submitted res => res.filledQty.toNat
  | .found _ => 0

theorem Entry.size_shrink {e : Entry} {n : ℕ} (h : n < e.size) : (e.shrink n).size = e.size - n :=
  Resting.size_shrink (r := ⟨0, e.id, e.price, e.qty⟩) h

theorem Entry.shrink_shrink (e : Entry) (n n' : ℕ) :
    (e.shrink n).shrink n' = e.shrink (n + n') := by
  have hsub : e.qty - UInt32.ofNat n - UInt32.ofNat n' = e.qty - UInt32.ofNat (n + n') := by
    rw [UInt32.ofNat_add]
    grind
  exact congrArg (Entry.mk e.id e.price) hsub

theorem tradedBy_append (id : OrderId) (ts ts' : List Trade) :
    tradedBy id (ts ++ ts') = tradedBy id ts + tradedBy id ts' := by
  unfold tradedBy
  rw [List.filter_append, List.map_append, List.sum_append]

namespace Market

variable {m m' m'' : Market} {o : NewOrder} {cfg : Config} {s : Side} {n n' : ℕ}
  {ts ts' : List Trade} {pieces : List (OrderId × Quantity)}

/-! ### What an immediate order takes -/

/-- The market after immediate orders on the terms of `o` for the quantity `n`.  They are refused if
their price is not one of the book's. -/
def taken (cfg : Config) (m : Market) (o : NewOrder) (n : ℕ) : Market :=
  if n = 0 ∨ (o.type ≠ .market ∧ ¬cfg.Lists o.price) then m
  else
    Function.update m (opposite o.side)
      (Greedy.leftover Entry.size Entry.shrink (m.matching o) n ++
        (m (opposite o.side)).filter fun e => !o.acceptsPrice e.price)

theorem taken_zero (cfg : Config) (m : Market) (o : NewOrder) : m.taken cfg o 0 = m :=
  if_pos (Or.inl rfl)

theorem acceptsPrice_leftover {e : Entry}
    (he : e ∈ Greedy.leftover Entry.size Entry.shrink (m.matching o) n) :
    o.acceptsPrice e.price = true := by
  rcases Greedy.mem_leftover _ _ he with he | ⟨e', he', k, -, -, rfl⟩
  · exact (List.mem_filter.mp he).2
  · exact (List.mem_filter.mp he').2

/-- **Two quantities in a row take what their sum takes.** -/
theorem taken_taken (cfg : Config) (m : Market) (o : NewOrder) (n n' : ℕ) :
    (m.taken cfg o n).taken cfg o n' = m.taken cfg o (n + n') := by
  rcases eq_or_ne n 0 with rfl | hn
  · rw [taken_zero, Nat.zero_add]
  rcases eq_or_ne n' 0 with rfl | hn'
  · rw [taken_zero, Nat.add_zero]
  by_cases hprice : o.type ≠ .market ∧ ¬cfg.Lists o.price
  · unfold taken
    rw [if_pos (Or.inr hprice), if_pos (Or.inr hprice), if_pos (Or.inr hprice)]
  have hsum : n + n' ≠ 0 := by omega
  unfold taken matching
  rw [if_neg (not_or.mpr ⟨hn, hprice⟩), if_neg (not_or.mpr ⟨hn', hprice⟩),
    if_neg (not_or.mpr ⟨hsum, hprice⟩), Function.update_self, Function.update_idem,
    List.filter_append, List.filter_append, List.filter_filter, List.filter_filter]
  -- what the first quantity leaves within the limit is within the limit
  have hin : ∀ e ∈ Greedy.leftover Entry.size Entry.shrink (m.matching o) n,
      o.acceptsPrice e.price = true := fun e he => acceptsPrice_leftover he
  unfold matching at hin
  have hkeep := List.filter_eq_self.mpr hin
  have hdrop : (Greedy.leftover Entry.size Entry.shrink ((m (opposite o.side)).filter fun e =>
      o.acceptsPrice e.price) n).filter (fun e => !o.acceptsPrice e.price) = [] :=
    List.filter_eq_nil_iff.mpr fun e he => by simp [hin e he]
  rw [hkeep, hdrop, List.nil_append]
  simp only [Bool.and_not_self, List.filter_false, List.append_nil, Bool.and_self]
  rw [Greedy.leftover_leftover _ _ (fun _ _ => Entry.size_shrink) Entry.shrink_shrink]

/-- No order comes to rest. -/
theorem taken_rests {id : OrderId} (h : (m.taken cfg o n).Rests id) : m.Rests id := by
  unfold taken at h
  split_ifs at h with hnone
  · exact h
  obtain ⟨s, e, he, rfl⟩ := rests_iff.mp h
  by_cases hs : s = opposite o.side
  · subst hs
    rw [Function.update_self, List.mem_append] at he
    rcases he with he | he
    · -- an order that gave a part of its quantity keeps its id
      rcases Greedy.mem_leftover _ _ he with he | ⟨e', he', k, -, -, rfl⟩
      · exact mem_rests (List.mem_of_mem_filter he)
      · exact mem_rests (e := e') (List.mem_of_mem_filter he')
    · exact mem_rests (List.mem_of_mem_filter he)
  · rw [Function.update_of_ne hs] at he
    exact mem_rests he

theorem fill_eq_taken (hr : ¬m.Refuses o cfg) : m.fill o = m.taken cfg o o.qty.toNat := by
  refine (if_neg ?_).symm
  rintro (hz | hprice)
  · exact hr (Or.inl (UInt32.toNat_inj.mp hz))
  · exact hr (Or.inr (Or.inr (Or.inr hprice)))

theorem not_kills (m : Market) (ho : o.Executes) : ¬m.Kills o := by
  rintro (⟨hfok, -⟩ | ⟨hpost, -⟩)
  · exact ho.1 hfok
  · exact ho.2 hpost

/-! ### What the trades account for -/

/-- The trades of orders against side `s`, which fill `n`, are what the orders of the side lose. -/
structure Accounts (m m' : Market) (s : Side) (ts : List Trade) (n : ℕ) : Prop where
  traded : ∀ id, Greedy.total Entry.size ((m' s).filter fun e => e.id = id) + tradedBy id ts =
    Greedy.total Entry.size ((m s).filter fun e => e.id = id)
  filled : Greedy.total Entry.size (m' s) + n = Greedy.total Entry.size (m s)

theorem Accounts.refl (m : Market) (s : Side) : Accounts m m s [] 0 := ⟨fun _ => rfl, rfl⟩

theorem Accounts.trans (h : Accounts m m' s ts n) (h' : Accounts m' m'' s ts' n') :
    Accounts m m'' s (ts ++ ts') (n + n') where
  traded id := by
    have htraded := h.traded id
    have htraded' := h'.traded id
    rw [tradedBy_append]
    omega
  filled := by
    have hfilled := h.filled
    have hfilled' := h'.filled
    omega

/-- The accounts of two runs from one market to one market agree. -/
theorem Accounts.unique (h : Accounts m m' s ts n) (h' : Accounts m m' s ts' n') :
    (∀ id, tradedBy id ts' = tradedBy id ts) ∧ n' = n := by
  refine ⟨fun id => ?_, ?_⟩
  · have htraded := h.traded id
    have htraded' := h'.traded id
    omega
  · have hfilled := h.filled
    have hfilled' := h'.filled
    omega

/-- What some of the orders give to the incoming one is what they lose. -/
theorem fill_filter (m : Market) (o : NewOrder) {p : Entry → Bool}
    (hp : ∀ e n, p (e.shrink n) = p e) :
    Greedy.total Entry.size ((m.fill o (opposite o.side)).filter p) +
        (((Greedy.fills Entry.size (m.matching o) o.qty.toNat).filter fun f => p f.1).map
          Prod.snd).sum =
      Greedy.total Entry.size ((m (opposite o.side)).filter p) := by
  have hgive := Greedy.sum_fills_filter Entry.size Entry.shrink hp
    (fun _ _ => Entry.size_shrink) (m.matching o) o.qty.toNat
  have hperm := (List.filter_append_perm (fun e : Entry => o.acceptsPrice e.price)
    (m (opposite o.side))).filter p
  have htotal := Greedy.total_perm Entry.size hperm
  rw [List.filter_append, Greedy.total_append] at htotal
  unfold fill matching at *
  rw [Function.update_self, List.filter_append, Greedy.total_append]
  omega

theorem accounts_fill (m : Market) (o : NewOrder) :
    Accounts m (m.fill o) (opposite o.side) (m.trades o)
      (min o.qty.toNat (m.available o)) where
  traded id := by
    have htraded : tradedBy id (m.trades o) = _ :=
      OrderBook.tradedBy_fills o.qty.toNat_lt Entry.id (fun _ => rfl) (fun _ => rfl) id
    rw [htraded]
    exact m.fill_filter o fun _ _ => rfl
  filled := by
    have hall := m.fill_filter o (p := fun _ => true) fun _ _ => rfl
    simp only [List.filter_true] at hall
    rwa [Greedy.sum_fills] at hall

/-! ### Runs of immediate orders -/

theorem remainder_toNat (m : Market) (o : NewOrder) :
    (m.remainder o).toNat = o.qty.toNat - m.available o := by
  have hqty := o.qty.toNat_lt
  unfold remainder
  rw [UInt32.toNat_ofNat']
  omega

/-- An immediate order with a fresh id is refused or fills what it can. -/
theorem submit_immediate (cfg : Config) (ho : o.Immediate) (hid : o.id ≠ kInvalidOrderId)
    (hrests : ¬m.Rests o.id) (ts : List Trade) :
    ∃ res new, (m.submit cfg o).run ts = .ok (m.taken cfg o o.qty.toNat, res) (ts ++ new) ∧
      Accounts m (m.taken cfg o o.qty.toNat) (opposite o.side) new res.filledQty.toNat := by
  by_cases hr : m.Refuses o cfg
  · have hsame : m.taken cfg o o.qty.toNat = m := by
      rcases hr with hqty | hinvalid | hresting | hprice
      · rw [hqty]
        exact taken_zero cfg m o
      · exact absurd hinvalid hid
      · exact absurd hresting hrests
      · exact if_pos (Or.inr hprice)
    refine ⟨⟨.rejected, 0, 0⟩, [], ?_, ?_⟩
    · rw [submit_refused hr, hsame, List.append_nil]
    · rw [hsame]
      exact .refl m _
  have hk := m.not_kills ho.1
  have hfill := fill_eq_taken hr
  have haccounts := m.accounts_fill o
  rw [hfill] at haccounts
  rcases Nat.lt_or_ge (m.available o) o.qty.toNat with hlt | hge
  · -- a part of the order is dropped
    have hrun := (submit_executed hr hk ts).trans
      (settle_dropped rfl _ (remainder_ne_zero hlt) ho.2)
    rw [hfill] at hrun
    refine ⟨_, _, hrun, ?_⟩
    have hn := m.remainder_toNat o
    have hle : m.remainder o ≤ o.qty := UInt32.le_iff_toNat_le.mpr (by omega)
    have hfilled : (o.qty - m.remainder o).toNat = min o.qty.toNat (m.available o) := by
      rw [UInt32.toNat_sub_of_le _ _ hle]
      omega
    dsimp only
    rwa [hfilled]
  · have hrun := (submit_executed hr hk ts).trans (settle_filled (remainder_of_le hge) _ rfl)
    rw [hfill] at hrun
    refine ⟨_, _, hrun, ?_⟩
    rwa [min_eq_left hge] at haccounts

theorem answers_split (cfg : Config) (ho : o.Immediate)
    (hids : ∀ x ∈ pieces, x.1 ≠ kInvalidOrderId ∧ ¬m.Rests x.1) (ts : List Trade) :
    ∃ as new, (m.answers cfg (o.split pieces)).run ts =
        .ok (m.taken cfg o (piecesQty pieces), as) (ts ++ new) ∧
      Accounts m (m.taken cfg o (piecesQty pieces)) (opposite o.side) new
        (as.map Answer.filled).sum := by
  induction pieces generalizing m ts with
  | nil =>
    refine ⟨[], [], ?_, ?_⟩
    · rw [List.append_nil]
      exact congrArg (fun m' => EStateM.Result.ok (m', []) ts) (taken_zero cfg m o).symm
    · exact (taken_zero cfg m o).symm ▸ .refl m _
  | cons x pieces ih =>
    obtain ⟨hid, hrests⟩ := hids x List.mem_cons_self
    obtain ⟨res, new, hrun, haccounts⟩ :=
      submit_immediate cfg (o := { o with id := x.1, qty := x.2 }) ho hid hrests ts
    obtain ⟨as, new', hruns, haccounts'⟩ := ih (m := m.taken cfg o x.2.toNat)
      (fun y hy => ⟨(hids y (List.mem_cons_of_mem _ hy)).1,
        fun h => (hids y (List.mem_cons_of_mem _ hy)).2 (taken_rests h)⟩) (ts ++ new)
    rw [taken_taken] at hruns haccounts'
    refine ⟨.submitted res :: as, new ++ new', ?_, haccounts.trans haccounts'⟩
    have hcall : (m.answer cfg (.submit { o with id := x.1, qty := x.2 })).run ts =
        .ok (m.taken cfg o x.2.toNat, .submitted res) (ts ++ new) := by
      unfold answer
      rw [OrderBook.sink_bind hrun]
      rfl
    show (m.answers cfg (_ :: o.split pieces)).run ts = _
    unfold answers
    rw [OrderBook.sink_bind hcall, OrderBook.sink_bind hruns, ← List.append_assoc]
    rfl

/-! ### An order that is cancelled at once -/

/-- An order that has come to rest is cancelled. -/
theorem amend_rest (h : ¬m.Rests o.id) (qty : Quantity) :
    (m.rest o qty).amend o.id (fun _ => none) = m := by
  have hnot := amend_of_not_rests h fun _ => none
  have hdrop : ∀ (r : Entry → Entry → Prop) [DecidableRel r] (e : Entry) (l : List Entry),
      e.id = o.id → (l.orderedInsert r e).filterMap
        (fun e => if e.id = o.id then none else some e) =
          l.filterMap fun e => if e.id = o.id then none else some e := by
    intro r _ e l he
    rw [List.orderedInsert_eq_take_drop, List.filterMap_append, List.filterMap_cons, if_pos he]
    dsimp only
    rw [← List.filterMap_append, List.takeWhile_append_dropWhile]
  funext s
  refine Eq.trans ?_ (congrFun hnot s)
  unfold amend rest
  by_cases hs : s = o.side
  · subst hs
    rw [Function.update_self]
    exact hdrop _ _ _ rfl
  · rw [Function.update_of_ne hs]

/-- What a `submit` leaves once its order is cancelled is what it leaves as immediate-or-cancel. -/
theorem submit_cancelled {res : SubmitResult} (ho : o.Executes) (hrests : ¬m.Rests o.id)
    (hrun : (m.submit cfg o).run ts = .ok (m', res) ts') :
    ∃ res', (m.submit cfg { o with tif := .ioc }).run ts =
        .ok (m'.amend o.id fun _ => none, res') ts' ∧
      res'.filledQty = res.filledQty ∧ res'.remainingQty = res.remainingQty := by
  by_cases hr : m.Refuses o cfg
  · rw [submit_refused hr] at hrun
    cases hrun
    refine ⟨⟨.rejected, 0, 0⟩, ?_, rfl, rfl⟩
    rw [submit_refused (o := { o with tif := .ioc }) hr, amend_of_not_rests hrests]
  have hioc := submit_executed (o := { o with tif := .ioc }) hr (m.not_kills o.executes_ioc) ts
  rw [submit_executed hr (m.not_kills ho)] at hrun
  -- the trades of the two orders are the same, and so is what they leave
  have hfresh : ¬(m.fill o).Rests o.id := by
    rw [fill_eq_taken hr]
    exact mt taken_rests hrests
  have hfill := amend_of_not_rests hfresh fun _ => none
  by_cases hz : m.remainder o = 0
  · rw [settle_filled hz _ rfl] at hrun
    cases hrun
    rw [hfill]
    exact ⟨_, hioc.trans (settle_filled (o := { o with tif := .ioc }) hz _ rfl), rfl, rfl⟩
  have hdropped := hioc.trans (settle_dropped (o := { o with tif := .ioc }) rfl _ hz (Or.inl rfl))
  by_cases hd : o.tif = .ioc ∨ o.type = .market
  · rw [settle_dropped rfl _ hz hd] at hrun
    cases hrun
    rw [hfill]
    exact ⟨_, hdropped, rfl, rfl⟩
  by_cases hfull : (m.fill o).size = cfg.maxOrders
  · rw [settle_full rfl _ hz hd hfull] at hrun
    cases hrun
  · -- the order comes to rest, and the cancel takes it off again
    rw [settle_rested rfl _ hz hd hfull] at hrun
    cases hrun
    rw [amend_rest hfresh]
    exact ⟨_, hdropped, rfl, rfl⟩

theorem answers_cancelled {as : List Answer} (ho : o.Executes) (hrests : ¬m.Rests o.id)
    (hrun : (m.answers cfg [.submit o, .cancel o.id]).run ts = .ok (m', as) ts') :
    ∃ res res' found, as = [.submitted res, .found found] ∧
      (m.answers cfg [.submit { o with tif := .ioc }]).run ts = .ok (m', [.submitted res']) ts' ∧
      res'.filledQty = res.filledQty ∧ res'.remainingQty = res.remainingQty := by
  obtain ⟨⟨m₁, a⟩, ts₁, hcall, hrest⟩ := OrderBook.exists_of_sink_bind hrun
  obtain ⟨⟨m₂, res⟩, ts₂, hsubmit, hpure⟩ := OrderBook.exists_of_sink_bind hcall
  cases hpure
  cases hrest
  obtain ⟨res', hioc, hfilled, hremaining⟩ := submit_cancelled ho hrests hsubmit
  refine ⟨res, res', _, rfl, ?_, hfilled, hremaining⟩
  have hcall : (m.answer cfg (.submit { o with tif := .ioc })).run ts =
      .ok (m₁.amend o.id fun _ => none, .submitted res') ts' := by
    unfold answer
    rw [OrderBook.sink_bind hioc]
    rfl
  unfold answers
  rw [OrderBook.sink_bind hcall]
  rfl

end Market

namespace OrderBook

variable {M : Type} {b b' : OrderBook M} {o : NewOrder} {pieces pieces' : List (OrderId × Quantity)}

/-- The books have one market, and no further calls tell them apart. -/
structure Alike [IdMap M] (b b' : OrderBook M) : Prop where
  market_eq : b'.market = b.market
  answers_eq : ∀ cs ts, asMarket ((b'.answers cs).run ts) = asMarket ((b.answers cs).run ts)

variable [LawfulIdMap M]

theorem Faithful.alike (h : Faithful b) (h' : Faithful b') (hcfg : b'.cfg = b.cfg)
    (hm : b'.market = b.market) : Alike b b' :=
  ⟨hm, fun cs ts =>
    h.answers_congr h' hcfg hm (OrderBook.throughout_safe b cs) (OrderBook.throughout_safe b' cs)
      ts⟩

/-- Only a fill-or-kill order has a quantity to be counted. -/
theorem countable_of_executes {cs : List Call} (h : ∀ o, Call.submit o ∈ cs → o.Executes)
    (cfg : Config) (m : Market) : m.countable cfg cs = true := by
  refine Market.countable_of_forall (fun c hc m => ?_) m
  cases c with
  | submit o => exact fun hfok => absurd hfok (h o hc).1
  | cancel => trivial
  | reduce => trivial
  | modify => trivial

theorem countable_split (ho : o.Executes) (cfg : Config) (m : Market) :
    m.countable cfg (o.split pieces) = true := by
  refine countable_of_executes (fun o' ho' => ?_) cfg m
  obtain ⟨x, -, hx⟩ := List.mem_map.mp ho'
  exact Call.submit.inj hx ▸ ho

/-- **It does not matter how an immediate order is split.**  Two ways of submitting one quantity in
pieces take as much from each resting order, fill as much, and leave books that no further calls
tell apart. -/
theorem Reachable.split_alike {cfg : Config} (hbase : 0 ≤ cfg.basePrice.toInt)
    (hmax : cfg.maxOrders < 2 ^ 32) (h : Reachable cfg b) (ho : o.Immediate)
    (hids : ∀ x ∈ pieces ++ pieces', x.1 ≠ kInvalidOrderId ∧ ¬b.market.Rests x.1)
    (hqty : piecesQty pieces' = piecesQty pieces) :
    ∃ b₁ b₂ as₁ as₂ ts₁ ts₂, (b.answers (o.split pieces)).run [] = .ok (b₁, as₁) ts₁ ∧
      (b.answers (o.split pieces')).run [] = .ok (b₂, as₂) ts₂ ∧ Alike b₁ b₂ ∧
      (∀ id, tradedBy id ts₂ = tradedBy id ts₁) ∧
      (as₂.map Answer.filled).sum = (as₁.map Answer.filled).sum := by
  obtain ⟨hf, -, -⟩ := h.faithful hbase hmax
  obtain ⟨as₁, ts₁, hrun₁, haccounts₁⟩ := Market.answers_split b.cfg ho
    (fun x hx => hids x (List.mem_append_left _ hx)) []
  obtain ⟨as₂, ts₂, hrun₂, haccounts₂⟩ := Market.answers_split b.cfg ho
    (fun x hx => hids x (List.mem_append_right _ hx)) []
  obtain ⟨b₁, hb₁, hf₁, hcfg₁, hm₁⟩ := hf.exists_answers (countable_split ho.1 _ _) hrun₁
  obtain ⟨b₂, hb₂, hf₂, hcfg₂, hm₂⟩ := hf.exists_answers (countable_split ho.1 _ _) hrun₂
  rw [hqty] at hm₂ haccounts₂
  obtain ⟨htraded, hfilled⟩ := haccounts₁.unique haccounts₂
  exact ⟨b₁, b₂, as₁, as₂, _, _, hb₁, hb₂,
    hf₁.alike hf₂ (hcfg₂.trans hcfg₁.symm) (hm₂.trans hm₁.symm), htraded, hfilled⟩

/-- A bid for five in one piece, and one in three pieces, the last of which finds nothing. -/
theorem tradedBook_split_alike :
    ∃ b₁ b₂ as₁ as₂ ts₁ ts₂,
      (tradedBook.answers ({ gtcOrder 3 .buy 1 5 with tif := .ioc }.split [(3, 5)])).run [] =
        .ok (b₁, as₁) ts₁ ∧
      (tradedBook.answers ({ gtcOrder 3 .buy 1 5 with tif := .ioc }.split
        [(3, 1), (4, 2), (5, 2)])).run [] = .ok (b₂, as₂) ts₂ ∧ Alike b₁ b₂ ∧
      (∀ id, tradedBy id ts₂ = tradedBy id ts₁) ∧
      (as₂.map Answer.filled).sum = (as₁.map Answer.filled).sum := by
  have hfresh₃ : ¬tradedBook.market.Rests 3 := by decide
  have hfresh₄ : ¬tradedBook.market.Rests 4 := by decide
  have hfresh₅ : ¬tradedBook.market.Rests 5 := by decide
  refine tradedBook_reachable.split_alike (by decide) (by decide) (by decide) (fun x hx => ?_)
    (by decide)
  simp only [List.cons_append, List.nil_append, List.mem_cons, List.not_mem_nil, or_false] at hx
  rcases hx with rfl | rfl | rfl | rfl
  · exact ⟨by decide, hfresh₃⟩
  · exact ⟨by decide, hfresh₃⟩
  · exact ⟨by decide, hfresh₄⟩
  · exact ⟨by decide, hfresh₅⟩

/-- **An order that is cancelled at once is immediate-or-cancel.**  An order and the cancel of what
is left of it make the trades of the immediate-or-cancel order, and leave a book that no further
calls tell from the one that it leaves. -/
theorem Reachable.cancelled_alike {cfg : Config} (hbase : 0 ≤ cfg.basePrice.toInt)
    (hmax : cfg.maxOrders < 2 ^ 32) (h : Reachable cfg b) (ho : o.Executes)
    (hrests : ¬b.market.Rests o.id) {b₁ : OrderBook M} {as : List Answer} {ts : List Trade}
    (hrun : (b.answers [.submit o, .cancel o.id]).run [] = .ok (b₁, as) ts) :
    ∃ b₂ res res' found, as = [.submitted res, .found found] ∧
      (b.answers [.submit { o with tif := .ioc }]).run [] = .ok (b₂, [.submitted res']) ts ∧
      Alike b₁ b₂ ∧ res'.filledQty = res.filledQty ∧ res'.remainingQty = res.remainingQty := by
  obtain ⟨hf, -, -⟩ := h.faithful hbase hmax
  have hcount : b.market.countable b.cfg [.submit o, .cancel o.id] = true := by
    refine countable_of_executes (fun o' ho' => ?_) _ _
    rw [List.mem_pair, or_iff_left nofun] at ho'
    exact Call.submit.inj ho' ▸ ho
  have hcount' : b.market.countable b.cfg [.submit { o with tif := .ioc }] = true := by
    refine countable_of_executes (fun o' ho' => ?_) _ _
    exact Call.submit.inj (List.mem_singleton.mp ho') ▸ o.executes_ioc
  have hmarket := hf.answers_market (throughout_safe b _) hcount []
  rw [hrun, asMarket_ok] at hmarket
  obtain ⟨res, res', found, rfl, hioc, hfilled, hremaining⟩ :=
    Market.answers_cancelled ho hrests hmarket.symm
  obtain ⟨b₂, hrun₂, hf₂, hcfg₂, hm₂⟩ := hf.exists_answers hcount' hioc
  obtain ⟨hf₁, hcfg₁⟩ := hf.answers (throughout_safe b _) hrun
  exact ⟨b₂, res, res', found, rfl, hrun₂, hf₁.alike hf₂ (hcfg₂.trans hcfg₁.symm) hm₂, hfilled,
    hremaining⟩

/-- A bid for five trades two, and the cancel takes the other three. -/
theorem tradedBook_cancelled_alike :
    ∃ b₁ as ts, (tradedBook.answers [.submit (gtcOrder 3 .buy 1 5), .cancel 3]).run [] =
        .ok (b₁, as) ts ∧
      ∃ b₂ res res' found, as = [.submitted res, .found found] ∧
        (tradedBook.answers [.submit { gtcOrder 3 .buy 1 5 with tif := .ioc }]).run [] =
          .ok (b₂, [.submitted res']) ts ∧
        Alike b₁ b₂ ∧ res'.filledQty = res.filledQty ∧ res'.remainingQty = res.remainingQty := by
  have hanswered : tradedBook.answered [.submit (gtcOrder 3 .buy 1 5), .cancel 3] =
      some [.submitted ⟨.partiallyFilled, 2, 3⟩, .found true] := by decide +kernel
  obtain ⟨b₁, ts, hrun⟩ := answered_eq_some hanswered
  exact ⟨b₁, _, ts, hrun,
    tradedBook_reachable.cancelled_alike (by decide) (by decide) (by decide) (by decide) hrun⟩

end OrderBook

end Lob
