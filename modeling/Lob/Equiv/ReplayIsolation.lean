import Lob.Equiv.ReplayPassive

/-!
# Isolation of the symbol

The order messages of other securities, and those that come before the directory message of the
symbol, are to leave no trace (`ReplayHandler.Isolated`): the handler is to end up as if they had
been removed (`own`).

The handler compares the locate of a message with `targetLocate`, whose initial value is a locate,
too.  So messages of the locate 0 get through until a directory message binds the handler
(`Leaks`), and this is the only way for one to get through (`isolated_iff`).
-/

namespace Lob

open Itch Queues OrderBook

/-! ### The messages of the symbol -/

/-- The locate that a directory message gives to the symbol. -/
def Itch.Message.listing (symbol : List UInt8) : Message → Option UInt16
  | .stockDirectory d => if symbolMatches d.stock symbol then some d.stockLocate else none
  | _ => none

/-- The locates that the messages give to the symbol, one after the other. -/
def listings (symbol : List UInt8) (ms : List Message) : List UInt16 :=
  ms.filterMap (Message.listing symbol)

/-- The messages without the order messages that carry another locate than the first one that the
symbol is given, or come before it is given one.  It is `t` as soon as it is known. -/
def own (symbol : List UInt8) : Option UInt16 → List Message → List Message
  | _, [] => []
  | t, m :: ms =>
    if m.orderLocate = none ∨ m.orderLocate = t then
      m :: own symbol (t.or (m.listing symbol)) ms
    else own symbol (t.or (m.listing symbol)) ms

/-- **Isolation** of the symbol in a run from `h₀` that ends in `h'`.  If the symbol is listed, the
run without the messages of others has the same book and the same counters at its end.  If it is
not, the book is empty all the time. -/
structure ReplayHandler.Isolated {M : Type} [IdMap M] (h₀ h' : ReplayHandler M) (ms : List Message)
    (trades : List Trade) : Prop where
  same : listings h₀.symbol ms ≠ [] → ∃ h'' trades'',
    (h₀.replay (own h₀.symbol none ms)).run trades = .ok h'' trades'' ∧
      h''.book = h'.book ∧ h''.counters = h'.counters
  empty : listings h₀.symbol ms = [] → ∀ seen later, ms = seen ++ later → ∀ h₁ trades₁,
    (h₀.replay seen).run trades = .ok h₁ trades₁ → h₁.book.queue = Queues.empty

/-- A message that gets through although it is not one of the symbol: the symbol has not been
listed, and the message carries the locate 0; or the symbol was first listed with the locate 0, and
the message carries the first other one that it was given.  The listings so far are `L`. -/
def Leaks (L : List UInt16) (m : Message) : Prop :=
  (L = [] ∧ m.orderLocate = some 0) ∨
    (L.head? = some 0 ∧ ∃ c, L.find? (· ≠ 0) = some c ∧ m.orderLocate = some c)

/-- A fresh book takes the order of the message. -/
structure Admissible (cfg : Config) (itchTick : Int32) (a : AddOrder) : Prop where
  ref_ne : a.orderRef ≠ 0
  shares_ne : a.shares ≠ 0
  inRange : (OrderBook.new cfg : OrderBook (OrderIdMap Ptr)).inRange
    (enginePrice itchTick a.price) = true

/-- No message leaks.  If the symbol is not listed at all, this matters only for the orders that a
fresh book takes. -/
structure Separate (cfg : Config) (symbol : List UInt8) (itchTick : Int32) (ms : List Message) :
    Prop where
  no_leak : listings symbol ms ≠ [] → ∀ before m later, ms = before ++ m :: later →
    ¬Leaks (listings symbol before) m
  no_order : listings symbol ms = [] → ∀ a, .addOrder a ∈ ms → a.stockLocate = 0 →
    ¬Admissible cfg itchTick a

/-! ### The locate of the handler -/

/-- The locate of the handler after a message. -/
def rebind (symbol : List UInt8) (u : UInt16) (m : Message) : UInt16 :=
  if u = 0 then (m.listing symbol).getD 0 else u

theorem rebind_of_not_listed {symbol : List UInt8} {m : Message} (h : m.listing symbol = none)
    (u : UInt16) : rebind symbol u m = u := by
  unfold rebind
  rw [h]
  split_ifs with hu
  · exact hu.symm
  · rfl

theorem listing_of_order {m : Message} {c : UInt16} (h : m.orderLocate = some c)
    (symbol : List UInt8) : m.listing symbol = none := by
  cases m with
  | stockDirectory => cases h
  | _ => rfl

section Steps

variable {M : Type} [IdMap M] {h h' : ReplayHandler M} {m : Message} {ms : List Message}
  {trades trades' : List Trade} {c : UInt16}

omit [IdMap M] in
theorem onStockDirectory_eq (h : ReplayHandler M) (d : StockDirectory) :
    h.onStockDirectory d =
      { h with targetLocate := rebind h.symbol h.targetLocate (.stockDirectory d) } := by
  unfold ReplayHandler.onStockDirectory rebind Message.listing
  dsimp only
  by_cases hzero : h.targetLocate = 0
  · rw [if_pos hzero]
    by_cases hmatch : symbolMatches d.stock h.symbol = true
    · rw [if_pos ⟨hzero, hmatch⟩, if_pos hmatch]
      rfl
    · rw [if_neg fun hboth => hmatch hboth.2, if_neg hmatch]
      cases h
      dsimp only at hzero
      subst hzero
      rfl
  · rw [if_neg fun hboth => hzero hboth.1, if_neg hzero]

/-- What a message does to the fields of the handler other than its book. -/
structure Advances (h h' : ReplayHandler M) (m : Message) : Prop where
  symbol_eq : h'.symbol = h.symbol
  tick_eq : h'.itchTick = h.itchTick
  target_eq : h'.targetLocate = rebind h.symbol h.targetLocate m
  count_eq : h'.counters.sum =
    h.counters.sum + if m.orderLocate = some h.targetLocate then 1 else 0

omit [IdMap M] in
/-- Each order message that is not ignored counts once. -/
theorem Advances.of_taken (hm : m.orderLocate = some h.targetLocate)
    (hsymbol : h'.symbol = h.symbol) (htick : h'.itchTick = h.itchTick)
    (htarget : h'.targetLocate = h.targetLocate)
    (hcount : h'.counters.sum = h.counters.sum + 1) : Advances h h' m where
  symbol_eq := hsymbol
  tick_eq := htick
  target_eq := htarget.trans (rebind_of_not_listed (listing_of_order hm _) _).symm
  count_eq := by rw [if_pos hm, hcount]

omit [IdMap M] in
theorem Advances.of_ignored (hm : m.orderLocate = some c) (hc : c ≠ h.targetLocate) :
    Advances h h m where
  symbol_eq := rfl
  tick_eq := rfl
  target_eq := (rebind_of_not_listed (listing_of_order hm _) _).symm
  count_eq := by
    rw [if_neg fun heq => hc (Option.some.inj (hm.symm.trans heq))]
    rfl

omit [IdMap M] in
/-- A message ends with a call, after which the handler takes the book over. -/
theorem Advances.of_last {α : Type} {x : SinkM α} {g : α → SinkM (ReplayHandler M)}
    {f : OrderBook M → ReplayHandler M} (hrun : (x >>= g).run trades = .ok h' trades')
    (hm : m.orderLocate = some h.targetLocate) (hf : Commits h f)
    (hg : ∀ a ts, ∃ book, (g a).run ts = .ok (f book) ts) : Advances h h' m := by
  obtain ⟨a, ts, -, hrun⟩ := exists_of_sink_bind hrun
  obtain ⟨book, hlast⟩ := hg a ts
  rw [hlast] at hrun
  cases hrun
  exact .of_taken hm (hf.symbol_eq book) (hf.tick_eq book) (hf.target_eq book) (hf.count_eq book)

theorem onMessage_taken (hm : m.orderLocate = some h.targetLocate)
    (hrun : (h.onMessage m).run trades = .ok h' trades') : Advances h h' m := by
  cases m with
  | systemEvent | unhandled | stockDirectory => cases hm
  | orderExecuted | orderExecutedWithPrice | orderCancel =>
    obtain ⟨f, hf, hon⟩ := onMessage_reduces hm rfl
    rw [hon] at hrun
    exact .of_last hrun hm hf fun a _ => ⟨a.2, rfl⟩
  | orderDelete d =>
    obtain ⟨f, hf, hon⟩ := onMessage_deletes (Option.some.inj hm)
    rw [hon] at hrun
    exact .of_last hrun hm hf fun a _ => ⟨a.2, rfl⟩
  | addOrder a =>
    change (h.onAddOrder a).run trades = _ at hrun
    rw [onAddOrder_eq (Option.some.inj hm)] at hrun
    exact .of_last hrun hm (commits_adds h) fun a _ => ⟨a.1, rfl⟩
  | orderReplace r =>
    change (h.onOrderReplace r).run trades = _ at hrun
    unfold ReplayHandler.onOrderReplace at hrun
    rw [if_neg (not_not.mpr (Option.some.inj hm))] at hrun
    obtain ⟨found, ts, -, hrun⟩ := exists_of_sink_bind hrun
    cases found with
    | none =>
      cases hrun
      exact .of_taken hm rfl rfl rfl (by simp only [ReplayHandler.sum_counters]; omega)
    | some p =>
      obtain ⟨original, ts₁, -, hrun⟩ := exists_of_sink_bind hrun
      obtain ⟨⟨found, b₁⟩, ts₂, -, hrun⟩ := exists_of_sink_bind hrun
      exact .of_last hrun hm (commits_replaces h) fun a _ => ⟨a.1, rfl⟩

theorem onMessage_advances (hrun : (h.onMessage m).run trades = .ok h' trades') :
    Advances h h' m := by
  cases hm : m.orderLocate with
  | none =>
    cases m with
    | stockDirectory d =>
      cases hrun
      rw [onStockDirectory_eq]
      exact ⟨rfl, rfl, rfl, rfl⟩
    | systemEvent | unhandled =>
      cases hrun
      exact ⟨rfl, rfl, (rebind_of_not_listed rfl _).symm, rfl⟩
    | _ => cases hm
  | some c =>
    by_cases hc : c = h.targetLocate
    · subst hc
      exact onMessage_taken hm hrun
    · rw [onMessage_ignored hm hc] at hrun
      cases hrun
      exact .of_ignored hm hc

end Steps

/-! ### Runs with and without the messages of others -/

/-- Every message that the handler takes while it is bound to `u` carries the locate `t` that the
symbol was given first. -/
def Clear (symbol : List UInt8) : Option UInt16 → UInt16 → List Message → Prop
  | _, _, [] => True
  | t, u, m :: ms => (m.orderLocate = some u → t = some u) ∧
    Clear symbol (t.or (m.listing symbol)) (rebind symbol u m) ms

/-- The number of messages that the handler takes. -/
def taken (symbol : List UInt8) : UInt16 → List Message → ℕ
  | _, [] => 0
  | u, m :: ms =>
    (if m.orderLocate = some u then 1 else 0) + taken symbol (rebind symbol u m) ms

/-- The handler takes less of the messages without those of others, unless there are none that it
would have taken. -/
theorem taken_own (symbol : List UInt8) (t : Option UInt16) (u : UInt16) (ms : List Message) :
    taken symbol u (own symbol t ms) ≤ taken symbol u ms ∧
      (taken symbol u (own symbol t ms) = taken symbol u ms → Clear symbol t u ms) := by
  induction ms generalizing t u with
  | nil => exact ⟨le_rfl, fun _ => trivial⟩
  | cons m ms ih =>
    obtain ⟨hle, hclear⟩ := ih (t.or (m.listing symbol)) (rebind symbol u m)
    unfold own
    by_cases hkeep : m.orderLocate = none ∨ m.orderLocate = t
    · rw [if_pos hkeep]
      unfold taken
      refine ⟨Nat.add_le_add_left hle _, fun heq => ⟨fun hm => ?_, ?_⟩⟩
      · rcases hkeep with hnone | ht
        · rw [hm] at hnone
          cases hnone
        · rw [← ht, hm]
      · exact hclear (Nat.add_left_cancel heq)
    · rw [if_neg hkeep]
      -- the message is an order message, so that it does not bind the handler
      obtain ⟨c, hc⟩ := Option.ne_none_iff_exists'.mp fun hnone => hkeep (Or.inl hnone)
      rw [rebind_of_not_listed (listing_of_order hc symbol)] at hle hclear
      have hstep : taken symbol u (m :: ms) =
          (if m.orderLocate = some u then 1 else 0) + taken symbol u ms := by
        conv_lhs => unfold taken
        rw [rebind_of_not_listed (listing_of_order hc symbol)]
      rw [hstep]
      refine ⟨hle.trans (Nat.le_add_left _ _), fun heq => ?_⟩
      by_cases hm : m.orderLocate = some u
      · rw [if_pos hm] at heq
        omega
      · rw [if_neg hm, Nat.zero_add] at heq
        unfold Clear
        rw [rebind_of_not_listed (listing_of_order hc symbol)]
        exact ⟨fun hcon => absurd hcon hm, hclear heq⟩

section Runs

variable {M : Type} [IdMap M] {h h' : ReplayHandler M} {ms : List Message}
  {trades trades' : List Trade}

theorem replay_count (hrun : (h.replay ms).run trades = .ok h' trades') :
    h'.counters.sum = h.counters.sum + taken h.symbol h.targetLocate ms := by
  induction ms generalizing h trades with
  | nil =>
    cases hrun
    rfl
  | cons m ms ih =>
    obtain ⟨h₁, ts₁, hm, hrest⟩ := exists_of_sink_bind hrun
    have hstep := onMessage_advances hm
    rw [ih hrest, hstep.count_eq, hstep.symbol_eq, hstep.target_eq, Nat.add_assoc]
    rfl

/-- **The messages of others leave no trace** if the handler takes none of them. -/
theorem replay_own {t : Option UInt16} (hclear : Clear h.symbol t h.targetLocate ms)
    (trades : List Trade) :
    (h.replay (own h.symbol t ms)).run trades = (h.replay ms).run trades := by
  induction ms generalizing h t trades with
  | nil => rfl
  | cons m ms ih =>
    obtain ⟨hm, hclear⟩ := hclear
    unfold own
    by_cases hkeep : m.orderLocate = none ∨ m.orderLocate = t
    · rw [if_pos hkeep]
      cases hx : (h.onMessage m).run trades with
      | ok h₁ ts₁ =>
        have hstep := onMessage_advances hx
        rw [← hstep.target_eq, ← hstep.symbol_eq] at hclear
        rw [replay_cons hx, replay_cons hx, ← hstep.symbol_eq]
        exact ih hclear ts₁
      | error e ts₁ =>
        unfold ReplayHandler.replay
        rw [sink_bind_error hx, sink_bind_error hx]
    · rw [if_neg hkeep]
      obtain ⟨c, hc⟩ := Option.ne_none_iff_exists'.mp fun hnone => hkeep (Or.inl hnone)
      have hne : c ≠ h.targetLocate := by
        rintro rfl
        exact hkeep (Or.inr (hc.trans (hm hc).symm))
      rw [rebind_of_not_listed (listing_of_order hc _)] at hclear
      rw [replay_cons (onMessage_ignored hc hne)]
      exact ih hclear trades

end Runs

/-! ### The messages that leak -/

/-- The locate of a handler that has seen the listings `L`. -/
def boundTo (L : List UInt16) : UInt16 := (L.find? (· ≠ 0)).getD 0

theorem boundTo_append (symbol : List UInt8) (L : List UInt16) (m : Message) :
    boundTo (L ++ (m.listing symbol).toList) = rebind symbol (boundTo L) m := by
  unfold boundTo rebind
  rw [List.find?_append]
  cases hL : L.find? (· ≠ 0) with
  | some c =>
    have hc : c ≠ 0 := by simpa using List.find?_some hL
    exact (if_neg hc).symm
  | none =>
    rw [if_pos (by rfl)]
    cases m.listing symbol with
    | none => rfl
    | some c =>
      by_cases hc : c = 0
      · rw [hc]
        rfl
      · simp [hc]

theorem not_leaks_iff (L : List UInt16) (m : Message) :
    ¬Leaks L m ↔ (m.orderLocate = some (boundTo L) → L.head? = some (boundTo L)) := by
  unfold Leaks boundTo
  cases L with
  | nil => simp
  | cons c L =>
    by_cases hc : c = 0
    · subst hc
      rw [List.find?_cons_of_neg (by simp)]
      cases hL : L.find? (· ≠ 0) with
      | none => simp
      | some d =>
        have hd : d ≠ 0 := by simpa using List.find?_some hL
        simp [hd.symm]
    · simp [hc]

/-- Nothing else than a leak gets through. -/
theorem clear_iff (symbol : List UInt8) (ms : List Message) (L : List UInt16) :
    Clear symbol L.head? (boundTo L) ms ↔ ∀ before m later, ms = before ++ m :: later →
      ¬Leaks (L ++ listings symbol before) m := by
  induction ms generalizing L with
  | nil =>
    refine iff_of_true trivial fun before m later heq => ?_
    exact absurd heq.symm (by simp)
  | cons m ms ih =>
    have hhead : (L ++ (m.listing symbol).toList).head? = L.head?.or (m.listing symbol) := by
      rw [List.head?_append, Option.head?_toList]
    have hcons : ∀ before, listings symbol (m :: before) =
        (m.listing symbol).toList ++ listings symbol before := by
      intro before
      unfold listings
      cases hm : m.listing symbol with
      | none => rw [List.filterMap_cons_none hm]; rfl
      | some c => rw [List.filterMap_cons_some hm]; rfl
    unfold Clear
    rw [← hhead, ← boundTo_append, ih, ← not_leaks_iff]
    constructor
    · rintro ⟨hm, hms⟩ before m' later heq
      cases before with
      | nil =>
        obtain ⟨rfl, -⟩ := List.cons.inj heq
        rwa [listings, List.filterMap_nil, List.append_nil]
      | cons m₀ before =>
        obtain ⟨rfl, htail⟩ := List.cons.inj heq
        rw [hcons, ← List.append_assoc]
        exact hms before m' later htail
    · intro hall
      constructor
      · have hm := hall [] m ms rfl
        rwa [listings, List.filterMap_nil, List.append_nil] at hm
      · rintro before m' later rfl
        have hm := hall (m :: before) m' later rfl
        rwa [hcons, ← List.append_assoc] at hm

/-! ### A book that stays empty -/

section Fresh

variable {cfg : Config} {h h' : ReplayHandler (OrderIdMap Ptr)} {m : Message} {ms : List Message}
  {trades trades' : List Trade}

/-- A fresh book finds nothing under any id. -/
theorem new_findOk (cfg : Config) (id : OrderId) :
    IndexedBy.FindOk (OrderBook.new cfg : OrderBook (OrderIdMap Ptr)).idMap id :=
  Or.inr (OrderIdMap.new_invalidClean _)

theorem new_queue (cfg : Config) :
    (OrderBook.new cfg : OrderBook (OrderIdMap Ptr)).queue = Queues.empty :=
  (new_good cfg).core.queue_eq

theorem not_rests_empty (id : OrderId) : ¬Queues.empty.Rests id := by
  rintro ⟨s, i, r, hr, -⟩
  cases hr

/-- An order message leaves a fresh book as it is, unless it is an order that the book takes. -/
theorem onMessage_fresh_taken (hbook : h.book = OrderBook.new cfg)
    (hm : m.orderLocate = some h.targetLocate)
    (hadd : ∀ a, m = .addOrder a → ¬Admissible cfg h.itchTick a)
    (hrun : (h.onMessage m).run trades = .ok h' trades') : h'.book = OrderBook.new cfg := by
  have hgood : Good h.book Queues.empty := hbook ▸ new_good cfg
  have hfind : ∀ id, IndexedBy.FindOk h.book.idMap id := hbook ▸ new_findOk cfg
  have hreduce := fun id delta => hgood.reduce_none (hfind id) (not_rests_empty id) delta
  have hcancel := fun id => hgood.cancel_none (hfind id) (not_rests_empty id)
  cases m with
  | systemEvent | unhandled | stockDirectory => cases hm
  | addOrder a =>
    set o := h.order a.orderRef a.side a.price a.shares a.tsNs
    have hrej : Rejects h.book Queues.empty o := by
      by_contra hpass
      have hrange : h.book.inRange o.price = true :=
        inRange_of_not_rejects (o := o) hpass nofun
      rw [hbook] at hrange
      exact hadd a rfl ⟨fun href => hpass (Or.inr (Or.inl href)),
        fun hshares => hpass (Or.inl hshares), hrange⟩
    change (h.onAddOrder a).run trades = _ at hrun
    rw [onAddOrder_run (Option.some.inj hm) (hgood.submit_rejects hrej trades)] at hrun
    cases hrun
    exact hbook
  | orderExecuted | orderExecutedWithPrice | orderCancel =>
    obtain ⟨f, hf, hon⟩ := onMessage_reduces hm rfl
    rw [onMessage_of_call hon (hreduce _ _)] at hrun
    cases hrun
    exact (hf.book_eq _).trans hbook
  | orderDelete d =>
    obtain ⟨f, hf, hon⟩ := onMessage_deletes (Option.some.inj hm)
    rw [onMessage_of_call hon (hcancel _)] at hrun
    cases hrun
    exact (hf.book_eq _).trans hbook
  | orderReplace r =>
    change (h.onOrderReplace r).run trades = _ at hrun
    unfold ReplayHandler.onOrderReplace at hrun
    rw [if_neg (not_not.mpr (Option.some.inj hm)),
      sink_bind (quiet_ok (hgood.find_none (hfind _) (not_rests_empty _)) trades)] at hrun
    cases hrun
    exact hbook

theorem onMessage_fresh (hbook : h.book = OrderBook.new cfg)
    (hadd : ∀ a, m = .addOrder a → a.stockLocate = h.targetLocate →
      ¬Admissible cfg h.itchTick a)
    (hrun : (h.onMessage m).run trades = .ok h' trades') : h'.book = OrderBook.new cfg := by
  cases hm : m.orderLocate with
  | none =>
    cases m with
    | stockDirectory d =>
      cases hrun
      rw [onStockDirectory_eq]
      exact hbook
    | systemEvent | unhandled =>
      cases hrun
      exact hbook
    | _ => cases hm
  | some c =>
    by_cases hc : c = h.targetLocate
    · subst hc
      refine onMessage_fresh_taken hbook hm (fun a ha => ?_) hrun
      subst ha
      exact hadd a rfl (Option.some.inj hm)
    · rw [onMessage_ignored hm hc] at hrun
      cases hrun
      exact hbook

/-- An order that a fresh book takes rests there. -/
theorem onAddOrder_fresh {a : AddOrder} (hbook : h.book = OrderBook.new cfg)
    (ha : a.stockLocate = h.targetLocate) (hadm : Admissible cfg h.itchTick a)
    (hrun : (h.onAddOrder a).run trades = .ok h' trades') : h'.book.queue ≠ Queues.empty := by
  have hgood : Good h.book Queues.empty := hbook ▸ new_good cfg
  set o := h.order a.orderRef a.side a.price a.shares a.tsNs
  have hrange : h.book.inRange o.price = true := by
    rw [hbook]
    exact hadm.inRange
  have hrej : ¬Rejects h.book Queues.empty o := by
    rintro (hqty | hid | hrests | ⟨-, hout⟩)
    · exact hadm.shares_ne hqty
    · exact hadm.ref_ne hid
    · exact not_rests_empty _ hrests
    · exact hout hrange
  have hsrc : h.book.sources o = [] := hgood.sources_of_apart (fun _ => hrange) nofun
  rcases hgood.submit_appends rfl rfl hrej hsrc trades with
    ⟨-, hfull⟩ | ⟨b', p, hsubmit, -, hgood'⟩
  · rw [onAddOrder_eq ha, sink_bind_error hfull] at hrun
    cases hrun
  · rw [onAddOrder_run ha hsubmit] at hrun
    cases hrun
    show b'.queue ≠ Queues.empty
    rw [hgood'.core.queue_eq]
    intro heq
    have hlevel := congrFun (congrFun heq o.side) (h.book.priceToIdx o.price).toNat
    rw [set_self] at hlevel
    cases hlevel

/-- As long as the symbol is not listed, the book is empty until it takes an order. -/
theorem empty_iff (hbook : h.book = OrderBook.new cfg) (htarget : h.targetLocate = 0)
    (hms : listings h.symbol ms = []) (hrun : (h.replay ms).run trades = .ok h' trades') :
    (∀ seen later, ms = seen ++ later → ∀ h₁ trades₁,
        (h.replay seen).run trades = .ok h₁ trades₁ → h₁.book.queue = Queues.empty) ↔
      ∀ a, .addOrder a ∈ ms → a.stockLocate = 0 → ¬Admissible cfg h.itchTick a := by
  induction ms generalizing h trades with
  | nil =>
    refine iff_of_true (fun seen later heq h₁ trades₁ hseen => ?_) nofun
    obtain ⟨rfl, -⟩ := List.append_eq_nil_iff.mp heq.symm
    cases hseen
    rw [hbook]
    exact new_queue cfg
  | cons m ms ih =>
    obtain ⟨h₁, ts₁, hm, hrest⟩ := exists_of_sink_bind hrun
    have hnone := List.filterMap_eq_nil_iff.mp hms
    have hstep := onMessage_advances hm
    by_cases hadd : ∀ a, m = .addOrder a → a.stockLocate = 0 → ¬Admissible cfg h.itchTick a
    · have hbook₁ : h₁.book = OrderBook.new cfg := onMessage_fresh hbook (htarget ▸ hadd) hm
      have htarget₁ : h₁.targetLocate = 0 := by
        rw [hstep.target_eq, rebind_of_not_listed (hnone m List.mem_cons_self), htarget]
      have hms₁ : listings h₁.symbol ms = [] := by
        rw [hstep.symbol_eq]
        exact List.filterMap_eq_nil_iff.mpr fun m' hm' => hnone m' (List.mem_cons_of_mem m hm')
      have ih := ih hbook₁ htarget₁ hms₁ hrest
      rw [hstep.tick_eq] at ih
      constructor
      · intro hempty a ha
        rcases List.mem_cons.mp ha with rfl | ha
        · exact hadd a rfl
        · refine ih.mp (fun seen later heq h₂ ts₂ hseen => ?_) a ha
          exact hempty (m :: seen) later (congrArg (m :: ·) heq) h₂ ts₂
            ((replay_cons hm).trans hseen)
      · intro hall seen later heq h₂ ts₂ hseen
        cases seen with
        | nil =>
          cases hseen
          rw [hbook]
          exact new_queue cfg
        | cons m₀ seen =>
          obtain ⟨rfl, htail⟩ := List.cons.inj heq
          rw [replay_cons hm] at hseen
          have hall := fun a ha => hall a (List.mem_cons_of_mem m ha)
          exact ih.mpr hall seen later htail h₂ ts₂ hseen
    · -- the message is an order that the book takes
      push Not at hadd
      obtain ⟨a, rfl, ha, hadm⟩ := hadd
      refine iff_of_false (fun hempty => ?_) fun hall => hall a List.mem_cons_self ha hadm
      exact onAddOrder_fresh hbook (ha.trans htarget.symm) hadm hm
        (hempty [.addOrder a] ms rfl h₁ ts₁ (replay_cons hm))

/-- **Isolation of the symbol**, for a run that returns, holds if and only if no message leaks. -/
theorem isolated_iff {symbol : List UInt8} {itchTick : Int32} {tick_ne : itchTick ≠ 0}
    (hrun : ((ReplayHandler.new cfg symbol itchTick tick_ne :
      ReplayHandler (OrderIdMap Ptr)).replay ms).run trades = .ok h' trades') :
    (ReplayHandler.new cfg symbol itchTick tick_ne).Isolated h' ms trades ↔
      Separate cfg symbol itchTick ms := by
  set h₀ : ReplayHandler (OrderIdMap Ptr) := ReplayHandler.new cfg symbol itchTick tick_ne
  have hclear := clear_iff symbol ms []
  constructor
  · rintro ⟨hsame, hempty⟩
    constructor
    · intro hlisted
      obtain ⟨h'', trades'', hown, -, hcounters⟩ := hsame hlisted
      -- the counters tell how many messages were taken
      have hcount := replay_count hrun
      rw [← hcounters, replay_count hown] at hcount
      exact hclear.mp ((taken_own symbol none 0 ms).2 (Nat.add_left_cancel hcount))
    · exact fun hunlisted => (empty_iff rfl rfl hunlisted hrun).mp (hempty hunlisted)
  · rintro ⟨hleak, horder⟩
    constructor
    · intro hlisted
      have hown := replay_own (h := h₀) (t := none) (hclear.mpr (hleak hlisted)) trades
      exact ⟨h', trades', hown.trans hrun, rfl, rfl⟩
    · exact fun hunlisted => (empty_iff rfl rfl hunlisted hrun).mpr (horder hunlisted)

end Fresh

/-! ### An order before the listing -/

/-- A directory message that gives the locate 7 to the empty symbol. -/
def listing7 : StockDirectory := ⟨7, 0, Vector.replicate 8 32, 0⟩

theorem listing7_run (h : ReplayHandler (OrderIdMap Ptr)) (hsymbol : h.symbol = [])
    (htarget : h.targetLocate = 0) (trades : List Trade) :
    (h.onMessage (.stockDirectory listing7)).run trades =
      .ok { h with targetLocate := 7 } trades := by
  show EStateM.Result.ok (h.onStockDirectory listing7) trades = _
  unfold ReplayHandler.onStockDirectory
  rw [if_pos ⟨htarget, by rw [hsymbol]; decide⟩]
  rfl

theorem listedBid_isolated_iff :
    ∃ h', (ReplayHandler.new smallConfig [] 100 (by decide) :
      ReplayHandler (OrderIdMap Ptr)).Isolated h'
        [.stockDirectory listing7, .addOrder (halfTickBid 7)] [] ↔
      Separate smallConfig [] 100 [.stockDirectory listing7, .addOrder (halfTickBid 7)] := by
  have hlisted := listing7_run (ReplayHandler.new smallConfig [] 100 (by decide)) rfl rfl []
  obtain ⟨trades', hadd⟩ :=
    halfTickBid_run (ReplayHandler.bound smallConfig [] 100 (by decide) 7) rfl rfl
  exact ⟨_, isolated_iff ((replay_cons hlisted).trans ((replay_cons hadd).trans rfl))⟩

/-- **An order of the locate 0 gets through** before the symbol is listed. -/
theorem replay_not_isolated :
    ¬∀ (cfg : Config) (symbol : List UInt8) (itchTick : Int32) (tick_ne : itchTick ≠ 0)
      (ms : List Message) (trades : List Trade) (h' : ReplayHandler (OrderIdMap Ptr))
      (trades' : List Trade),
      ((ReplayHandler.new cfg symbol itchTick tick_ne).replay ms).run trades = .ok h' trades' →
      (ReplayHandler.new cfg symbol itchTick tick_ne).Isolated h' ms trades := by
  intro hall
  obtain ⟨trades', hadd⟩ :=
    halfTickBid_run (ReplayHandler.new smallConfig [] 100 (by decide)) rfl rfl
  have hlisted := listing7_run { (ReplayHandler.new smallConfig [] 100 (by decide) :
    ReplayHandler (OrderIdMap Ptr)) with book := oneBid, adds := 1 } rfl rfl trades'
  have hisolated := hall smallConfig [] 100 (by decide)
    [.addOrder (halfTickBid 0), .stockDirectory listing7] [] _ _
    ((replay_cons hadd).trans ((replay_cons hlisted).trans rfl))
  obtain ⟨h'', trades'', hown, -, hcounters⟩ := hisolated.same (by decide)
  -- without the order nothing is counted
  have hlisted' := listing7_run (ReplayHandler.new smallConfig [] 100 (by decide)) rfl rfl []
  have hown' := (replay_cons hlisted').symm.trans hown
  cases hown'
  cases hcounters

end Lob
