import Lob.Equiv.OrderBook.CollisionFree
import Lob.Equiv.Snapshot

/-!
# Replay with the table of the source

With the hash table of the source a replay reconstructs the book of the exchange as long as no two
references that are live at the same time have the same home slot (`Tape.Spread`): then no erasure
strands an entry of the table (`Follows.safe`).
-/

namespace Lob

open Itch Queues OrderBook

/-! ### References without collisions -/

namespace Tape

/-- No two live references have the same home slot in the table for `n` orders. -/
def Apart (n : ℕ) (l : Tape) : Prop :=
  ∀ o ∈ l, ∀ o' ∈ l, BookTable.home n o.ref = BookTable.home n o'.ref → o.ref = o'.ref

/-- This holds before each of the messages. -/
def Spread (n : ℕ) (t : UInt16) : Tape → List Message → Prop
  | _, [] => True
  | l, m :: ms => l.Apart n ∧ Spread n t (l.next t m) ms

instance (n : ℕ) (l : Tape) : Decidable (l.Apart n) := by unfold Apart; infer_instance

instance instDecidableSpread (n : ℕ) (t : UInt16) :
    ∀ (l : Tape) (ms : List Message), Decidable (Spread n t l ms)
  | _, [] => isTrue trivial
  | l, m :: ms =>
    have := instDecidableSpread n t (l.next t m) ms
    inferInstanceAs (Decidable (l.Apart n ∧ Spread n t (l.next t m) ms))

end Tape

/-- No two resting orders have the same home slot. -/
def OrderBook.Scattered (b : OrderBook BookTable) : Prop :=
  ∀ id id', b.queue.Rests id → b.queue.Rests id' →
    BookTable.home b.cfg.maxOrders id = BookTable.home b.cfg.maxOrders id' → id = id'

theorem OrderBook.Good.safe_of_scattered {b : OrderBook BookTable} (h : Good b b.queue)
    (hb : b.Scattered) {c : Call} (hc : c.target ≠ some kInvalidOrderId) : Safe b b.queue c := by
  refine h.safe_of_collisionless ⟨fun e he e' he' heq => ?_, hc⟩
  have hrests : ∀ {e}, e ∈ b.market .buy ++ b.market .sell → b.queue.Rests e.id := fun he => by
    rw [← h.market_rests_iff]
    exact ⟨_, he, rfl⟩
  exact hb _ _ (hrests he) (hrests he') heq

variable {cfg : Config} {itchTick : Int32} {t : UInt16} {h : ReplayHandler BookTable} {A : Queues}
  {l : Tape} {m : Message} {trades trades' : List Trade}

theorem Mirrors.scattered {b : OrderBook BookTable} (hm : Mirrors cfg itchTick b A l)
    (hfits : l.Fits cfg itchTick) (hapart : l.Apart cfg.maxOrders) : b.Scattered := by
  intro id id' hid hid' heq
  rw [hm.good.core.queue_eq, hm.view.rests_iff hfits] at hid hid'
  obtain ⟨o, ho, rfl⟩ := hid
  obtain ⟨o', ho', rfl⟩ := hid'
  rw [hm.cfg_eq] at heq
  exact hapart o ho o' ho' heq

/-! ### The book stays faithful -/

/-- A message that is one call on the book. -/
theorem single_faithful {x : Single BookTable} {h' : ReplayHandler BookTable}
    (hf : Faithful h.book) (hb : h.book.Scattered) (hx : m.single h = some x)
    (htarget : x.call.target ≠ some kInvalidOrderId)
    (hrun : (h.onMessage m).run trades = .ok h' trades') : Faithful h'.book := by
  rw [onMessage_single hx] at hrun
  by_cases hloc : x.locate ≠ h.targetLocate
  · rw [if_pos hloc] at hrun
    cases hrun
    exact hf
  · rw [if_neg hloc] at hrun
    obtain ⟨b', trades₁, hexec, hreturn⟩ := exists_of_sink_bind hrun
    have hbook : h'.book = b' := by
      cases hreturn
      exact book_raise hx _
    rw [hbook]
    exact (hf.exec (hf.good.safe_of_scattered hb htarget) hexec).1

/-- A `cancel` leaves fewer orders. -/
theorem cancel_scattered {b b' : OrderBook BookTable} (hf : Faithful b) (hb : b.Scattered)
    {id : OrderId} (hid : id ≠ kInvalidOrderId)
    (hexec : (b.exec (.cancel id)).run trades = .ok b' trades') : Faithful b' ∧ b'.Scattered := by
  have hsafe := hf.good.safe_of_scattered hb (c := .cancel id)
    fun heq => hid (Option.some.inj heq)
  obtain ⟨hf', hcfg⟩ := hf.exec hsafe hexec
  refine ⟨hf', ?_⟩
  obtain ⟨found, b₁, hcancel, -, -, hgood⟩ := hf.good.cancel_without hsafe
  have hb₁ : b₁ = b' := by
    unfold OrderBook.exec at hexec
    rw [sink_bind (quiet_ok hcancel trades)] at hexec
    cases hexec
    rfl
  have hrests : ∀ id', b'.queue.Rests id' → b.queue.Rests id' := by
    rw [← hb₁, hgood.core.queue_eq]
    rintro id' ⟨s, i, r, hr, rfl⟩
    exact ⟨s, i, r, List.mem_of_mem_filter hr, rfl⟩
  intro id₁ id₂ h₁ h₂ heq
  rw [hcfg] at heq
  exact hb id₁ id₂ (hrests _ h₁) (hrests _ h₂) heq

theorem onOrderReplace_faithful {h' : ReplayHandler BookTable} (hf : Faithful h.book)
    (hb : h.book.Scattered) {r : OrderReplace} (hid : r.originalOrderRef ≠ kInvalidOrderId)
    (hrun : (h.onOrderReplace r).run trades = .ok h' trades') : Faithful h'.book := by
  rw [onOrderReplace_eq] at hrun
  by_cases hloc : r.stockLocate ≠ h.targetLocate
  · rw [if_pos hloc] at hrun
    cases hrun
    exact hf
  · rw [if_neg hloc] at hrun
    obtain ⟨found, trades₁, -, hrun⟩ := exists_of_sink_bind hrun
    cases found with
    | none =>
      cases hrun
      exact hf
    | some o =>
      obtain ⟨original, trades₂, -, hrun⟩ := exists_of_sink_bind hrun
      obtain ⟨b₁, trades₃, hcancel, hrun⟩ := exists_of_sink_bind hrun
      obtain ⟨b₂, trades₄, hsubmit, hrun⟩ := exists_of_sink_bind hrun
      obtain ⟨hf₁, hb₁⟩ := cancel_scattered hf hb hid hcancel
      cases hrun
      refine (hf₁.exec ?_ hsubmit).1
      exact hf₁.good.safe_of_scattered hb₁ (Option.some_ne_none _).symm

/-- A message that names no order, or one with a valid reference. -/
theorem onMessage_faithful {h' : ReplayHandler BookTable} (hf : Faithful h.book)
    (hb : h.book.Scattered) (hm : ∀ c, m.call = some c → c.target ≠ some kInvalidOrderId)
    (hrun : (h.onMessage m).run trades = .ok h' trades') : Faithful h'.book := by
  cases m with
  | addOrder =>
    refine single_faithful hf hb rfl ?_ hrun
    exact (Option.some_ne_none _).symm
  | orderExecuted | orderExecutedWithPrice | orderCancel | orderDelete =>
    exact single_faithful hf hb rfl (hm _ rfl) hrun
  | orderReplace r =>
    exact onOrderReplace_faithful hf hb (fun heq => hm _ rfl (congrArg some heq)) hrun
  | systemEvent | unhandled =>
    cases hrun
    exact hf
  | stockDirectory d =>
    have hbook : h'.book = h.book := by
      cases hrun
      unfold ReplayHandler.onStockDirectory
      split_ifs <;> rfl
    rwa [hbook]

/-! ### The run -/

/-- A message of a valid tape names live orders only, whose references are valid. -/
theorem Follows.target_ne (hf : Follows cfg itchTick t h A l) (hfits : l.Fits cfg itchTick)
    (haccepts : l.Accepts m) {c : Call} (hc : m.call = some c) :
    c.target ≠ some kInvalidOrderId := by
  have hlive : ∀ ref, l.Live ref → ref ≠ kInvalidOrderId := fun ref href => by
    obtain ⟨p, hp⟩ := rests_iff.mp ((hf.mirrors.view.rests_iff hfits ref).mpr href)
    exact hf.mirrors.good.indexed.ne_invalid hp
  intro htarget
  cases m with
  | orderExecuted e | orderExecutedWithPrice e | orderCancel e =>
    cases hc
    obtain ⟨o, ho, href, -⟩ := haccepts
    exact hlive _ ⟨o, ho, href⟩ (Option.some.inj htarget)
  | orderDelete d =>
    cases hc
    exact hlive _ haccepts (Option.some.inj htarget)
  | orderReplace r =>
    cases hc
    exact hlive _ haccepts.1 (Option.some.inj htarget)
  | _ => cases hc

theorem Follows.onMessage_table (hf : Follows cfg itchTick t h A l) (hfaith : Faithful h.book)
    (hbase : 0 ≤ cfg.basePrice.toInt) (ht : t ≠ 0) (hnow : l.Fits cfg itchTick)
    (hapart : l.Apart cfg.maxOrders) (haccepts : m.orderLocate = some t → l.Accepts m)
    (hfits : (l.next t m).Fits cfg itchTick) (trades : List Trade) :
    ∃ h' A', (h.onMessage m).run trades = .ok h' trades ∧
      Follows cfg itchTick t h' A' (l.next t m) ∧ Faithful h'.book := by
  have hb := hf.mirrors.scattered hnow hapart
  by_cases hm : m.orderLocate = some t
  · have htarget : ∀ c, m.call = some c → c.target ≠ some kInvalidOrderId :=
      fun c hc => hf.target_ne hnow (haccepts hm) hc
    have hsafe : ∀ c, m.call = some c → Safe h.book A c := fun c hc => by
      have hsafe := hfaith.good.safe_of_scattered hb (htarget c hc)
      rwa [hf.mirrors.good.core.queue_eq] at hsafe
    obtain ⟨h', A', hrun, hf'⟩ :=
      hf.onMessage hbase ht hnow (fun _ => hsafe) haccepts hfits trades
    exact ⟨h', A', hrun, hf', onMessage_faithful hfaith hb htarget hrun⟩
  · have hnext : l.next t m = l := if_neg hm
    rw [hnext]
    have hother : m.orderLocate ≠ some h.targetLocate := by rwa [hf.target_eq]
    exact ⟨h, A, onMessage_other (by rwa [hf.target_eq]) hother, hf, hfaith⟩

theorem Follows.replay_table {ms : List Message} (hf : Follows cfg itchTick t h A l)
    (hfaith : Faithful h.book) (hbase : 0 ≤ cfg.basePrice.toInt) (ht : t ≠ 0)
    (hnow : l.Fits cfg itchTick) (hvalid : l.Valid cfg itchTick t ms)
    (hspread : l.Spread cfg.maxOrders t ms) (trades : List Trade) :
    ∃ h' A', (h.replay ms).run trades = .ok h' trades ∧
      Follows cfg itchTick t h' A' (l.after t ms) ∧ Faithful h'.book := by
  induction ms generalizing h A l with
  | nil => exact ⟨h, A, rfl, hf, hfaith⟩
  | cons m ms ih =>
    obtain ⟨haccepts, hfits, hvalid⟩ := hvalid
    obtain ⟨hapart, hspread⟩ := hspread
    obtain ⟨h₁, A₁, hrun, hf₁, hfaith₁⟩ :=
      hf.onMessage_table hfaith hbase ht hnow hapart haccepts hfits trades
    obtain ⟨h', A', hrun', hf', hfaith'⟩ := ih hf₁ hfaith₁ hfits hvalid hspread
    exact ⟨h', A', (replay_cons hrun).trans hrun', hf', hfaith'⟩

/-- **The snapshot of a file, with the table of the source**, shows the book of the exchange if no
two references that are live at the same time have the same home slot. -/
theorem main_table_snapshot {args : Args} (hbase : 0 ≤ args.cfg.basePrice.toInt)
    (hmax : args.cfg.maxOrders < 2 ^ 32) (htop : args.topN ≤ args.vectorMax) {file : MappedFile}
    {frames : List Frame} {locate : UInt16} {tape : List Message}
    (hfile : TapeFile args file frames locate tape)
    (hspread : Tape.Spread args.cfg.maxOrders locate [] tape) (clock : ℕ → UInt64) :
    ∃ out : Output (OrderIdMap Ptr), main args file clock = .ok out ∧
      out.messages = frames.length ∧
      ReadsAs out.snapshot ((Tape.after locate [] tape).snapshot args.itchTick args.topN) := by
  refine hfile.snapshot_of_replay (M := BookTable) hmax htop (fun d hd hlocate => ?_) clock
  subst hlocate
  have hstart := onStockDirectory_follows (M := BookTable) args.cfg args.tick_ne hd
  refine hstart.replay_table ?_ hbase hfile.locate_ne fits_nil hfile.valid hspread []
  unfold ReplayHandler.onStockDirectory
  rw [if_pos ⟨rfl, hd⟩]
  exact faithful_new hbase hmax

theorem sampleFile_table_snapshot :
    ∃ out : Output (OrderIdMap Ptr), main sampleArgs sampleMapped
        (fun k => UInt64.ofNat (k * k)) = .ok out ∧ out.messages = 4 ∧
      ReadsAs out.snapshot ((Tape.after 7 [] sampleMessages).snapshot 100 2) :=
  main_table_snapshot (by decide) (by decide) (by decide) sampleFile_tapeFile (by decide) _

end Lob
