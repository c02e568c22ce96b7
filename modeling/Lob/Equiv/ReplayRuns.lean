import Lob.Equiv.OrderBook.Amortized
import Lob.Equiv.Replay
import Lob.Equiv.ReplayMain

/-!
# Replay of any file

Whatever the bytes of a file are, the messages in it make calls on a book and nothing else, so that
the book of the handler is a reachable one (`ReplayHandler.Sound`).  A message fails only when it
adds an order to a book that is full (`Sound.onMessage`), and then the file has added more orders
than the book has room for (`main_ends`).
-/

namespace Lob

open Itch Queues OrderBook

/-! ### The calls -/

namespace OrderBook

variable {M : Type} [LawfulIdMap M] {b b' : OrderBook M} {c : Call} {trades trades' : List Trade}

/-- **The only way to fail** is to submit an order to a book that is full. -/
theorem Good.exec_error (h : Good b b.queue) {e : Fault}
    (herror : (b.exec c).run trades = .error e trades') :
    e = .slabExhausted ∧ (∃ o, c = .submit o) ∧ b.openOrders = b.cfg.maxOrders := by
  have hs := h.exec (safe_of_lawful b b.queue c) trades
  rw [herror] at hs
  refine ⟨hs.fault, ?_⟩
  cases c with
  | submit o =>
    refine ⟨⟨o, rfl⟩, h.core.openOrders_le.antisymm (not_lt.mp fun hroom => ?_)⟩
    obtain ⟨b', res, trades₁, hrun⟩ :=
      h.submit_of_room (o := o) (erasesOk_of_lawful _ _) hroom trades
    unfold OrderBook.exec at herror
    rw [sink_bind hrun] at herror
    cases herror
  | cancel id =>
    obtain ⟨found, b', hcancel, -⟩ := h.cancel_without (safe_of_lawful b _ (.cancel id))
    unfold OrderBook.exec at herror
    rw [sink_bind (quiet_ok hcancel trades)] at herror
    cases herror
  | reduce id delta =>
    obtain ⟨found, b', hreduce, -⟩ := h.reduce_lessen (safe_of_lawful b _ (.reduce id delta))
    unfold OrderBook.exec at herror
    rw [sink_bind (quiet_ok hreduce trades)] at herror
    cases herror
  | modify id newQty newPrice ts =>
    obtain ⟨b', res, trades₁, hrun⟩ := h.modify_returns id newQty newPrice ts trades
    unfold OrderBook.exec at herror
    rw [sink_bind hrun] at herror
    cases herror

theorem Reachable.exec_ok {cfg : Config} (h : Reachable cfg b)
    (hrun : (b.exec c).run trades = .ok b' trades') : Reachable cfg b' ∧
      b'.openOrders ≤ b.openOrders + c.opens := by
  obtain ⟨hgood, -⟩ := h.good
  have hstep := hgood.exec (safe_of_lawful b _ c) trades
  rw [hrun] at hstep
  exact ⟨h.step trivial hrun, hstep.openOrders_le hgood⟩

end OrderBook

/-! ### The handler -/

def Itch.Message.isAdd : Message → Bool
  | .addOrder _ => true
  | _ => false

namespace ReplayHandler

variable {M : Type}

/-- The book is one that calls lead to, and it has no more orders than the handler has added. -/
structure Sound [IdMap M] (cfg : Config) (h : ReplayHandler M) : Prop where
  reachable : Reachable cfg h.book
  openOrders_le : h.book.openOrders ≤ h.adds

/-- What becomes of a message: the handler goes on, or the message adds an order to a full book. -/
inductive Taken [IdMap M] (cfg : Config) (h : ReplayHandler M) (m : Message) :
    EStateM.Result Fault (List Trade) (ReplayHandler M) → Prop where
  | ok {h' : ReplayHandler M} {trades : List Trade} (sound : Sound cfg h')
    (adds_le : h'.adds ≤ h.adds + [m].countP Message.isAdd) : Taken cfg h m (.ok h' trades)
  | full {a : AddOrder} {trades : List Trade} (hm : m = .addOrder a)
    (hfull : h.book.openOrders = cfg.maxOrders) : Taken cfg h m (.error .slabExhausted trades)

variable [LawfulIdMap M] {cfg : Config} {h : ReplayHandler M} {m : Message} {x : Single M}

theorem Sound.single (hs : Sound cfg h) (hx : m.single h = some x) (trades : List Trade) :
    Taken cfg h m ((h.onMessage m).run trades) := by
  obtain ⟨hgood, hcfg⟩ := hs.reachable.good
  rw [onMessage_single hx]
  by_cases hloc : x.locate ≠ h.targetLocate
  · rw [if_pos hloc]
    exact .ok hs (Nat.le_add_right _ _)
  · rw [if_neg hloc]
    cases hrun : (h.book.exec x.call).run trades with
    | ok b' trades' =>
      rw [sink_bind hrun]
      obtain ⟨hreach, hle⟩ := hs.reachable.exec_ok hrun
      have hopen := hs.openOrders_le
      cases m with
      | addOrder =>
        obtain rfl := Option.some.inj hx
        exact .ok ⟨hreach, hle.trans (Nat.add_le_add_right hopen 1)⟩ le_rfl
      | orderExecuted | orderExecutedWithPrice | orderCancel | orderDelete =>
        obtain rfl := Option.some.inj hx
        exact .ok ⟨hreach, hle.trans hopen⟩ le_rfl
      | _ => cases hx
    | error e trades' =>
      rw [sink_bind_error hrun]
      obtain ⟨rfl, ⟨o, ho⟩, hfull⟩ := hgood.exec_error hrun
      cases m with
      | addOrder => exact .full rfl (hfull.trans (congrArg Config.maxOrders hcfg))
      | orderExecuted | orderExecutedWithPrice | orderCancel | orderDelete =>
        obtain rfl := Option.some.inj hx
        cases ho
      | _ => cases hx

/-- The order that a replace brings takes the place of the one that it cancels. -/
theorem Sound.onOrderReplace (hs : Sound cfg h) (r : OrderReplace) (trades : List Trade) :
    Taken cfg h (.orderReplace r) ((h.onOrderReplace r).run trades) := by
  obtain ⟨hgood, hcfg⟩ := hs.reachable.good
  rw [onOrderReplace_eq]
  by_cases hloc : r.stockLocate ≠ h.targetLocate
  · rw [if_pos hloc]
    exact .ok hs le_rfl
  rw [if_neg hloc]
  by_cases hrests : h.book.queue.Rests r.originalOrderRef
  · obtain ⟨s, i, original, ho, hid⟩ := hrests
    obtain ⟨xs, ys, hq⟩ := List.append_of_mem ho
    have hfind := hgood.find_some hq
    obtain ⟨b₁, hdrop, hd, -⟩ := hgood.drop hq trivial
    have hlt := hd.openOrders_lt hgood
    have hcancel : (h.book.exec (.cancel original.id)).run trades = .ok b₁ trades := by
      unfold OrderBook.exec
      rw [sink_bind (quiet_ok (hgood.cancel_eq hq hdrop) trades)]
      rfl
    rw [hid] at hfind hcancel
    rw [sink_bind (quiet_ok hfind trades)]
    dsimp only
    rw [sink_bind (quiet_ok (hgood.read_eq hq) trades), sink_bind hcancel]
    have hreach₁ := (hs.reachable.exec_ok hcancel).1
    obtain ⟨hgood₁, hcfg₁⟩ := hreach₁.good
    cases hrun : (b₁.exec (.submit (h.order r.newOrderRef
      (h.book.slab.storage original.slot).value.side r.price r.shares r.tsNs))).run trades with
    | ok b' trades' =>
      rw [sink_bind hrun]
      obtain ⟨hreach, hle⟩ := hreach₁.exec_ok hrun
      exact .ok ⟨hreach, hle.trans (hlt.trans_le hs.openOrders_le)⟩ le_rfl
    | error e trades' =>
      -- the cancelled order has given back its slot
      have hfull := (hgood₁.exec_error hrun).2.2
      have hle := hgood.core.openOrders_le
      rw [hcfg] at hle
      rw [hfull, hcfg₁] at hlt
      exact absurd hlt (not_lt.mpr hle)
  · rw [sink_bind (quiet_ok (hgood.find_none trivial hrests) trades)]
    exact .ok ⟨hs.reachable, hs.openOrders_le⟩ le_rfl

/-- **Any message** leaves a sound handler, or adds an order to a full book. -/
theorem Sound.onMessage (hs : Sound cfg h) (m : Message) (trades : List Trade) :
    Taken cfg h m ((h.onMessage m).run trades) := by
  cases m with
  | addOrder | orderExecuted | orderExecutedWithPrice | orderCancel | orderDelete =>
    exact hs.single rfl trades
  | orderReplace r => exact hs.onOrderReplace r trades
  | systemEvent | unhandled => exact .ok hs le_rfl
  | stockDirectory d =>
    show Taken cfg h _ (.ok (h.onStockDirectory d) trades)
    unfold onStockDirectory
    split_ifs
    · exact .ok ⟨hs.reachable, hs.openOrders_le⟩ le_rfl
    · exact .ok hs le_rfl

/-- How a replay ends: at the end of the messages, or before one that adds an order to a full
book. -/
inductive Ended [IdMap M] (cfg : Config) (h : ReplayHandler M) (ms : List Message)
    (trades : List Trade) : EStateM.Result Fault (List Trade) (ReplayHandler M) → Prop where
  | ok {h' : ReplayHandler M} {trades' : List Trade} (sound : Sound cfg h')
    (adds_le : h'.adds ≤ h.adds + ms.countP Message.isAdd) : Ended cfg h ms trades (.ok h' trades')
  | full {seen later : List Message} {a : AddOrder} {h' : ReplayHandler M}
    {trades₁ trades' : List Trade} (hms : ms = seen ++ .addOrder a :: later)
    (hseen : (h.replay seen).run trades = .ok h' trades₁) (sound : Sound cfg h')
    (adds_le : h'.adds ≤ h.adds + seen.countP Message.isAdd)
    (hfull : h'.book.openOrders = cfg.maxOrders) :
    Ended cfg h ms trades (.error .slabExhausted trades')

theorem countP_cons (m : Message) (ms : List Message) : (m :: ms).countP Message.isAdd =
    [m].countP Message.isAdd + ms.countP Message.isAdd :=
  show ([m] ++ ms).countP Message.isAdd = _ from List.countP_append

theorem Ended.cons {h₁ : ReplayHandler M} {trades trades₁ : List Trade} {ms : List Message}
    (hrun : (h.onMessage m).run trades = .ok h₁ trades₁)
    (hadds : h₁.adds ≤ h.adds + [m].countP Message.isAdd)
    {y : EStateM.Result Fault (List Trade) (ReplayHandler M)} (hend : Ended cfg h₁ ms trades₁ y) :
    Ended cfg h (m :: ms) trades y := by
  cases hend with
  | ok sound adds_le =>
    refine .ok sound ?_
    rw [countP_cons]
    omega
  | @full seen later a _ _ _ hms hseen sound adds_le hfull =>
    have hms' : m :: ms = (m :: seen) ++ .addOrder a :: later := congrArg (m :: ·) hms
    refine .full hms' ((replay_cons hrun).trans hseen) sound ?_ hfull
    rw [countP_cons]
    omega

/-- **Any messages** lead to a sound handler, as far as the book has room. -/
theorem Sound.replay (hs : Sound cfg h) (ms : List Message) (trades : List Trade) :
    Ended cfg h ms trades ((h.replay ms).run trades) := by
  induction ms generalizing h trades with
  | nil => exact .ok hs le_rfl
  | cons m ms ih =>
    have hm := hs.onMessage m trades
    cases hrun : (h.onMessage m).run trades with
    | ok h₁ trades₁ =>
      rw [hrun] at hm
      rw [replay_cons hrun]
      cases hm with
      | ok hs₁ hadds => exact (ih hs₁ trades₁).cons hrun hadds
    | error e trades₁ =>
      rw [hrun] at hm
      have hend : (h.replay (m :: ms)).run trades = .error e trades₁ := sink_bind_error hrun _
      rw [hend]
      cases hm with
      | @full a _ hm hfull =>
        have hms : m :: ms = [] ++ .addOrder a :: ms := congrArg (· :: ms) hm
        exact .full hms rfl hs (Nat.le_add_right _ _) hfull

end ReplayHandler

/-! ### The program -/

section Program

variable {M : Type} [LawfulIdMap M]

open ReplayHandler

/-- How the program ends on a file: there is nothing in it, or the book is one that calls lead to,
or it is full and another order is added, or the parser reads an address past the file that cannot
be read.  In the third case the file adds more orders than the book has room for, and in the last
one a frame of it announces less than is unpacked for its type. -/
inductive Ends (args : Args) (file : MappedFile) : Except MainError (Output M) → Prop where
  | empty (hsize : file.size = 0) : Ends args file (.error .cannotMap)
  | returned {out : Output M} (messages_eq : out.messages = Itch.count file.data file.size)
    (sound : Sound args.cfg out.final.handler)
    (snapshot_iff : out.snapshot.isSome = true ↔ args.topN ≤ args.vectorMax) :
    Ends args file (.ok out)
  | full {seen later : List Message} {a : AddOrder} {h : ReplayHandler M} {trades : List Trade}
    (hcalls : file.calls = seen ++ .addOrder a :: later)
    (hseen : ((args.handler : ReplayHandler M).replay seen).run [] = .ok h trades)
    (sound : Sound args.cfg h) (hfull : h.book.openOrders = args.cfg.maxOrders)
    (hmany : args.cfg.maxOrders < file.calls.countP Message.isAdd) :
    Ends args file (.error (.fault .slabExhausted))
  | unreadable (hread : ¬file.Readable) (hshort : ¬LongEnough file.data file.size) :
    Ends args file (.error .cannotRead)

theorem handler_sound (args : Args) : Sound args.cfg (args.handler : ReplayHandler M) where
  reachable := .new
  openOrders_le := (openOrders_new args.cfg).le

omit [LawfulIdMap M] in
theorem isSome_writeSnapshot (b : OrderBook M) (vectorMax topN : ℕ) :
    (b.writeSnapshot vectorMax topN).isSome = true ↔ topN ≤ vectorMax := by
  unfold OrderBook.writeSnapshot
  split_ifs with h
  · exact iff_of_true rfl h
  · exact iff_of_false Bool.false_ne_true h

end Program

end Lob
