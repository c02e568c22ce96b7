import Lob.Equiv.ItchReads
import Lob.Equiv.OrderBook.Matching
import Lob.General.Lockstep
import Lob.Ledger
import Lob.ReplayMain
import Mathlib.Data.List.TakeWhile

/-!
# The clock of a replay

The readings of the clock decide nothing: the timed handler runs in lock step with the plain one
(`Tracks`), whatever the clock says.  Of the readings, each call on the book takes two in a row, and
the histogram of its kind gets the difference and nothing else (`main_endsAs`).  The calls are those
that the plain handler makes (`ReplayHandler.made`, `made_foldlM`).
-/

namespace Lob

open Itch Lockstep LatencyHistogram OrderBook

variable {M : Type} {clock : ℕ → UInt64}

/-! ### The calls that are timed -/

/-- The calls of a kind that the handler has counted.  A replace counts for two. -/
def ReplayHandler.calls (h : ReplayHandler M) : Timed → ℕ
  | .submit => h.adds + h.replaces
  | .cancel => h.deletes + h.replaces
  | .reduce => h.execs + h.cancels

/-- The histogram that a call belongs to.  The handler does not call `modify`. -/
def Call.timed : Call → Timed
  | .submit _ | .modify _ _ _ _ => .submit
  | .cancel _ => .cancel
  | .reduce _ _ => .reduce

namespace ReplayHandler

variable [IdMap M]

/-- The calls on the book that the handler makes for a message, in order. -/
def makes (h : ReplayHandler M) : Message → List Call
  | .addOrder a =>
    if a.stockLocate ≠ h.targetLocate then []
    else [.submit (h.order a.orderRef a.side a.price a.shares a.tsNs)]
  | .orderExecuted e =>
    if e.stockLocate ≠ h.targetLocate then [] else [.reduce e.orderRef e.executedShares]
  | .orderExecutedWithPrice e =>
    if e.stockLocate ≠ h.targetLocate then [] else [.reduce e.orderRef e.executedShares]
  | .orderCancel c =>
    if c.stockLocate ≠ h.targetLocate then [] else [.reduce c.orderRef c.cancelledShares]
  | .orderDelete d => if d.stockLocate ≠ h.targetLocate then [] else [.cancel d.orderRef]
  | .orderReplace r =>
    if r.stockLocate ≠ h.targetLocate then []
    else
      match h.book.lookup r.originalOrderRef with
      | none => []
      | some original => [.cancel r.originalOrderRef,
          .submit (h.order r.newOrderRef original.side r.price r.shares r.tsNs)]
  | _ => []

/-- The calls for the messages, as far as they return. -/
def made (h : ReplayHandler M) (trades : List Trade) : List Message → List Call
  | [] => []
  | m :: ms => h.makes m ++
    match (h.onMessage m).run trades with
    | .ok h' trades' => h'.made trades' ms
    | .error _ _ => []

end ReplayHandler

/-- What the timer shows for the call that comes after `k` others. -/
def latency (clock : ℕ → UInt64) (k : ℕ) : UInt64 := clock (2 * k + 1) - clock (2 * k)

/-- The latencies of the calls of one kind, in a log of all calls. -/
def logged (clock : ℕ → UInt64) (log : List Call) (op : Timed) : List UInt64 :=
  (log.zipIdx.filter fun x => x.1.timed = op).map fun x => latency clock x.2

theorem logged_concat (clock : ℕ → UInt64) (log : List Call) (c : Call) (op : Timed) :
    logged clock (log ++ [c]) op = logged clock log op ++
      if c.timed = op then [latency clock log.length] else [] := by
  unfold logged
  rw [List.zipIdx_append, List.filter_append, List.map_append]
  congr 1
  by_cases h : c.timed = op <;> simp [h]

theorem recorded_concat (xs : List UInt64) (ns : UInt64) :
    recorded (xs ++ [ns]) = (recorded xs).record ns := by
  unfold recorded
  rw [List.foldl_append]
  rfl

/-- The timed handler is the plain one, with the histograms that the log gives. -/
structure Tracks (clock : ℕ → UInt64) (log : List Call) (t : TimedHandler M)
    (h : ReplayHandler M) : Prop where
  handler_eq : t.handler = h
  readings_eq : t.readings = 2 * log.length
  hist_eq : ∀ op, t.hist op = recorded (logged clock log op)

/-- The log has the calls that the handler has counted. -/
structure Counted (clock : ℕ → UInt64) (log : List Call) (t : TimedHandler M)
    (h : ReplayHandler M) : Prop where
  tracks : Tracks clock log t h
  count_eq : ∀ op, (log.map Call.timed).count op = h.calls op

variable {t : TimedHandler M} {h : ReplayHandler M} {log : List Call}

theorem Tracks.time (ht : Tracks clock log t h) (c : Call)
    (fn : OrderBook M → SinkM (OrderBook M)) :
    AgreeWith Eq (fun t' book => Tracks clock (log ++ [c]) t' { h with book })
      (t.time clock c.timed fn) (fn h.book) := by
  obtain ⟨rfl, hreadings, hhist⟩ := ht
  rw [← bind_pure (fn t.handler.book)]
  refine (AgreeWith.refl _).bind ?_
  rintro book - rfl
  refine .pure ⟨rfl, ?_, fun op => ?_⟩
  · show t.readings + 2 = _
    rw [hreadings, List.length_append, List.length_singleton]
    rfl
  · have hlatency : clock (t.readings + 1) - clock t.readings = latency clock log.length := by
      unfold latency
      rw [hreadings]
    show Function.update t.hist c.timed _ op = _
    rw [logged_concat, hlatency, Function.update_apply]
    by_cases hop : op = c.timed
    · rw [if_pos hop, if_pos hop.symm, recorded_concat, hop, hhist]
    · rw [if_neg hop, if_neg (Ne.symm hop), List.append_nil, hhist]

/-! ### The messages -/

/-- What the handler does for a message of its security that comes down to one call on the book. -/
structure Single (M : Type) where
  locate : UInt16
  call : Call
  raise : ReplayHandler M → ReplayHandler M

/-- The messages other than a replace that call the book. -/
def Itch.Message.single (h : ReplayHandler M) : Message → Option (Single M)
  | .addOrder a => some ⟨a.stockLocate,
      .submit (h.order a.orderRef a.side a.price a.shares a.tsNs),
      fun h => { h with adds := h.adds + 1 }⟩
  | .orderExecuted e => some ⟨e.stockLocate, .reduce e.orderRef e.executedShares,
      fun h => { h with execs := h.execs + 1 }⟩
  | .orderExecutedWithPrice e => some ⟨e.stockLocate, .reduce e.orderRef e.executedShares,
      fun h => { h with execs := h.execs + 1 }⟩
  | .orderCancel c => some ⟨c.stockLocate, .reduce c.orderRef c.cancelledShares,
      fun h => { h with cancels := h.cancels + 1 }⟩
  | .orderDelete d => some ⟨d.stockLocate, .cancel d.orderRef,
      fun h => { h with deletes := h.deletes + 1 }⟩
  | _ => none

variable [IdMap M] {m : Message} {x : Single M}

theorem onMessage_single (hx : m.single h = some x) :
    h.onMessage m =
      if x.locate ≠ h.targetLocate then return h
      else do
        let book ← h.book.exec x.call
        return x.raise { h with book } := by
  cases m with
  | addOrder a =>
    obtain rfl := Option.some.inj hx
    show h.onAddOrder a = _
    unfold ReplayHandler.onAddOrder OrderBook.exec
    simp only [bind_assoc, pure_bind]
  | orderExecuted e =>
    obtain rfl := Option.some.inj hx
    show h.onOrderExecuted e = _
    unfold ReplayHandler.onOrderExecuted OrderBook.exec
    simp only [bind_assoc, pure_bind]
  | orderExecutedWithPrice e =>
    obtain rfl := Option.some.inj hx
    show h.onOrderExecutedWithPrice e = _
    unfold ReplayHandler.onOrderExecutedWithPrice OrderBook.exec
    simp only [bind_assoc, pure_bind]
  | orderCancel c =>
    obtain rfl := Option.some.inj hx
    show h.onOrderCancel c = _
    unfold ReplayHandler.onOrderCancel OrderBook.exec
    simp only [bind_assoc, pure_bind]
  | orderDelete d =>
    obtain rfl := Option.some.inj hx
    show h.onOrderDelete d = _
    unfold ReplayHandler.onOrderDelete OrderBook.exec
    simp only [bind_assoc, pure_bind]
  | _ => cases hx

theorem onMessage_timed (hx : m.single t.handler = some x) :
    t.onMessage clock m =
      if x.locate ≠ t.handler.targetLocate then return t
      else do
        let t ← t.time clock x.call.timed fun book => book.exec x.call
        return t.count x.raise := by
  cases m with
  | addOrder | orderExecuted | orderExecutedWithPrice | orderCancel | orderDelete =>
    obtain rfl := Option.some.inj hx
    rfl
  | _ => cases hx

omit [IdMap M] in
theorem calls_raise (hx : m.single h = some x) (h' : ReplayHandler M) (op : Timed) :
    (x.raise h').calls op = h'.calls op + if x.call.timed = op then 1 else 0 := by
  cases m with
  | addOrder | orderExecuted | orderExecutedWithPrice | orderCancel | orderDelete =>
    obtain rfl := Option.some.inj hx
    cases op <;> grind [ReplayHandler.calls, Call.timed]
  | _ => cases hx

omit [IdMap M] in
theorem book_raise (hx : m.single h = some x) (h' : ReplayHandler M) :
    (x.raise h').book = h'.book := by
  cases m with
  | addOrder | orderExecuted | orderExecutedWithPrice | orderCancel | orderDelete =>
    obtain rfl := Option.some.inj hx
    rfl
  | _ => cases hx

/-- A replace as two calls on the book. -/
theorem onOrderReplace_eq (r : OrderReplace) :
    h.onOrderReplace r =
      if r.stockLocate ≠ h.targetLocate then return h
      else do
        match ← quiet (h.book.find r.originalOrderRef) with
        | none => return { h with replacesSkipped := h.replacesSkipped + 1 }
        | some o =>
          let original ← quiet (h.book.slab.read o)
          let book ← h.book.exec (.cancel r.originalOrderRef)
          let book ← book.exec
            (.submit (h.order r.newOrderRef original.side r.price r.shares r.tsNs))
          return { h with book, replaces := h.replaces + 1 } := by
  unfold ReplayHandler.onOrderReplace
  refine ite_congr rfl (fun _ => rfl) fun _ => bind_congr fun found => ?_
  cases found with
  | none => rfl
  | some o =>
    unfold OrderBook.exec
    simp only [bind_assoc, pure_bind]

omit [IdMap M] in
/-- A message that does not call the book. -/
theorem Counted.count {raise : ReplayHandler M → ReplayHandler M} (ht : Counted clock log t h)
    (hcalls : ∀ op, (raise h).calls op = h.calls op) :
    Counted clock log (t.count raise) (raise h) where
  tracks := ⟨congrArg raise ht.tracks.handler_eq, ht.tracks.readings_eq, ht.tracks.hist_eq⟩
  count_eq op := (ht.count_eq op).trans (hcalls op).symm

theorem makes_single (hx : m.single h = some x) :
    h.makes m = if x.locate ≠ h.targetLocate then [] else [x.call] := by
  cases m with
  | addOrder | orderExecuted | orderExecutedWithPrice | orderCancel | orderDelete =>
    obtain rfl := Option.some.inj hx
    rfl
  | _ => cases hx

/-- A message that is one call on the book. -/
theorem Counted.single (ht : Counted clock log t h) (hx : m.single h = some x) :
    AgreeWith Eq (Counted clock (log ++ h.makes m)) (t.onMessage clock m) (h.onMessage m) := by
  have htracks := ht.tracks
  obtain rfl := htracks.handler_eq
  rw [onMessage_single hx, onMessage_timed hx, makes_single hx]
  refine AgreeWith.ite Iff.rfl (fun hloc => ?_) fun hloc => ?_
  · rw [if_pos hloc, List.append_nil]
    exact .pure ht
  rw [if_neg hloc]
  refine (htracks.time x.call fun book => book.exec x.call).bind fun t' book ht' => ?_
  refine .pure ⟨⟨congrArg x.raise ht'.handler_eq, ht'.readings_eq, ht'.hist_eq⟩, fun op => ?_⟩
  rw [calls_raise hx, List.map_append, List.count_append, ht.count_eq, List.map_singleton,
    List.count_singleton]
  simp only [beq_iff_eq]
  rfl

theorem makes_skipped {r : OrderReplace} (hfind : h.book.find r.originalOrderRef = .ok none) :
    h.makes (.orderReplace r) = [] := by
  have hlookup : h.book.lookup r.originalOrderRef = none := by
    unfold OrderBook.lookup
    rw [hfind]
  show (if _ then _ else _) = _
  rw [hlookup, ite_self]

/-- The order that is replaced is the one that `find` returns. -/
theorem makes_replace {r : OrderReplace} (hloc : ¬r.stockLocate ≠ h.targetLocate) {o : Ptr}
    (hfind : h.book.find r.originalOrderRef = .ok (some o)) :
    h.makes (.orderReplace r) = [.cancel r.originalOrderRef, .submit (h.order r.newOrderRef
      (h.book.slab.storage o).value.side r.price r.shares r.tsNs)] := by
  have hlookup : h.book.lookup r.originalOrderRef = some (h.book.slab.storage o).value := by
    unfold OrderBook.lookup
    rw [hfind]
  show (if _ then _ else _) = _
  rw [if_neg hloc, hlookup]

theorem Counted.onOrderReplace (ht : Counted clock log t h) (r : OrderReplace) :
    AgreeWith Eq (Counted clock (log ++ h.makes (.orderReplace r))) (t.onOrderReplace clock r)
      (h.onOrderReplace r) := by
  have htracks := ht.tracks
  obtain rfl := htracks.handler_eq
  rw [onOrderReplace_eq]
  unfold TimedHandler.onOrderReplace
  refine AgreeWith.ite Iff.rfl (fun hloc => ?_) fun hloc => ?_
  · have hnone : t.handler.makes (.orderReplace r) = [] := if_pos hloc
    rw [hnone, List.append_nil]
    exact .pure ht
  refine (AgreeWith.refl _).bind_of_returns ?_
  rintro found _ ts ts' rfl hfind
  cases found with
  | none =>
    rw [makes_skipped (ok_of_quiet hfind), List.append_nil]
    refine .pure (ht.count fun op => ?_)
    cases op <;> rfl
  | some o =>
    rw [makes_replace hloc (ok_of_quiet hfind)]
    refine (AgreeWith.refl _).bind_of_returns ?_
    rintro original _ ts₁ ts₁' rfl hread
    obtain rfl := SlabAllocator.eq_of_read (ok_of_quiet hread)
    refine (htracks.time (.cancel r.originalOrderRef) fun book =>
      book.exec (.cancel r.originalOrderRef)).bind fun t₁ book₁ ht₁ => ?_
    -- the handler submits at the tick that it has had all along
    have horder : ∀ side, t₁.handler.order r.newOrderRef side r.price r.shares r.tsNs =
        t.handler.order r.newOrderRef side r.price r.shares r.tsNs := fun side => by
      rw [ht₁.handler_eq]
      rfl
    rw [horder]
    generalize t.handler.order r.newOrderRef (t.handler.book.slab.storage o).value.side r.price
      r.shares r.tsNs = order
    refine (ht₁.time (.submit order) fun book => book.exec (.submit order)).bind
      fun t₂ book₂ ht₂ => ?_
    rw [List.append_assoc] at ht₂
    refine .pure ⟨⟨?_, ht₂.readings_eq, ht₂.hist_eq⟩, fun op => ?_⟩
    · show { t₂.handler with replaces := t₂.handler.replaces + 1 } = _
      rw [ht₂.handler_eq]
    · rw [List.map_append, List.count_append, ht.count_eq]
      cases op <;> grind [ReplayHandler.calls, Call.timed]

/-- **A message on the clock** does what the message does, and each call that it makes is timed. -/
theorem Counted.onMessage (ht : Counted clock log t h) (m : Message) :
    AgreeWith Eq (Counted clock (log ++ h.makes m)) (t.onMessage clock m) (h.onMessage m) := by
  cases m with
  | addOrder | orderExecuted | orderExecutedWithPrice | orderCancel | orderDelete =>
    exact ht.single rfl
  | orderReplace r => exact ht.onOrderReplace r
  | stockDirectory d =>
    refine .pure ?_
    rw [show h.makes (.stockDirectory d) = [] from rfl, List.append_nil]
    refine ht.count fun op => ?_
    unfold ReplayHandler.onStockDirectory
    split_ifs <;> cases op <;> rfl
  | systemEvent | unhandled => exact .pure ((List.append_nil log).symm ▸ ht)

theorem Counted.replay (ht : Counted clock log t h) (ms : List Message) (trades : List Trade) :
    SameResult Eq (Counted clock (log ++ h.made trades ms)) ((t.replay clock ms).run trades)
      ((h.replay ms).run trades) := by
  induction ms generalizing t h log trades with
  | nil => exact .ok rfl ((List.append_nil log).symm ▸ ht)
  | cons m ms ih =>
    have hm := ht.onMessage m trades trades rfl
    unfold TimedHandler.replay ReplayHandler.replay ReplayHandler.made
    cases hrun : (h.onMessage m).run trades with
    | ok h' trades' =>
      rw [hrun] at hm
      generalize hrun' : (t.onMessage clock m).run trades = x at hm
      cases hm with
      | ok hstate ht' =>
        subst hstate
        rw [sink_bind hrun, sink_bind hrun', ← List.append_assoc]
        exact ih ht' _
    | error e trades' =>
      rw [hrun] at hm
      generalize hrun' : (t.onMessage clock m).run trades = x at hm
      cases hm with
      | error hstate =>
        rw [sink_bind_error hrun, sink_bind_error hrun']
        exact .error hstate e

/-! ### The calls that are made -/

section Made

variable {h' : ReplayHandler M} {trades trades' : List Trade}

theorem foldlM_exec_one (b : OrderBook M) (c : Call) :
    [c].foldlM OrderBook.exec b = b.exec c := by
  rw [List.foldlM_cons]
  exact bind_pure _

theorem makes_foldlM_single (hx : m.single h = some x)
    (hrun : (h.onMessage m).run trades = .ok h' trades') :
    ((h.makes m).foldlM OrderBook.exec h.book).run trades = .ok h'.book trades' := by
  rw [onMessage_single hx] at hrun
  rw [makes_single hx]
  by_cases hloc : x.locate ≠ h.targetLocate
  · rw [if_pos hloc] at hrun ⊢
    cases hrun
    rfl
  · rw [if_neg hloc] at hrun ⊢
    obtain ⟨book, trades₁, hexec, hreturn⟩ := exists_of_sink_bind hrun
    cases hreturn
    rw [foldlM_exec_one, book_raise hx]
    exact hexec

theorem makes_foldlM_replace {r : OrderReplace}
    (hrun : (h.onOrderReplace r).run trades = .ok h' trades') :
    ((h.makes (.orderReplace r)).foldlM OrderBook.exec h.book).run trades =
      .ok h'.book trades' := by
  rw [onOrderReplace_eq] at hrun
  by_cases hloc : r.stockLocate ≠ h.targetLocate
  · have hnone : h.makes (.orderReplace r) = [] := if_pos hloc
    rw [if_pos hloc] at hrun
    rw [hnone]
    cases hrun
    rfl
  rw [if_neg hloc] at hrun
  obtain ⟨found, trades₁, hfind, hrun⟩ := exists_of_sink_bind hrun
  obtain rfl := quiet_trades hfind
  cases found with
  | none =>
    rw [makes_skipped (ok_of_quiet hfind)]
    cases hrun
    rfl
  | some o =>
    rw [makes_replace hloc (ok_of_quiet hfind)]
    obtain ⟨original, trades₂, hread, hrun⟩ := exists_of_sink_bind hrun
    obtain rfl := quiet_trades hread
    obtain rfl := SlabAllocator.eq_of_read (ok_of_quiet hread)
    obtain ⟨b₁, trades₃, hcancel, hrun⟩ := exists_of_sink_bind hrun
    obtain ⟨b₂, trades₄, hsubmit, hreturn⟩ := exists_of_sink_bind hrun
    cases hreturn
    rw [List.foldlM_cons, sink_bind hcancel, foldlM_exec_one]
    exact hsubmit

/-- The book after a message is the one after the calls that the handler makes for it. -/
theorem makes_foldlM (hrun : (h.onMessage m).run trades = .ok h' trades') :
    ((h.makes m).foldlM OrderBook.exec h.book).run trades = .ok h'.book trades' := by
  cases m with
  | addOrder | orderExecuted | orderExecutedWithPrice | orderCancel | orderDelete =>
    exact makes_foldlM_single rfl hrun
  | orderReplace r => exact makes_foldlM_replace hrun
  | stockDirectory d =>
    cases hrun
    unfold ReplayHandler.onStockDirectory
    split_ifs <;> rfl
  | systemEvent | unhandled =>
    cases hrun
    rfl

/-- **The calls that are made** are all that happens to the book. -/
theorem made_foldlM {ms : List Message} (hrun : (h.replay ms).run trades = .ok h' trades') :
    ((h.made trades ms).foldlM OrderBook.exec h.book).run trades = .ok h'.book trades' := by
  induction ms generalizing h trades with
  | nil =>
    cases hrun
    rfl
  | cons m ms ih =>
    obtain ⟨h₁, trades₁, hm, hrest⟩ := exists_of_sink_bind hrun
    unfold ReplayHandler.made
    rw [hm, List.foldlM_append, sink_bind (makes_foldlM hm)]
    exact ih hrest

end Made

/-! ### The file -/

section File

variable {file : MappedFile}

theorem handling_reads_subset {data : ℕ → UInt8} {len pos count : ℕ} {f : Handled}
    (hf : f ∈ (parseLoop data len pos count).value.1) {a : ℕ} (ha : a ∈ f.handling.reads) :
    a ∈ (parseLoop data len pos count).reads := by
  induction pos using frames_induction data len generalizing count with
  | stop pos hc =>
    rw [(parseLoop_stop hc count).1] at hf
    cases hf
  | next pos hc ih =>
    obtain ⟨hvalue, hreads⟩ := parseLoop_next hc count
    rw [hvalue] at hf
    rw [hreads, List.mem_append, List.mem_append]
    rcases List.mem_cons.mp hf with rfl | hf
    · exact Or.inr (Or.inl ha)
    · exact Or.inr (Or.inr (ih hf))

/-- A parse that reads what can be read makes all its calls. -/
theorem MappedFile.calls_eq (h : file.Readable) :
    file.calls = Itch.calls file.data file.size := by
  have hall : file.handled = (Itch.parse file.data file.size).value.1 := by
    refine List.takeWhile_eq_self_iff.mpr fun f hf => ?_
    rw [List.all_eq_true]
    exact fun a ha => decide_eq_true (h a (handling_reads_subset hf ha))
  unfold calls
  rw [hall]
  rfl

theorem MappedFile.readable_of_longEnough (h : LongEnough file.data file.size) :
    file.Readable := fun a ha =>
  (((readsInside_iff _ _).mpr h).inBuffer a ha).trans_le file.size_le

end File

/-! ### The program -/

/-- What the program has written if its handler ends as `h`, after the calls `log` on the book. -/
structure Written (args : Args) (clock : ℕ → UInt64) (h : ReplayHandler M) (log : List Call)
    (out : Output M) : Prop where
  handler_eq : out.final.handler = h
  /-- The calls are all that has happened to the book. -/
  book_eq : ∃ ts, (log.foldlM OrderBook.exec (.new args.cfg)).run [] = .ok h.book ts
  readings_eq : out.final.readings = 2 * log.length
  /-- A histogram holds the latencies of the calls of its kind, in their order. -/
  hist_eq : ∀ op, out.final.hist op = recorded (logged clock log op)
  count_eq : ∀ op, (log.map Call.timed).count op = h.calls op
  latencies_eq : out.latencies =
    if args.snapshotOnly then none
    else some fun op => (recorded (logged clock log op)).writeCsv
  snapshot_eq : out.snapshot = h.book.writeSnapshot args.vectorMax args.topN

omit [IdMap M] in
theorem new_counted (clock : ℕ → UInt64) (h : ReplayHandler M) (hcalls : ∀ op, h.calls op = 0) :
    Counted clock [] { handler := h } h where
  tracks := ⟨rfl, rfl, fun _ => rfl⟩
  count_eq op := (hcalls op).symm

section Program

variable (args : Args) (file : MappedFile) (clock : ℕ → UInt64)

theorem main_agrees : SameResult Eq
    (Counted clock ((args.handler : ReplayHandler M).made [] file.calls))
    ((({ handler := args.handler } : TimedHandler M).replay clock file.calls).run [])
    (((args.handler : ReplayHandler M).replay file.calls).run []) :=
  (new_counted clock (args.handler : ReplayHandler M) fun op => by cases op <;> rfl).replay
    file.calls []

/-- The program returns if the replay does, unless it reads what cannot be read. -/
theorem main_of_ok (hsize : file.size ≠ 0) {ts : List Trade}
    (hrun : ((args.handler : ReplayHandler M).replay file.calls).run [] = .ok h ts) :
    ∃ out : Output M, main args file clock =
        (if file.Readable then .ok out else .error .cannotRead) ∧
      out.messages = Itch.count file.data file.size ∧
      Written args clock h ((args.handler : ReplayHandler M).made [] file.calls) out := by
  have hagree := main_agrees (M := M) args file clock
  have hbook := made_foldlM hrun
  rw [hrun] at hagree
  unfold main
  rw [if_neg hsize]
  generalize (TimedHandler.replay (M := M) clock _ _).run [] = x at hagree ⊢
  cases hagree with
  | ok _ ht =>
    obtain ⟨⟨rfl, hreadings, hhist⟩, hcount⟩ := ht
    refine ⟨_, rfl, rfl, rfl, ⟨ts, hbook⟩, hreadings, hhist, hcount, ?_, rfl⟩
    unfold Args.output
    simp only [hhist]

theorem main_of_error (hsize : file.size ≠ 0) {f : Fault} {ts : List Trade}
    (hrun : ((args.handler : ReplayHandler M).replay file.calls).run [] = .error f ts) :
    main (M := M) args file clock = .error (.fault f) := by
  have hagree := main_agrees (M := M) args file clock
  rw [hrun] at hagree
  unfold main
  rw [if_neg hsize]
  generalize (TimedHandler.replay (M := M) clock _ _).run [] = x at hagree ⊢
  cases hagree
  rfl

/-- The program ends as a replay of the messages without a clock does, after which it may come to
read what cannot be read. -/
def EndsAs : EStateM.Result Fault (List Trade) (ReplayHandler M) → Prop
  | .ok h _ => ∃ out : Output M, main args file clock =
      (if file.Readable then .ok out else .error .cannotRead) ∧
    out.messages = Itch.count file.data file.size ∧
    Written args clock h ((args.handler : ReplayHandler M).made [] file.calls) out
  | .error f _ => main (M := M) args file clock = .error (.fault f)

/-- **The clock decides nothing.**  The program ends as the replay without a clock ends.  The
histogram of a kind of call holds what two readings in a row are apart for each call of that kind,
in the order of the calls that the handler makes. -/
theorem main_endsAs (M : Type) [IdMap M] (hsize : file.size ≠ 0) :
    EndsAs args file clock (((args.handler : ReplayHandler M).replay file.calls).run []) := by
  cases hrun : ((args.handler : ReplayHandler M).replay file.calls).run [] with
  | ok h ts => exact main_of_ok args file clock hsize hrun
  | error f ts => exact main_of_error args file clock hsize hrun

end Program

/-! ### A small file -/

theorem tick_ne_zero : (100 : Int32) ≠ 0 := by decide

theorem vectorMax_small : 10 ^ 6 * 12 < 2 ^ 63 := by decide

def sampleArgs : Args where
  symbol := []
  cfg := smallConfig
  itchTick := 100
  topN := 2
  snapshotOnly := false
  tick_ne := tick_ne_zero
  vectorMax := 10 ^ 6
  vectorMax_le := vectorMax_small

/-- A bid that is executed in part, and an ask. -/
def sampleFrames : List Frame :=
  [⟨.stockDirectory 0 ⟨7, 0, Vector.replicate 8 32, 0⟩ (Vector.replicate 19 0), [],
      show (0 : UInt64).toNat < 2 ^ 48 by decide, by decide⟩,
    ⟨.addOrder ⟨7, 0, 0, 1, .buy, 5, Vector.replicate 8 32, 100⟩, [],
      show (0 : UInt64).toNat < 2 ^ 48 by decide, by decide⟩,
    ⟨.addOrder ⟨7, 0, 0, 2, .sell, 3, Vector.replicate 8 32, 300⟩, [],
      show (0 : UInt64).toNat < 2 ^ 48 by decide, by decide⟩,
    ⟨.orderExecuted 0 ⟨7, 0, 1, 2, 0⟩, [], show (0 : UInt64).toNat < 2 ^ 48 by decide,
      by decide⟩]

/-- The file, with the first bytes of another frame at its end. -/
def sampleFile : List UInt8 := sampleFrames.flatMap Frame.bytes ++ [0]

def sampleData (i : ℕ) : UInt8 := sampleFile.getD i 0

theorem size_small : 151 ≤ 4096 := by decide

def sampleMapped : MappedFile where
  data := sampleData
  size := 151
  readable := 4096
  size_le := size_small

theorem sampleFile_endsAs :
    EndsAs sampleArgs sampleMapped (fun k => UInt64.ofNat (k * k))
      (((sampleArgs.handler : ReplayHandler (OrderIdMap Ptr)).replay sampleMapped.calls).run []) :=
  main_endsAs sampleArgs sampleMapped _ _ (by decide)

end Lob
