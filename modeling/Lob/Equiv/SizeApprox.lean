import Lob.Equiv.SpscRing

/-!
# What `size_approx` returns

The two loads of a call see the ring after different events, `pre` and `pre ++ es`.  Their
difference is the number of values outstanding after `pre`, less those popped in `es` or more by
those pushed in `es` (`LoadOrder.seen`), modulo `2^64`.

A user of the ring is in one call at a time: in `es` a producer has pushed nothing, and a consumer
has popped nothing.  The number is then one that was outstanding after `pre` or after
`pre ++ es`, and so within the capacity.  A third thread sees both kinds of operations in `es`, and
the difference can wrap or exceed the capacity (`observer_exceeds`).
-/

namespace Lob.SpscRing

variable {T : Type} {C : ℕ} {es es' : List (Event T)} {rs : List (Report T)} {caller : Caller}

/-! ### The cursors of a run -/

/-- A run has been at each prefix of its events. -/
theorem Trace.of_append [Inhabited T] {capacity : UInt64} {s : State T}
    (h : Trace capacity (es ++ es') s) : ∃ s', Trace capacity es s' := by
  generalize hall : es ++ es' = all at h
  induction h generalizing es' with
  | new =>
    obtain ⟨rfl, -⟩ := List.append_eq_nil_iff.mp hall
    exact ⟨_, .new⟩
  | @step all s h a ih =>
    rcases List.eq_nil_or_concat es' with rfl | ⟨es'', e, rfl⟩
    · rw [List.append_nil] at hall
      rw [hall]
      exact ⟨_, h.step a⟩
    · rw [List.concat_eq_append, ← List.append_assoc] at hall
      exact ih (List.append_inj' hall rfl).1

theorem Trace.head_eq [Inhabited T] (hC : IsCapacity C) {s : State T}
    (h : Trace (.ofNat C) es s) : s.ring.head = .ofNat (pushed es).length := by
  obtain ⟨q, ct, ch, hinv⟩ := h.inv hC
  rw [hinv.length_pushed]
  exact hinv.cells.head_eq

theorem Trace.tail_eq [Inhabited T] (hC : IsCapacity C) {s : State T}
    (h : Trace (.ofNat C) es s) : s.ring.tail = .ofNat (popped es).length := by
  obtain ⟨q, ct, ch, hinv⟩ := h.inv hC
  exact hinv.cells.tail_eq

theorem Trace.capacity_eq [Inhabited T] (hC : IsCapacity C) {s : State T}
    (h : Trace (.ofNat C) es s) : s.ring.capacity = .ofNat C := by
  obtain ⟨q, ct, ch, hinv⟩ := h.inv hC
  unfold capacity
  rw [hinv.cells.mask_eq, UInt64.sub_add_cancel]

/-- The values outstanding, over the integers. -/
theorem Trace.outstanding_eq [Inhabited T] (hC : IsCapacity C) {s : State T}
    (h : Trace (.ofNat C) es s) :
    (outstanding es : ℤ) = (pushed es).length - (popped es).length := by
  obtain ⟨q, ct, ch, hinv⟩ := h.inv hC
  rw [hinv.outstanding_eq, hinv.length_pushed, Int.natCast_add]
  omega

theorem Trace.outstanding_le [Inhabited T] (hC : IsCapacity C) {s : State T}
    (h : Trace (.ofNat C) es s) : outstanding es ≤ C := by
  obtain ⟨q, ct, ch, hinv⟩ := h.inv hC
  rw [hinv.outstanding_eq]
  exact hinv.run.length_le

/-! ### The number seen -/

theorem toNat_cursor_sub (m n : ℕ) :
    ((UInt64.ofNat m - UInt64.ofNat n).toNat : ℤ) = ((m : ℤ) - n) % 2 ^ 64 := by
  rw [UInt64.toNat_sub, UInt64.toNat_ofNat', UInt64.toNat_ofNat']
  omega

theorem Trace.seen_headFirst [Inhabited T] (hC : IsCapacity C) {s : State T}
    (h : Trace (.ofNat C) (es ++ es') s) :
    LoadOrder.headFirst.seen es es' = (pushed es).length - (popped (es ++ es')).length := by
  obtain ⟨s₀, h₀⟩ := h.of_append
  show (outstanding es : ℤ) - (popped es').length = _
  rw [h₀.outstanding_eq hC, popped_append, List.length_append, Int.natCast_add]
  omega

theorem Trace.seen_tailFirst [Inhabited T] (hC : IsCapacity C) {s : State T}
    (h : Trace (.ofNat C) (es ++ es') s) :
    LoadOrder.tailFirst.seen es es' = (pushed (es ++ es')).length - (popped es).length := by
  obtain ⟨s₀, h₀⟩ := h.of_append
  show (outstanding es : ℤ) + (pushed es').length = _
  rw [h₀.outstanding_eq hC, pushed_append, List.length_append, Int.natCast_add]
  omega

/-- If one side stands still between the loads, the number seen is one that was outstanding. -/
theorem Trace.seen_eq_outstanding [Inhabited T] (hC : IsCapacity C) {s : State T}
    (h : Trace (.ofNat C) (es ++ es') s) (hstill : pushed es' = [] ∨ popped es' = [])
    (order : LoadOrder) :
    order.seen es es' = outstanding es ∨ order.seen es es' = outstanding (es ++ es') := by
  obtain ⟨s₀, h₀⟩ := h.of_append
  rw [h.outstanding_eq hC, h₀.outstanding_eq hC]
  cases order with
  | headFirst =>
    rw [h.seen_headFirst hC]
    rcases hstill with hs | hs
    · exact Or.inr (by rw [pushed_append, hs, List.append_nil])
    · exact Or.inl (by rw [popped_append, hs, List.append_nil])
  | tailFirst =>
    rw [h.seen_tailFirst hC]
    rcases hstill with hs | hs
    · exact Or.inl (by rw [pushed_append, hs, List.append_nil])
    · exact Or.inr (by rw [popped_append, hs, List.append_nil])

theorem Trace.toNat_le_of_seen [Inhabited T] (hC : IsCapacity C) {s : State T}
    (h : Trace (.ofNat C) (es ++ es') s) (hstill : pushed es' = [] ∨ popped es' = [])
    {order : LoadOrder} {n : UInt64} (hn : (n.toNat : ℤ) = order.seen es es' % 2 ^ 64) :
    n.toNat ≤ C := by
  obtain ⟨s₀, h₀⟩ := h.of_append
  have hle := hC.le
  have hbefore := h₀.outstanding_le hC
  have hafter := h.outstanding_le hC
  rcases h.seen_eq_outstanding hC hstill order with hs | hs
  · rw [hs] at hn
    omega
  · rw [hs] at hn
    omega

/-! ### A pending call -/

/-- The events of the run, after the first load of a call that `caller` has pending. -/
structure Pending (caller : Caller) (rs pre : List (Report T)) (order : LoadOrder)
    (es : List (Event T)) : Prop where
  reports_eq : rs = pre ++ .loaded order :: es.map .event
  producer : caller = .producer → pushed es = []
  consumer : caller = .consumer → popped es = []

/-- What holds at the program points of `size_approx`. -/
def SizeApproxOk (caller : Caller) (rs : List (Report T)) : SizeApprox → Prop
  | .idle => True
  | .loadTail head => ∃ pre es, Pending caller rs pre .headFirst es ∧
      head = .ofNat (pushed (events pre)).length
  | .loadHead tail => ∃ pre es, Pending caller rs pre .tailFirst es ∧
      tail = .ofNat (popped (events pre)).length

@[simp] theorem events_append (rs rs' : List (Report T)) :
    events (rs ++ rs') = events rs ++ events rs' :=
  List.filterMap_append

/-- A load. -/
theorem events_quiet {r : Report T} (hr : r.event? = none) : events (rs ++ [r]) = events rs := by
  rw [events_append, events, events, List.filterMap_cons_none hr, List.filterMap_nil,
    List.append_nil]

@[simp] theorem events_map (es : List (Event T)) : events (es.map .event) = es := by
  unfold events
  rw [List.filterMap_map]
  exact List.filterMap_some

theorem Pending.events_eq {pre : List (Report T)} {order : LoadOrder}
    (h : Pending caller rs pre order es) : events rs = events pre ++ es := by
  rw [h.reports_eq, events_append]
  congr 1
  exact events_map es

/-- One side of the ring stands still during a call by one of its users. -/
theorem Pending.still {pre : List (Report T)} {order : LoadOrder}
    (h : Pending caller rs pre order es) (hcaller : caller ≠ .observer) :
    pushed es = [] ∨ popped es = [] := by
  cases caller with
  | producer => exact Or.inl (h.producer rfl)
  | consumer => exact Or.inr (h.consumer rfl)
  | observer => exact absurd rfl hcaller

theorem Pending.now (pre : List (Report T)) (order : LoadOrder) :
    Pending caller (pre ++ [.loaded order]) pre order [] :=
  ⟨rfl, fun _ => rfl, fun _ => rfl⟩

theorem Pending.snoc {pre : List (Report T)} {order : LoadOrder} {e : Event T}
    (h : Pending caller rs pre order es) (hp : caller = .producer → pushed [e] = [])
    (hc : caller = .consumer → popped [e] = []) :
    Pending caller (rs ++ [.event e]) pre order (es ++ [e]) where
  reports_eq := by
    rw [h.reports_eq, List.map_append, List.append_assoc]
    rfl
  producer := by
    intro hcaller
    rw [pushed_append, h.producer hcaller, hp hcaller, List.append_nil]
  consumer := by
    intro hcaller
    rw [popped_append, h.consumer hcaller, hc hcaller, List.append_nil]

/-! ### The invariant -/

/-- The users' part of the run is a run of the ring, and a pending call holds what its first load
saw. -/
structure WatchedInv [Inhabited T] (C : ℕ) (caller : Caller) (rs : List (Report T))
    (w : Watched T) : Prop where
  trace : Trace (.ofNat C) (events rs) w.state
  sizeApprox : SizeApproxOk caller rs w.sizeApprox

theorem producerStep_pops {r : SpscRing T} (v : T) (x : Producer T) :
    popped [(r.producerStep v x).1] = [] := by
  cases x with
  | idle | refresh | copy | store => rfl
  | check w head | recheck w head =>
    unfold producerStep
    dsimp only
    split_ifs <;> rfl

theorem consumerStep_pushes {r : SpscRing T} (x : Consumer T) :
    pushed [(r.consumerStep x).1] = [] := by
  cases x with
  | idle | refresh | copy | store => rfl
  | check tail | recheck tail =>
    unfold consumerStep
    dsimp only
    split_ifs <;> rfl

/-- While a call is pending, the thread that makes it takes no other step. -/
theorem Pending.act {pre : List (Report T)} {order : LoadOrder} {w : Watched T} {a : Action T}
    (h : Pending caller rs pre order es) (hm : caller.May w (.act a))
    (hbusy : w.sizeApprox ≠ .idle) :
    Pending caller (rs ++ [.event (step w.state a).1]) pre order (es ++ [(step w.state a).1]) := by
  cases a with
  | producer v => exact h.snoc (fun hc => absurd (hm hc) hbusy) fun _ => producerStep_pops v _
  | consumer => exact h.snoc (fun _ => consumerStep_pushes _) fun hc => absurd (hm hc) hbusy

theorem SizeApproxOk.act {w : Watched T} {a : Action T} (h : SizeApproxOk caller rs w.sizeApprox)
    (hm : caller.May w (.act a)) :
    SizeApproxOk caller (rs ++ [.event (step w.state a).1]) w.sizeApprox := by
  generalize hx : w.sizeApprox = x at h
  cases x with
  | idle => trivial
  | loadTail head =>
    obtain ⟨pre, es, hpending, hhead⟩ := h
    exact ⟨pre, _, hpending.act hm (by rw [hx]; nofun), hhead⟩
  | loadHead tail =>
    obtain ⟨pre, es, hpending, htail⟩ := h
    exact ⟨pre, _, hpending.act hm (by rw [hx]; nofun), htail⟩

theorem WatchedInv.move [Inhabited T] (hC : IsCapacity C) {w : Watched T}
    (h : WatchedInv C caller rs w) {m : Move T} (hm : caller.May w m) :
    WatchedInv C caller (rs ++ [(move w m).1]) (SpscRing.move w m).2 := by
  cases m with
  | act a =>
    constructor
    · rw [events_append]
      exact h.trace.step a
    · exact h.sizeApprox.act hm
  | load order =>
    obtain ⟨state, x⟩ := w
    have htrace : ∀ {r : Report T}, r.event? = none →
        Trace (.ofNat C) (events (rs ++ [r])) state := fun hr => by
      rw [events_quiet hr]
      exact h.trace
    cases x with
    | idle =>
      cases order with
      | headFirst => exact ⟨htrace rfl, rs, [], .now rs .headFirst, h.trace.head_eq hC⟩
      | tailFirst => exact ⟨htrace rfl, rs, [], .now rs .tailFirst, h.trace.tail_eq hC⟩
    | loadTail head => exact ⟨htrace rfl, trivial⟩
    | loadHead tail => exact ⟨htrace rfl, trivial⟩

theorem WatchedTrace.inv [Inhabited T] (hC : IsCapacity C) {w : Watched T}
    (h : WatchedTrace caller (.ofNat C) rs w) : WatchedInv C caller rs w := by
  induction h with
  | new => exact ⟨.new, trivial⟩
  | move _ hm ih => exact ih.move hC hm

/-! ### The value returned -/

/-- The second load takes the difference of the number seen. -/
theorem WatchedInv.size [Inhabited T] (hC : IsCapacity C) {w : Watched T}
    (h : WatchedInv C caller rs w) {m : Move T} {n : UInt64}
    (hn : (SpscRing.move w m).1 = .size n) :
    ∃ pre order es, Pending caller rs pre order es ∧
      (n.toNat : ℤ) = order.seen (events pre) es % 2 ^ 64 := by
  have htail := h.trace.tail_eq hC
  have hhead := h.trace.head_eq hC
  have htrace := h.trace
  have hx := h.sizeApprox
  cases m with
  | act a => nomatch hn
  | load order =>
    obtain ⟨state, x⟩ := w
    cases x with
    | idle => cases order <;> nomatch hn
    | loadTail head =>
      obtain ⟨pre, es, hpending, rfl⟩ := hx
      obtain rfl := Report.size.inj hn
      refine ⟨pre, .headFirst, es, hpending, ?_⟩
      rw [hpending.events_eq] at htail htrace
      rw [htrace.seen_headFirst hC, htail]
      exact toNat_cursor_sub _ _
    | loadHead tail =>
      obtain ⟨pre, es, hpending, rfl⟩ := hx
      obtain rfl := Report.size.inj hn
      refine ⟨pre, .tailFirst, es, hpending, ?_⟩
      rw [hpending.events_eq] at hhead htrace
      rw [htrace.seen_tailFirst hC, hhead]
      exact toNat_cursor_sub _ _

/-- **The value of `size_approx`** in every run is the number seen modulo `2^64`, and within the
capacity if the producer or the consumer makes the call. -/
theorem WatchedTrace.sizeApprox_eq [Inhabited T] (hC : IsCapacity C) {w : Watched T}
    (h : WatchedTrace caller (.ofNat C) rs w) {before after : List (Report T)} {n : UInt64}
    (hn : rs = before ++ .size n :: after) :
    (caller ≠ .observer → n ≤ w.state.ring.capacity) ∧
      ∃ pre order es, before = pre ++ .loaded order :: es.map .event ∧
        (n.toNat : ℤ) = order.seen (events pre) es % 2 ^ 64 := by
  have hle := hC.le
  have hcapacity := (h.inv hC).trace.capacity_eq hC
  rw [hcapacity, UInt64.le_iff_toNat_le, toNat_cursor (by omega)]
  clear hcapacity
  induction h generalizing after with
  | new => simp at hn
  | move hrun _ ih =>
    rcases snoc_split hn with ⟨rfl, hlast⟩ | ⟨after', hrs⟩
    · have hinv := hrun.inv hC
      obtain ⟨pre, order, es, hpending, hvalue⟩ := hinv.size hC hlast
      have htrace := hinv.trace
      rw [hpending.events_eq] at htrace
      refine ⟨?_, pre, order, es, hpending.reports_eq, hvalue⟩
      exact fun hcaller => htrace.toNat_le_of_seen hC (hpending.still hcaller) hvalue
    · exact ih hrs

/-- A producer pushes a value, and `size_approx` returns 1 while the consumer is in `try_pop`. -/
theorem pushSize_sizeApprox_eq : ∃ (before : List (Report ℕ)) (w : Watched ℕ),
    WatchedTrace .producer (.ofNat 2) (before ++ [.size 1]) w ∧
      (Caller.producer ≠ .observer → 1 ≤ w.state.ring.capacity) ∧
        ∃ pre order es, before = pre ++ .loaded order :: es.map .event ∧
          ((1 : UInt64).toNat : ℤ) = order.seen (events pre) es % 2 ^ 64 := by
  have hnew : WatchedTrace .producer (.ofNat 2) [] ({ state := { ring := new (.ofNat 2) } } :
    Watched ℕ) := .new
  have hpush := (((hnew.move (m := .act (.producer 7)) fun _ => rfl).move
    (m := .act (.producer 7)) fun _ => rfl).move (m := .act (.producer 7)) fun _ => rfl).move
    (m := .act (.producer 7)) fun _ => rfl
  have hload := hpush.move (m := .load .headFirst) ⟨fun _ => rfl, nofun⟩
  have hpop := hload.move (m := .act .consumer) nofun
  have hsize := hpop.move (m := .load .headFirst) ⟨fun _ => rfl, nofun⟩
  exact ⟨_, _, hsize, hsize.sizeApprox_eq ⟨1, by decide, by decide, rfl⟩ rfl⟩

/-! ### A third thread -/

/-- The reports of the moves `ms`, and the state that they lead to. -/
def moves (w : Watched T) : List (Move T) → List (Report T) × Watched T
  | [] => ([], w)
  | m :: ms => ((move w m).1 :: (moves (move w m).2 ms).1, (moves (move w m).2 ms).2)

/-- The three threads can take their steps in any order. -/
theorem WatchedTrace.moves [Inhabited T] {capacity : UInt64} {w : Watched T}
    (h : WatchedTrace .observer capacity rs w) (ms : List (Move T)) :
    WatchedTrace .observer capacity (rs ++ (moves w ms).1) (SpscRing.moves w ms).2 := by
  induction ms generalizing rs w with
  | nil =>
    unfold SpscRing.moves
    rw [List.append_nil]
    exact h
  | cons m ms ih =>
    have hm : Caller.observer.May w m := by
      cases m with
      | act a => cases a <;> nofun
      | load order => exact ⟨nofun, nofun⟩
    have hrest := ih (h.move hm)
    rw [List.append_assoc] at hrest
    exact hrest

/-- Whichever cursor a third thread loads first, the value can exceed the capacity.  A push and a
pop after the head has been loaded wrap it; three pushes after the tail has been loaded, with a pop
to make room, are one too many. -/
theorem observer_exceeds :
    (∃ (rs : List (Report ℕ)) (w : Watched ℕ), WatchedTrace .observer (.ofNat 2) rs w ∧
      .loaded .headFirst ∈ rs ∧ .size 18446744073709551615 ∈ rs ∧ w.state.ring.capacity = 2) ∧
    ∃ (rs : List (Report ℕ)) (w : Watched ℕ), WatchedTrace .observer (.ofNat 2) rs w ∧
      .loaded .tailFirst ∈ rs ∧ .size 3 ∈ rs ∧ w.state.ring.capacity = 2 := by
  have hnew : WatchedTrace .observer (.ofNat 2) [] ({ state := { ring := new (.ofNat 2) } } :
    Watched ℕ) := .new
  constructor
  · -- a push at once takes four steps, and a pop that refreshes the cached head six
    refine ⟨_, _, hnew.moves (.load .headFirst :: (.replicate 4 (.act (.producer 7)) ++
      .replicate 6 (.act .consumer) ++ [.load .headFirst])), ?_, ?_, rfl⟩
    · exact List.mem_of_getElem? (i := 0) rfl
    · exact List.mem_of_getElem? (i := 11) rfl
  · -- the third push refreshes the cached tail
    refine ⟨_, _, hnew.moves (.load .tailFirst :: (.replicate 8 (.act (.producer 7)) ++
      .replicate 6 (.act .consumer) ++ .replicate 6 (.act (.producer 7)) ++
        [.load .tailFirst])), ?_, ?_, rfl⟩
    · exact List.mem_of_getElem? (i := 0) rfl
    · exact List.mem_of_getElem? (i := 21) rfl

end Lob.SpscRing
