import Lob.SpscRing
import Mathlib.Data.Nat.ModEq
import Mathlib.Tactic.SplitIfs

/-!
# Correctness of `SpscRing`

The ring is a bounded queue (`Trace.boundedFifo`).  The queue behind it is the list `q` of the
values pushed and not yet popped; with `p` values popped, the cursors are `p` and `p + q.length`
modulo `2^64`, and the value `p + j` is in the element `(p + j) % C` (`Cells`).

A cached cursor is one that the other side once had.  It is behind that side's cursor and never
so far behind that the difference wraps, so that the tests on it are tests on the natural numbers
`ct` and `ch`.
-/

namespace Lob.SpscRing

open BoundedQueue (Op pushes pops)

variable {T : Type} {C p ct ch : ℕ} {q : List T} {r : SpscRing T} {es : List (Event T)}

/-! ### Cursors -/

theorem toNat_cursor {n : ℕ} (h : n < 2 ^ 64) : (UInt64.ofNat n).toNat = n := by
  rw [UInt64.toNat_ofNat']
  exact Nat.mod_eq_of_lt h

theorem cursor_succ (n : ℕ) : UInt64.ofNat n + 1 = UInt64.ofNat (n + 1) :=
  (UInt64.ofNat_add n 1).symm

theorem cursor_sub {m n : ℕ} (h : m ≤ n) : UInt64.ofNat n - UInt64.ofNat m = UInt64.ofNat (n - m) :=
  (UInt64.ofNat_sub h).symm

/-- Cursors that are less than `2^64` apart are equal only if they are the same. -/
theorem cursor_inj {m n : ℕ} (h : m ≤ n) (hlt : n - m < 2 ^ 64) :
    UInt64.ofNat m = UInt64.ofNat n ↔ m = n := by
  constructor
  · intro heq
    have hsub := cursor_sub h
    rw [heq, UInt64.sub_self] at hsub
    have hz := congrArg UInt64.toNat hsub
    rw [toNat_cursor hlt] at hz
    change 0 = n - m at hz
    omega
  · exact fun heq => congrArg UInt64.ofNat heq

theorem IsCapacity.two_le (h : IsCapacity C) : 2 ≤ C := by
  obtain ⟨k, hk, -, rfl⟩ := h
  exact Nat.pow_le_pow_right (show 2 > 0 by decide) hk

theorem IsCapacity.le (h : IsCapacity C) : C ≤ 2 ^ 63 := by
  obtain ⟨k, -, hk, rfl⟩ := h
  exact Nat.pow_le_pow_right (by decide) (Nat.le_of_lt_succ hk)

/-- The mask takes a cursor modulo the capacity, also past `2^64`. -/
theorem IsCapacity.slot_eq (h : IsCapacity C) (hmask : r.mask = UInt64.ofNat C - 1) (n : ℕ) :
    r.slot (UInt64.ofNat n) = n % C := by
  have h2 := h.two_le
  have hle := h.le
  have hmask' : r.mask.toNat = C - 1 := by
    rw [hmask]
    show (UInt64.ofNat C - UInt64.ofNat 1).toNat = C - 1
    rw [cursor_sub (by omega), toNat_cursor (by omega)]
  obtain ⟨k, -, hk, rfl⟩ := h
  unfold slot
  rw [UInt64.toNat_and, hmask', UInt64.toNat_ofNat', Nat.and_two_pow_sub_one_eq_mod]
  exact Nat.mod_mod_of_dvd n (Nat.pow_dvd_pow 2 hk.le)

/-- Less than a turn apart, cursors have different elements. -/
theorem mod_ne_of_lt {m n : ℕ} (h : m < n) (hlt : n < m + C) : m % C ≠ n % C := by
  intro heq
  have hdvd := (Nat.modEq_iff_dvd' h.le).mp heq
  have hle := Nat.le_of_dvd (by omega) hdvd
  omega

/-! ### The memory of the ring -/

/-- The ring holds the queue `q` after `p` values have been popped. -/
structure Cells (C : ℕ) (r : SpscRing T) (q : List T) (p ct ch : ℕ) : Prop where
  mask_eq : r.mask = UInt64.ofNat C - 1
  head_eq : r.head = UInt64.ofNat (p + q.length)
  tail_eq : r.tail = UInt64.ofNat p
  cachedTail_eq : r.cachedTail = UInt64.ofNat ct
  cachedHead_eq : r.cachedHead = UInt64.ofNat ch
  cachedTail_le : ct ≤ p
  room : p + q.length ≤ ct + C
  le_cachedHead : p ≤ ch
  cachedHead_le : ch ≤ p + q.length
  buf_eq : ∀ j v, q[j]? = some v → r.buf ((p + j) % C) = v

/-- The full test compares the numbers behind the cursors. -/
theorem Cells.full_iff (hC : IsCapacity C) (h : Cells C r q p ct ch) :
    r.full r.head = true ↔ p + q.length = ct + C := by
  have h2 := hC.two_le
  have hle := hC.le
  have hct := h.cachedTail_le
  have hroom := h.room
  have hmask : r.mask + 1 = UInt64.ofNat C := by
    rw [h.mask_eq, UInt64.sub_add_cancel]
  have hnext : r.head + 1 - r.cachedTail = UInt64.ofNat (p + q.length + 1 - ct) := by
    rw [h.head_eq, h.cachedTail_eq, cursor_succ, cursor_sub (by omega)]
  unfold full
  rw [decide_eq_true_eq, hmask, hnext, gt_iff_lt, UInt64.lt_iff_toNat_lt, toNat_cursor (by omega),
    toNat_cursor (by omega)]
  omega

theorem Cells.tail_eq_cachedHead_iff (hC : IsCapacity C) (h : Cells C r q p ct ch) :
    r.tail = r.cachedHead ↔ p = ch := by
  have hle := hC.le
  have hct := h.cachedTail_le
  have hroom := h.room
  have hch := h.cachedHead_le
  rw [h.tail_eq, h.cachedHead_eq]
  exact cursor_inj h.le_cachedHead (by omega)

theorem Cells.slot_head (hC : IsCapacity C) (h : Cells C r q p ct ch) :
    r.slot r.head = (p + q.length) % C := by
  rw [h.head_eq, hC.slot_eq h.mask_eq]

theorem Cells.slot_tail (hC : IsCapacity C) (h : Cells C r q p ct ch) :
    r.slot r.tail = p % C := by
  rw [h.tail_eq, hC.slot_eq h.mask_eq]

/-- Writing the element at the head touches no value of the queue. -/
theorem Cells.write (h : Cells C r q p ct ch) (hroom : p + q.length < ct + C) (v : T) :
    Cells C { r with buf := Function.update r.buf ((p + q.length) % C) v } q p ct ch where
  mask_eq := h.mask_eq
  head_eq := h.head_eq
  tail_eq := h.tail_eq
  cachedTail_eq := h.cachedTail_eq
  cachedHead_eq := h.cachedHead_eq
  cachedTail_le := h.cachedTail_le
  room := h.room
  le_cachedHead := h.le_cachedHead
  cachedHead_le := h.cachedHead_le
  buf_eq := by
    intro j w hj
    have hlt := (List.getElem?_eq_some_iff.mp hj).1
    have hct := h.cachedTail_le
    have hne : (p + j) % C ≠ (p + q.length) % C := mod_ne_of_lt (by omega) (by omega)
    show Function.update r.buf ((p + q.length) % C) v ((p + j) % C) = w
    rw [Function.update_of_ne hne]
    exact h.buf_eq j w hj

/-- The value in the element at the head joins the queue. -/
theorem Cells.push (h : Cells C r q p ct ch) (hroom : p + q.length < ct + C) {v : T}
    (hv : r.buf ((p + q.length) % C) = v) :
    Cells C { r with head := r.head + 1 } (q ++ [v]) p ct ch where
  mask_eq := h.mask_eq
  head_eq := by
    show r.head + 1 = _
    rw [h.head_eq, cursor_succ, List.length_append, List.length_singleton, Nat.add_assoc]
  tail_eq := h.tail_eq
  cachedTail_eq := h.cachedTail_eq
  cachedHead_eq := h.cachedHead_eq
  cachedTail_le := h.cachedTail_le
  room := by
    rw [List.length_append, List.length_singleton]
    omega
  le_cachedHead := h.le_cachedHead
  cachedHead_le := by
    have hch := h.cachedHead_le
    rw [List.length_append]
    omega
  buf_eq := by
    intro j w hj
    rcases Nat.lt_or_ge j q.length with hlt | hge
    · rw [List.getElem?_append_left hlt] at hj
      exact h.buf_eq j w hj
    · rw [List.getElem?_append_right hge, List.getElem?_singleton] at hj
      split_ifs at hj with hz
      obtain rfl : j = q.length := by omega
      obtain rfl := Option.some.inj hj
      exact hv

/-- The first value leaves the queue. -/
theorem Cells.pop {v : T} (h : Cells C r (v :: q) p ct ch) (hlt : p < ch) :
    Cells C { r with tail := r.tail + 1 } q (p + 1) ct ch where
  mask_eq := h.mask_eq
  head_eq := by
    show r.head = _
    rw [h.head_eq, List.length_cons, Nat.add_right_comm, Nat.add_assoc]
  tail_eq := by
    show r.tail + 1 = _
    rw [h.tail_eq, cursor_succ]
  cachedTail_eq := h.cachedTail_eq
  cachedHead_eq := h.cachedHead_eq
  cachedTail_le := Nat.le_succ_of_le h.cachedTail_le
  room := by
    have hroom := h.room
    rw [List.length_cons] at hroom
    omega
  le_cachedHead := hlt
  cachedHead_le := by
    have hch := h.cachedHead_le
    rw [List.length_cons] at hch
    omega
  buf_eq := by
    intro j w hj
    rw [Nat.add_assoc, Nat.add_comm 1 j]
    exact h.buf_eq (j + 1) w hj

theorem Cells.refreshTail (h : Cells C r q p ct ch) (hq : q.length ≤ C) :
    Cells C { r with cachedTail := r.tail } q p p ch :=
  { h with
    cachedTail_eq := h.tail_eq
    cachedTail_le := le_refl p
    room := Nat.add_le_add_left hq p }

theorem Cells.refreshHead (h : Cells C r q p ct ch) :
    Cells C { r with cachedHead := r.head } q p ct (p + q.length) :=
  { h with
    cachedHead_eq := h.head_eq
    le_cachedHead := Nat.le_add_right p q.length
    cachedHead_le := le_refl _ }

/-! ### Reports -/

theorem ops_append (es es' : List (Event T)) : ops (es ++ es') = ops es ++ ops es' :=
  List.filterMap_append

theorem pushed_append (es es' : List (Event T)) : pushed (es ++ es') = pushed es ++ pushed es' := by
  unfold pushed
  rw [ops_append, BoundedQueue.pushes_append]

theorem popped_append (es es' : List (Event T)) : popped (es ++ es') = popped es ++ popped es' := by
  unfold popped
  rw [ops_append, BoundedQueue.pops_append]

/-- An event that performs no operation. -/
theorem ops_quiet {e : Event T} (he : e.op = none) : ops (es ++ [e]) = ops es := by
  rw [ops_append, ops, ops, List.filterMap_cons_none he, List.filterMap_nil, List.append_nil]

theorem popped_quiet {e : Event T} (he : e.op = none) : popped (es ++ [e]) = popped es := by
  unfold popped
  rw [ops_quiet he]

theorem popped_pushed (v : T) : popped (es ++ [.pushed v]) = popped es := by
  rw [popped_append]
  exact List.append_nil _

theorem popped_popped (v : T) : popped (es ++ [.popped v]) = popped es ++ [v] := by
  rw [popped_append]
  rfl

/-- The other party's events do not end what has been so since the last report. -/
theorem Since.snoc {mine : Event T → Bool} {e x : Event T} {P : List (Event T) → Prop}
    (h : Since mine e es P) (hx : mine x = false) : Since mine e (es ++ [x]) P := by
  obtain ⟨before, after, rfl, hafter, hP⟩ := h
  refine ⟨before, after ++ [x], by simp, ?_, hP⟩
  intro y hy
  rcases List.mem_append.mp hy with hy | hy
  · exact hafter y hy
  · obtain rfl := List.mem_singleton.mp hy
    exact hx

theorem Since.now {mine : Event T → Bool} {e : Event T} {P : List (Event T) → Prop} (h : P es) :
    Since mine e (es ++ [e]) P := ⟨es, [], rfl, nofun, h⟩

theorem Since.mono {mine : Event T → Bool} {e : Event T} {P P' : List (Event T) → Prop}
    (h : Since mine e es P) (hP : ∀ before, P before → P' before) : Since mine e es P' := by
  obtain ⟨before, after, hes, hafter, h⟩ := h
  exact ⟨before, after, hes, hafter, hP before h⟩

/-! ### The program points -/

/-- What holds at the program points of `try_push`, when `n` values have been pushed. -/
def ProducerOk (C : ℕ) (r : SpscRing T) (n ct : ℕ) (es : List (Event T)) : Producer T → Prop
  | .idle => True
  | .check _ head => head = r.head
  | .refresh _ head => head = r.head
  | .recheck _ head => head = r.head ∧ Since Event.byProducer .refreshTail es fun before =>
      (pushed before).length = n ∧ (popped before).length = ct
  | .copy _ head => head = r.head ∧ n < ct + C
  | .store v head => head = r.head ∧ n < ct + C ∧ r.buf (n % C) = v

/-- What holds at the program points of `try_pop`, when `p` values have been popped. -/
def ConsumerOk (r : SpscRing T) (q : List T) (p ch : ℕ) (es : List (Event T)) :
    Consumer T → Prop
  | .idle => True
  | .check tail => tail = r.tail
  | .refresh tail => tail = r.tail
  | .recheck tail => tail = r.tail ∧ Since Event.byConsumer .refreshHead es fun before =>
      (pushed before).length = ch ∧ (popped before).length = p
  | .copy tail => tail = r.tail ∧ p < ch
  | .store tail out => tail = r.tail ∧ p < ch ∧ q.head? = some out

/-- A step of the consumer. -/
theorem ProducerOk.other {r' : SpscRing T} {n : ℕ} {e : Event T} {x : Producer T}
    (h : ProducerOk C r n ct es x) (hhead : r'.head = r.head) (hbuf : r'.buf = r.buf)
    (he : e.byProducer = false) : ProducerOk C r' n ct (es ++ [e]) x := by
  cases x with
  | idle => trivial
  | check v head => exact Eq.trans h hhead.symm
  | refresh v head => exact Eq.trans h hhead.symm
  | recheck v head => exact ⟨h.1.trans hhead.symm, h.2.snoc he⟩
  | copy v head => exact ⟨h.1.trans hhead.symm, h.2⟩
  | store v head => exact ⟨h.1.trans hhead.symm, h.2.1, hbuf ▸ h.2.2⟩

/-- A step of the producer. -/
theorem ConsumerOk.other {r' : SpscRing T} {q' : List T} {e : Event T} {x : Consumer T}
    (h : ConsumerOk r q p ch es x) (htail : r'.tail = r.tail)
    (hq : ∀ v, q.head? = some v → q'.head? = some v) (he : e.byConsumer = false) :
    ConsumerOk r' q' p ch (es ++ [e]) x := by
  cases x with
  | idle => trivial
  | check tail => exact Eq.trans h htail.symm
  | refresh tail => exact Eq.trans h htail.symm
  | recheck tail => exact ⟨h.1.trans htail.symm, h.2.snoc he⟩
  | copy tail => exact ⟨h.1.trans htail.symm, h.2⟩
  | store tail out => exact ⟨h.1.trans htail.symm, h.2.1, hq out h.2.2⟩

/-! ### The invariant -/

/-- The run with the events `es` has led to the ring and the program points of `s`, and to the
queue `q`. -/
structure Inv (C : ℕ) (es : List (Event T)) (s : State T) (q : List T) (ct ch : ℕ) : Prop where
  run : BoundedQueue.Run C (ops es) q
  cells : Cells C s.ring q (popped es).length ct ch
  producer : ProducerOk C s.ring ((popped es).length + q.length) ct es s.producer
  consumer : ConsumerOk s.ring q (popped es).length ch es s.consumer

theorem Inv.length_pushed {s : State T} (h : Inv C es s q ct ch) :
    (pushed es).length = (popped es).length + q.length := h.run.length_pushes

/-- A step that performs no operation on the queue. -/
theorem Inv.quiet {s s' : State T} {e : Event T} {ct' ch' : ℕ} (h : Inv C es s q ct ch)
    (he : e.op = none) (hcells : Cells C s'.ring q (popped es).length ct' ch')
    (hp : ProducerOk C s'.ring ((popped es).length + q.length) ct' (es ++ [e]) s'.producer)
    (hc : ConsumerOk s'.ring q (popped es).length ch' (es ++ [e]) s'.consumer) :
    Inv C (es ++ [e]) s' q ct' ch' := by
  rw [← popped_quiet he] at hcells hp hc
  refine ⟨?_, hcells, hp, hc⟩
  rw [ops_quiet he]
  exact h.run

theorem Inv.new [Inhabited T] : Inv C [] { ring := (new (.ofNat C) : SpscRing T) } [] 0 0 where
  run := .nil
  cells :=
    { mask_eq := rfl
      head_eq := rfl
      tail_eq := rfl
      cachedTail_eq := rfl
      cachedHead_eq := rfl
      cachedTail_le := le_refl 0
      room := Nat.zero_le _
      le_cachedHead := le_refl 0
      cachedHead_le := le_refl 0
      buf_eq := nofun }
  producer := trivial
  consumer := trivial

/-- **A step of the producer** keeps the invariant. -/
theorem Inv.producer_step (hC : IsCapacity C) {s : State T} (h : Inv C es s q ct ch) (v : T) :
    ∃ q' ct', Inv C (es ++ [(step s (.producer v)).1]) (step s (.producer v)).2 q' ct' ch := by
  obtain ⟨ring, producer, consumer⟩ := s
  have hcells : Cells C ring q (popped es).length ct ch := h.cells
  have hp : ProducerOk C ring ((popped es).length + q.length) ct es producer := h.producer
  have hc : ConsumerOk ring q (popped es).length ch es consumer := h.consumer
  cases producer with
  | idle => exact ⟨q, ct, h.quiet rfl hcells rfl (hc.other rfl (fun _ => id) rfl)⟩
  | check w head =>
    obtain rfl : head = ring.head := hp
    unfold step producerStep
    dsimp only
    split_ifs with hfull
    · exact ⟨q, ct, h.quiet rfl hcells rfl (hc.other rfl (fun _ => id) rfl)⟩
    · have hroom := Nat.lt_of_le_of_ne hcells.room (mt (hcells.full_iff hC).mpr hfull)
      exact ⟨q, ct, h.quiet rfl hcells ⟨rfl, hroom⟩ (hc.other rfl (fun _ => id) rfl)⟩
  | refresh w head =>
    -- the cached tail is now the tail itself
    have hcells' := hcells.refreshTail h.run.length_le
    exact ⟨q, _, h.quiet rfl hcells' ⟨hp, Since.now ⟨h.length_pushed, rfl⟩⟩
      (hc.other rfl (fun _ => id) rfl)⟩
  | recheck w head =>
    obtain ⟨rfl, -⟩ := hp
    unfold step producerStep
    dsimp only
    split_ifs with hfull
    · exact ⟨q, ct, h.quiet rfl hcells trivial (hc.other rfl (fun _ => id) rfl)⟩
    · have hroom := Nat.lt_of_le_of_ne hcells.room (mt (hcells.full_iff hC).mpr hfull)
      exact ⟨q, ct, h.quiet rfl hcells ⟨rfl, hroom⟩ (hc.other rfl (fun _ => id) rfl)⟩
  | copy w head =>
    obtain ⟨rfl, hroom⟩ := hp
    have hcells' := hcells.write hroom w
    rw [← hcells.slot_head hC] at hcells'
    refine ⟨q, ct, h.quiet rfl hcells' ⟨rfl, hroom, ?_⟩ (hc.other rfl (fun _ => id) rfl)⟩
    rw [← hcells.slot_head hC]
    exact Function.update_self _ _ _
  | store w head =>
    obtain ⟨rfl, hroom, hw⟩ := hp
    refine ⟨q ++ [w], ct, ?_, ?_, trivial, ?_⟩
    · rw [ops_append]
      exact h.run.snoc (.push (by have := hcells.cachedTail_le; omega))
    · rw [step, producerStep, popped_pushed]
      exact hcells.push hroom hw
    · rw [step, producerStep, popped_pushed]
      refine hc.other rfl (fun x hx => ?_) rfl
      rw [List.head?_append, hx]
      rfl

/-- **A step of the consumer** keeps the invariant. -/
theorem Inv.consumer_step (hC : IsCapacity C) {s : State T} (h : Inv C es s q ct ch) :
    ∃ q' ch', Inv C (es ++ [(step s .consumer).1]) (step s .consumer).2 q' ct ch' := by
  obtain ⟨ring, producer, consumer⟩ := s
  have hcells : Cells C ring q (popped es).length ct ch := h.cells
  have hp : ProducerOk C ring ((popped es).length + q.length) ct es producer := h.producer
  have hc : ConsumerOk ring q (popped es).length ch es consumer := h.consumer
  cases consumer with
  | idle => exact ⟨q, ch, h.quiet rfl hcells (hp.other rfl rfl rfl) rfl⟩
  | check tail =>
    obtain rfl : tail = ring.tail := hc
    unfold step consumerStep
    dsimp only
    split_ifs with hempty
    · exact ⟨q, ch, h.quiet rfl hcells (hp.other rfl rfl rfl) rfl⟩
    · have hlt := Nat.lt_of_le_of_ne hcells.le_cachedHead
        (mt (hcells.tail_eq_cachedHead_iff hC).mpr hempty)
      exact ⟨q, ch, h.quiet rfl hcells (hp.other rfl rfl rfl) ⟨rfl, hlt⟩⟩
  | refresh tail =>
    -- the cached head is now the head itself
    exact ⟨q, _, h.quiet rfl hcells.refreshHead (hp.other rfl rfl rfl)
      ⟨hc, Since.now ⟨h.length_pushed, rfl⟩⟩⟩
  | recheck tail =>
    obtain ⟨rfl, -⟩ := hc
    unfold step consumerStep
    dsimp only
    split_ifs with hempty
    · exact ⟨q, ch, h.quiet rfl hcells (hp.other rfl rfl rfl) trivial⟩
    · have hlt := Nat.lt_of_le_of_ne hcells.le_cachedHead
        (mt (hcells.tail_eq_cachedHead_iff hC).mpr hempty)
      exact ⟨q, ch, h.quiet rfl hcells (hp.other rfl rfl rfl) ⟨rfl, hlt⟩⟩
  | copy tail =>
    obtain ⟨rfl, hlt⟩ := hc
    refine ⟨q, ch, h.quiet rfl hcells (hp.other rfl rfl rfl) ⟨rfl, hlt, ?_⟩⟩
    have hch := hcells.cachedHead_le
    cases q with
    | nil =>
      rw [List.length_nil] at hch
      omega
    | cons x q =>
      have hx := hcells.buf_eq 0 x rfl
      rw [Nat.add_zero] at hx
      rw [List.head?_cons, hcells.slot_tail hC, hx]
  | store tail out =>
    obtain ⟨rfl, hlt, hout⟩ := hc
    obtain ⟨q, rfl⟩ := List.head?_eq_some_iff.mp hout
    have hlen : (popped (es ++ [.popped out])).length = (popped es).length + 1 := by
      rw [popped_popped, List.length_append, List.length_singleton]
    refine ⟨q, ch, ?_, ?_, ?_, trivial⟩
    · rw [ops_append]
      exact h.run.snoc .pop
    · rw [step, consumerStep, hlen]
      exact hcells.pop hlt
    · -- the number of values pushed is the same
      rw [step, consumerStep, hlen, Nat.add_right_comm]
      exact hp.other rfl rfl rfl

theorem Trace.inv [Inhabited T] (hC : IsCapacity C) {s : State T}
    (h : Trace (.ofNat C) es s) : ∃ q ct ch, Inv C es s q ct ch := by
  induction h with
  | new => exact ⟨[], 0, 0, .new⟩
  | step _ a ih =>
    obtain ⟨q, ct, ch, hinv⟩ := ih
    cases a with
    | producer v =>
      obtain ⟨q', ct', hinv'⟩ := hinv.producer_step hC v
      exact ⟨q', ct', ch, hinv'⟩
    | consumer =>
      obtain ⟨q', ch', hinv'⟩ := hinv.consumer_step hC
      exact ⟨q', ct, ch', hinv'⟩

/-! ### A bounded queue -/

theorem Inv.fifo {s : State T} (h : Inv C es s q ct ch) : popped es <+: pushed es :=
  ⟨q, h.run.pushes_eq.symm⟩

theorem Inv.outstanding_eq {s : State T} (h : Inv C es s q ct ch) : outstanding es = q.length := by
  unfold outstanding
  rw [h.length_pushed, Nat.add_sub_cancel_left]

/-- A push is only ever refused after the second test. -/
theorem producerStep_full {v : T} {x : Producer T} (h : (r.producerStep v x).1 = .full) :
    ∃ w head, x = .recheck w head ∧ r.full head = true := by
  cases x with
  | idle | refresh | copy | store => nomatch h
  | check w head =>
    unfold producerStep at h
    dsimp only at h
    split_ifs at h
  | recheck w head =>
    unfold producerStep at h
    dsimp only at h
    split_ifs at h with hfull
    exact ⟨w, head, rfl, hfull⟩

theorem producerStep_ne_empty {v : T} {x : Producer T} : (r.producerStep v x).1 ≠ .empty := by
  intro h
  cases x with
  | idle | refresh | copy | store => nomatch h
  | check w head | recheck w head =>
    unfold producerStep at h
    dsimp only at h
    split_ifs at h

/-- A pop is only ever refused after the second test. -/
theorem consumerStep_empty {x : Consumer T} (h : (r.consumerStep x).1 = .empty) :
    ∃ tail, x = .recheck tail ∧ tail = r.cachedHead := by
  cases x with
  | idle | refresh | copy | store => nomatch h
  | check tail =>
    unfold consumerStep at h
    dsimp only at h
    split_ifs at h
  | recheck tail =>
    unfold consumerStep at h
    dsimp only at h
    split_ifs at h with hempty
    exact ⟨tail, rfl, hempty⟩

theorem consumerStep_ne_full {x : Consumer T} : (r.consumerStep x).1 ≠ .full := by
  intro h
  cases x with
  | idle | refresh | copy | store => nomatch h
  | check tail | recheck tail =>
    unfold consumerStep at h
    dsimp only at h
    split_ifs at h

/-- A push that fails found the queue full when it refreshed the cached tail. -/
theorem Inv.full_step (hC : IsCapacity C) {s : State T} (h : Inv C es s q ct ch) {a : Action T}
    (he : (step s a).1 = .full) :
    Since Event.byProducer .refreshTail es fun before => outstanding before = C := by
  cases a with
  | consumer => exact absurd he consumerStep_ne_full
  | producer v =>
    obtain ⟨w, head, hx, hfull⟩ := producerStep_full he
    have hp := h.producer
    rw [hx] at hp
    obtain ⟨rfl, hsince⟩ := hp
    have hn := (h.cells.full_iff hC).mp hfull
    apply hsince.mono
    intro before hbefore
    unfold outstanding
    omega

/-- A pop that fails found the queue empty when it refreshed the cached head. -/
theorem Inv.empty_step (hC : IsCapacity C) {s : State T} (h : Inv C es s q ct ch) {a : Action T}
    (he : (step s a).1 = .empty) :
    Since Event.byConsumer .refreshHead es fun before => outstanding before = 0 := by
  cases a with
  | producer v => exact absurd he producerStep_ne_empty
  | consumer =>
    obtain ⟨tail, hx, hempty⟩ := consumerStep_empty he
    have hc := h.consumer
    rw [hx] at hc
    obtain ⟨rfl, hsince⟩ := hc
    have hp := (h.cells.tail_eq_cachedHead_iff hC).mp hempty
    apply hsince.mono
    intro before hbefore
    unfold outstanding
    omega

/-- What is so of the last event of every run is so of each event. -/
theorem snoc_split {α : Type} {es pre post : List α} {e x : α}
    (h : es ++ [e] = pre ++ x :: post) : (es = pre ∧ e = x) ∨ ∃ post', es = pre ++ x :: post' := by
  rcases List.eq_nil_or_concat post with rfl | ⟨post', y, rfl⟩
  · obtain ⟨hes, he⟩ := List.append_inj' h rfl
    exact Or.inl ⟨hes, (List.cons.inj he).1⟩
  · rw [List.concat_eq_append, ← List.cons_append, ← List.append_assoc] at h
    exact Or.inr ⟨post', (List.append_inj' h rfl).1⟩

/-- The two parties never copy to and from the same element at once. -/
theorem Inv.slot_ne (hC : IsCapacity C) {s : State T} (h : Inv C es s q ct ch) {v : T}
    {head tail : UInt64} (hp : s.producer = .copy v head) (hc : s.consumer = .copy tail) :
    s.ring.slot head ≠ s.ring.slot tail := by
  have hprod := h.producer
  have hcons := h.consumer
  rw [hp] at hprod
  rw [hc] at hcons
  obtain ⟨rfl, hroom⟩ := hprod
  obtain ⟨rfl, hlt⟩ := hcons
  have hch := h.cells.cachedHead_le
  have hct := h.cells.cachedTail_le
  rw [h.cells.slot_head hC, h.cells.slot_tail hC]
  exact (mod_ne_of_lt (by omega) (by omega)).symm

/-- **The ring is a bounded queue** in every run, whatever the order in which the two parties take
their steps. -/
theorem Trace.boundedFifo [Inhabited T] (hC : IsCapacity C) {s : State T}
    (h : Trace (.ofNat C) es s) :
    BoundedFifo C es ∧ ∀ v head tail, s.producer = .copy v head → s.consumer = .copy tail →
      s.ring.slot head ≠ s.ring.slot tail := by
  constructor
  · induction h with
    | new => exact ⟨List.prefix_rfl, Nat.zero_le C, by simp, by simp⟩
    | @step es s h a ih =>
      obtain ⟨q, ct, ch, hinv⟩ := h.inv hC
      obtain ⟨q', ct', ch', hinv'⟩ := (h.step a).inv hC
      constructor
      · exact hinv'.fifo
      · rw [hinv'.outstanding_eq]
        exact hinv'.run.length_le
      · intro pre post hes
        rcases snoc_split hes with ⟨rfl, he⟩ | ⟨post', hes'⟩
        · exact hinv.full_step hC he
        · exact ih.full pre post' hes'
      · intro pre post hes
        rcases snoc_split hes with ⟨rfl, he⟩ | ⟨post', hes'⟩
        · exact hinv.empty_step hC he
        · exact ih.empty pre post' hes'
  · obtain ⟨q, ct, ch, hinv⟩ := h.inv hC
    exact fun v head tail hp hc => hinv.slot_ne hC hp hc

/-- A push and a pop, in a ring of two elements. -/
theorem pushPop_boundedFifo : ∃ (es : List (Event ℕ)) (s : State ℕ), Trace (.ofNat 2) es s ∧
    popped es = [7] ∧ BoundedFifo 2 es ∧
      ∀ v head tail, s.producer = .copy v head → s.consumer = .copy tail →
        s.ring.slot head ≠ s.ring.slot tail := by
  -- a call that succeeds at once takes four steps
  have hnew : Trace (.ofNat 2) [] ({ ring := new (.ofNat 2) } : State ℕ) := .new
  have hpush := (((hnew.step (.producer 7)).step (.producer 7)).step (.producer 7)).step
    (.producer 7)
  have hpop := (((((hpush.step .consumer).step .consumer).step .consumer).step .consumer).step
    .consumer).step .consumer
  exact ⟨_, _, hpop, rfl, hpop.boundedFifo ⟨1, by decide, by decide, rfl⟩⟩

end Lob.SpscRing
