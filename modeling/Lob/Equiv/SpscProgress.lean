import Lob.General.Fairness
import Lob.Equiv.SpscRing

/-!
# Progress of the round trip

Under every fair schedule the two threads of a round trip come to an end, with all values received
in their order (`RoundTrip.delivers`).

While a value is in the ring the consumer is the helpful thread, and otherwise the producer.  A call
of the helpful thread can still fail, when it has loaded the cursor of the other side too early, but
its next call does not.  So `consumerDistance` and `producerDistance` count the steps to the return
of a call that succeeds, and no step of the other thread changes them.
-/

namespace Lob.SpscRing

variable {T : Type} {C ct ch : ℕ} {q : List T} {es : List (Event T)} {s : State T}

/-! ### The distance to success -/

/-- The steps of the consumer to the end of a successful call, if a value is in the ring. -/
def consumerDistance (s : State T) : ℕ :=
  match s.consumer with
  | .idle => if s.ring.tail = s.ring.cachedHead then 6 else 4
  | .check tail => if tail = s.ring.cachedHead then 5 else 3
  | .refresh _ => 4
  | .recheck tail => if tail = s.ring.cachedHead then 7 else 3
  | .copy _ => 2
  | .store _ _ => 1

/-- The steps of the producer to the end of a successful call, if no value is in the ring. -/
def producerDistance (s : State T) : ℕ :=
  match s.producer with
  | .idle => if s.ring.full s.ring.head then 6 else 4
  | .check _ head => if s.ring.full head then 5 else 3
  | .refresh _ _ => 4
  | .recheck _ head => if s.ring.full head then 7 else 3
  | .copy _ _ => 2
  | .store _ _ => 1

theorem consumerDistance_le (s : State T) : consumerDistance s ≤ 7 := by
  unfold consumerDistance
  cases s.consumer with
  | idle | check | recheck => dsimp only; split_ifs <;> decide
  | refresh | copy | store => dsimp only; decide

theorem producerDistance_le (s : State T) : producerDistance s ≤ 7 := by
  unfold producerDistance
  cases s.producer with
  | idle | check | recheck => dsimp only; split_ifs <;> decide
  | refresh | copy | store => dsimp only; decide

/-- The producer leaves alone what the consumer has loaded. -/
theorem consumerDistance_producer (s : State T) (v : T) :
    consumerDistance (step s (.producer v)).2 = consumerDistance s := by
  obtain ⟨ring, producer, consumer⟩ := s
  unfold step producerStep
  cases producer with
  | check w head | recheck w head => dsimp only; split_ifs <;> rfl
  | idle | refresh | copy | store => rfl

/-- The consumer leaves alone what the producer has loaded. -/
theorem producerDistance_consumer (s : State T) :
    producerDistance (step s .consumer).2 = producerDistance s := by
  obtain ⟨ring, producer, consumer⟩ := s
  unfold step consumerStep
  cases consumer with
  | check tail | recheck tail => dsimp only; split_ifs <;> rfl
  | idle | refresh | copy | store => rfl

/-- **The consumer is a step nearer**, if a value is in the ring. -/
theorem Inv.consumer_nearer (hC : IsCapacity C) (h : Inv C es s q ct ch) (hq : q ≠ []) :
    (∃ v, (step s .consumer).1 = .popped v) ∨ (step s .consumer).1.op = none ∧
      consumerDistance (step s .consumer).2 < consumerDistance s := by
  obtain ⟨ring, producer, consumer⟩ := s
  have hcells : Cells C ring q (popped es).length ct ch := h.cells
  have hc : ConsumerOk ring q (popped es).length ch es consumer := h.consumer
  cases consumer with
  | idle =>
    refine Or.inr ⟨rfl, ?_⟩
    unfold step consumerStep consumerDistance
    dsimp only
    split_ifs <;> decide
  | check tail =>
    by_cases hempty : tail = ring.cachedHead
    · have hdist : consumerDistance ⟨ring, producer, .check tail⟩ = 5 := if_pos hempty
      have hstep : step ⟨ring, producer, .check tail⟩ .consumer =
          (.silent, ⟨ring, producer, .refresh tail⟩) := by
        unfold step consumerStep
        dsimp only
        rw [if_pos hempty]
      rw [hstep, hdist]
      exact Or.inr ⟨rfl, show 4 < 5 by decide⟩
    · have hdist : consumerDistance ⟨ring, producer, .check tail⟩ = 3 := if_neg hempty
      have hstep : step ⟨ring, producer, .check tail⟩ .consumer =
          (.silent, ⟨ring, producer, .copy tail⟩) := by
        unfold step consumerStep
        dsimp only
        rw [if_neg hempty]
      rw [hstep, hdist]
      exact Or.inr ⟨rfl, show 2 < 3 by decide⟩
  | refresh tail =>
    obtain rfl : tail = ring.tail := hc
    refine Or.inr ⟨rfl, ?_⟩
    -- the head is past the tail
    have hne : ring.tail ≠ ring.head := fun heq => by
      have hlt := List.length_pos_of_ne_nil hq
      have := (hcells.refreshHead.tail_eq_cachedHead_iff hC).mp heq
      omega
    show (if ring.tail = ring.head then 7 else 3) < 4
    rw [if_neg hne]
    decide
  | recheck tail =>
    obtain ⟨rfl, -⟩ := hc
    by_cases hempty : ring.tail = ring.cachedHead
    · -- the call fails
      have hdist : consumerDistance ⟨ring, producer, .recheck ring.tail⟩ = 7 := if_pos hempty
      have hnext : consumerDistance ⟨ring, producer, .idle⟩ = 6 := if_pos hempty
      have hstep : step ⟨ring, producer, .recheck ring.tail⟩ .consumer =
          (.empty, ⟨ring, producer, .idle⟩) := by
        unfold step consumerStep
        dsimp only
        rw [if_pos hempty]
      rw [hstep, hdist]
      exact Or.inr ⟨rfl, by rw [hnext]; decide⟩
    · have hdist : consumerDistance ⟨ring, producer, .recheck ring.tail⟩ = 3 := if_neg hempty
      have hstep : step ⟨ring, producer, .recheck ring.tail⟩ .consumer =
          (.silent, ⟨ring, producer, .copy ring.tail⟩) := by
        unfold step consumerStep
        dsimp only
        rw [if_neg hempty]
      rw [hstep, hdist]
      exact Or.inr ⟨rfl, show 2 < 3 by decide⟩
  | copy tail => exact Or.inr ⟨rfl, show 1 < 2 by decide⟩
  | store tail out => exact Or.inl ⟨out, rfl⟩

/-- **The producer is a step nearer**, if no value is in the ring. -/
theorem Inv.producer_nearer (hC : IsCapacity C) (h : Inv C es s [] ct ch) (v : T) :
    (∃ w, (step s (.producer v)).1 = .pushed w) ∨ (step s (.producer v)).1.op = none ∧
      producerDistance (step s (.producer v)).2 < producerDistance s := by
  obtain ⟨ring, producer, consumer⟩ := s
  have hcells : Cells C ring [] (popped es).length ct ch := h.cells
  have hp : ProducerOk C ring ((popped es).length + 0) ct es producer := h.producer
  cases producer with
  | idle =>
    refine Or.inr ⟨rfl, ?_⟩
    unfold step producerStep producerDistance
    dsimp only
    split_ifs <;> decide
  | check w head =>
    by_cases hfull : ring.full head = true
    · have hdist : producerDistance ⟨ring, .check w head, consumer⟩ = 5 := if_pos hfull
      have hstep : step ⟨ring, .check w head, consumer⟩ (.producer v) =
          (.silent, ⟨ring, .refresh w head, consumer⟩) := by
        unfold step producerStep
        dsimp only
        rw [if_pos hfull]
      rw [hstep, hdist]
      exact Or.inr ⟨rfl, show 4 < 5 by decide⟩
    · have hdist : producerDistance ⟨ring, .check w head, consumer⟩ = 3 := if_neg hfull
      have hstep : step ⟨ring, .check w head, consumer⟩ (.producer v) =
          (.silent, ⟨ring, .copy w head, consumer⟩) := by
        unfold step producerStep
        dsimp only
        rw [if_neg hfull]
      rw [hstep, hdist]
      exact Or.inr ⟨rfl, show 2 < 3 by decide⟩
  | refresh w head =>
    obtain rfl : head = ring.head := hp
    refine Or.inr ⟨rfl, ?_⟩
    -- the cached tail is now that of an empty ring
    have hnot : ¬({ ring with cachedTail := ring.tail } : SpscRing T).full ring.head = true :=
      fun hfull => by
        have htwo := hC.two_le
        have := ((hcells.refreshTail (Nat.zero_le C)).full_iff hC).mp hfull
        rw [List.length_nil] at this
        omega
    show (if ({ ring with cachedTail := ring.tail } : SpscRing T).full ring.head then 7 else 3) < 4
    rw [if_neg hnot]
    decide
  | recheck w head =>
    obtain ⟨rfl, -⟩ := hp
    by_cases hfull : ring.full ring.head = true
    · -- the call fails
      have hdist : producerDistance ⟨ring, .recheck w ring.head, consumer⟩ = 7 := if_pos hfull
      have hnext : producerDistance ⟨ring, .idle, consumer⟩ = 6 := if_pos hfull
      have hstep : step ⟨ring, .recheck w ring.head, consumer⟩ (.producer v) =
          (.full, ⟨ring, .idle, consumer⟩) := by
        unfold step producerStep
        dsimp only
        rw [if_pos hfull]
      rw [hstep, hdist]
      exact Or.inr ⟨rfl, by rw [hnext]; decide⟩
    · have hdist : producerDistance ⟨ring, .recheck w ring.head, consumer⟩ = 3 := if_neg hfull
      have hstep : step ⟨ring, .recheck w ring.head, consumer⟩ (.producer v) =
          (.silent, ⟨ring, .copy w ring.head, consumer⟩) := by
        unfold step producerStep
        dsimp only
        rw [if_neg hfull]
      rw [hstep, hdist]
      exact Or.inr ⟨rfl, show 2 < 3 by decide⟩
  | copy w head => exact Or.inr ⟨rfl, show 1 < 2 by decide⟩
  | store w head => exact Or.inl ⟨w, rfl⟩

/-! ### The steps of the threads -/

/-- The value of the call that the producer is in. -/
def Producer.value : Producer T → Option T
  | .idle => none
  | .check v _ | .refresh v _ | .recheck v _ | .copy v _ | .store v _ => some v

theorem producer_event (s : State T) (v : T) :
    (∃ w, (step s (.producer v)).1 = .pushed w ∧ s.producer.value = some w ∧
      (step s (.producer v)).2.producer = .idle) ∨ (step s (.producer v)).1.op = none := by
  obtain ⟨ring, producer, consumer⟩ := s
  cases producer with
  | store w head => exact Or.inl ⟨w, rfl, rfl, rfl⟩
  | check w head | recheck w head =>
    refine Or.inr ?_
    unfold step producerStep
    dsimp only
    split_ifs <;> rfl
  | idle | refresh | copy => exact Or.inr rfl

theorem consumer_event (s : State T) :
    (∃ v, (step s .consumer).1 = .popped v ∧ (step s .consumer).2.consumer = .idle) ∨
      (step s .consumer).1.op = none := by
  obtain ⟨ring, producer, consumer⟩ := s
  cases consumer with
  | store tail out => exact Or.inl ⟨out, rfl, rfl⟩
  | check tail | recheck tail =>
    refine Or.inr ?_
    unfold step consumerStep
    dsimp only
    split_ifs <;> rfl
  | idle | refresh | copy => exact Or.inr rfl

/-- The producer stays in its call, returns, or makes one with the value `v`. -/
theorem producer_value {v : T} (h : ∀ w, s.producer.value = some w → w = v) :
    ∀ w, (step s (.producer v)).2.producer.value = some w → w = v := by
  obtain ⟨ring, producer, consumer⟩ := s
  cases producer with
  | idle => exact fun w hw => (Option.some.inj hw).symm
  | store => exact nofun
  | refresh | copy => exact h
  | check | recheck =>
    unfold step producerStep
    dsimp only
    split_ifs
    all_goals first | exact h | exact nofun

namespace RoundTrip

variable {n : ℕ} {x : RoundTrip T} {v : T} {vs values : List T}

theorem turn_pushed {w : T} (hx : x.todo = v :: vs)
    (he : (step x.state (.producer v)).1 = .pushed w) :
    turn n x .producer = { x with state := (step x.state (.producer v)).2, todo := vs } := by
  unfold turn
  rw [hx]
  dsimp only
  rw [← Prod.mk.eta (p := step x.state (.producer v)), he]

theorem turn_producer_quiet (hx : x.todo = v :: vs)
    (he : (step x.state (.producer v)).1.op = none) :
    turn n x .producer = { x with state := (step x.state (.producer v)).2 } := by
  unfold turn
  rw [hx]
  dsimp only
  split
  · next heq =>
    rw [heq] at he
    cases he
  · next heq => rw [heq]

theorem turn_popped (hx : x.received.length < n) (he : (step x.state .consumer).1 = .popped v) :
    turn n x .consumer =
      { x with state := (step x.state .consumer).2, received := x.received ++ [v] } := by
  unfold turn
  dsimp only
  rw [if_pos hx, ← Prod.mk.eta (p := step x.state .consumer), he]

theorem turn_consumer_quiet (hx : x.received.length < n)
    (he : (step x.state .consumer).1.op = none) :
    turn n x .consumer = { x with state := (step x.state .consumer).2 } := by
  unfold turn
  dsimp only
  rw [if_pos hx]
  split
  · next heq =>
    rw [heq] at he
    cases he
  · next heq => rw [heq]

/-! ### The invariant -/

/-- What has been received, what is in the ring and what is to be pushed are the values. -/
structure Ok (C : ℕ) (values : List T) (x : RoundTrip T) (es : List (Event T)) (q : List T)
    (ct ch : ℕ) : Prop where
  inv : Inv C es x.state q ct ch
  received_eq : popped es = x.received
  values_eq : values = pushed es ++ x.todo
  next : ∀ v, x.state.producer.value = some v → x.todo.head? = some v
  ended : values.length ≤ x.received.length → x.state.consumer = .idle

theorem Ok.start [Inhabited T] (C : ℕ) (values : List T) :
    Ok C values (start (.ofNat C) values) [] [] 0 0 where
  inv := Inv.new
  received_eq := rfl
  values_eq := rfl
  next := nofun
  ended _ := rfl

theorem Ok.split (h : Ok C values x es q ct ch) : values = x.received ++ q ++ x.todo := by
  have hfifo : pushed es = popped es ++ q := h.inv.run.pushes_eq
  rw [h.values_eq, hfifo, h.received_eq]

/-- **A turn keeps the invariant.** -/
theorem Ok.turn (hC : IsCapacity C) (h : Ok C values x es q ct ch) (t : Thread) :
    ∃ es' q' ct' ch', Ok C values (turn values.length x t) es' q' ct' ch' := by
  cases t with
  | producer =>
    cases hx : x.todo with
    | nil =>
      have hstop : RoundTrip.turn values.length x .producer = x := by
        unfold RoundTrip.turn
        rw [hx]
      rw [hstop]
      exact ⟨es, q, ct, ch, h⟩
    | cons v vs =>
      have hnext : ∀ w, x.state.producer.value = some w → w = v := fun w hw => by
        have hhead := h.next w hw
        rw [hx] at hhead
        exact (Option.some.inj hhead).symm
      have hconsumer : (step x.state (.producer v)).2.consumer = x.state.consumer := rfl
      obtain ⟨q', ct', hinv⟩ := h.inv.producer_step hC v
      rcases producer_event x.state v with ⟨w, he, hw, hidle⟩ | he
      · obtain rfl := hnext w hw
        rw [turn_pushed hx he]
        rw [he] at hinv
        refine ⟨_, q', ct', ch, hinv, ?_, ?_, ?_, h.ended⟩
        · rw [popped_pushed]
          exact h.received_eq
        · have hpushed : pushed (es ++ [.pushed w]) = pushed es ++ [w] := by
            rw [pushed_append]
            rfl
          rw [hpushed, h.values_eq, hx, List.append_assoc]
          rfl
        · show ∀ v', (step x.state (.producer w)).2.producer.value = some v' → _
          rw [hidle]
          exact nofun
      · rw [turn_producer_quiet hx he]
        refine ⟨_, q', ct', ch, hinv, ?_, ?_, ?_, h.ended⟩
        · rw [popped_quiet he]
          exact h.received_eq
        · unfold pushed
          rw [ops_quiet he]
          exact h.values_eq
        · intro w hw
          rw [producer_value hnext w hw, hx]
          rfl
  | consumer =>
    by_cases hx : x.received.length < values.length
    · obtain ⟨q', ch', hinv⟩ := h.inv.consumer_step hC
      rcases consumer_event x.state with ⟨v, he, hidle⟩ | he
      · rw [turn_popped hx he]
        rw [he] at hinv
        refine ⟨_, q', ct, ch', hinv, ?_, ?_, h.next, fun _ => hidle⟩
        · rw [popped_popped, h.received_eq]
        · have hpushed : pushed (es ++ [.popped v]) = pushed es := by
            rw [pushed_append]
            exact List.append_nil _
          rw [hpushed]
          exact h.values_eq
      · rw [turn_consumer_quiet hx he]
        refine ⟨_, q', ct, ch', hinv, ?_, ?_, h.next, fun hle => absurd hx hle.not_gt⟩
        · rw [popped_quiet he]
          exact h.received_eq
        · unfold pushed
          rw [ops_quiet he]
          exact h.values_eq
    · have hstop : RoundTrip.turn values.length x .consumer = x := if_neg hx
      rw [hstop]
      exact ⟨es, q, ct, ch, h⟩

/-! ### The rank -/

/-- The thread that is to act for the next value to be received. -/
def helpful (n : ℕ) (x : RoundTrip T) : Thread :=
  if x.todo.length < n - x.received.length then .consumer else .producer

/-- The steps of that thread to the end of a successful call. -/
def distance (n : ℕ) (x : RoundTrip T) : ℕ :=
  if x.todo.length < n - x.received.length then consumerDistance x.state
  else if x.todo = [] then 0
  else producerDistance x.state

/-- Each value is to be pushed and to be received. -/
def rank (n : ℕ) (x : RoundTrip T) : ℕ :=
  8 * (x.todo.length + (n - x.received.length)) + distance n x

theorem distance_le (n : ℕ) (x : RoundTrip T) : distance n x ≤ 7 := by
  unfold distance
  split_ifs
  · exact consumerDistance_le _
  · exact Nat.zero_le 7
  · exact producerDistance_le _

/-- A value is in the ring if and only if the consumer is to act. -/
theorem Ok.lt_iff (h : Ok C values x es q ct ch) :
    x.todo.length < values.length - x.received.length ↔ q ≠ [] := by
  have hlen := congrArg List.length h.split
  rw [List.length_append, List.length_append] at hlen
  rw [← List.length_pos_iff_ne_nil]
  omega

/-- A value that has been pushed, or received, is one operation less. -/
theorem rank_lt {x' : RoundTrip T} (h : x'.todo.length + (n - x'.received.length) + 1 ≤
    x.todo.length + (n - x.received.length)) : rank n x' < rank n x := by
  have hle := distance_le n x'
  unfold rank
  omega

theorem distance_of_lt (h : x.todo.length < n - x.received.length) :
    distance n x = consumerDistance x.state ∧ helpful n x = .consumer := ⟨if_pos h, if_pos h⟩

theorem distance_of_not_lt (h : ¬x.todo.length < n - x.received.length) (hx : x.todo ≠ []) :
    distance n x = producerDistance x.state ∧ helpful n x = .producer := by
  unfold distance helpful
  rw [if_neg h, if_neg h, if_neg hx]
  exact ⟨rfl, rfl⟩

/-- **Every turn counts down, or leaves it to the helpful thread.** -/
theorem Ok.turn_cases (hC : IsCapacity C) (h : Ok C values x es q ct ch) (t : Thread) :
    rank values.length (RoundTrip.turn values.length x t) < rank values.length x ∨
      rank values.length (RoundTrip.turn values.length x t) = rank values.length x ∧
        helpful values.length (RoundTrip.turn values.length x t) = helpful values.length x ∧
        (0 < rank values.length x → t ≠ helpful values.length x) := by
  have hlen := congrArg List.length h.split
  rw [List.length_append, List.length_append] at hlen
  cases t with
  | producer =>
    cases hx : x.todo with
    | nil =>
      have hstop : RoundTrip.turn values.length x .producer = x := by
        unfold RoundTrip.turn
        rw [hx]
      rw [hstop]
      refine Or.inr ⟨rfl, rfl, fun hpos => ?_⟩
      by_cases hlt : x.todo.length < values.length - x.received.length
      · rw [(distance_of_lt hlt).2]
        exact nofun
      · -- nothing is left to be done
        have hzero : distance values.length x = 0 := by
          unfold distance
          rw [if_neg hlt, if_pos hx]
        rw [hx, List.length_nil] at hlt
        unfold rank at hpos
        rw [hx, hzero, List.length_nil] at hpos
        omega
    | cons v vs =>
      have hne : x.todo ≠ [] := by simp [hx]
      rcases producer_event x.state v with ⟨w, he, -⟩ | he
      · rw [turn_pushed hx he]
        refine Or.inl (rank_lt ?_)
        rw [hx, List.length_cons]
        exact (Nat.add_right_comm ..).le
      · rw [turn_producer_quiet hx he]
        by_cases hlt : x.todo.length < values.length - x.received.length
        · obtain ⟨hdist, hhelp⟩ := distance_of_lt hlt
          have hlt' : { x with state := (step x.state (.producer v)).2 }.todo.length <
              values.length - x.received.length := hlt
          obtain ⟨hdist', hhelp'⟩ := distance_of_lt hlt'
          refine Or.inr ⟨?_, hhelp'.trans hhelp.symm, fun _ => by rw [hhelp]; exact nofun⟩
          unfold rank
          rw [hdist, hdist']
          exact congrArg _ (consumerDistance_producer x.state v)
        · obtain rfl : q = [] := not_not.mp (mt h.lt_iff.mpr hlt)
          have hlt' : ¬{ x with state := (step x.state (.producer v)).2 }.todo.length <
              values.length - x.received.length := hlt
          refine Or.inl ?_
          unfold rank
          rw [(distance_of_not_lt hlt hne).1, (distance_of_not_lt hlt' hne).1]
          rcases h.inv.producer_nearer hC v with ⟨w, hw⟩ | ⟨-, hnear⟩
          · rw [hw] at he
            cases he
          · exact Nat.add_lt_add_left hnear _
  | consumer =>
    by_cases hroom : x.received.length < values.length
    · rcases consumer_event x.state with ⟨v, he, -⟩ | he
      · rw [turn_popped hroom he]
        refine Or.inl (rank_lt ?_)
        show x.todo.length + (values.length - (x.received ++ [v]).length) + 1 ≤ _
        rw [List.length_append, List.length_singleton]
        omega
      · rw [turn_consumer_quiet hroom he]
        by_cases hlt : x.todo.length < values.length - x.received.length
        · have hlt' : { x with state := (step x.state .consumer).2 }.todo.length <
              values.length - x.received.length := hlt
          refine Or.inl ?_
          unfold rank
          rw [(distance_of_lt hlt).1, (distance_of_lt hlt').1]
          rcases h.inv.consumer_nearer hC (h.lt_iff.mp hlt) with ⟨w, hw⟩ | ⟨-, hnear⟩
          · rw [hw] at he
            cases he
          · exact Nat.add_lt_add_left hnear _
        · have hne : x.todo ≠ [] := fun hnil => hlt (by rw [hnil, List.length_nil]; omega)
          have hlt' : ¬{ x with state := (step x.state .consumer).2 }.todo.length <
              values.length - x.received.length := hlt
          obtain ⟨hdist, hhelp⟩ := distance_of_not_lt hlt hne
          obtain ⟨hdist', hhelp'⟩ := distance_of_not_lt hlt' hne
          refine Or.inr ⟨?_, hhelp'.trans hhelp.symm, fun _ => by rw [hhelp]; exact nofun⟩
          unfold rank
          rw [hdist, hdist']
          exact congrArg _ (producerDistance_consumer x.state)
    · have hstop : RoundTrip.turn values.length x .consumer = x := if_neg hroom
      rw [hstop]
      refine Or.inr ⟨rfl, rfl, fun hpos => ?_⟩
      have hnot : ¬x.todo.length < values.length - x.received.length := by omega
      have hnil : x.todo = [] := List.length_eq_zero_iff.mp (by omega)
      have hzero : distance values.length x = 0 := by
        unfold distance
        rw [if_neg hnot, if_pos hnil]
      unfold rank at hpos
      rw [hnil, hzero, List.length_nil] at hpos
      omega

/-! ### Runs -/

theorem progress (hC : IsCapacity C) (values : List T) :
    Fairness.Progress (turn values.length) (fun x => ∃ es q ct ch, Ok C values x es q ct ch)
      (rank values.length) (helpful values.length) where
  keeps := fun x t ⟨_, _, _, _, h⟩ => h.turn hC t
  helps := fun x ⟨_, _, _, _, h⟩ hpos => by
    rcases h.turn_cases hC (helpful values.length x) with hlt | ⟨-, -, hne⟩
    · exact hlt
    · exact absurd rfl (hne hpos)
  waits := fun x t ⟨_, _, _, _, h⟩ =>
    (h.turn_cases hC t).imp_right fun ⟨hrank, hhelp, _⟩ => ⟨hrank, hhelp⟩

theorem Ok.delivered (h : Ok C values x es q ct ch) (hrank : rank values.length x = 0) :
    Delivered values x := by
  have hlen := congrArg List.length h.split
  rw [List.length_append, List.length_append] at hlen
  unfold rank at hrank
  have hq : q = [] := List.length_eq_zero_iff.mp (by omega)
  have htodo : x.todo = [] := List.length_eq_zero_iff.mp (by omega)
  have hsplit := h.split
  rw [hq, htodo, List.append_nil, List.append_nil] at hsplit
  refine ⟨hsplit.symm, htodo, ?_, h.ended (by omega)⟩
  -- a producer in a call has a value to push
  cases hp : x.state.producer with
  | idle => rfl
  | check v head | refresh v head | recheck v head | copy v head | store v head =>
    have hnext := h.next v (by rw [hp]; rfl)
    rw [htodo] at hnext
    cases hnext

theorem rank_start [Inhabited T] (C : ℕ) (values : List T) :
    rank values.length (start (.ofNat C) values) ≤ 16 * values.length + 7 := by
  have hle := distance_le values.length (start (.ofNat C) values)
  have hlen : (start (.ofNat C) values).todo.length + (values.length -
      (start (.ofNat C) values).received.length) = 2 * values.length :=
    (Nat.two_mul values.length).symm
  unfold rank
  omega

/-- **The round trip comes to an end.**  Under every fair schedule, from some turn on, both loops
have ended and exactly the values have been received, in their order; and if every thread has a turn
among any `w` turns, at most 16 of these are needed for each value, and 7 for all. -/
theorem delivers [Inhabited T] (hC : IsCapacity C) (values : List T) (sched : ℕ → Thread) :
    (Fairness.Fair sched → ∃ n, ∀ m, n ≤ m →
      Delivered values (Fairness.run (turn values.length) sched (start (.ofNat C) values) m)) ∧
    ∀ w, Fairness.Prompt w sched → ∀ m, w * (16 * values.length + 7) ≤ m →
      Delivered values (Fairness.run (turn values.length) sched (start (.ofNat C) values) m) := by
  have hstart : ∃ es q ct ch, Ok C values (start (.ofNat C) values) es q ct ch :=
    ⟨_, _, _, _, Ok.start C values⟩
  have hdone : ∀ m, rank values.length
      (Fairness.run (turn values.length) sched (start (.ofNat C) values) m) = 0 →
      Delivered values (Fairness.run (turn values.length) sched (start (.ofNat C) values) m) :=
    fun m hm => by
      obtain ⟨_, _, _, _, h⟩ := (progress hC values).run_keeps hstart m
      exact h.delivered hm
  constructor
  · intro hfair
    obtain ⟨n, hn⟩ := (progress hC values).ends hfair hstart
    exact ⟨n, fun m hm => hdone m (hn m hm)⟩
  · intro w hprompt m hm
    refine hdone m ((progress hC values).ends_within hprompt hstart (le_trans ?_ hm))
    exact Nat.mul_le_mul_left w (rank_start C values)

/-- The two threads take turns. -/
def alternate (n : ℕ) : Thread := if n % 2 = 0 then .producer else .consumer

theorem alternate_prompt : Fairness.Prompt 2 alternate := by
  have hturn : ∀ t n, alternate n = t ∨ alternate (n + 1) = t := fun t n => by
    unfold alternate
    rcases Nat.mod_two_eq_zero_or_one n with h | h
    · rw [if_pos h, if_neg (show ¬(n + 1) % 2 = 0 by omega)]
      cases t <;> simp
    · rw [if_neg (show ¬n % 2 = 0 by omega), if_pos (show (n + 1) % 2 = 0 by omega)]
      cases t <;> simp
  intro t n
  rcases hturn t n with h | h
  · exact ⟨0, by decide, h⟩
  · exact ⟨1, by decide, h⟩

theorem alternate_delivers :
    (∃ n, ∀ m, n ≤ m → Delivered [5, 6, 7]
      (Fairness.run (turn 3) alternate (start (.ofNat 2) [5, 6, 7]) m)) ∧
    ∀ m, 110 ≤ m → Delivered [5, 6, 7]
      (Fairness.run (turn 3) alternate (start (.ofNat 2) [5, 6, 7]) m) := by
  have hC : IsCapacity 2 := ⟨1, by decide, by decide, rfl⟩
  obtain ⟨hfair, hprompt⟩ := delivers hC [5, 6, 7] alternate
  exact ⟨hfair alternate_prompt.fair, hprompt 2 alternate_prompt⟩

end RoundTrip

end Lob.SpscRing
