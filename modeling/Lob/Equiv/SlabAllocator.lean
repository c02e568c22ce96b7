import Mathlib.Data.List.Range
import Mathlib.Data.List.Perm.Subperm
import Lob.SlabAllocator
import Lob.General.Linked

/-!
# Correctness of `SlabAllocator`

`FreeList s fl` says that the free list of the slab is `fl` and that it consists of exactly the
slots that are not handed out, each once.  The constructor makes a slab unless the size of its block
wraps around (`construct_eq_ok_iff`), and a fresh slab has the free list `0, 1, …, capacity - 1`
(`new_freeList`); `allocate` takes the first slot of the list (`FreeList.allocate_cons`), or
fails when there is none (`FreeList.allocate_nil`); `deallocate` of a slot that is handed out
puts it in front (`FreeList.deallocate`).

Writes to orders in the slab only touch slots that are handed out (`Rewritten`), so that they
leave the free list alone (`FreeList.rewritten`).
-/

namespace Lob.SlabAllocator

open Links

variable {s s' s'' : SlabAllocator} {p q : Ptr} {fl : List Ptr}

/-! ### Links of the orders -/

def prevOf (s : SlabAllocator) (p : Ptr) : Option Ptr := (s.storage p).value.prev

def nextOf (s : SlabAllocator) (p : Ptr) : Option Ptr := (s.storage p).value.next

/-- The slab with other links in its orders. -/
def relink (s : SlabAllocator) (prev next : Ptr → Option Ptr) : SlabAllocator :=
  { s with
    storage := fun p =>
      { s.storage p with value := { (s.storage p).value with prev := prev p, next := next p } } }

@[simp] theorem live_relink (f g : Ptr → Option Ptr) :
    ((s.relink f g).storage p).live = (s.storage p).live := rfl

/-- The slab with the order at `p` replaced. -/
def put (s : SlabAllocator) (p : Ptr) (o : Order) : SlabAllocator :=
  { s with storage := Function.update s.storage p { s.storage p with value := o } }

theorem put_storage_self (o : Order) :
    (s.put p o).storage p = { s.storage p with value := o } := Function.update_self ..

theorem put_storage_of_ne (o : Order) (h : q ≠ p) : (s.put p o).storage q = s.storage q :=
  Function.update_of_ne h ..

@[simp] theorem live_put (o : Order) : ((s.put p o).storage q).live = (s.storage q).live := by
  rcases eq_or_ne q p with rfl | h
  · rw [put_storage_self]
  · rw [put_storage_of_ne o h]

theorem prevOf_put {o : Order} (h : o.prev = s.prevOf p) : (s.put p o).prevOf = s.prevOf := by
  funext q
  rcases eq_or_ne q p with rfl | hne
  · rw [prevOf, put_storage_self, h]
  · rw [prevOf, put_storage_of_ne o hne]
    rfl

theorem nextOf_put {o : Order} (h : o.next = s.nextOf p) : (s.put p o).nextOf = s.nextOf := by
  funext q
  rcases eq_or_ne q p with rfl | hne
  · rw [nextOf, put_storage_self, h]
  · rw [nextOf, put_storage_of_ne o hne]
    rfl

theorem write_eq (h : (s.storage p).live = true) (f : Order → Order) :
    s.write p f = .ok (s.put p (f (s.storage p).value)) := if_pos h

theorem read_eq (h : (s.storage p).live = true) : s.read p = .ok (s.storage p).value := if_pos h

theorem eq_of_read {o : Order} (h : s.read p = .ok o) : (s.storage p).value = o := by
  unfold read at h
  split_ifs at h
  exact Except.ok.inj h

/-! ### Writes that leave the free list alone -/

/-- `s'` has other orders than `s` in the slots that are handed out, and is the same
otherwise. -/
structure Rewritten (s s' : SlabAllocator) : Prop where
  capacity_eq : s'.capacity = s.capacity
  freeHead_eq : s'.freeHead = s.freeHead
  inUse_eq : s'.inUse = s.inUse
  live_eq : ∀ p, (s'.storage p).live = (s.storage p).live
  free_eq : ∀ p, (s.storage p).live = false → s'.storage p = s.storage p

theorem Rewritten.trans (h : Rewritten s s') (h' : Rewritten s' s'') : Rewritten s s'' where
  capacity_eq := h'.capacity_eq.trans h.capacity_eq
  freeHead_eq := h'.freeHead_eq.trans h.freeHead_eq
  inUse_eq := h'.inUse_eq.trans h.inUse_eq
  live_eq p := (h'.live_eq p).trans (h.live_eq p)
  free_eq p hp := (h'.free_eq p ((h.live_eq p).trans hp)).trans (h.free_eq p hp)

theorem put_rewritten (h : (s.storage p).live = true) (o : Order) : Rewritten s (s.put p o) where
  capacity_eq := rfl
  freeHead_eq := rfl
  inUse_eq := rfl
  live_eq _ := live_put o
  free_eq q hq := put_storage_of_ne o fun heq => by rw [heq, h] at hq; cases hq

theorem relink_rewritten {f g : Ptr → Option Ptr}
    (hf : ∀ p, (s.storage p).live = false → f p = s.prevOf p)
    (hg : ∀ p, (s.storage p).live = false → g p = s.nextOf p) : Rewritten s (s.relink f g) where
  capacity_eq := rfl
  freeHead_eq := rfl
  inUse_eq := rfl
  live_eq _ := rfl
  free_eq p hp := by
    simp only [relink, hf p hp, hg p hp]
    rfl

/-! ### The free list -/

/-- The free list of `s` is `fl`, and the other slots are handed out. -/
structure FreeList (s : SlabAllocator) (fl : List Ptr) : Prop where
  chain : Chain (fun p => (s.storage p).next) s.freeHead fl
  nodup : fl.Nodup
  mem_iff : ∀ p, p ∈ fl ↔ p < s.capacity ∧ (s.storage p).live = false
  live_lt : ∀ p, (s.storage p).live = true → p < s.capacity
  inUse_add : s.inUse + fl.length = s.capacity

theorem FreeList.rewritten (h : FreeList s fl) (hr : Rewritten s s') : FreeList s' fl where
  chain := by
    rw [hr.freeHead_eq]
    exact h.chain.congr fun p hp => by rw [hr.free_eq p ((h.mem_iff p).mp hp).2]
  nodup := h.nodup
  mem_iff p := by rw [h.mem_iff, hr.capacity_eq, hr.live_eq]
  live_lt p hp := by
    rw [hr.capacity_eq]
    exact h.live_lt p ((hr.live_eq p).symm.trans hp)
  inUse_add := by rw [hr.inUse_eq, hr.capacity_eq, h.inUse_add]

theorem thread_spec {i : ℕ} (h : Chain (fun p => (s.storage p).next) s.freeHead fl)
    (hfl : ∀ p ∈ fl, i ≤ p) (hlive : ∀ p, (s.storage p).live = false) :
    Chain (fun p => ((thread i s).storage p).next) (thread i s).freeHead (List.range i ++ fl) ∧
      (∀ p, ((thread i s).storage p).live = false) ∧ (thread i s).capacity = s.capacity ∧
      (thread i s).inUse = s.inUse := by
  -- on the slots that are not threaded yet; those from `i` on are on the list already
  induction i generalizing s fl with
  | zero => exact ⟨h, hlive, rfl, rfl⟩
  | succ i ih =>
    rw [List.range_succ, List.append_assoc]
    unfold thread
    apply ih
    · refine ⟨rfl, ?_⟩
      dsimp only [threadSlot, Slot.setNext, Slot.next]
      rw [Function.update_self]
      refine h.congr fun p hp => ?_
      have hne : p ≠ i := Nat.ne_of_gt (hfl p hp)
      rw [Function.update_of_ne hne]
      rfl
    · intro p hp
      rcases List.mem_cons.mp hp with rfl | hp
      · exact le_rfl
      · have := hfl p hp
        omega
    · intro p
      unfold threadSlot
      dsimp only
      rcases eq_or_ne p i with rfl | hne
      · rw [Function.update_self]
        exact hlive p
      · rw [Function.update_of_ne hne]
        exact hlive p

theorem new_spec (n : ℕ) :
    Chain (fun p => ((new n).storage p).next) (new n).freeHead (List.range n) ∧
      (∀ p, ((new n).storage p).live = false) ∧ (new n).capacity = n ∧ (new n).inUse = 0 := by
  have hnil : Chain (fun p => ((unthreaded n).storage p).next) (unthreaded n).freeHead [] := rfl
  have h := thread_spec (i := n) hnil (by simp) fun _ => rfl
  rw [List.append_nil] at h
  exact h

theorem threadBlock_eq {bytes i : ℕ} (h : i * slotBytes ≤ bytes) (s : SlabAllocator) :
    threadBlock bytes i s = .ok (thread i s) := by
  induction i generalizing s with
  | zero => rfl
  | succ i ih =>
    unfold threadBlock thread
    rw [if_neg (not_lt.mpr h)]
    exact ih ((Nat.mul_le_mul_right _ (Nat.le_succ i)).trans h) _

/-- The size of the block is exact below `2 ^ 64`. -/
theorem construct_eq {n : ℕ} (h : n * slotBytes < 2 ^ 64) : construct n = .ok (new n) :=
  threadBlock_eq (Nat.mod_eq_of_lt h).ge _

/-- Otherwise it wraps around, and the last slot is not in the block. -/
theorem construct_wrapped {n : ℕ} (h : 2 ^ 64 ≤ n * slotBytes) :
    construct n = .error .outOfBlock := by
  cases n with
  | zero => exact absurd h (by decide)
  | succ i => exact if_pos ((Nat.mod_lt _ (by decide)).trans_le h)

/-- **The constructor** makes a slab exactly if the size of the block is below `2 ^ 64`. -/
theorem construct_eq_ok_iff {n : ℕ} :
    construct n = .ok s ↔ n * slotBytes < 2 ^ 64 ∧ s = new n := by
  rcases Nat.lt_or_ge (n * slotBytes) (2 ^ 64) with h | h
  · rw [construct_eq h, Except.ok.injEq, eq_comm, and_iff_right h]
  · rw [construct_wrapped h]
    exact iff_of_false nofun fun h' => absurd h'.1 (not_lt.mpr h)

@[simp] theorem new_live (n : ℕ) (p : Ptr) : ((new n).storage p).live = false :=
  (new_spec n).2.1 p

@[simp] theorem capacity_new (n : ℕ) : (new n).capacity = n := (new_spec n).2.2.1

@[simp] theorem inUse_new (n : ℕ) : (new n).inUse = 0 := (new_spec n).2.2.2

theorem new_freeList (n : ℕ) : FreeList (new n) (List.range n) :=
  ⟨(new_spec n).1, List.nodup_range, by simp, by simp, by simp⟩

theorem FreeList.allocate_nil (h : FreeList s []) : s.allocate = (none, s) := by
  rw [allocate, show s.freeHead = none from h.chain]

/-- The slab after the first slot `p` of the free list was handed out. -/
def taken (s : SlabAllocator) (p : Ptr) : SlabAllocator :=
  { s with
    storage := Function.update s.storage p { s.storage p with live := true }
    freeHead := (s.storage p).next
    inUse := s.inUse + 1 }

/-- The slab after the slot `p` was given back. -/
def returned (s : SlabAllocator) (p : Ptr) : SlabAllocator :=
  { s with
    storage := Function.update s.storage p { (s.storage p).setNext s.freeHead with live := false }
    freeHead := some p
    inUse := s.inUse - 1 }

@[simp] theorem taken_storage_self :
    (s.taken p).storage p = { s.storage p with live := true } := Function.update_self ..

theorem taken_storage_of_ne (h : q ≠ p) : (s.taken p).storage q = s.storage q :=
  Function.update_of_ne h ..

@[simp] theorem returned_storage_self :
    (s.returned p).storage p = { (s.storage p).setNext s.freeHead with live := false } :=
  Function.update_self ..

theorem returned_storage_of_ne (h : q ≠ p) : (s.returned p).storage q = s.storage q :=
  Function.update_of_ne h ..

@[simp] theorem capacity_taken : (s.taken p).capacity = s.capacity := rfl

@[simp] theorem capacity_returned : (s.returned p).capacity = s.capacity := rfl

theorem FreeList.allocate_cons (h : FreeList s (p :: fl)) :
    s.allocate = (some p, s.taken p) ∧ FreeList (s.taken p) fl ∧
      (s.storage p).live = false := by
  obtain ⟨hhead, hchain⟩ := h.chain
  obtain ⟨hp, hnd⟩ := List.nodup_cons.mp h.nodup
  obtain ⟨hplt, hplive⟩ := (h.mem_iff p).mp (by simp)
  refine ⟨by rw [allocate, hhead]; rfl, ⟨?_, hnd, fun q => ?_, fun q hq => ?_, ?_⟩, hplive⟩
  · -- the slots that stay free keep their links
    refine hchain.congr fun q hq => ?_
    have hne : q ≠ p := fun heq => hp (heq ▸ hq)
    rw [taken_storage_of_ne hne]
  · rcases eq_or_ne q p with rfl | hq
    · simp [hp]
    · rw [taken_storage_of_ne hq, capacity_taken, ← h.mem_iff q, List.mem_cons, or_iff_right hq]
  · rcases eq_or_ne q p with rfl | hqp
    · exact hplt
    · rw [taken_storage_of_ne hqp] at hq
      exact h.live_lt q hq
  · have := h.inUse_add
    rw [List.length_cons] at this
    show s.inUse + 1 + fl.length = s.capacity
    omega

theorem FreeList.deallocate (h : FreeList s fl) (hp : (s.storage p).live = true) :
    s.deallocate p = .ok (s.returned p) ∧ FreeList (s.returned p) (p :: fl) := by
  have hpfl : p ∉ fl := fun hmem => by
    rw [((h.mem_iff p).mp hmem).2] at hp
    cases hp
  have huse : 0 < s.inUse := by
    -- the free list misses `p`, so it is not the whole slab
    have hsub : (p :: fl) ⊆ List.range s.capacity := fun q hq => by
      rcases List.mem_cons.mp hq with rfl | hq
      · exact List.mem_range.mpr (h.live_lt q hp)
      · exact List.mem_range.mpr ((h.mem_iff q).mp hq).1
    have hlen := (List.Nodup.subperm (List.nodup_cons.mpr ⟨hpfl, h.nodup⟩) hsub).length_le
    have := h.inUse_add
    rw [List.length_cons, List.length_range] at hlen
    omega
  refine ⟨if_pos hp, ⟨rfl, ?_⟩, List.nodup_cons.mpr ⟨hpfl, h.nodup⟩, fun q => ?_,
    fun q hq => ?_, ?_⟩
  · dsimp only
    rw [returned_storage_self]
    -- the slot comes in front, linked to the old head
    refine h.chain.congr fun q hq => ?_
    have hne : q ≠ p := fun heq => hpfl (heq ▸ hq)
    rw [returned_storage_of_ne hne]
  · rcases eq_or_ne q p with rfl | hq
    · simp [h.live_lt q hp]
    · rw [returned_storage_of_ne hq, capacity_returned, ← h.mem_iff q, List.mem_cons,
        or_iff_right hq]
  · rcases eq_or_ne q p with rfl | hqp
    · exact h.live_lt q hp
    · rw [returned_storage_of_ne hqp] at hq
      exact h.live_lt q hq
  · have := h.inUse_add
    rw [List.length_cons]
    show s.inUse - 1 + (fl.length + 1) = s.capacity
    omega

/-- A slot that is taken and given back, with nothing but writes in between, is the first of the
free list again. -/
theorem FreeList.returned_taken (h : FreeList s (p :: fl)) (hr : Rewritten (s.taken p) s') :
    s'.deallocate p = .ok (s'.returned p) ∧ FreeList (s'.returned p) (p :: fl) ∧
      (s'.returned p).inUse = s.inUse ∧
      ∀ q, ((s'.returned p).storage q).live = (s.storage q).live := by
  obtain ⟨-, htaken, hfree⟩ := h.allocate_cons
  have hlive : (s'.storage p).live = true := by rw [hr.live_eq, taken_storage_self]
  obtain ⟨hdealloc, hback⟩ := (htaken.rewritten hr).deallocate hlive
  refine ⟨hdealloc, hback, ?_, fun q => ?_⟩
  · show s'.inUse - 1 = s.inUse
    rw [hr.inUse_eq]
    rfl
  · rcases eq_or_ne q p with rfl | hne
    · rw [returned_storage_self, hfree]
    · rw [returned_storage_of_ne hne, hr.live_eq, taken_storage_of_ne hne]

end Lob.SlabAllocator
