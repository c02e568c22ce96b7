import Mathlib.Data.List.Basic
import Mathlib.Data.List.Induction
import Mathlib.Data.List.Nodup
import Mathlib.Logic.Function.Basic

/-!
# Doubly linked lists in a memory of nodes

The links of the nodes are two functions `prev` and `next`.  `Seg prev next a z ps` says that the
nodes `ps` are linked in this order, with `a` before the first and `z` after the last;
`Linked prev next head tail ps` that the list with these two ends consists of `ps`, without
repeats.  Appending a node and removing one are changes of a few links (`setAt`);
`Linked.pushBack` and `Linked.unlink` say what they do to the sequence, and `Linked.congr` that a
list depends on the links of its own nodes only.

`Chain next a ps` is the singly linked version, for free lists.
-/

namespace Links

variable {P : Type*}

/-! ### Singly linked chains -/

def Chain (next : P → Option P) : Option P → List P → Prop
  | a, [] => a = none
  | a, p :: ps => a = some p ∧ Chain next (next p) ps

theorem Chain.congr {next next' : P → Option P} {a : Option P} {ps : List P}
    (h : Chain next a ps) (heq : ∀ p ∈ ps, next' p = next p) : Chain next' a ps := by
  induction ps generalizing a with
  | nil => exact h
  | cons p ps ih =>
    refine ⟨h.1, ?_⟩
    rw [heq p (by simp)]
    exact ih h.2 fun q hq => heq q (by simp [hq])

/-- The links determine the chain. -/
theorem Chain.unique {next : P → Option P} {a : Option P} {ps qs : List P}
    (h : Chain next a ps) (h' : Chain next a qs) : ps = qs := by
  induction ps generalizing a qs with
  | nil =>
    cases qs with
    | nil => rfl
    | cons q qs => exact absurd (h.symm.trans h'.1) (Option.some_ne_none q).symm
  | cons p ps ih =>
    cases qs with
    | nil => exact absurd (h'.symm.trans h.1) (Option.some_ne_none p).symm
    | cons q qs =>
      obtain rfl := Option.some.inj (h.1.symm.trans h'.1)
      rw [ih h.2 h'.2]

/-! ### Segments -/

def Seg (prev next : P → Option P) : Option P → Option P → List P → Prop
  | _, _, [] => True
  | a, z, p :: ps => prev p = a ∧ next p = ps.head?.or z ∧ Seg prev next (some p) z ps

theorem seg_append {prev next : P → Option P} {a z : Option P} {xs ys : List P} :
    Seg prev next a z (xs ++ ys) ↔
      Seg prev next a (ys.head?.or z) xs ∧ Seg prev next (xs.getLast?.or a) z ys := by
  induction xs generalizing a with
  | nil => simp [Seg]
  | cons x xs ih =>
    have hlast : ((x :: xs).getLast?.or a) = (xs.getLast?.or (some x)) := by
      cases xs <;> simp [List.getLast?_cons]
    have hhead : ((xs ++ ys).head?.or z) = (xs.head?.or (ys.head?.or z)) := by
      cases xs <;> simp
    rw [List.cons_append, Seg, Seg, ih, hlast, hhead, and_assoc, and_assoc]

theorem Seg.congr {prev next prev' next' : P → Option P} {a z : Option P} {ps : List P}
    (h : Seg prev next a z ps) (hp : ∀ p ∈ ps, prev' p = prev p) (hn : ∀ p ∈ ps, next' p = next p) :
    Seg prev' next' a z ps := by
  induction ps generalizing a with
  | nil => trivial
  | cons p ps ih =>
    refine ⟨(hp p (by simp)).trans h.1, (hn p (by simp)).trans h.2.1, ?_⟩
    exact ih h.2.2 (fun q hq => hp q (by simp [hq])) fun q hq => hn q (by simp [hq])

/-! ### Lists -/

structure Linked (prev next : P → Option P) (head tail : Option P) (ps : List P) : Prop where
  head_eq : head = ps.head?
  tail_eq : tail = ps.getLast?
  seg : Seg prev next none none ps
  nodup : ps.Nodup

variable {prev next : P → Option P} {head tail : Option P}

theorem linked_nil : Linked prev next none none [] := ⟨rfl, rfl, trivial, List.nodup_nil⟩

theorem Linked.congr {prev' next' : P → Option P} {ps : List P}
    (h : Linked prev next head tail ps) (hp : ∀ p ∈ ps, prev' p = prev p)
    (hn : ∀ p ∈ ps, next' p = next p) : Linked prev' next' head tail ps :=
  ⟨h.head_eq, h.tail_eq, h.seg.congr hp hn, h.nodup⟩

/-- The neighbours of a node. -/
theorem Linked.prev_next {xs ys : List P} {p : P}
    (h : Linked prev next head tail (xs ++ p :: ys)) :
    prev p = xs.getLast? ∧ next p = ys.head? := by
  obtain ⟨-, hp, hn, -⟩ := seg_append.mp h.seg
  exact ⟨by simpa using hp, by simpa using hn⟩

/-- The two neighbours that a removal writes to are in the list. -/
theorem Linked.neighbours_mem {ps : List P} {p q : P} (h : Linked prev next head tail ps)
    (hp : p ∈ ps) (hq : prev p = some q ∨ next p = some q) : q ∈ ps := by
  obtain ⟨xs, ys, rfl⟩ := List.append_of_mem hp
  obtain ⟨hprev, hnext⟩ := h.prev_next
  rcases hq with hq | hq
  · have := List.mem_of_getLast? (hprev ▸ hq)
    simp [this]
  · have := List.mem_of_head? (hnext ▸ hq)
    simp [this]

/-! ### Reading a list forward -/

/-- The first `fuel` nodes found by following `next` from `a`. -/
def walk (next : P → Option P) : ℕ → Option P → List P
  | 0, _ => []
  | _ + 1, none => []
  | fuel + 1, some p => p :: walk next fuel (next p)

theorem length_walk_le (next : P → Option P) (fuel : ℕ) (a : Option P) :
    (walk next fuel a).length ≤ fuel := by
  induction fuel generalizing a with
  | zero => exact Nat.le_refl 0
  | succ fuel ih =>
    cases a with
    | none => exact Nat.zero_le _
    | some p => exact Nat.succ_le_succ (ih (next p))

theorem Seg.walk_eq {ps : List P} {a : Option P} (h : Seg prev next a none ps) {fuel : ℕ}
    (hf : ps.length ≤ fuel) : walk next fuel ps.head? = ps := by
  induction ps generalizing a fuel with
  | nil => cases fuel <;> rfl
  | cons p ps ih =>
    obtain ⟨fuel, rfl⟩ : ∃ f, fuel = f + 1 := ⟨fuel - 1, by simp at hf; omega⟩
    rw [List.head?_cons, walk, h.2.1, Option.or_none, ih h.2.2 (by simpa using hf)]

theorem Linked.walk_eq {ps : List P} (h : Linked prev next head tail ps) {fuel : ℕ}
    (hf : ps.length ≤ fuel) : walk next fuel head = ps := by
  rw [h.head_eq]
  exact h.seg.walk_eq hf

/-! ### Reading a list to its end -/

theorem Seg.chain_next {ps : List P} {a : Option P} (h : Seg prev next a none ps) :
    Chain next ps.head? ps := by
  induction ps generalizing a with
  | nil => rfl
  | cons p ps ih =>
    refine ⟨rfl, ?_⟩
    rw [h.2.1, Option.or_none]
    exact ih h.2.2

theorem Seg.chain_prev {ps : List P} {z : Option P} (h : Seg prev next none z ps) :
    Chain prev ps.getLast? ps.reverse := by
  induction ps using List.reverseRecOn generalizing z with
  | nil => rfl
  | append_singleton ps p ih =>
    obtain ⟨hps, hp, -⟩ := seg_append.mp h
    rw [Option.or_none] at hp
    rw [List.getLast?_append_of_ne_nil _ (List.cons_ne_nil p []), List.reverse_append]
    refine ⟨rfl, ?_⟩
    rw [hp]
    exact ih hps

/-- Forward from the head. -/
theorem Linked.chain_next {ps : List P} (h : Linked prev next head tail ps) :
    Chain next head ps := by
  rw [h.head_eq]
  exact h.seg.chain_next

/-- Backward from the tail. -/
theorem Linked.chain_prev {ps : List P} (h : Linked prev next head tail ps) :
    Chain prev tail ps.reverse := by
  rw [h.tail_eq]
  exact h.seg.chain_prev

/-! ### Changing links -/

section Update

variable [DecidableEq P]

/-- Set the link of a node that may be absent. -/
def setAt (f : P → Option P) (p v : Option P) : P → Option P :=
  match p with
  | some p => Function.update f p v
  | none => f

@[simp] theorem setAt_some (f : P → Option P) (p : P) (v : Option P) :
    setAt f (some p) v = Function.update f p v := rfl

theorem setAt_of_ne {f : P → Option P} {p v : Option P} {q : P} (h : p ≠ some q) :
    setAt f p v q = f q := by
  cases p with
  | none => rfl
  | some p => exact Function.update_of_ne (fun heq => h (by rw [heq])) _ _

/-- The link out of the last node is redirected. -/
theorem Seg.set_last {prev next : P → Option P} {a z : Option P} {ps : List P}
    (h : Seg prev next a z ps) (hnd : ps.Nodup) (z' : Option P) :
    Seg prev (setAt next ps.getLast? z') a z' ps := by
  rcases List.eq_nil_or_concat ps with rfl | ⟨xs, t, rfl⟩
  · trivial
  · rw [List.concat_eq_append] at *
    obtain ⟨hxs, ht⟩ := seg_append.mp h
    -- the links of the nodes before the last stay as they are
    have hnot : ∀ p ∈ xs, p ≠ t := fun p hp => by
      rintro rfl
      exact (List.nodup_append.mp hnd).2.2 p hp p (by simp) rfl
    rw [List.getLast?_concat, setAt_some]
    refine seg_append.mpr ⟨?_, ht.1, by simp, trivial⟩
    refine (hxs.congr (fun _ _ => rfl) fun p hp => ?_)
    rw [Function.update_of_ne (hnot p hp)]

/-- The link out of the first node is redirected. -/
theorem Seg.set_first {prev next : P → Option P} {a z : Option P} {ps : List P}
    (h : Seg prev next a z ps) (hnd : ps.Nodup) (a' : Option P) :
    Seg (setAt prev ps.head? a') next a' z ps := by
  cases ps with
  | nil => trivial
  | cons p ps =>
    rw [List.head?_cons, setAt_some]
    refine ⟨Function.update_self .., h.2.1, h.2.2.congr (fun q hq => ?_) fun _ _ => rfl⟩
    rw [Function.update_of_ne]
    rintro rfl
    exact (List.nodup_cons.mp hnd).1 hq

theorem Linked.pushBack {ps : List P} {p : P} (h : Linked prev next head tail ps) (hp : p ∉ ps) :
    Linked (Function.update prev p tail) (setAt (Function.update next p none) tail (some p))
      (if tail.isSome then head else some p) (some p) (ps ++ [p]) := by
  have hnd : (ps ++ [p]).Nodup := by
    rw [← List.concat_eq_append]
    exact List.Nodup.concat hp h.nodup
  have hne : ∀ q ∈ ps, q ≠ p := fun q hq heq => hp (heq ▸ hq)
  have hseg : Seg (Function.update prev p tail) (Function.update next p none) none none ps :=
    h.seg.congr (fun q hq => Function.update_of_ne (hne q hq) ..)
      fun q hq => Function.update_of_ne (hne q hq) ..
  refine ⟨?_, by simp, seg_append.mpr ⟨?_, ?_, ?_, trivial⟩, hnd⟩
  · -- the head changes only when the list was empty
    rw [h.tail_eq, h.head_eq]
    rcases List.eq_nil_or_concat ps with rfl | ⟨xs, t, rfl⟩
    · rfl
    · cases xs <;> simp
  · rw [h.tail_eq]
    simpa [h.tail_eq] using hseg.set_last h.nodup (some p)
  · rw [Function.update_self, h.tail_eq, Option.or_none]
  · -- the new node is not the one whose link was redirected
    have htail : tail ≠ some p := by
      rw [h.tail_eq]
      exact fun heq => hp (List.mem_of_getLast? heq)
    rw [setAt_of_ne htail, Function.update_self]
    rfl

theorem Linked.unlink {xs ys : List P} {p : P}
    (h : Linked prev next head tail (xs ++ p :: ys)) :
    Linked (setAt prev (next p) (prev p)) (setAt next (prev p) (next p))
      (if (prev p).isSome then head else next p) (if (next p).isSome then tail else prev p)
      (xs ++ ys) := by
  obtain ⟨hprev, hnext⟩ := h.prev_next
  obtain ⟨hxs, -, -, hys⟩ := seg_append.mp h.seg
  obtain ⟨hndx, hndpy, hdisj⟩ := List.nodup_append.mp h.nodup
  obtain ⟨hpy, hndy⟩ := List.nodup_cons.mp hndpy
  have hxy : ∀ x ∈ xs, ∀ y ∈ ys, x ≠ y := fun x hx y hy => hdisj x hx y (by simp [hy])
  refine ⟨?_, ?_, ?_, List.nodup_append.mpr ⟨hndx, hndy, hxy⟩⟩
  · rw [hprev, hnext, h.head_eq]
    cases xs <;> simp
  · rw [hprev, hnext, h.tail_eq]
    rcases List.eq_nil_or_concat ys with rfl | ⟨zs, t, rfl⟩
    · simp
    · cases zs <;> simp
  · rw [hprev, hnext]
    refine seg_append.mpr ⟨?_, ?_⟩
    · -- the node before `p` is redirected to the one after
      have h1 := hxs.set_last hndx ys.head?
      rw [Option.or_none]
      refine h1.congr (fun q hq => setAt_of_ne fun heq => ?_) fun _ _ => rfl
      exact hxy q hq q (List.mem_of_head? heq) rfl
    · -- and the node after `p` back to the one before
      have h1 := hys.set_first hndy xs.getLast?
      rw [Option.or_none]
      refine h1.congr (fun _ _ => rfl) fun q hq => setAt_of_ne fun heq => ?_
      exact hxy q (List.mem_of_getLast? heq) q hq rfl

end Update

end Links
