import Mathlib.Algebra.Order.Ring.Nat
import Mathlib.Algebra.BigOperators.Group.List.Basic

/-!
# Greedy filling

An amount `n` is filled from a list of items, from the front, each item giving as much as it can.
`fills` lists who gives how much, `exhausted` the items that give everything, and `leftover` what
stays of the list: the items after the exhausted ones, the first of which may have been shrunk.

All three turn an append into an append (`fills_append`, `exhausted_append`, `leftover_append`),
the second list seeing what the first left of the amount; `sum_fills` is the amount that is
filled, and two amounts in a row leave what their sum leaves (`leftover_leftover`).
-/

namespace Greedy

variable {α : Type*} (size : α → ℕ) (shrink : α → ℕ → α)

def total (l : List α) : ℕ := (l.map size).sum

def fills : List α → ℕ → List (α × ℕ)
  | [], _ => []
  | a :: l, n => if n = 0 then [] else (a, min n (size a)) :: fills l (n - size a)

def exhausted : List α → ℕ → List α
  | [], _ => []
  | a :: l, n => if n = 0 ∨ n < size a then [] else a :: exhausted l (n - size a)

/-- `shrink a n` is what stays of the item `a` when it gives `n`. -/
def leftover : List α → ℕ → List α
  | [], _ => []
  | a :: l, n =>
    if n = 0 then a :: l
    else if n < size a then shrink a n :: l
    else leftover l (n - size a)

@[simp] theorem total_nil : total size [] = 0 := rfl

@[simp] theorem total_cons (a : α) (l : List α) : total size (a :: l) = size a + total size l := by
  simp [total]

@[simp] theorem total_append (l l' : List α) :
    total size (l ++ l') = total size l + total size l' := by
  simp [total]

theorem total_perm {l l' : List α} (h : l.Perm l') : total size l = total size l' :=
  (h.map size).sum_eq

theorem size_le_total {a : α} {l : List α} (h : a ∈ l) : size a ≤ total size l := by
  induction l with
  | nil => cases h
  | cons b l ih =>
    rw [total_cons]
    rcases List.mem_cons.mp h with rfl | h
    · exact Nat.le_add_right _ _
    · exact Nat.le_add_left_of_le (ih h)

@[simp] theorem fills_zero (l : List α) : fills size l 0 = [] := by
  cases l <;> simp [fills]

@[simp] theorem exhausted_zero (l : List α) : exhausted size l 0 = [] := by
  cases l <;> simp [exhausted]

@[simp] theorem leftover_zero (l : List α) : leftover size shrink l 0 = l := by
  cases l <;> simp [leftover]

theorem fills_cons {a : α} {l : List α} {n : ℕ} (hn : n ≠ 0) :
    fills size (a :: l) n = (a, min n (size a)) :: fills size l (n - size a) := by
  rw [fills, if_neg hn]

/-! ### The first item -/

section First

variable {size} {a : α} {l : List α} {n : ℕ}

theorem fills_of_lt (hn : n ≠ 0) (h : n < size a) : fills size (a :: l) n = [(a, n)] := by
  rw [fills_cons size hn, min_eq_left h.le, Nat.sub_eq_zero_of_le h.le, fills_zero]

theorem exhausted_of_lt (h : n < size a) : exhausted size (a :: l) n = [] := by
  rw [exhausted, if_pos (Or.inr h)]

theorem exhausted_of_le (hn : n ≠ 0) (h : size a ≤ n) :
    exhausted size (a :: l) n = a :: exhausted size l (n - size a) := by
  rw [exhausted, if_neg (not_or.mpr ⟨hn, not_lt.mpr h⟩)]

theorem leftover_of_lt (hn : n ≠ 0) (h : n < size a) :
    leftover size shrink (a :: l) n = shrink a n :: l := by
  rw [leftover, if_neg hn, if_pos h]

theorem leftover_of_le (hn : n ≠ 0) (h : size a ≤ n) :
    leftover size shrink (a :: l) n = leftover size shrink l (n - size a) := by
  rw [leftover, if_neg hn, if_neg (not_lt.mpr h)]

end First

/-! ### Appending -/

theorem fills_append (l l' : List α) (n : ℕ) :
    fills size (l ++ l') n = fills size l n ++ fills size l' (n - total size l) := by
  induction l generalizing n with
  | nil => simp [fills]
  | cons a l ih =>
    rcases eq_or_ne n 0 with rfl | hn
    · simp
    · rw [List.cons_append, fills_cons size hn, fills_cons size hn, ih, total_cons, Nat.sub_sub,
        List.cons_append]

theorem exhausted_append (l l' : List α) (n : ℕ) :
    exhausted size (l ++ l') n = exhausted size l n ++ exhausted size l' (n - total size l) := by
  induction l generalizing n with
  | nil => simp [exhausted]
  | cons a l ih =>
    rw [List.cons_append, exhausted, exhausted, total_cons]
    split_ifs with h
    · -- the list gives all that is asked for
      have hz : n - (size a + total size l) = 0 := by omega
      rw [hz, exhausted_zero, List.append_nil]
    · rw [ih, Nat.sub_sub, List.cons_append]

theorem leftover_append (l l' : List α) (n : ℕ) :
    leftover size shrink (l ++ l') n =
      leftover size shrink l n ++ leftover size shrink l' (n - total size l) := by
  induction l generalizing n with
  | nil => simp [leftover]
  | cons a l ih =>
    rw [List.cons_append, leftover, leftover, total_cons]
    split_ifs with h0 hlt
    · rw [h0, Nat.zero_sub, leftover_zero, List.cons_append]
    · -- the item that is shrunk gives all that is still asked for
      have hz : n - (size a + total size l) = 0 := by omega
      rw [hz, leftover_zero, List.cons_append]
    · rw [ih, Nat.sub_sub]

/-! ### Amounts -/

/-- **The amount that is filled**: all of it, or the whole list. -/
theorem sum_fills (l : List α) (n : ℕ) :
    ((fills size l n).map Prod.snd).sum = min n (total size l) := by
  induction l generalizing n with
  | nil => simp [fills]
  | cons a l ih =>
    rcases eq_or_ne n 0 with rfl | hn
    · simp
    · rw [fills_cons size hn, List.map_cons, List.sum_cons, ih, total_cons]
      omega

/-- **What some of the items give is what they lose**, if what an item gives is taken off its size
and does not change which items these are. -/
theorem sum_fills_filter {p : α → Bool} (hp : ∀ a n, p (shrink a n) = p a)
    (hsize : ∀ a n, n < size a → size (shrink a n) = size a - n) (l : List α) (n : ℕ) :
    (((fills size l n).filter fun f => p f.1).map Prod.snd).sum +
      total size ((leftover size shrink l n).filter p) = total size (l.filter p) := by
  induction l generalizing n with
  | nil => rfl
  | cons a l ih =>
    rcases eq_or_ne n 0 with rfl | hn
    · simp
    rcases Nat.lt_or_ge n (size a) with hlt | hge
    · -- the item gives a part of what it has
      rw [fills_of_lt hn hlt, leftover_of_lt _ hn hlt, List.filter_cons, List.filter_cons,
        List.filter_cons, hp]
      cases hpa : p a with
      | true =>
        have hshrink := hsize a n hlt
        simp only [if_true, List.filter_nil, List.map_cons, List.map_nil, List.sum_cons,
          List.sum_nil, total_cons]
        omega
      | false => simp
    · rw [fills_cons size hn, leftover_of_le _ hn hge, min_eq_right hge, List.filter_cons,
        List.filter_cons]
      cases hpa : p a with
      | true =>
        have ih := ih (n - size a)
        simp only [if_true, List.map_cons, List.sum_cons, total_cons]
        omega
      | false =>
        simp only [Bool.false_eq_true, if_false]
        exact ih (n - size a)

theorem fills_le {l : List α} {n : ℕ} {f : α × ℕ} (h : f ∈ fills size l n) : f.2 ≤ n := by
  induction l generalizing n with
  | nil => simp [fills] at h
  | cons a l ih =>
    rcases eq_or_ne n 0 with rfl | hn
    · simp at h
    · rw [fills_cons size hn, List.mem_cons] at h
      rcases h with rfl | h
      · exact min_le_left _ _
      · exact (ih h).trans (Nat.sub_le _ _)

theorem mem_of_mem_fills {l : List α} {n : ℕ} {f : α × ℕ} (h : f ∈ fills size l n) :
    f.1 ∈ l := by
  induction l generalizing n with
  | nil => simp [fills] at h
  | cons a l ih =>
    rcases eq_or_ne n 0 with rfl | hn
    · simp at h
    · rw [fills_cons size hn, List.mem_cons] at h
      rcases h with rfl | h
      · exact List.mem_cons_self
      · exact List.mem_cons_of_mem _ (ih h)

theorem fills_mem {l : List α} {n : ℕ} (hpos : ∀ a ∈ l, 0 < size a) {a : α} {k : ℕ}
    (h : (a, k) ∈ fills size l n) : a ∈ l ∧ 0 < k ∧ k ≤ size a ∧ k ≤ n := by
  induction l generalizing n with
  | nil => simp [fills] at h
  | cons b l ih =>
    rcases eq_or_ne n 0 with rfl | hn
    · simp at h
    · rw [fills_cons size hn, List.mem_cons, Prod.mk.injEq] at h
      rcases h with ⟨rfl, rfl⟩ | h
      · have := hpos a (by simp)
        exact ⟨by simp, by omega, by omega, by omega⟩
      · obtain ⟨hmem, hk, hle, hn'⟩ := ih (fun c hc => hpos c (by simp [hc])) h
        exact ⟨by simp [hmem], hk, hle, by omega⟩

/-- An amount that the list cannot give leaves nothing of it. -/
theorem leftover_eq_nil {l : List α} {n : ℕ} (hpos : ∀ a ∈ l, 0 < size a)
    (h : total size l ≤ n) : leftover size shrink l n = [] := by
  induction l generalizing n with
  | nil => rfl
  | cons a l ih =>
    have ha := hpos a (by simp)
    rw [total_cons] at h
    rw [leftover_of_le _ (by omega) (by omega)]
    exact ih (fun b hb => hpos b (by simp [hb])) (by omega)

theorem lt_total_of_leftover {l : List α} {n : ℕ} (hpos : ∀ a ∈ l, 0 < size a)
    (h : leftover size shrink l n ≠ []) : n < total size l := by
  by_contra hge
  exact h (leftover_eq_nil size shrink hpos (not_lt.mp hge))

/-- An item of what stays is an old one, or an old one that gave a part of what it has. -/
theorem mem_leftover {l : List α} {n : ℕ} {a : α} (h : a ∈ leftover size shrink l n) :
    a ∈ l ∨ ∃ b ∈ l, ∃ k, 0 < k ∧ k < size b ∧ a = shrink b k := by
  induction l generalizing n with
  | nil => simp [leftover] at h
  | cons b l ih =>
    rw [leftover] at h
    split_ifs at h with h0 hlt
    · exact Or.inl h
    · rcases List.mem_cons.mp h with rfl | h
      · exact Or.inr ⟨b, by simp, n, by omega, hlt, rfl⟩
      · exact Or.inl (by simp [h])
    · rcases ih h with h | ⟨c, hc, k, hk⟩
      · exact Or.inl (by simp [h])
      · exact Or.inr ⟨c, by simp [hc], k, hk⟩

/-- **Two amounts in a row leave what their sum leaves**, if an item that gives twice gives the
sum. -/
theorem leftover_leftover (hsize : ∀ a n, n < size a → size (shrink a n) = size a - n)
    (hshrink : ∀ a n n', shrink (shrink a n) n' = shrink a (n + n')) (l : List α) (n n' : ℕ) :
    leftover size shrink (leftover size shrink l n) n' = leftover size shrink l (n + n') := by
  induction l generalizing n with
  | nil => rfl
  | cons a l ih =>
    rcases eq_or_ne n 0 with rfl | hn
    · rw [leftover_zero, Nat.zero_add]
    rcases Nat.lt_or_ge n (size a) with hlt | hge
    · rw [leftover_of_lt shrink hn hlt]
      rcases eq_or_ne n' 0 with rfl | hn'
      · rw [leftover_zero, Nat.add_zero, leftover_of_lt shrink hn hlt]
      have hleft := hsize a n hlt
      rcases Nat.lt_or_ge n' (size (shrink a n)) with hlt' | hge'
      · -- the item gives both amounts
        rw [leftover_of_lt shrink hn' hlt', hshrink, leftover_of_lt shrink (by omega) (by omega)]
      · rw [leftover_of_le shrink hn' hge', leftover_of_le shrink (by omega) (by omega), hleft]
        congr 1
        omega
    · rw [leftover_of_le shrink hn hge, leftover_of_le shrink (by omega) (by omega), ih]
      congr 1
      omega

theorem length_leftover_le (l : List α) (n : ℕ) : (leftover size shrink l n).length ≤ l.length := by
  induction l generalizing n with
  | nil => simp [leftover]
  | cons a l ih =>
    rw [leftover]
    split_ifs with h0 hlt
    · exact le_rfl
    · simp
    · exact (ih _).trans (by simp)

/-- Only the last item that gives anything may stay. -/
theorem length_leftover_add_fills_le (l : List α) (n : ℕ) :
    (leftover size shrink l n).length + (fills size l n).length ≤ l.length + 1 := by
  induction l generalizing n with
  | nil => simp [leftover, fills]
  | cons a l ih =>
    rcases eq_or_ne n 0 with rfl | hn
    · simp
    · rcases lt_or_ge n (size a) with hlt | hge
      · rw [leftover_of_lt shrink hn hlt, fills_of_lt hn hlt]
        simp
      · rw [leftover_of_le shrink hn hge, fills_cons size hn, List.length_cons, List.length_cons]
        have := ih (n - size a)
        omega

/-- All items that give anything are gone if the amount is not less than the total. -/
theorem length_leftover_add_fills {l : List α} {n : ℕ} (h : total size l ≤ n) :
    (leftover size shrink l n).length + (fills size l n).length = l.length := by
  induction l generalizing n with
  | nil => simp [leftover, fills]
  | cons a l ih =>
    rw [total_cons] at h
    rcases eq_or_ne n 0 with rfl | hn
    · simp
    · have hge : size a ≤ n := (Nat.le_add_right _ _).trans h
      rw [leftover_of_le shrink hn hge, fills_cons size hn, List.length_cons, List.length_cons]
      have := ih (Nat.le_sub_of_add_le' h)
      omega

/-- A list that stays as long as it was keeps its items, but for what the first one gives. -/
theorem map_leftover_of_length {β : Type*} (f : α → β) (hf : ∀ a n, f (shrink a n) = f a)
    {l : List α} {n : ℕ} (h : (leftover size shrink l n).length = l.length) :
    (leftover size shrink l n).map f = l.map f := by
  cases l with
  | nil => rfl
  | cons a l =>
    rw [leftover] at h ⊢
    split_ifs at h ⊢ with h0 hlt
    · rfl
    · rw [List.map_cons, List.map_cons, hf]
    · have := length_leftover_le size shrink l (n - size a)
      rw [List.length_cons] at h
      omega

/-! ### Filling from several lists -/

section Lists

variable {ι : Type*} (q : ι → List α)

/-- Lists that are each left what stays of them when the lists before them have given. -/
theorem leftover_flatMap {q' : ι → List α} {ls : List ι} {n : ℕ}
    (h : ∀ pre i post, ls = pre ++ i :: post →
      q' i = leftover size shrink (q i) (n - total size (pre.flatMap q))) :
    ls.flatMap q' = leftover size shrink (ls.flatMap q) n := by
  induction ls generalizing n with
  | nil => rfl
  | cons i ls ih =>
    have hi : q' i = leftover size shrink (q i) n := h [] i ls rfl
    rw [List.flatMap_cons, List.flatMap_cons, leftover_append, hi]
    congr 1
    refine ih fun pre j post hls => ?_
    rw [h (i :: pre) j post (by rw [hls]; rfl), List.flatMap_cons, total_append, Nat.sub_sub]

/-- Every list with items that the amount reaches passes the test `p`. -/
def Shown (p : ι → Bool) (ls : List ι) (n : ℕ) : Prop :=
  ∀ pre i post, ls = pre ++ i :: post → total size (pre.flatMap q) < n → q i ≠ [] → p i = true

variable {size q} {p : ι → Bool} {i : ι} {ls : List ι} {n : ℕ}

theorem Shown.head (h : Shown size q p (i :: ls) n) (hn : n ≠ 0) (hi : q i ≠ []) :
    p i = true := h [] i ls rfl (Nat.pos_of_ne_zero hn) hi

theorem Shown.tail (h : Shown size q p (i :: ls) n) : Shown size q p ls (n - total size (q i)) := by
  intro pre j post hls hlt hj
  refine h (i :: pre) j post (by rw [hls]; rfl) ?_ hj
  rw [List.flatMap_cons, total_append]
  omega

/-- The lists that fail the test are not missed. -/
theorem Shown.fills_filter (h : Shown size q p ls n) :
    fills size ((ls.filter p).flatMap q) n = fills size (ls.flatMap q) n := by
  induction ls generalizing n with
  | nil => rfl
  | cons i ls ih =>
    rcases eq_or_ne n 0 with rfl | hn
    · simp
    rw [List.flatMap_cons, fills_append, ← ih h.tail]
    by_cases hp : p i = true
    · rw [List.filter_cons_of_pos hp, List.flatMap_cons, fills_append]
    · -- a list that is not shown has no items
      have hi : q i = [] := by
        by_contra hne
        exact hp (h.head hn hne)
      rw [List.filter_cons_of_neg hp, hi]
      rfl

theorem Shown.sub_total_filter (h : Shown size q p ls n) :
    n - total size ((ls.filter p).flatMap q) = n - total size (ls.flatMap q) := by
  induction ls generalizing n with
  | nil => rfl
  | cons i ls ih =>
    rcases eq_or_ne n 0 with rfl | hn
    · simp
    rw [List.flatMap_cons, total_append, ← Nat.sub_sub, ← ih h.tail]
    by_cases hp : p i = true
    · rw [List.filter_cons_of_pos hp, List.flatMap_cons, total_append, Nat.sub_sub]
    · have hi : q i = [] := by
        by_contra hne
        exact hp (h.head hn hne)
      rw [List.filter_cons_of_neg hp, hi]
      rfl

theorem Shown.left {ls' : List ι} (h : Shown size q p (ls ++ ls') n) : Shown size q p ls n := by
  intro pre i post hls
  exact h pre i (post ++ ls') (by rw [hls, List.append_assoc]; rfl)

end Lists

theorem exhausted_sublist (size : α → ℕ) (l : List α) (n : ℕ) :
    (exhausted size l n).Sublist l := by
  induction l generalizing n with
  | nil => exact List.Sublist.refl _
  | cons a l ih =>
    rw [exhausted]
    split_ifs
    · exact List.nil_sublist _
    · exact (ih _).cons_cons a

/-! ### Other items of the same sizes -/

section Map

variable {β : Type*} {size} {shrink} {size' : β → ℕ} {shrink' : β → ℕ → β} {f : α → β}

theorem total_map (hsize : ∀ a, size' (f a) = size a) (l : List α) :
    total size' (l.map f) = total size l := by
  unfold total
  rw [List.map_map]
  exact congrArg List.sum (List.map_congr_left fun a _ => hsize a)

theorem fills_map (hsize : ∀ a, size' (f a) = size a) (l : List α) (n : ℕ) :
    fills size' (l.map f) n = (fills size l n).map fun x => (f x.1, x.2) := by
  induction l generalizing n with
  | nil => rfl
  | cons a l ih =>
    rcases eq_or_ne n 0 with rfl | hn
    · simp
    · rw [List.map_cons, fills_cons size' hn, fills_cons size hn, ih, hsize, List.map_cons]

theorem leftover_map (hsize : ∀ a, size' (f a) = size a)
    (hshrink : ∀ a n, f (shrink a n) = shrink' (f a) n) (l : List α) (n : ℕ) :
    leftover size' shrink' (l.map f) n = (leftover size shrink l n).map f := by
  induction l generalizing n with
  | nil => rfl
  | cons a l ih =>
    rw [List.map_cons, leftover, leftover, hsize, ih]
    split_ifs
    · rfl
    · rw [List.map_cons, hshrink]
    · rfl

end Map

end Greedy
