import Mathlib.Algebra.Order.Ring.Int
import Mathlib.Data.List.Basic

/-!
# Tables of numbers as text

Numbers in decimal notation, and tables with a comma between the fields of a row and a newline after
each row.  Reading a number undoes writing it (`natural?_natural`, `integer?_integer`), and so does
reading a table (`read_write`) whose fields have no separator in them (`Plain`).
-/

namespace Csv

/-! ### Numbers -/

def natural (n : ℕ) : List Char := Nat.toDigits 10 n

/-- The number that the digits stand for.  There is at least one digit. -/
def natural? (s : List Char) : Option ℕ :=
  if s ≠ [] ∧ s.all Char.isDigit = true then some (Nat.ofDigitChars 10 s 0) else none

theorem isDigit_of_mem_natural {n : ℕ} {c : Char} (h : c ∈ natural n) : c.isDigit = true :=
  Nat.isDigit_of_mem_toDigits (by decide) (by decide) h

theorem natural?_natural (n : ℕ) : natural? (natural n) = some n := by
  have hall : (natural n).all Char.isDigit = true :=
    List.all_eq_true.mpr fun c hc => isDigit_of_mem_natural hc
  unfold natural?
  rw [if_pos ⟨Nat.toDigits_ne_nil, hall⟩]
  exact congrArg some Nat.ofDigitChars_ten_toDigits

def integer : ℤ → List Char
  | .ofNat n => natural n
  | .negSucc n => '-' :: natural (n + 1)

def integer? : List Char → Option ℤ
  | '-' :: s => (natural? s).map fun n => -(n : ℤ)
  | s => (natural? s).map fun n => (n : ℤ)

theorem natural_eq_cons (n : ℕ) : ∃ c s, natural n = c :: s ∧ c.isDigit = true := by
  cases h : natural n with
  | nil => exact absurd h Nat.toDigits_ne_nil
  | cons c s => exact ⟨c, s, rfl, isDigit_of_mem_natural (h ▸ List.mem_cons_self)⟩

theorem integer?_integer (z : ℤ) : integer? (integer z) = some z := by
  cases z with
  | ofNat n =>
    obtain ⟨c, s, hcons, hc⟩ := natural_eq_cons n
    have hread : integer? (natural n) = (natural? (natural n)).map fun n => (n : ℤ) := by
      rw [hcons]
      -- a digit is no sign
      have hne : c ≠ '-' := by
        rintro rfl
        cases hc
      unfold integer?
      split
      · next heq => exact absurd (List.cons.inj heq).1 hne
      · rfl
    show integer? (natural n) = _
    rw [hread, natural?_natural]
    rfl
  | negSucc n =>
    show (natural? (natural (n + 1))).map (fun n => -(n : ℤ)) = _
    rw [natural?_natural]
    rfl

/-! ### Tables -/

/-- The field has no separator in it. -/
def Plain (field : List Char) : Prop := ',' ∉ field ∧ '\n' ∉ field

instance (field : List Char) : Decidable (Plain field) := by unfold Plain; infer_instance

theorem plain_natural (n : ℕ) : Plain (natural n) :=
  ⟨fun h => absurd (isDigit_of_mem_natural h) (by decide),
    fun h => absurd (isDigit_of_mem_natural h) (by decide)⟩

theorem plain_integer (z : ℤ) : Plain (integer z) := by
  cases z with
  | ofNat n => exact plain_natural n
  | negSucc n =>
    obtain ⟨hcomma, hnewline⟩ := plain_natural (n + 1)
    exact ⟨fun h => hcomma (List.mem_of_ne_of_mem (by decide) h),
      fun h => hnewline (List.mem_of_ne_of_mem (by decide) h)⟩

/-- A row with the newline at its end. -/
def row (fields : List (List Char)) : List Char := List.intercalate [','] fields ++ ['\n']

def write (rows : List (List (List Char))) : List Char := rows.flatMap row

/-- The lines of a text.  A newline at its end begins no line. -/
def lines (text : List Char) : List (List Char) :=
  let ls := text.splitOn '\n'
  if ls.getLast? = some [] then ls.dropLast else ls

def read (text : List Char) : List (List (List Char)) := (lines text).map fun l => l.splitOn ','

theorem not_mem_intercalate {c : Char} (hc : c ≠ ',') {fields : List (List Char)}
    (h : ∀ f ∈ fields, c ∉ f) : c ∉ List.intercalate [','] fields := by
  induction fields with
  | nil => exact List.not_mem_nil
  | cons f fields ih =>
    have hf := h f List.mem_cons_self
    have hfields := ih fun g hg => h g (List.mem_cons_of_mem _ hg)
    cases fields with
    | nil => simpa using hf
    | cons g fields =>
      rw [List.intercalate_cons_cons, List.mem_append, List.mem_append, List.mem_singleton]
      rintro ((hmem | hmem) | hmem)
      · exact hf hmem
      · exact hc hmem
      · exact hfields hmem

theorem splitOn_write {rows : List (List (List Char))} (h : ∀ r ∈ rows, ∀ f ∈ r, Plain f) :
    (write rows).splitOn '\n' = rows.map (List.intercalate [',']) ++ [[]] := by
  induction rows with
  | nil => rfl
  | cons r rows ih =>
    have hr : '\n' ∉ List.intercalate [','] r :=
      not_mem_intercalate (by decide) fun f hf => (h r List.mem_cons_self f hf).2
    have hcons : write (r :: rows) = List.intercalate [','] r ++ '\n' :: write rows := by
      unfold write row
      rw [List.flatMap_cons, List.append_assoc]
      rfl
    rw [hcons, List.splitOn_append_cons_self_of_not_mem hr,
      ih fun r' hr' => h r' (List.mem_cons_of_mem _ hr')]
    rfl

/-- **Reading a table undoes writing it.** -/
theorem read_write {rows : List (List (List Char))}
    (h : ∀ r ∈ rows, r ≠ [] ∧ ∀ f ∈ r, Plain f) : read (write rows) = rows := by
  have hlines : lines (write rows) = rows.map (List.intercalate [',']) := by
    unfold lines
    rw [splitOn_write fun r hr => (h r hr).2]
    dsimp only
    rw [if_pos List.getLast?_concat, List.dropLast_concat]
  unfold read
  rw [hlines, List.map_map]
  refine (List.map_congr_left fun r hr => ?_).trans (List.map_id rows)
  exact List.splitOn_intercalate ',' (fun f hf => ((h r hr).2 f hf).1) (h r hr).1

/-- Reading one by one what was written one by one. -/
theorem mapM_map {α β γ : Type} {f : β → Option γ} {h : α → β} {g : α → γ}
    (hf : ∀ x, f (h x) = some (g x)) (xs : List α) : (xs.map h).mapM f = some (xs.map g) := by
  induction xs with
  | nil => rfl
  | cons x xs ih =>
    rw [List.map_cons, List.mapM_cons, hf, ih]
    rfl

end Csv
