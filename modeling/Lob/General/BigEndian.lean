import Mathlib.Data.List.Induction
import Mathlib.Data.Nat.Notation
import Mathlib.Algebra.Order.Ring.Nat

/-!
# Big-endian numbers

The number that a list of bytes stands for, most significant byte first (`value`), and the `n`
bytes of a number (`encode`).
-/

namespace BigEndian

def value (bs : List UInt8) : ℕ := bs.foldl (fun n b => n * 256 + b.toNat) 0

/-- The last `n` bytes of the number `v`. -/
def encode : ℕ → ℕ → List UInt8
  | 0, _ => []
  | n + 1, v => encode n (v / 256) ++ [UInt8.ofNat v]

@[simp] theorem length_encode (n v : ℕ) : (encode n v).length = n := by
  induction n generalizing v with
  | zero => rfl
  | succ n ih => rw [encode, List.length_append, ih, List.length_singleton]

theorem value_concat (bs : List UInt8) (b : UInt8) :
    value (bs ++ [b]) = value bs * 256 + b.toNat := by
  unfold value
  rw [List.foldl_append]
  rfl

/-- **Round trip.** -/
theorem value_encode {n v : ℕ} (h : v < 256 ^ n) : value (encode n v) = v := by
  induction n generalizing v with
  | zero =>
    obtain rfl : v = 0 := Nat.lt_one_iff.mp h
    rfl
  | succ n ih =>
    have hdiv : v / 256 < 256 ^ n := Nat.div_lt_of_lt_mul (by rwa [Nat.pow_succ'] at h)
    rw [encode, value_concat, ih hdiv, UInt8.toNat_ofNat']
    exact Nat.div_add_mod' v 256

theorem value_lt (bs : List UInt8) : value bs < 256 ^ bs.length := by
  induction bs using List.reverseRecOn with
  | nil => exact Nat.one_pos
  | append_singleton bs b ih =>
    have hb := b.toNat_lt
    rw [value_concat, List.length_append, List.length_singleton, Nat.pow_succ]
    omega

/-- The other round trip: bytes are those of the number that they stand for. -/
theorem encode_value (bs : List UInt8) : encode bs.length (value bs) = bs := by
  induction bs using List.reverseRecOn with
  | nil => rfl
  | append_singleton bs b ih =>
    have hb := b.toNat_lt
    have hdiv : (value bs * 256 + b.toNat) / 256 = value bs := by omega
    have hlast : UInt8.ofNat (value bs * 256 + b.toNat) = b := by
      apply UInt8.toNat_inj.mp
      rw [UInt8.toNat_ofNat']
      omega
    rw [value_concat, List.length_append, List.length_singleton, encode, hdiv, hlast, ih]

/-- Bytes that do not overlap are added by a disjunction. -/
theorem or_eq_add {m n k : ℕ} (h : n < 2 ^ k) : m * 2 ^ k ||| n = m * 2 ^ k + n := by
  rw [Nat.mul_comm m, ← Nat.two_pow_add_eq_or_of_lt h]

end BigEndian
