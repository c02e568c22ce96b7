import Lob.Types
import Mathlib.Logic.Function.Basic
import Mathlib.Order.Bounds.Defs

/-!
# `Bitmap`

The dense bitmap of `bitmap.hpp`, an array of 64-bit words.  `countr_zero` and `countl_zero` are
`BitVec.ctz` and `BitVec.clz`.
-/

namespace Lob

structure Bitmap where
  numWords : ℕ
  words : ℕ → BitVec 64

namespace Bitmap

def kNotFound : ℕ := sizeMax

/-- The sum is one of `std::size_t`. -/
def new (numBits : ℕ) : Bitmap := ⟨(numBits + 63) % 2 ^ 64 / 64, fun _ => 0⟩

def set (b : Bitmap) (idx : ℕ) : Bitmap :=
  { b with
    words := Function.update b.words (idx >>> 6)
      (b.words (idx >>> 6) ||| (1#64 <<< (idx &&& 63))) }

def clear (b : Bitmap) (idx : ℕ) : Bitmap :=
  { b with
    words := Function.update b.words (idx >>> 6)
      (b.words (idx >>> 6) &&& ~~~(1#64 <<< (idx &&& 63))) }

def test (b : Bitmap) (idx : ℕ) : Bool := (b.words (idx >>> 6) >>> (idx &&& 63)).getLsbD 0

/-- The loop of `find_next_set`, with `bits` the part of word `w` still to be looked at.  The
first argument bounds the number of words to come. -/
def scanUp (b : Bitmap) : ℕ → ℕ → BitVec 64 → ℕ
  | 0, _, _ => kNotFound
  | n + 1, w, bits =>
    if bits = 0 then
      if w + 1 ≥ b.numWords then kNotFound else b.scanUp n (w + 1) (b.words (w + 1))
    else (w <<< 6) + bits.ctz.toNat

/-- The smallest set index `≥ start`, or `kNotFound`. -/
def findNextSet (b : Bitmap) (start : ℕ) : ℕ :=
  let w := start >>> 6
  if w ≥ b.numWords then kNotFound
  else b.scanUp b.numWords w (b.words w &&& (BitVec.allOnes 64 <<< (start &&& 63)))

/-- The loop of `find_prev_set`. -/
def scanDown (b : Bitmap) : ℕ → BitVec 64 → ℕ
  | 0, bits => if bits = 0 then kNotFound else (0 <<< 6) + 63 - bits.clz.toNat
  | w + 1, bits =>
    if bits = 0 then b.scanDown w (b.words w) else ((w + 1) <<< 6) + 63 - bits.clz.toNat

/-- The largest set index `≤ start`, or `kNotFound`. -/
def findPrevSet (b : Bitmap) (start : ℕ) : ℕ :=
  let w := start >>> 6
  if w ≥ b.numWords then
    if b.numWords = 0 then kNotFound
    else b.scanDown (b.numWords - 1) (b.words (b.numWords - 1))
  else
    let mask : BitVec 64 :=
      if start &&& 63 = 63 then BitVec.allOnes 64 else (1#64 <<< ((start &&& 63) + 1)) - 1#64
    b.scanDown w (b.words w &&& mask)

/-! ### Runs -/

/-- A call that changes the bitmap. -/
inductive Call where
  | set (idx : ℕ)
  | clear (idx : ℕ)
  deriving DecidableEq, Repr

def Call.idx : Call → ℕ
  | .set idx => idx
  | .clear idx => idx

def call (b : Bitmap) : Call → Bitmap
  | .set idx => b.set idx
  | .clear idx => b.clear idx

/-- A fresh bitmap after the calls `cs`. -/
def run (numBits : ℕ) (cs : List Call) : Bitmap := cs.foldl call (new numBits)

/-- The last of the calls `cs` on `idx` is `set`. -/
def IsSet (cs : List Call) (idx : ℕ) : Prop :=
  cs.reverse.find? (fun c => c.idx = idx) = some (.set idx)

instance (cs : List Call) (idx : ℕ) : Decidable (IsSet cs idx) :=
  inferInstanceAs (Decidable (_ = _))

/-- From `start`, the scans find what a search through the indices one by one finds, when those in
`S` are set. -/
structure Searches (b : Bitmap) (S : ℕ → Prop) (start : ℕ) : Prop where
  next : (∃ j, start ≤ j ∧ S j) → IsLeast {j | start ≤ j ∧ S j} (b.findNextSet start)
  next_none : b.findNextSet start = kNotFound ↔ ∀ j, start ≤ j → ¬S j
  prev : (∃ j, j ≤ start ∧ S j) → IsGreatest {j | j ≤ start ∧ S j} (b.findPrevSet start)
  prev_none : b.findPrevSet start = kNotFound ↔ ∀ j, j ≤ start → ¬S j

end Bitmap

end Lob
