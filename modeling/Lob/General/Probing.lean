import Mathlib.Data.Nat.Find
import Mathlib.Data.Nat.ModEq
import Mathlib.Data.Set.Basic
import Mathlib.Logic.Function.Basic

/-!
# Linear probing with backward-shift deletion

A table of `cap` positions is a function `t` from positions to optional entries; the probe for a
key `k` visits `home k`, `home k + 1`, … modulo `cap`.  `ProbedOn cap home t S` is the invariant
of linear probing for the entries at the positions in `S`: the positions from an entry's home up
to the entry are all occupied, and no key has two entries.

* `stops_of_entry`, `stops_of_absent`: where a probe stops.
* `ProbedOn.insert`: filling the position where the probe stops keeps the invariant.
* `ProbedOn.shift`: moving an entry one position back, into a hole it is not the home of, keeps
  the invariant for all positions but the new hole; `probedOn_shifted` is the run of such moves.
* `ProbedOn.vacate`: emptying the hole restores the invariant when no remaining entry's probe
  path runs through it (`Crosses`), and only then (`Crosses.stops`).
* `crosses_shifted_iff` says in terms of the table before the moves when that happens.
-/

namespace Probing

/-! ### Offsets modulo the capacity -/

theorem offset_inj {cap x c d : ℕ} (h : (x + c) % cap = (x + d) % cap) (hc : c < cap)
    (hd : d < cap) : c = d :=
  Nat.ModEq.eq_of_lt_of_lt (Nat.ModEq.add_left_cancel' x h) hc hd

theorem exists_offset {cap : ℕ} (x : ℕ) {j : ℕ} (hj : j < cap) : ∃ d < cap, (x + d) % cap = j := by
  have hr : x % cap < cap := Nat.mod_lt _ (by omega)
  rcases le_or_gt (x % cap) j with h | h
  · refine ⟨j - x % cap, by omega, ?_⟩
    rw [← Nat.mod_add_mod, show x % cap + (j - x % cap) = j by omega, Nat.mod_eq_of_lt hj]
  · -- round the end of the table
    refine ⟨cap - x % cap + j, by omega, ?_⟩
    rw [← Nat.mod_add_mod, show x % cap + (cap - x % cap + j) = j + cap by omega,
      Nat.add_mod_right, Nat.mod_eq_of_lt hj]

theorem mod_eq_of_succ {cap x y : ℕ} (h : (x + 1) % cap = (y + 1) % cap) : x % cap = y % cap :=
  Nat.ModEq.add_right_cancel' 1 h

variable {K V : Type*} {cap : ℕ} {home : K → ℕ} {t : ℕ → Option (K × V)}

/-! ### The invariant -/

structure ProbedOn (cap : ℕ) (home : K → ℕ) (t : ℕ → Option (K × V)) (S : Set ℕ) : Prop where
  /-- The probe for an entry's key gets to the entry over occupied positions. -/
  reach : ∀ j ∈ S, j < cap → ∀ k v, t j = some (k, v) →
    ∃ d < cap, (home k + d) % cap = j ∧ ∀ c < d, t ((home k + c) % cap) ≠ none
  unique : ∀ i ∈ S, ∀ j ∈ S, i < cap → j < cap → ∀ k v w,
    t i = some (k, v) → t j = some (k, w) → i = j

/-- Key `k` is bound to `v` by an entry at a position in `S`. -/
def Holds (cap : ℕ) (t : ℕ → Option (K × V)) (S : Set ℕ) (k : K) (v : V) : Prop :=
  ∃ j ∈ S, j < cap ∧ t j = some (k, v)

/-- The probe for `k` stops after `d` steps: at an empty position or at an entry for `k`. -/
structure Stops (cap : ℕ) (home : K → ℕ) (t : ℕ → Option (K × V)) (k : K) (d : ℕ) : Prop where
  lt : d < cap
  stop : ∀ k' v, t ((home k + d) % cap) = some (k', v) → k' = k
  before : ∀ c < d, ∃ k' v, t ((home k + c) % cap) = some (k', v) ∧ k' ≠ k

/-- Before an entry, its probe path holds entries for other keys only. -/
theorem ProbedOn.path_ne {S : Set ℕ} (hp : ProbedOn cap home t S) {j : ℕ} (hjS : j ∈ S)
    (hj : j < cap) {k : K} {v : V} (ht : t j = some (k, v)) {c d : ℕ} (hd : d < cap)
    (hdj : (home k + d) % cap = j) (hc : c < d) (hcS : (home k + c) % cap ∈ S) :
    ∃ k' v', t ((home k + c) % cap) = some (k', v') ∧ k' ≠ k := by
  obtain ⟨d', hd', hd'j, hpath⟩ := hp.reach j hjS hj k v ht
  obtain rfl := offset_inj (hd'j.trans hdj.symm) hd' hd
  obtain ⟨⟨k', v'⟩, hkv⟩ := Option.ne_none_iff_exists'.mp (hpath c hc)
  refine ⟨k', v', hkv, ?_⟩
  -- a second entry for the key would be the entry itself
  rintro rfl
  have hlt : (home k' + c) % cap < cap := Nat.mod_lt _ (by omega)
  have heq := hp.unique _ hcS j hjS hlt hj k' v' v hkv ht
  have := offset_inj (heq.trans hdj.symm) (by omega) hd
  omega

theorem stops_of_entry (hp : ProbedOn cap home t Set.univ) {j : ℕ} (hj : j < cap) {k : K} {v : V}
    (ht : t j = some (k, v)) : ∃ d, Stops cap home t k d ∧ (home k + d) % cap = j := by
  obtain ⟨d, hd, hdj, -⟩ := hp.reach j trivial hj k v ht
  refine ⟨d, ⟨hd, ?_, ?_⟩, hdj⟩
  · intro k' v' h
    rw [hdj, ht] at h
    simp_all
  · exact fun c hc => hp.path_ne trivial hj ht hd hdj hc trivial

/-- The probe for a key that has no entry stops at an empty position, if there is one. -/
theorem stops_of_absent {k : K} (habs : ∀ v, ¬Holds cap t Set.univ k v) {e : ℕ} (he : e < cap)
    (hte : t e = none) : ∃ d, Stops cap home t k d ∧ t ((home k + d) % cap) = none := by
  classical
  have hex : ∃ d, t ((home k + d) % cap) = none := by
    obtain ⟨d, -, hd⟩ := exists_offset (home k) he
    exact ⟨d, by rw [hd, hte]⟩
  obtain ⟨d₀, hd₀, he₀⟩ := exists_offset (home k) he
  have hle : Nat.find hex ≤ d₀ := Nat.find_min' hex (by rw [he₀, hte])
  refine ⟨Nat.find hex, ⟨by omega, ?_, ?_⟩, Nat.find_spec hex⟩
  · intro k' v h
    rw [Nat.find_spec hex] at h
    exact absurd h (by simp)
  · intro c hc
    obtain ⟨⟨k', v⟩, hkv⟩ := Option.ne_none_iff_exists'.mp (Nat.find_min hex hc)
    refine ⟨k', v, hkv, ?_⟩
    rintro rfl
    exact habs v ⟨_, trivial, Nat.mod_lt _ (by omega), hkv⟩

/-! ### Insertion -/

/-- With an entry put where the probe for its key has stopped, the probe stops there again. -/
theorem Stops.update {k : K} {d : ℕ} (h : Stops cap home t k d) (v : V) :
    Stops cap home (Function.update t ((home k + d) % cap) (some (k, v))) k d := by
  refine ⟨h.lt, fun k' v' hk => ?_, fun c hc => ?_⟩
  · rw [Function.update_self] at hk
    cases hk
    rfl
  · obtain ⟨k', v', hk, hne⟩ := h.before c hc
    have hpos : (home k + c) % cap ≠ (home k + d) % cap := fun heq =>
      hc.ne (offset_inj heq (hc.trans h.lt) h.lt)
    exact ⟨k', v', by rw [Function.update_of_ne hpos, hk], hne⟩

theorem ProbedOn.insert (hp : ProbedOn cap home t Set.univ) {k : K} {d : ℕ}
    (hs : Stops cap home t k d) (habs : ∀ v, ¬Holds cap t Set.univ k v) (v : V) :
    ProbedOn cap home (Function.update t ((home k + d) % cap) (some (k, v))) Set.univ := by
  set p := (home k + d) % cap with hpdef
  have hmono : ∀ x, t x ≠ none → Function.update t p (some (k, v)) x ≠ none := by
    intro x hx
    by_cases hxp : x = p
    · simp [hxp]
    · rwa [Function.update_of_ne hxp]
  constructor
  · intro j _ hj k' v' h
    by_cases hjp : j = p
    · -- the new entry: its path is that of the probe
      rw [hjp, Function.update_self, Option.some.injEq, Prod.mk.injEq] at h
      obtain ⟨rfl, rfl⟩ := h
      refine ⟨d, hs.lt, by rw [hjp], fun c hc => hmono _ ?_⟩
      obtain ⟨k'', v'', hkv, -⟩ := hs.before c hc
      simp [hkv]
    · rw [Function.update_of_ne hjp] at h
      obtain ⟨d', hd', hd'j, hpath⟩ := hp.reach j trivial hj k' v' h
      exact ⟨d', hd', hd'j, fun c hc => hmono _ (hpath c hc)⟩
  · intro i _ j _ hi hj k' v₁ v₂ h₁ h₂
    by_cases hip : i = p <;> by_cases hjp : j = p
    · rw [hip, hjp]
    · rw [hip, Function.update_self, Option.some.injEq, Prod.mk.injEq] at h₁
      rw [Function.update_of_ne hjp, ← h₁.1] at h₂
      exact absurd ⟨j, trivial, hj, h₂⟩ (habs v₂)
    · rw [hjp, Function.update_self, Option.some.injEq, Prod.mk.injEq] at h₂
      rw [Function.update_of_ne hip, ← h₂.1] at h₁
      exact absurd ⟨i, trivial, hi, h₁⟩ (habs v₁)
    · rw [Function.update_of_ne hip] at h₁
      rw [Function.update_of_ne hjp] at h₂
      exact hp.unique i trivial j trivial hi hj k' v₁ v₂ h₁ h₂

theorem holds_insert {p : ℕ} (hp : p < cap) (hnone : t p = none) {k : K} (v : V) {k' : K} {v' : V} :
    Holds cap (Function.update t p (some (k, v))) Set.univ k' v' ↔
      (k' = k ∧ v' = v) ∨ Holds cap t Set.univ k' v' := by
  constructor
  · rintro ⟨j, -, hj, h⟩
    by_cases hjp : j = p
    · rw [hjp, Function.update_self, Option.some.injEq, Prod.mk.injEq] at h
      exact Or.inl ⟨h.1.symm, h.2.symm⟩
    · rw [Function.update_of_ne hjp] at h
      exact Or.inr ⟨j, trivial, hj, h⟩
  · rintro (⟨rfl, rfl⟩ | ⟨j, -, hj, h⟩)
    · exact ⟨p, trivial, hp, Function.update_self ..⟩
    · refine ⟨j, trivial, hj, ?_⟩
      rw [Function.update_of_ne]
      · exact h
      · rintro rfl
        rw [hnone] at h
        exact absurd h (by simp)

/-! ### Moving an entry into the hole before it -/

/-- An entry that is not in its home position moves back into a hole; the hole counts as occupied
until it is vacated. -/
theorem ProbedOn.shift {h : ℕ} (hp : ProbedOn cap home t {h}ᶜ) (hh : h < cap) (hocc : t h ≠ none)
    {k : K} {v : V} (hn : t ((h + 1) % cap) = some (k, v))
    (hne : home k % cap ≠ (h + 1) % cap) :
    ProbedOn cap home (Function.update t h (t ((h + 1) % cap))) {(h + 1) % cap}ᶜ := by
  set n := (h + 1) % cap with hndef
  have hnlt : n < cap := Nat.mod_lt _ (by omega)
  -- in a table of one position every entry is in its home position
  have hnh : n ≠ h := by
    intro heq
    have h1 : (h + 1) % cap = (h + 0) % cap := by
      rw [← hndef, heq, Nat.add_zero, Nat.mod_eq_of_lt hh]
    rcases Nat.lt_or_ge 1 cap with h2 | h2
    · exact absurd (offset_inj h1 h2 (by omega)) (by omega)
    · have : cap = 1 := by omega
      subst this
      exact hne (by rw [Nat.mod_one, hndef, Nat.mod_one])
  -- no position becomes empty, so that the paths of the other entries stay as they are
  have hsome : ∀ x, Function.update t h (t n) x ≠ none ↔ t x ≠ none := by
    intro x
    by_cases hx : x = h
    · subst hx; simp [hn, hocc]
    · rw [Function.update_of_ne hx]
  constructor
  · intro j hjn hj k' v' ht
    by_cases hjh : j = h
    · -- the moved entry: its path is one step shorter
      rw [hjh, Function.update_self, hn, Option.some.injEq, Prod.mk.injEq] at ht
      obtain ⟨rfl, rfl⟩ := ht
      obtain ⟨d, hd, hdn, hpath⟩ := hp.reach n hnh hnlt k v hn
      obtain ⟨d, rfl⟩ : ∃ d', d = d' + 1 := by
        refine ⟨d - 1, ?_⟩
        rcases Nat.eq_zero_or_pos d with rfl | hpos
        · exact absurd hdn (by simpa using hne)
        · omega
      refine ⟨d, by omega, ?_, fun c hc => (hsome _).mpr (hpath c (by omega))⟩
      have hd1 : (home k + d) % cap = h % cap := mod_eq_of_succ (by rw [Nat.add_assoc, hdn])
      rw [hjh, hd1, Nat.mod_eq_of_lt hh]
    · rw [Function.update_of_ne hjh] at ht
      obtain ⟨d, hd, hdj, hpath⟩ := hp.reach j hjh hj k' v' ht
      exact ⟨d, hd, hdj, fun c hc => (hsome _).mpr (hpath c hc)⟩
  · intro i hin j hjn hi hj k' v₁ v₂ h₁ h₂
    by_cases hih : i = h <;> by_cases hjh : j = h
    · rw [hih, hjh]
    · rw [hih, Function.update_self] at h₁
      rw [Function.update_of_ne hjh] at h₂
      exact absurd (hp.unique n hnh j hjh hnlt hj k' v₁ v₂ h₁ h₂).symm hjn
    · rw [hjh, Function.update_self] at h₂
      rw [Function.update_of_ne hih] at h₁
      exact absurd (hp.unique i hih n hnh hi hnlt k' v₁ v₂ h₁ h₂) hin
    · rw [Function.update_of_ne hih] at h₁
      rw [Function.update_of_ne hjh] at h₂
      exact hp.unique i hih j hjh hi hj k' v₁ v₂ h₁ h₂

theorem holds_shift {h : ℕ} (hh : h < cap) (hne : (h + 1) % cap ≠ h) {k : K} {v : V} :
    Holds cap (Function.update t h (t ((h + 1) % cap))) {(h + 1) % cap}ᶜ k v ↔
      Holds cap t {h}ᶜ k v := by
  have hlt : (h + 1) % cap < cap := Nat.mod_lt _ (by omega)
  constructor
  · rintro ⟨j, hjn, hj, ht⟩
    by_cases hjh : j = h
    · rw [hjh, Function.update_self] at ht
      exact ⟨_, hne, hlt, ht⟩
    · rw [Function.update_of_ne hjh] at ht
      exact ⟨j, hjh, hj, ht⟩
  · rintro ⟨j, hjh, hj, ht⟩
    by_cases hjn : j = (h + 1) % cap
    · exact ⟨h, fun hh' => hne hh'.symm, hh, by rw [Function.update_self, ← hjn, ht]⟩
    · exact ⟨j, hjn, hj, by rw [Function.update_of_ne hjh, ht]⟩

/-! ### Vacating the hole -/

/-- The probe path of an entry outside `h` runs through `h`. -/
def Crosses (cap : ℕ) (home : K → ℕ) (t : ℕ → Option (K × V)) (h : ℕ) : Prop :=
  ∃ k v c d, c < d ∧ d < cap ∧ t ((home k + d) % cap) = some (k, v) ∧ (home k + c) % cap = h

theorem ProbedOn.vacate {h : ℕ} (hp : ProbedOn cap home t {h}ᶜ) (hc : ¬Crosses cap home t h) :
    ProbedOn cap home (Function.update t h none) Set.univ := by
  have hne : ∀ {j : ℕ} {e : K × V}, Function.update t h none j = some e → j ≠ h := by
    rintro j e ht rfl
    simp at ht
  constructor
  · intro j _ hj k v ht
    have hjh := hne ht
    rw [Function.update_of_ne hjh] at ht
    obtain ⟨d, hd, hdj, hpath⟩ := hp.reach j hjh hj k v ht
    refine ⟨d, hd, hdj, fun c hcd => ?_⟩
    rw [Function.update_of_ne]
    · exact hpath c hcd
    · exact fun heq => hc ⟨k, v, c, d, hcd, hd, by rw [hdj, ht], heq⟩
  · intro i _ j _ hi hj k v w h₁ h₂
    have hih := hne h₁
    have hjh := hne h₂
    rw [Function.update_of_ne hih] at h₁
    rw [Function.update_of_ne hjh] at h₂
    exact hp.unique i hih j hjh hi hj k v w h₁ h₂

theorem holds_vacate {h : ℕ} {k : K} {v : V} :
    Holds cap (Function.update t h none) Set.univ k v ↔ Holds cap t {h}ᶜ k v := by
  constructor
  · rintro ⟨j, -, hj, ht⟩
    by_cases hjh : j = h
    · rw [hjh, Function.update_self] at ht
      exact absurd ht (by simp)
    · exact ⟨j, hjh, hj, by rwa [Function.update_of_ne hjh] at ht⟩
  · rintro ⟨j, hjh, hj, ht⟩
    exact ⟨j, trivial, hj, by rwa [Function.update_of_ne hjh]⟩

/-- If a path runs through the hole, then the probe for that entry's key stops at the hole once
it is vacated, short of the entry. -/
theorem Crosses.stops {h : ℕ} (hp : ProbedOn cap home t {h}ᶜ) (hc : Crosses cap home t h) :
    ∃ k v d, Holds cap t {h}ᶜ k v ∧ Stops cap home (Function.update t h none) k d ∧
      (home k + d) % cap = h := by
  obtain ⟨k, v, c, d, hcd, hd, ht, hch⟩ := hc
  have hdne : (home k + d) % cap ≠ h := by
    intro heq
    have := offset_inj (hch.trans heq.symm) (by omega) hd
    omega
  have hdlt : (home k + d) % cap < cap := Nat.mod_lt _ (by omega)
  refine ⟨k, v, c, ⟨_, hdne, hdlt, ht⟩, ⟨by omega, ?_, ?_⟩, hch⟩
  · intro k' v' hk
    rw [hch, Function.update_self] at hk
    exact absurd hk (by simp)
  · intro c' hc'
    have hne : (home k + c') % cap ≠ h := by
      intro heq
      have := offset_inj (heq.trans hch.symm) (by omega) (by omega : c < cap)
      omega
    rw [Function.update_of_ne hne]
    exact hp.path_ne hdne hdlt ht hd rfl (by omega) hne

/-! ### The run of moves of one deletion -/

/-- The table after the entries at offsets `1, …, m` from `i` have each moved one position
back; the hole is then at offset `m`. -/
def shifted (cap : ℕ) (t : ℕ → Option (K × V)) (i : ℕ) : ℕ → ℕ → Option (K × V)
  | 0 => t
  | m + 1 =>
    Function.update (shifted cap t i m) ((i + m) % cap) (shifted cap t i m ((i + m + 1) % cap))

/-- The entry at position `x` may move back: it is not in its home position. -/
def Movable (cap : ℕ) (home : K → ℕ) (t : ℕ → Option (K × V)) (x : ℕ) : Prop :=
  ∃ k v, t x = some (k, v) ∧ home k % cap ≠ x

theorem shifted_of_ge {i m b : ℕ} (hb : m ≤ b) (hbc : b < cap) :
    shifted cap t i m ((i + b) % cap) = t ((i + b) % cap) := by
  induction m with
  | zero => rfl
  | succ m ih =>
    rw [shifted, Function.update_of_ne, ih (by omega)]
    intro heq
    have := offset_inj heq hbc (by omega)
    omega

theorem shifted_of_lt {i m b : ℕ} (hb : b < m) (hm : m < cap) :
    shifted cap t i m ((i + b) % cap) = t ((i + b + 1) % cap) := by
  induction m with
  | zero => omega
  | succ m ih =>
    rcases Nat.lt_succ_iff_lt_or_eq.mp hb with hlt | rfl
    · -- the last move writes to offset `m`
      rw [shifted, Function.update_of_ne, ih hlt (by omega)]
      intro heq
      have := offset_inj heq (by omega) (by omega)
      omega
    · rw [shifted, Function.update_self, Nat.add_assoc, shifted_of_ge (by omega) hm]

/-- The positions that the moves touch are occupied. -/
theorem ne_none_of_movable {i m : ℕ} (h0 : t (i % cap) ≠ none)
    (hmov : ∀ c, 0 < c → c ≤ m → Movable cap home t ((i + c) % cap)) {c : ℕ} (hc : c ≤ m) :
    t ((i + c) % cap) ≠ none := by
  rcases Nat.eq_zero_or_pos c with rfl | hpos
  · exact h0
  · obtain ⟨k, v, hkv, -⟩ := hmov c hpos hc
    simp [hkv]

/-- The moves leave the hole occupied, and change no position from empty to occupied or back. -/
theorem shifted_ne_none_iff {i m : ℕ} (hm : m < cap) (h0 : t (i % cap) ≠ none)
    (hmov : ∀ c, 0 < c → c ≤ m → Movable cap home t ((i + c) % cap)) (x : ℕ) (hx : x < cap) :
    shifted cap t i m x ≠ none ↔ t x ≠ none := by
  obtain ⟨b, hb, rfl⟩ := exists_offset i hx
  have hocc : ∀ c ≤ m, t ((i + c) % cap) ≠ none := fun c => ne_none_of_movable h0 hmov
  rcases Nat.lt_or_ge b m with hlt | hge
  · rw [shifted_of_lt hlt hm]
    exact iff_of_true (by simpa [Nat.add_assoc] using hocc (b + 1) hlt) (hocc b hlt.le)
  · rw [shifted_of_ge hge hb]

theorem probedOn_shifted (hp : ProbedOn cap home t Set.univ) {i m : ℕ} (hm : m < cap)
    (h0 : t (i % cap) ≠ none)
    (hmov : ∀ c, 0 < c → c ≤ m → Movable cap home t ((i + c) % cap)) :
    ProbedOn cap home (shifted cap t i m) {(i + m) % cap}ᶜ := by
  induction m with
  | zero =>
    exact ⟨fun j _ => hp.reach j trivial, fun i _ j _ => hp.unique i trivial j trivial⟩
  | succ m ih =>
    have hm' : m < cap := by omega
    have ihm := ih hm' fun c h1 h2 => hmov c h1 (by omega)
    obtain ⟨k, v, hkv, hne⟩ := hmov (m + 1) (by omega) le_rfl
    have hlt : (i + m) % cap < cap := Nat.mod_lt _ (by omega)
    have hnext : ((i + m) % cap + 1) % cap = (i + m + 1) % cap := Nat.mod_add_mod ..
    -- the hole was an entry that has moved, or the deleted one
    have hocc : shifted cap t i m ((i + m) % cap) ≠ none :=
      (shifted_ne_none_iff hm' h0 (fun c h1 h2 => hmov c h1 (by omega)) _ hlt).mpr
        (ne_none_of_movable h0 hmov (by omega))
    have hn : shifted cap t i m (((i + m) % cap + 1) % cap) = some (k, v) := by
      rw [hnext, Nat.add_assoc, shifted_of_ge (by omega) hm, hkv]
    have := ihm.shift hlt hocc hn (by rw [hnext, Nat.add_assoc]; exact hne)
    rwa [hnext] at this

theorem holds_shifted {i m : ℕ} (hm : m < cap) {k : K} {v : V} :
    Holds cap (shifted cap t i m) {(i + m) % cap}ᶜ k v ↔ Holds cap t {i % cap}ᶜ k v := by
  induction m with
  | zero => rfl
  | succ m ih =>
    rw [← ih (by omega)]
    have hlt : (i + m) % cap < cap := Nat.mod_lt _ (by omega)
    have hnext : ((i + m) % cap + 1) % cap = (i + m + 1) % cap := Nat.mod_add_mod ..
    have hne : ((i + m) % cap + 1) % cap ≠ (i + m) % cap := by
      rw [hnext, Nat.add_assoc]
      intro heq
      have := offset_inj heq hm (by omega)
      omega
    have := holds_shift (t := shifted cap t i m) (k := k) (v := v) hlt hne
    rwa [hnext] at this

/-- Deleting the entry at `i` removes the binding of its key and no other. -/
theorem holds_delete (hp : ProbedOn cap home t Set.univ) {i : ℕ} (hi : i < cap) {k₀ : K} {v₀ : V}
    (h0 : t i = some (k₀, v₀)) {k : K} {v : V} :
    Holds cap t {i}ᶜ k v ↔ Holds cap t Set.univ k v ∧ k ≠ k₀ := by
  constructor
  · rintro ⟨j, hji, hj, ht⟩
    refine ⟨⟨j, trivial, hj, ht⟩, ?_⟩
    -- the deleted entry is the only one for its key
    rintro rfl
    exact hji (hp.unique j trivial i trivial hj hi k v v₀ ht h0)
  · rintro ⟨⟨j, -, hj, ht⟩, hne⟩
    refine ⟨j, ?_, hj, ht⟩
    rintro rfl
    rw [h0, Option.some.injEq, Prod.mk.injEq] at ht
    exact hne ht.1.symm

/-- A path that runs through the hole does not come all the way round: it would meet the empty
position. -/
theorem ProbedOn.lt_of_crosses {i m : ℕ}
    (hp : ProbedOn cap home (shifted cap t i m) {(i + m) % cap}ᶜ)
    (h0 : t (i % cap) ≠ none)
    (hmov : ∀ c, 0 < c → c ≤ m → Movable cap home t ((i + c) % cap))
    {e : ℕ} (he : e < cap) (hte : t e = none) {k : K} {v : V} {c d : ℕ} (hcd : c < d)
    (hd : d < cap) (ht : shifted cap t i m ((home k + d) % cap) = some (k, v))
    (hch : (home k + c) % cap = (i + m) % cap) : m + (d - c) < cap := by
  by_contra hge
  have hjne : (home k + d) % cap ∈ ({(i + m) % cap} : Set ℕ)ᶜ := by
    intro heq
    have := offset_inj (hch.trans heq.symm) (by omega) hd
    omega
  obtain ⟨d', hd', hd'j, hpath⟩ := hp.reach _ hjne (Nat.mod_lt _ (by omega)) k v ht
  obtain rfl := offset_inj hd'j hd' hd
  -- the empty position is one that no move touches, on the way from the hole to the entry
  obtain ⟨b, hb, rfl⟩ := exists_offset i he
  have hmb : m < b := not_le.mp fun hbm => ne_none_of_movable h0 hmov hbm hte
  have hstep : (home k + (c + (b - m))) % cap = (i + b) % cap := by
    have h1 : (home k + c + (b - m)) % cap = (i + m + (b - m)) % cap :=
      Nat.ModEq.add_right _ hch
    rw [← Nat.add_assoc, h1, show i + m + (b - m) = i + b by omega]
  apply hpath (c + (b - m)) (by omega)
  rw [hstep, shifted_of_ge hmb.le hb, hte]

/-- In a table with an empty position, the paths that run through the hole are those of entries
further on, at an offset `b > m`, that are at least `b - m` steps from home. -/
theorem crosses_shifted_iff (hp : ProbedOn cap home t Set.univ) {i m : ℕ} (hm : m < cap)
    (h0 : t (i % cap) ≠ none)
    (hmov : ∀ c, 0 < c → c ≤ m → Movable cap home t ((i + c) % cap))
    {e : ℕ} (he : e < cap) (hte : t e = none) :
    Crosses cap home (shifted cap t i m) ((i + m) % cap) ↔
      ∃ b, m < b ∧ b < cap ∧ ∃ k v d, d < cap ∧ t ((i + b) % cap) = some (k, v) ∧
        (home k + d) % cap = (i + b) % cap ∧ b - m ≤ d := by
  constructor
  · rintro ⟨k, v, c, d, hcd, hd, ht, hch⟩
    have hlt := (probedOn_shifted hp hm h0 hmov).lt_of_crosses h0 hmov he hte hcd hd ht hch
    -- the entry is `d - c` steps past the hole
    have hsteps : (home k + d) % cap = (i + (m + (d - c))) % cap := by
      have h1 : (home k + c + (d - c)) % cap = (i + m + (d - c)) % cap :=
        Nat.ModEq.add_right (d - c) hch
      rw [← Nat.add_assoc, ← h1, show home k + c + (d - c) = home k + d by omega]
    refine ⟨m + (d - c), by omega, hlt, k, v, d, hd, ?_, hsteps, by omega⟩
    rw [← shifted_of_ge (t := t) (i := i) (m := m) (by omega) hlt, ← hsteps, ht]
  · rintro ⟨b, hmb, hb, k, v, d, hd, ht, hdb, hle⟩
    refine ⟨k, v, d - (b - m), d, by omega, hd, ?_, ?_⟩
    · rw [hdb, shifted_of_ge hmb.le hb, ht]
    · have h1 : (home k + (d - (b - m)) + (b - m)) % cap = (i + m + (b - m)) % cap := by
        rw [show home k + (d - (b - m)) + (b - m) = home k + d by omega,
          show i + m + (b - m) = i + b by omega, hdb]
      exact Nat.ModEq.add_right_cancel' (b - m) h1

/-! ### Tables without collisions -/

/-- **Keys with different homes are at home**, in a table with an empty position: the entry that is
in the way of another one would itself be displaced, and so on back to the empty position. -/
theorem ProbedOn.at_home (hp : ProbedOn cap home t Set.univ) {e : ℕ} (he : e < cap)
    (hte : t e = none)
    (hapart : ∀ {k v k' v'}, Holds cap t Set.univ k v → Holds cap t Set.univ k' v' →
      home k % cap = home k' % cap → k = k')
    {j : ℕ} (hj : j < cap) {k : K} {v : V} (ht : t j = some (k, v)) : home k % cap = j := by
  obtain ⟨D, hD, hDj⟩ := exists_offset e hj
  -- the induction is on the distance from the empty position
  induction D using Nat.strong_induction_on generalizing j k v with
  | _ D ih =>
    obtain ⟨d, hd, hdj, hpath⟩ := hp.reach j trivial hj k v ht
    rcases Nat.eq_zero_or_pos d with rfl | hpos
    · rwa [Nat.add_zero] at hdj
    rcases Nat.lt_or_ge D d with hlt | hle
    · -- the path would run through the empty position
      refine absurd hte ?_
      have hcross : (home k + (d - D) + D) % cap = (e + D) % cap := by
        rw [hDj, show home k + (d - D) + D = home k + d by omega, hdj]
      have hmeet : (home k + (d - D)) % cap = e % cap := Nat.ModEq.add_right_cancel' D hcross
      rw [← Nat.mod_eq_of_lt he, ← hmeet]
      refine hpath (d - D) (Nat.sub_lt hpos (Nat.pos_of_ne_zero ?_))
      rintro rfl
      rw [← hDj, Nat.add_zero, Nat.mod_eq_of_lt he, hte] at ht
      cases ht
    · -- the home of the key is taken by an entry that is nearer to the empty position
      have hback : home k % cap = (e + (D - d)) % cap := by
        refine Nat.ModEq.add_right_cancel' d ?_
        show (home k + d) % cap = (e + (D - d) + d) % cap
        rw [show e + (D - d) + d = e + D by omega, hdj, hDj]
      have hlt : home k % cap < cap := Nat.mod_lt _ (by omega)
      obtain ⟨⟨k', v'⟩, ht'⟩ := Option.ne_none_iff_exists'.mp (hpath 0 hpos)
      rw [Nat.add_zero] at ht'
      have hhome := ih (D - d) (by omega) hlt ht' (by omega) hback.symm
      obtain rfl := hapart ⟨_, trivial, hj, ht⟩ ⟨_, trivial, hlt, ht'⟩ hhome.symm
      exact hp.unique _ trivial j trivial hlt hj k v' v ht' ht

end Probing
