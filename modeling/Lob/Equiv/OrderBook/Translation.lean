import Lob.Equiv.OrderBook.Mirror

/-!
# Prices that are shifted

A book whose base price is shifted by `d` answers calls whose prices are shifted by `d` alike, and
trades and shows levels at the shifted prices (`answers_translate`), as long as no limit that gets
to the pre-walk of fill-or-kill orders is `kInvalidPrice` before the shift or after it.  A limit of
`kInvalidPrice` is in range if the base price is negative, and the pre-walk takes it for a market
order (`fokBelowAsk_not_translated`).
-/

namespace Lob.OrderBook

variable {cfg : Config} {d : ℤ}

def shiftPrice (d : ℤ) (p : Price) : Price := Int32.ofInt (p.toInt + d)

def shiftConfig (cfg : Config) (d : ℤ) : Config :=
  { cfg with basePrice := shiftPrice d cfg.basePrice }

def shiftCall (d : ℤ) : Call → Call
  | .submit o => .submit { o with price := shiftPrice d o.price }
  | .cancel id => .cancel id
  | .reduce id delta => .reduce id delta
  | .modify id newQty newPrice ts => .modify id newQty (shiftPrice d newPrice) ts

def shiftTrade (d : ℤ) (t : Trade) : Trade := { t with price := shiftPrice d t.price }

def shiftSnapshot (d : ℤ) (l : LevelSnapshot) : LevelSnapshot :=
  { l with price := shiftPrice d l.price }

/-- The book `b'` is the book `b` at shifted prices. -/
structure Shifted {M : Type} (d : ℤ) (b b' : OrderBook M) : Prop where
  level_eq : ∀ s, ∀ i < b.cfg.numLevels, b'.level s i = b.level s i
  bestIdx_eq : ∀ s, b'.bestIdx s = b.bestIdx s
  best_eq : ∀ s, b.bestIdx s ≠ kNoBest → b'.best s = shiftPrice d (b.best s)
  totalAt_eq : ∀ s p, b'.totalAt s (shiftPrice d p) = b.totalAt s p
  topN_eq : ∀ s n, b'.topN s n = (b.topN s n).map (shiftSnapshot d)

/-- **The exception**: a limit that gets to the pre-walk is `kInvalidPrice` both before the shift
and after it, or neither. -/
def ShiftsLimit {M : Type} [IdMap M] (d : ℤ) (b : OrderBook M) : Call → Prop
  | .submit o => PreWalked b o → (shiftPrice d o.price = kInvalidPrice ↔ o.price = kInvalidPrice)
  | _ => True

/-- Both ranges of prices fit. -/
structure Fits (cfg : Config) (d : ℤ) : Prop where
  levels_lt : cfg.numLevels < 2 ^ 31
  last_lt : cfg.basePrice.toInt + cfg.numLevels ≤ 2 ^ 31
  le_base : -2 ^ 31 ≤ cfg.basePrice.toInt + d
  last_lt' : cfg.basePrice.toInt + d + cfg.numLevels ≤ 2 ^ 31

/-- The names of sides and levels stay. -/
def translate (h : Fits cfg d) : Relabel cfg (shiftConfig cfg d) where
  side := id
  level := id
  price := shiftPrice d
  numLevels_eq := rfl
  maxOrders_eq := rfl
  small := h.levels_lt.le
  priced _ hi := exists_atLevel h.last_lt hi
  side_opposite _ := rfl
  level_lt _ hi := hi
  level_onto j hj := ⟨j, hj, rfl⟩
  better_iff _ _ _ _ _ := Iff.rfl
  price_at p i hp := by
    have hi := hp.lt
    have hprice := hp.toInt_eq
    have hlow := h.le_base
    have hhigh := h.last_lt'
    refine ⟨hi, ?_⟩
    show (shiftPrice d p).toInt = (shiftPrice d cfg.basePrice).toInt + i
    rw [shiftPrice, shiftPrice, Int32.toInt_ofInt_of_le (by omega) (by omega),
      Int32.toInt_ofInt_of_le (by omega) (by omega)]
    omega
  at_price p j hp := by
    have hj : j < cfg.numLevels := hp.lt
    have hprice : (shiftPrice d p).toInt = (shiftPrice d cfg.basePrice).toInt + j := hp.toInt_eq
    have hlow := h.le_base
    have hhigh := h.last_lt'
    have hlast := h.last_lt
    have hbase := cfg.basePrice.le_toInt
    have hp₁ := p.le_toInt
    have hp₂ := p.toInt_lt
    -- the range does not wrap around before the shift, either
    rw [shiftPrice, shiftPrice, Int32.toInt_ofInt_of_le (n := cfg.basePrice.toInt + d) (by omega)
      (by omega), Int32.toInt_ofInt, Int.bmod_eq_emod, show Int32.size = 2 ^ 32 from rfl] at hprice
    refine ⟨j, hj, ?_⟩
    split_ifs at hprice <;> omega

variable {M : Type} {b b' : OrderBook M}

theorem Relabels.shifted {h : Fits cfg d} (hb : Relabels (translate h) b b') : Shifted d b b' := by
  refine ⟨fun s i hi => ?_, fun s => ?_, fun s hne => ?_, hb.totalAt_eq, hb.topN_eq⟩
  · exact hb.level_eq s i (hb.cfg_eq ▸ hi)
  · rcases hb.best_cases s with ⟨hno, hno'⟩ | ⟨i, -, hi, hi', -⟩
    · exact hno'.trans hno.symm
    · exact hi'.trans hi.symm
  · rcases hb.best_cases s with ⟨hno, -⟩ | ⟨i, -, -, -, hprice⟩
    · exact absurd hno hne
    · exact hprice

variable [IdMap M]

/-- **Shifted prices.**  If the calls `cs` return on a fresh book, and shift the limits of
fill-or-kill orders, then after each of them the shifted calls have returned the same on a book with
a shifted base price, with shifted trades, and the second book is the first one at shifted
prices. -/
theorem answers_translate (hfits : Fits cfg d) {cs pre : List Call}
    (hok : Throughout (ShiftsLimit d) (new cfg : OrderBook M) cs)
    {r : OrderBook M × List Answer} {ts : List Trade}
    (h : ((new cfg : OrderBook M).answers cs).run [] = .ok r ts) (hpre : pre <+: cs) :
    ∃ b as trades b', ((new cfg : OrderBook M).answers pre).run [] = .ok (b, as) trades ∧
      ((new (shiftConfig cfg d) : OrderBook M).answers (pre.map (shiftCall d))).run [] =
        .ok (b', as) (trades.map (shiftTrade d)) ∧ Shifted d b b' := by
  have hcall : relabelCall (translate hfits) = shiftCall d := by
    funext c
    cases c <;> rfl
  have hkind : SameLimitKind (translate hfits) (M := M) = ShiftsLimit d := by
    funext b c
    cases c <;> rfl
  rw [← hkind] at hok
  obtain ⟨b, as, trades, b', hrun, hrun', hbook⟩ := answers_relabel _ hok h hpre
  rw [hcall] at hrun'
  exact ⟨b, as, trades, b', hrun, hrun', hbook.shifted⟩

/-- The limit price of the call, if it has one, is in range. -/
def PricedIn (cfg : Config) : Call → Prop
  | .submit o => o.type ≠ .market → ∃ i, AtLevel cfg o.price i
  | .modify _ _ newPrice _ => ∃ i, AtLevel cfg newPrice i
  | _ => True

/-- Four levels, from price -1 on. -/
def negativeConfig : Config := { smallConfig with basePrice := -1 }

/-- An ask at 0, and a fill-or-kill bid below it that is not to be filled at 0. -/
def fokBelowAsk : List Call :=
  [.submit (gtcOrder 1 .sell 0 1), .submit { gtcOrder 2 .buy (-1) 1 with tif := .fok }]

/-- The bid rests, because the pre-walk looks at all asks.  Shifted by one, it is cancelled. -/
theorem fokBelowAsk_not_translated :
    ¬∀ (cfg : Config) (d : ℤ), Fits cfg d → ∀ cs : List Call, (∀ c ∈ cs, PricedIn cfg c) →
      ∀ (b : OrderBook PlainIdMap) (as : List Answer) (trades : List Trade),
        ((new cfg : OrderBook PlainIdMap).answers cs).run [] = .ok (b, as) trades →
        ∃ b', ((new (shiftConfig cfg d) : OrderBook PlainIdMap).answers
          (cs.map (shiftCall d))).run [] = .ok (b', as) (trades.map (shiftTrade d)) := by
  intro hall
  have hpriced : ∀ c ∈ fokBelowAsk, PricedIn negativeConfig c := by
    intro c hc
    simp only [fokBelowAsk, List.mem_cons, List.not_mem_nil, or_false] at hc
    rcases hc with rfl | rfl
    · exact fun _ => ⟨1, by decide, by decide⟩
    · exact fun _ => ⟨0, by decide, by decide⟩
  have hanswers : (new negativeConfig : OrderBook PlainIdMap).answered fokBelowAsk =
      some [.submitted ⟨.accepted, 0, 1⟩, .submitted ⟨.accepted, 0, 1⟩] := by decide
  have hanswers' : (new (shiftConfig negativeConfig 1) : OrderBook PlainIdMap).answered
      (fokBelowAsk.map (shiftCall 1)) =
        some [.submitted ⟨.accepted, 0, 1⟩, .submitted ⟨.cancelled, 0, 1⟩] := by decide
  obtain ⟨b, trades, hrun⟩ := answered_eq_some hanswers
  obtain ⟨b', hrun'⟩ := hall negativeConfig 1 ⟨by decide, by decide, by decide, by decide⟩ _
    hpriced b _ trades hrun
  rw [answered_of_run hrun'] at hanswers'
  exact absurd (Option.some.inj hanswers') (by decide)

/-- An ask, and a fill-or-kill bid at its price, in a range with negative prices. -/
def fokAtAsk : List Call :=
  [.submit (gtcOrder 1 .sell 1 5), .submit { gtcOrder 2 .buy 1 3 with tif := .fok }]

theorem fokAtAsk_answers_translate :
    ∃ (b : OrderBook PlainIdMap) (as : List Answer) (trades : List Trade)
      (b' : OrderBook PlainIdMap),
      ((new negativeConfig : OrderBook PlainIdMap).answers fokAtAsk).run [] =
        .ok (b, as) trades ∧
      ((new (shiftConfig negativeConfig 5) : OrderBook PlainIdMap).answers
        (fokAtAsk.map (shiftCall 5))).run [] =
          .ok (b', as) (trades.map (shiftTrade 5)) ∧ Shifted 5 b b' := by
  have hanswers : (new negativeConfig : OrderBook PlainIdMap).answered fokAtAsk =
      some [.submitted ⟨.accepted, 0, 5⟩, .submitted ⟨.fullyFilled, 3, 0⟩] := by decide
  have hok : Throughout (ShiftsLimit 5) (new negativeConfig : OrderBook PlainIdMap) fokAtAsk :=
    ⟨fun _ => by decide, fun _ _ _ _ _ => ⟨fun _ => by decide, fun _ _ _ _ _ => trivial⟩⟩
  obtain ⟨b, trades, hrun⟩ := answered_eq_some hanswers
  exact answers_translate ⟨by decide, by decide, by decide, by decide⟩ hok hrun
    (List.prefix_refl _)

end Lob.OrderBook
