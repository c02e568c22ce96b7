import Lob.Equiv.OrderBook.RelabelCalls

/-!
# The two sides mirror each other

`mirror` swaps the two sides and turns the range of prices around.  It is a relabelling, so that a
run on the mirrored calls answers them alike, trades alike, and shows the bids of the one book as
the asks of the other (`answers_mirror`).
-/

namespace Lob.OrderBook

variable {cfg : Config}

/-- The price at the same distance from the other end of the range. -/
def mirrorPrice (cfg : Config) (p : Price) : Price :=
  Int32.ofInt (2 * cfg.basePrice.toInt + cfg.numLevels - 1 - p.toInt)

def mirrorOrder (cfg : Config) (o : NewOrder) : NewOrder :=
  { o with side := opposite o.side, price := mirrorPrice cfg o.price }

def mirrorCall (cfg : Config) : Call → Call
  | .submit o => .submit (mirrorOrder cfg o)
  | .cancel id => .cancel id
  | .reduce id delta => .reduce id delta
  | .modify id newQty newPrice ts => .modify id newQty (mirrorPrice cfg newPrice) ts

def mirrorTrade (cfg : Config) (t : Trade) : Trade :=
  { t with price := mirrorPrice cfg t.price, aggressorSide := opposite t.aggressorSide }

def mirrorSnapshot (cfg : Config) (l : LevelSnapshot) : LevelSnapshot :=
  { l with price := mirrorPrice cfg l.price }

/-- What the book `b'` shows is the mirror image of what the book `b` shows. -/
structure MirrorImage {M : Type} (cfg : Config) (b b' : OrderBook M) : Prop where
  empty_iff : ∀ s, b'.best (opposite s) = kInvalidPrice ↔ b.best s = kInvalidPrice
  best_eq : ∀ s, b.best s ≠ kInvalidPrice → b'.best (opposite s) = mirrorPrice cfg (b.best s)
  totalAt_eq : ∀ s p, b'.totalAt (opposite s) (mirrorPrice cfg p) = b.totalAt s p
  topN_eq : ∀ s n, b'.topN (opposite s) n = (b.topN s n).map (mirrorSnapshot cfg)

/-! ### The relabelling -/

/-- The levels have prices. -/
theorem exists_atLevel (hfits : cfg.basePrice.toInt + cfg.numLevels ≤ 2 ^ 31) {i : ℕ}
    (hi : i < cfg.numLevels) : ∃ p, AtLevel cfg p i := by
  have hlow := cfg.basePrice.le_toInt
  exact ⟨Int32.ofInt (cfg.basePrice.toInt + i), hi, Int32.toInt_ofInt_of_le (by omega) (by omega)⟩

/-- The sides are swapped, and the levels are counted from the other end. -/
def mirror (cfg : Config) (hbase : 0 ≤ cfg.basePrice.toInt)
    (hfits : cfg.basePrice.toInt + cfg.numLevels ≤ 2 ^ 31) : Relabel cfg cfg where
  side := opposite
  level i := cfg.numLevels - 1 - i
  price := mirrorPrice cfg
  numLevels_eq := rfl
  maxOrders_eq := rfl
  small := by omega
  priced _ hi := exists_atLevel hfits hi
  side_opposite _ := rfl
  level_lt i hi := by omega
  level_onto j hj := ⟨cfg.numLevels - 1 - j, by omega, by omega⟩
  better_iff s i hi j hj := by
    cases s with
    | buy =>
      show cfg.numLevels - 1 - i < cfg.numLevels - 1 - j ↔ j < i
      omega
    | sell =>
      show cfg.numLevels - 1 - j < cfg.numLevels - 1 - i ↔ i < j
      omega
  price_at p i hp := by
    have hi := hp.lt
    have hprice := hp.toInt_eq
    refine ⟨by omega, ?_⟩
    rw [mirrorPrice, Int32.toInt_ofInt_of_le (by omega) (by omega)]
    omega
  at_price p j hp := by
    have hj := hp.lt
    have hprice := hp.toInt_eq
    have hlow := p.le_toInt
    have hhigh := p.toInt_lt
    -- a price out of range has no mirror image in range, as the range does not wrap around
    rw [mirrorPrice, Int32.toInt_ofInt, Int.bmod_eq_emod, show Int32.size = 2 ^ 32 from rfl]
      at hprice
    refine ⟨cfg.numLevels - 1 - j, by omega, ?_⟩
    split_ifs at hprice <;> omega

/-! ### Runs -/

variable {M : Type} {b b' : OrderBook M} {hbase : 0 ≤ cfg.basePrice.toInt}
  {hfits : cfg.basePrice.toInt + cfg.numLevels ≤ 2 ^ 31}

/-- Prices in range are not negative, so that none is `kInvalidPrice`. -/
theorem ne_invalid_of_atLevel (hbase : 0 ≤ cfg.basePrice.toInt) {p : Price} {i : ℕ}
    (hp : AtLevel cfg p i) : p ≠ kInvalidPrice := by
  rintro rfl
  have hprice := hp.toInt_eq
  have hinvalid : kInvalidPrice.toInt = -1 := rfl
  omega

theorem Relabels.mirrorImage (h : Relabels (mirror cfg hbase hfits) b b') :
    MirrorImage cfg b b' := by
  have hbest : ∀ s, (b'.best (opposite s) = kInvalidPrice ∧ b.best s = kInvalidPrice) ∨
      (b'.best (opposite s) = mirrorPrice cfg (b.best s) ∧ b.best s ≠ kInvalidPrice ∧
        b'.best (opposite s) ≠ kInvalidPrice) := by
    intro s
    rcases h.best_cases s with ⟨hno, hno'⟩ | ⟨i, hat, -, -, hprice⟩
    · exact Or.inl ⟨best_of_none hno', best_of_none hno⟩
    · refine Or.inr ⟨hprice, ne_invalid_of_atLevel hbase hat, ?_⟩
      have hat' := (mirror cfg hbase hfits).price_at _ i hat
      exact ne_invalid_of_atLevel hbase (hprice ▸ hat')
  refine ⟨fun s => ?_, fun s hne => ?_, h.totalAt_eq, h.topN_eq⟩
  · rcases hbest s with ⟨hempty', hempty⟩ | ⟨-, hne, hne'⟩
    · exact iff_of_true hempty' hempty
    · exact iff_of_false hne' hne
  · rcases hbest s with ⟨-, hempty⟩ | ⟨heq, -⟩
    · exact absurd hempty hne
    · exact heq

variable [IdMap M]

theorem relabelCall_mirror : relabelCall (mirror cfg hbase hfits) = mirrorCall cfg := by
  funext c
  cases c <;> rfl

/-- No limit that gets to the pre-walk is `kInvalidPrice`. -/
theorem sameLimitKind_mirror (b : OrderBook M) (hcfg : b.cfg = cfg) (c : Call) :
    SameLimitKind (mirror cfg hbase hfits) b c := by
  cases c with
  | submit o =>
    intro hwalk
    obtain ⟨i, hat⟩ := (inRange_iff hcfg (mirror cfg hbase hfits).small).mp hwalk.in_range
    exact iff_of_false
      (ne_invalid_of_atLevel hbase ((mirror cfg hbase hfits).price_at _ i hat))
      (ne_invalid_of_atLevel hbase hat)
  | cancel | reduce | modify => trivial

/-- **The two sides mirror each other.**  If the calls `cs` return on a fresh book, then after each
of them the mirrored calls have returned the same on another one, with the mirrored trades, and the
two books are mirror images. -/
theorem answers_mirror (hbase : 0 ≤ cfg.basePrice.toInt)
    (hfits : cfg.basePrice.toInt + cfg.numLevels ≤ 2 ^ 31) {cs pre : List Call}
    {r : OrderBook M × List Answer} {ts : List Trade}
    (h : ((new cfg : OrderBook M).answers cs).run [] = .ok r ts) (hpre : pre <+: cs) :
    ∃ b as trades b', ((new cfg : OrderBook M).answers pre).run [] = .ok (b, as) trades ∧
      ((new cfg : OrderBook M).answers (pre.map (mirrorCall cfg))).run [] =
        .ok (b', as) (trades.map (mirrorTrade cfg)) ∧ MirrorImage cfg b b' := by
  have hok : Throughout (SameLimitKind (mirror cfg hbase hfits)) (new cfg : OrderBook M) cs :=
    (relabels_new _).throughout fun b hcfg c _ => sameLimitKind_mirror b hcfg c
  obtain ⟨b, as, trades, b', hrun, hrun', hbook⟩ := answers_relabel _ hok h hpre
  rw [relabelCall_mirror] at hrun'
  exact ⟨b, as, trades, b', hrun, hrun', hbook.mirrorImage⟩

/-- A bid trades with an ask, which is moved then. -/
def movedAsk : List Call :=
  [.submit (gtcOrder 1 .sell 2 5), .submit (gtcOrder 2 .buy 2 3), .modify 1 1 3 0]

theorem movedAsk_answers_mirror :
    ∃ (b : OrderBook PlainIdMap) (as : List Answer) (trades : List Trade)
      (b' : OrderBook PlainIdMap),
      ((new smallConfig : OrderBook PlainIdMap).answers movedAsk).run [] = .ok (b, as) trades ∧
      ((new smallConfig : OrderBook PlainIdMap).answers
        (movedAsk.map (mirrorCall smallConfig))).run [] =
          .ok (b', as) (trades.map (mirrorTrade smallConfig)) ∧ MirrorImage smallConfig b b' := by
  have hanswers : (new smallConfig : OrderBook PlainIdMap).answered movedAsk =
      some [.submitted ⟨.accepted, 0, 5⟩, .submitted ⟨.fullyFilled, 3, 0⟩,
        .submitted ⟨.accepted, 0, 1⟩] := by decide
  obtain ⟨b, ts, hrun⟩ := answered_eq_some hanswers
  exact answers_mirror (by decide) (by decide) hrun (List.prefix_refl _)

end Lob.OrderBook
