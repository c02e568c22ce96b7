import Lob.Equiv.ItchParser
import Lob.Equiv.ItchWellFormed
import Lob.Equiv.OrderBook.Rebuild
import Lob.Equiv.ReplayRuns

/-!
# The snapshot of a file

The text that `write_snapshot` writes is read back as the lines that `top_n` has given
(`readSnapshot_snapshotText`).  For a file with a valid tape these are the best prices of the
exchange, with the shares and the number of orders at each (`main_snapshot`).
-/

namespace Lob

open Itch Queues OrderBook

/-! ### Reading what was written -/

/-- A level as a line of the snapshot. -/
def LevelSnapshot.line (s : Side) (l : LevelSnapshot) (level : ℕ) : SnapshotLine where
  side := s
  level := level
  price := l.price.toInt
  quantity := l.qty.toNat
  orderCount := l.count.toNat

theorem LevelSnapshot.plain_fields {label : Char} (hcomma : label ≠ ',') (hnewline : label ≠ '\n')
    (l : LevelSnapshot) (level : ℕ) : ∀ f ∈ l.fields label level, Csv.Plain f := by
  unfold LevelSnapshot.fields
  simp only [List.forall_mem_cons]
  refine ⟨⟨?_, ?_⟩, Csv.plain_natural _, Csv.plain_integer _, Csv.plain_natural _,
    Csv.plain_natural _, nofun⟩
  · exact fun h => hcomma (List.mem_singleton.mp h).symm
  · exact fun h => hnewline (List.mem_singleton.mp h).symm

def Side.label : Side → Char
  | .buy => 'B'
  | .sell => 'A'

theorem readLine_fields (s : Side) (l : LevelSnapshot) (level : ℕ) :
    readLine (l.fields s.label level) = some (l.line s level) := by
  unfold LevelSnapshot.fields readLine
  simp only [Csv.natural?_natural, Csv.integer?_integer]
  cases s <;> rfl

/-- The names of the fields. -/
def snapshotHeader : List (List Char) :=
  ["side".toList, "level".toList, "price".toList, "quantity".toList, "order_count".toList]

theorem snapshotText_eq {M : Type} (b : OrderBook M) (n : ℕ) :
    b.snapshotText n = Csv.write (snapshotHeader :: [Side.buy, Side.sell].flatMap fun s =>
      snapshotLines s.label (b.topN s n)) := by
  have hheader : "side,level,price,quantity,order_count\n".toList = Csv.row snapshotHeader := by
    decide
  unfold OrderBook.snapshotText Csv.write
  rw [hheader, List.flatMap_cons, List.append_assoc]
  simp only [List.flatMap_cons, List.flatMap_nil, List.append_nil, List.flatMap_append]
  rfl

theorem readSnapshot_snapshotText {M : Type} (b : OrderBook M) (n : ℕ) :
    readSnapshot (b.snapshotText n) = some ([Side.buy, Side.sell].flatMap fun s =>
      (b.topN s n).zipIdx.map fun x => x.1.line s x.2) := by
  have hread : Csv.read (b.snapshotText n) = snapshotHeader ::
      [Side.buy, Side.sell].flatMap fun s => snapshotLines s.label (b.topN s n) := by
    rw [snapshotText_eq]
    refine Csv.read_write fun r hr => ?_
    rcases List.mem_cons.mp hr with rfl | hr
    · exact ⟨by decide, by decide⟩
    · obtain ⟨s, -, hr⟩ := List.mem_flatMap.mp hr
      obtain ⟨x, -, rfl⟩ := List.mem_map.mp hr
      refine ⟨nofun, ?_⟩
      cases s <;> exact LevelSnapshot.plain_fields (by decide) (by decide) x.1 x.2
  have hlines := Csv.mapM_map
    (fun x : Side × LevelSnapshot × ℕ => readLine_fields x.1 x.2.1 x.2.2)
    ([Side.buy, Side.sell].flatMap fun s => (b.topN s n).zipIdx.map fun x => (s, x))
  simp only [List.map_flatMap, List.map_map] at hlines
  unfold readSnapshot
  rw [hread]
  exact hlines

/-- The lines that a market gives, the `n` best prices of each side. -/
def Market.snapshot (m : Market) (n : ℕ) : List SnapshotLine :=
  [Side.buy, Side.sell].flatMap fun s => ((m.depth s).take n).zipIdx.map fun x => x.1.line s x.2

/-- The snapshot has been written, and these lines are read from it. -/
def ReadsAs (snapshot : Option (List Char)) (lines : List SnapshotLine) : Prop :=
  ∃ text, snapshot = some text ∧ readSnapshot text = some lines

/-- The snapshot of a faithful book is that of its market. -/
theorem OrderBook.Faithful.read_snapshot {M : Type} [IdMap M] [IndexedBy M] {b : OrderBook M}
    (h : Faithful b) {vectorMax n : ℕ} (hn : n ≤ vectorMax) :
    ReadsAs (b.writeSnapshot vectorMax n) (b.market.snapshot n) := by
  refine ⟨_, if_pos hn, ?_⟩
  rw [readSnapshot_snapshotText]
  simp only [h.pictures.topN_eq]
  rfl

/-- **The snapshot of a reachable book** shows its market: the best prices of each side in their
order, each with its rank, its orders and their quantity. -/
theorem OrderBook.Reachable.snapshot_shows {M : Type} [LawfulIdMap M] {cfg : Config}
    {b : OrderBook M} (hbase : 0 ≤ cfg.basePrice.toInt) (hmax : cfg.maxOrders < 2 ^ 32)
    (h : Reachable cfg b) {vectorMax n : ℕ} (hn : n ≤ vectorMax) :
    ReadsAs (b.writeSnapshot vectorMax n) (b.market.snapshot n) :=
  (h.faithful hbase hmax).1.read_snapshot hn

theorem tradedBook_snapshot_shows : ReadsAs (OrderBook.tradedBook.writeSnapshot 4 3)
    (OrderBook.tradedBook.market.snapshot 3) :=
  OrderBook.tradedBook_reachable.snapshot_shows (by decide) (by decide) (by decide)

/-! ### The depth of the tape -/

section Depth

variable {M : Type} [IdMap M] [IndexedBy M] {b : OrderBook M} {l : Tape} {cfg : Config}
  {itchTick : Int32} {s : Side} {p : Price} {q : ℕ}

theorem fits_nil : Tape.Fits cfg itchTick [] := ⟨nofun, nofun, Nat.zero_le _, nofun⟩

theorem Tape.Valid.fits {t : UInt16} {ms : List Message} (hnow : l.Fits cfg itchTick)
    (h : l.Valid cfg itchTick t ms) : (l.after t ms).Fits cfg itchTick := by
  induction ms generalizing l with
  | nil => exact hnow
  | cons m ms ih => exact ih h.2.1 h.2.2

theorem mem_prices_iff (hview : View cfg itchTick b.queue l) (hgood : Good b b.queue)
    (hfits : l.Fits cfg itchTick) :
    p ∈ b.market.prices s ↔ ∃ o ∈ l, o.side = s ∧ (o.ticks itchTick : ℤ) = p.toInt := by
  unfold Market.prices
  rw [List.mem_dedup, market_apply, List.map_map, List.mem_map]
  constructor
  · rintro ⟨r, hr, rfl⟩
    obtain ⟨i, hr⟩ := hgood.core.mem_resting.mp hr
    obtain ⟨o, ho, hquote, hside⟩ := hview.mem_tape hr
    exact ⟨o, ho, hside, congrArg Quote.ticks hquote⟩
  · rintro ⟨o, ho, rfl, hticks⟩
    obtain ⟨i, r, hr, hquote⟩ := hview.mem_book ho (hfits.inWindow o ho).1
    refine ⟨r, hgood.core.mem_resting.mpr ⟨i, hr⟩, Int32.toInt_inj.mp ?_⟩
    exact (congrArg Quote.ticks hquote).trans hticks

/-- The orders of the book at a price, and those of the tape. -/
theorem shares_ordersAt (hview : View cfg itchTick b.queue l) (hgood : Good b b.queue)
    (hcfg : b.cfg = cfg) (hp : b.inRange p = true) (hq : p.toInt = q) (s : Side) :
    (b.market.ordersAt s p).map Entry.qty = (l.ordersAt itchTick s q).map Listed.shares := by
  obtain ⟨k, hk, -, hprice, hidx, -⟩ := inRange_spec hp
  have hlevel : l.level cfg itchTick s k =
      (l.ordersAt itchTick s q).map (Listed.quote itchTick) := by
    unfold Tape.level Tape.ordersAt
    congr 1
    refine List.filter_congr fun o _ => ?_
    rw [decide_eq_decide]
    rw [hcfg] at hprice
    exact and_congr_right fun _ => by omega
  rw [market_ordersAt, hgood.core.resting_at s hp, hidx, List.map_map]
  show (b.queue s k).map (Quote.shares ∘ Resting.quote) = _
  rw [← List.map_map, hview s k, hlevel, List.map_map]
  rfl

theorem inRange_of_mem_prices (hgood : Good b b.queue) (hp : p ∈ b.market.prices s) :
    b.inRange p = true := by
  unfold Market.prices at hp
  rw [List.mem_dedup, market_apply, List.map_map] at hp
  obtain ⟨r, hr, rfl⟩ := List.mem_map.mp hp
  obtain ⟨i, hr⟩ := hgood.core.mem_resting.mp hr
  have hpl := hgood.core.placed s i r hr
  exact inRange_of_level hpl.level_eq hpl.inside hpl.small

/-- A level of the market is a line of the tape. -/
theorem line_levelAt (hview : View cfg itchTick b.queue l) (hgood : Good b b.queue)
    (hcfg : b.cfg = cfg) (hlen : l.length < 2 ^ 32) (hp : b.inRange p = true) (hq : p.toInt = q)
    (s : Side) (level : ℕ) : (b.market.levelAt s p).line s level = l.line itchTick s q level := by
  have hshares := shares_ordersAt hview hgood hcfg hp hq s
  have htotal : Greedy.total Entry.size (b.market.ordersAt s p) =
      ((l.ordersAt itchTick s q).map fun o => o.shares.toNat).sum := by
    have hnat := congrArg (List.map UInt32.toNat) hshares
    rw [List.map_map, List.map_map] at hnat
    exact congrArg List.sum hnat
  have hcount : (b.market.ordersAt s p).length = (l.ordersAt itchTick s q).length := by
    have hlength := congrArg List.length hshares
    rwa [List.length_map, List.length_map] at hlength
  have hlt : (l.ordersAt itchTick s q).length < 2 ^ 32 := (List.length_filter_le _ _).trans_lt hlen
  have hqty : (b.market.totalAt s p).toNat =
      ((l.ordersAt itchTick s q).map fun o => o.shares.toNat).sum % 2 ^ 32 := by
    unfold Market.totalAt
    rw [htotal, UInt32.toNat_ofNat']
  have hnum : (UInt32.ofNat (b.market.ordersAt s p).length).toNat =
      (l.ordersAt itchTick s q).length := by
    rw [hcount, UInt32.toNat_ofNat', Nat.mod_eq_of_lt hlt]
  unfold LevelSnapshot.line Tape.line Market.levelAt
  dsimp only
  rw [hqty, hnum, hq]

instance (s : Side) : Std.Total (Tape.NotWorse s) where
  total p q := by
    cases s
    · exact le_total q p
    · exact le_total p q

instance (s : Side) : IsTrans ℕ (Tape.NotWorse s) where
  trans p q r hpq hqr := by
    cases s
    · exact le_trans hqr hpq
    · exact le_trans hpq hqr

theorem notWorse_antisymm {p q : ℕ} (hpq : Tape.NotWorse s p q) (hqp : Tape.NotWorse s q p) :
    p = q := by
  cases s
  · exact le_antisymm hqp hpq
  · exact le_antisymm hpq hqp

/-- The prices of the tape are those of the market. -/
theorem prices_eq (hview : View cfg itchTick b.queue l) (hgood : Good b b.queue)
    (hfits : l.Fits cfg itchTick) (s : Side) :
    l.prices itchTick s = (b.market.prices s).map fun p => p.toInt.toNat := by
  have hmem : ∀ {p}, p ∈ b.market.prices s ↔
      ∃ o ∈ l, o.side = s ∧ (o.ticks itchTick : ℤ) = p.toInt := mem_prices_iff hview hgood hfits
  have hnonneg : ∀ {p}, p ∈ b.market.prices s → 0 ≤ p.toInt := fun hp => by
    obtain ⟨o, -, -, hticks⟩ := hmem.mp hp
    omega
  have hsorted : ((b.market.prices s).map fun p => p.toInt.toNat).Pairwise fun p q =>
      Tape.NotWorse s p q ∧ p ≠ q := by
    rw [List.pairwise_map]
    refine (hgood.market_prices_pairwise s).imp_of_mem fun {p q} hp hq hpq => ?_
    have hp := hnonneg hp
    have hq := hnonneg hq
    cases s with
    | buy =>
      have hlt := Int32.lt_iff_toInt_lt.mp hpq
      exact ⟨show q.toInt.toNat ≤ p.toInt.toNat by omega, by omega⟩
    | sell =>
      have hlt := Int32.lt_iff_toInt_lt.mp hpq
      exact ⟨show p.toInt.toNat ≤ q.toInt.toNat by omega, by omega⟩
  refine List.Perm.eq_of_pairwise (fun p q _ _ hpq hqp => notWorse_antisymm hpq hqp)
    (List.pairwise_insertionSort _ _) (hsorted.imp And.left) ?_
  refine (List.perm_insertionSort _ _).trans ?_
  rw [List.perm_ext_iff_of_nodup (List.nodup_dedup _) (hsorted.imp And.right)]
  intro q
  rw [List.mem_dedup, List.mem_map, List.mem_map]
  constructor
  · rintro ⟨o, ho, rfl⟩
    obtain ⟨ho, hside⟩ := List.mem_filter.mp ho
    have hprice := toInt_enginePrice (hfits.inWindow o ho).2.2
    have hp := hmem.mpr ⟨o, ho, of_decide_eq_true hside, hprice.symm⟩
    exact ⟨enginePrice itchTick o.price, hp, by omega⟩
  · rintro ⟨p, hp, rfl⟩
    obtain ⟨o, ho, hside, hticks⟩ := hmem.mp hp
    exact ⟨o, List.mem_filter.mpr ⟨ho, decide_eq_true hside⟩, by omega⟩

/-- **The book of the exchange** gives the snapshot of the exchange. -/
theorem Mirrors.snapshot_eq (hm : Mirrors cfg itchTick b b.queue l) (hfits : l.Fits cfg itchTick)
    (hmax : cfg.maxOrders < 2 ^ 32) (n : ℕ) : b.market.snapshot n = l.snapshot itchTick n := by
  obtain ⟨hgood, hcfg, hview⟩ := hm
  refine List.flatMap_congr fun s _ => ?_
  rw [prices_eq hview hgood hfits]
  unfold Market.depth
  rw [← List.map_take, ← List.map_take, List.zipIdx_map, List.zipIdx_map, List.map_map,
    List.map_map]
  refine List.map_congr_left fun x hx => ?_
  have hp : x.1 ∈ b.market.prices s := List.mem_of_mem_take (List.fst_mem_of_mem_zipIdx hx)
  obtain ⟨o, -, -, hticks⟩ := (mem_prices_iff hview hgood hfits).mp hp
  have hq : x.1.toInt = (x.1.toInt.toNat : ℤ) := by omega
  exact line_levelAt hview hgood hcfg (hfits.room.trans_lt hmax) (inRange_of_mem_prices hgood hp)
    hq s x.2

end Depth

/-! ### The file -/

section File

variable {M : Type} [LawfulIdMap M] {h : ReplayHandler M}

/-- Messages before the directory message of the symbol: none is an order message with the locate
zero. -/
def Preamble (symbol : List UInt8) (ms : List Message) : Prop :=
  ∀ m ∈ ms, m.orderLocate ≠ some 0 ∧
    ∀ d, m = .stockDirectory d → symbolMatches d.stock symbol = false

omit [LawfulIdMap M] in
theorem onMessage_preamble [IdMap M] {m : Message} (hlocate : h.targetLocate = 0)
    (hm : m.orderLocate ≠ some 0)
    (hd : ∀ d, m = .stockDirectory d → symbolMatches d.stock h.symbol = false)
    (trades : List Trade) : (h.onMessage m).run trades = .ok h trades := by
  cases m with
  | systemEvent | unhandled => rfl
  | stockDirectory d =>
    show EStateM.Result.ok (h.onStockDirectory d) trades = _
    unfold ReplayHandler.onStockDirectory
    rw [if_neg fun hcon => absurd hcon.2 (by rw [hd d rfl]; exact Bool.false_ne_true)]
  | addOrder | orderExecuted | orderExecutedWithPrice | orderCancel | orderDelete | orderReplace =>
    exact onMessage_ignored rfl fun hc => hm (congrArg some (hc.trans hlocate))

omit [LawfulIdMap M] in
theorem replay_preamble [IdMap M] (hlocate : h.targetLocate = 0) {before : List Message}
    (hbefore : Preamble h.symbol before) (ms : List Message) (trades : List Trade) :
    (h.replay (before ++ ms)).run trades = (h.replay ms).run trades := by
  induction before with
  | nil => rfl
  | cons m before ih =>
    obtain ⟨hm, hd⟩ := hbefore m List.mem_cons_self
    rw [List.cons_append, replay_cons (onMessage_preamble hlocate hm hd trades)]
    exact ih fun m' hm' => hbefore m' (List.mem_cons_of_mem _ hm')

/-- What a file is to be for its snapshot to be that of the exchange: frames, with a part of another
one at the end, in which a valid tape of the symbol comes after its directory message. -/
structure TapeFile (args : Args) (file : MappedFile) (frames : List Frame) (locate : UInt16)
    (tape : List Message) : Prop where
  encoded : ∃ (tail : List UInt8) (f : Frame), tail <+: f.bytes ∧ tail ≠ f.bytes ∧
    Holds file.data 0 (frames.flatMap Frame.bytes ++ tail) ∧
    file.size = (frames.flatMap Frame.bytes ++ tail).length
  listed : ∃ before d, frames.map Frame.call = before ++ .stockDirectory d :: tape ∧
    Preamble args.symbol before ∧ symbolMatches d.stock args.symbol = true ∧
    d.stockLocate = locate
  locate_ne : locate ≠ 0
  valid : Tape.Valid args.cfg args.itchTick locate [] tape

section TapeFile

variable {args : Args} {file : MappedFile} {frames : List Frame} {locate : UInt16}
  {tape : List Message} (hfile : TapeFile args file frames locate tape)

include hfile

theorem TapeFile.parse : Itch.calls file.data file.size = frames.map Frame.call ∧
    Itch.count file.data file.size = frames.length := by
  obtain ⟨tail, f, htail, hne, hdata, hsize⟩ := hfile.encoded
  rw [hsize]
  obtain ⟨hcalls, hcount⟩ := parseLoop_encoded frames 0 0
    (fun pos htail' => not_complete_of_tail htail hne htail') hdata (Nat.zero_add _).symm
  exact ⟨hcalls, hcount.trans (Nat.zero_add _)⟩

theorem TapeFile.size_ne : file.size ≠ 0 := by
  obtain ⟨tail, f, -, -, -, hsize⟩ := hfile.encoded
  obtain ⟨before, d, hmap, -⟩ := hfile.listed
  rw [hsize]
  cases frames with
  | nil =>
    have hlen := congrArg List.length hmap
    simp at hlen
  | cons g frames =>
    rw [List.flatMap_cons, List.append_assoc, List.length_append, g.length_bytes]
    unfold kFrameLengthBytes
    omega

theorem TapeFile.wellFormed : WellFormed file.data file.size := by
  obtain ⟨tail, f, htail, hne, hdata, hlen⟩ := hfile.encoded
  have hholds := (holds_append.mp hdata).2
  have hcut := (cutOff_iff hholds).mpr (not_complete_of_tail htail hne hholds)
  exact fun pos hpath hc =>
    frameOk_of_encoded hcut hdata ((Nat.zero_add _).trans hlen.symm) hpath hc

/-- The parser reads the file only. -/
theorem TapeFile.readable : file.Readable :=
  MappedFile.readable_of_longEnough hfile.wellFormed.longEnough

/-- The handler that has seen the directory message and the tape gives the snapshot. -/
theorem TapeFile.snapshot_of_replay {M : Type} [IdMap M] [IndexedBy M]
    (hmax : args.cfg.maxOrders < 2 ^ 32) (htop : args.topN ≤ args.vectorMax)
    (hreplay : ∀ d : StockDirectory, symbolMatches d.stock args.symbol = true →
      d.stockLocate = locate → ∃ h' A',
        (((args.handler : ReplayHandler M).onStockDirectory d).replay tape).run [] = .ok h' [] ∧
        Follows args.cfg args.itchTick locate h' A' (Tape.after locate [] tape) ∧
        Faithful h'.book)
    (clock : ℕ → UInt64) :
    ∃ out : Output M, main args file clock = .ok out ∧ out.messages = frames.length ∧
      ReadsAs out.snapshot ((Tape.after locate [] tape).snapshot args.itchTick args.topN) := by
  obtain ⟨hcalls, hcount⟩ := hfile.parse
  obtain ⟨before, d, hmap, hbefore, hd, hlocate⟩ := hfile.listed
  obtain ⟨h', A', hrun, hf, hfaithful⟩ := hreplay d hd hlocate
  have hall : ((args.handler : ReplayHandler M).replay file.calls).run [] = .ok h' [] := by
    rw [MappedFile.calls_eq hfile.readable, hcalls, hmap,
      replay_preamble (h := args.handler) rfl hbefore]
    exact (replay_cons rfl).trans hrun
  obtain ⟨out, hmain, hmessages, hwritten⟩ := main_of_ok args file clock hfile.size_ne hall
  rw [if_pos hfile.readable] at hmain
  refine ⟨out, hmain, hmessages.trans hcount, ?_⟩
  have hm := hf.mirrors
  rw [← hm.good.core.queue_eq] at hm
  rw [hwritten.snapshot_eq, ← hm.snapshot_eq (hfile.valid.fits fits_nil) hmax]
  exact hfaithful.read_snapshot htop

omit hfile

/-- **The snapshot of a file** shows the book of the exchange. -/
theorem main_snapshot (hbase : 0 ≤ args.cfg.basePrice.toInt)
    (hmax : args.cfg.maxOrders < 2 ^ 32) (htop : args.topN ≤ args.vectorMax)
    (hfile : TapeFile args file frames locate tape) (clock : ℕ → UInt64) :
    ∃ out : Output M, main args file clock = .ok out ∧ out.messages = frames.length ∧
      ReadsAs out.snapshot ((Tape.after locate [] tape).snapshot args.itchTick args.topN) := by
  refine hfile.snapshot_of_replay hmax htop (fun d hd hlocate => ?_) clock
  subst hlocate
  have hstart := onStockDirectory_follows (M := M) args.cfg args.tick_ne hd
  obtain ⟨h', A', hrun, hf⟩ := hstart.replay hbase hfile.locate_ne fits_nil hfile.valid []
  refine ⟨h', A', hrun, hf, ?_⟩
  have hall : ((args.handler : ReplayHandler M).replay (.stockDirectory d :: tape)).run [] =
      .ok h' [] := (replay_cons rfl).trans hrun
  have hend := (handler_sound (M := M) args).replay (.stockDirectory d :: tape) []
  rw [hall] at hend
  cases hend with
  | ok hsound _ => exact (hsound.reachable.faithful hbase hmax).1

end TapeFile

/-- The messages of the sample after the directory message. -/
def sampleMessages : List Message := (sampleFrames.drop 1).map Frame.call

theorem sampleFile_tapeFile :
    TapeFile sampleArgs sampleMapped sampleFrames 7 sampleMessages where
  encoded := ⟨[0], deleteFrame, by decide, by decide, holds_getD _, by decide +kernel⟩
  listed := ⟨[], ⟨7, 0, Vector.replicate 8 32, 0⟩, rfl, nofun, by decide, rfl⟩
  locate_ne := by decide
  valid := by decide

theorem sampleFile_snapshot :
    ∃ out : Output PlainIdMap, main sampleArgs sampleMapped (fun k => UInt64.ofNat (k * k)) =
        .ok out ∧ out.messages = 4 ∧
      ReadsAs out.snapshot [⟨.buy, 0, 1, 3, 1⟩, ⟨.sell, 0, 3, 3, 1⟩] := by
  have hlines : Tape.snapshot 100 (Tape.after 7 [] sampleMessages) 2 =
      [⟨.buy, 0, 1, 3, 1⟩, ⟨.sell, 0, 3, 3, 1⟩] := by decide
  rw [← hlines]
  exact main_snapshot (by decide) (by decide) (by decide) sampleFile_tapeFile _

end File

end Lob
