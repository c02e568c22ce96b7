import Lob.Equiv.ItchReads

/-!
# Parsing undoes encoding

On a buffer that is a list of frames followed by a part of another one, `parse` makes the calls of
the frames, in order, and counts them (`parse_encoded`).  Frame by frame this is `decode_wire`: in a
memory that holds the body of a message, the `switch` delivers its fields.
-/

namespace Lob.Itch

open BigEndian (encode)

variable {data : ℕ → UInt8} {len p m pos : ℕ} {msgLen : UInt16} {bs bs' : List UInt8}

/-! ### Memory -/

theorem holds_append : Holds data p (bs ++ bs') ↔
    Holds data p bs ∧ Holds data (p + bs.length) bs' := by
  constructor
  · intro h
    constructor
    · intro i b hi
      have hlt := (List.getElem?_eq_some_iff.mp hi).1
      exact h i b (by rwa [List.getElem?_append_left hlt])
    · intro i b hi
      rw [Nat.add_assoc]
      refine h (bs.length + i) b ?_
      rwa [List.getElem?_append_right (Nat.le_add_right _ _), Nat.add_sub_cancel_left]
  · rintro ⟨h, h'⟩ i b hi
    rcases Nat.lt_or_ge i bs.length with hlt | hge
    · rw [List.getElem?_append_left hlt] at hi
      exact h i b hi
    · rw [List.getElem?_append_right hge] at hi
      have hb := h' (i - bs.length) b hi
      rwa [Nat.add_assoc, Nat.add_sub_cancel' hge] at hb

theorem holds_singleton {b : UInt8} : Holds data p [b] ↔ data p = b := by
  constructor
  · exact fun h => h 0 b rfl
  · intro h i c hi
    rw [List.getElem?_singleton] at hi
    split_ifs at hi with hz
    obtain rfl := Option.some.inj hi
    rw [hz]
    exact h

/-- The bytes that the memory holds are read back. -/
theorem Holds.map_range (h : Holds data p bs) {n : ℕ} (hn : bs.length = n) :
    (List.range n).map (fun i => data (p + i)) = bs := by
  apply List.ext_getElem
  · rw [List.length_map, List.length_range, hn]
  · intro i _ hi
    rw [List.getElem_map, List.getElem_range]
    exact h i _ (List.getElem?_eq_getElem hi)

/-! ### Fields -/

theorem be16_encode {v : UInt16} (h : Holds data p (encode 2 v.toNat)) :
    (be16 data p).value = v := by
  apply UInt16.toNat_inj.mp
  rw [be16_value]
  have hbytes : [data p, data (p + 1)] = encode 2 v.toNat :=
    h.map_range (BigEndian.length_encode 2 _)
  rw [hbytes]
  exact BigEndian.value_encode v.toNat_lt

theorem be32_encode {v : UInt32} (h : Holds data p (encode 4 v.toNat)) :
    (be32 data p).value = v := by
  apply UInt32.toNat_inj.mp
  rw [be32_value]
  have hbytes : [data p, data (p + 1), data (p + 2), data (p + 3)] = encode 4 v.toNat :=
    h.map_range (BigEndian.length_encode 4 _)
  rw [hbytes]
  exact BigEndian.value_encode v.toNat_lt

theorem be48_encode {v : UInt64} (hv : v.toNat < 2 ^ 48) (h : Holds data p (encode 6 v.toNat)) :
    (be48 data p).value = v := by
  apply UInt64.toNat_inj.mp
  rw [be48_value]
  have hbytes : [data p, data (p + 1), data (p + 2), data (p + 3), data (p + 4), data (p + 5)] =
      encode 6 v.toNat := h.map_range (BigEndian.length_encode 6 _)
  rw [hbytes]
  exact BigEndian.value_encode hv

theorem be64_encode {v : UInt64} (h : Holds data p (encode 8 v.toNat)) :
    (be64 data p).value = v := by
  apply UInt64.toNat_inj.mp
  rw [be64_value]
  have hbytes : [data p, data (p + 1), data (p + 2), data (p + 3), data (p + 4), data (p + 5),
      data (p + 6), data (p + 7)] = encode 8 v.toNat := h.map_range (BigEndian.length_encode 8 _)
  rw [hbytes]
  exact BigEndian.value_encode v.toNat_lt

theorem readSymbol_encode {v : Symbol} (h : Holds data p v.toList) :
    (readSymbol data p).value = v := by
  apply Vector.ext
  intro i hi
  show (Vector.ofFn fun i : Fin 8 => data (p + i))[i] = v[i]
  rw [Vector.getElem_ofFn]
  exact h i _ (by simp [hi])

/-! ### One message -/

theorem ofByte_code (t : MessageType) : MessageType.ofByte t.code = some t := by
  cases t <;> decide

/-- The fields that all messages start with. -/
theorem holds_header {t : MessageType} {locate tracking : UInt16} {tsNs : UInt64}
    (hts : tsNs.toNat < 2 ^ 48) (h : Holds data m (Wire.header t locate tracking tsNs)) :
    MessageType.ofByte (data m) = some t ∧ (be16 data (m + 1)).value = locate ∧
      (be16 data (m + 3)).value = tracking ∧ (be48 data (m + 5)).value = tsNs := by
  have hcons : Wire.header t locate tracking tsNs = [t.code] ++ (encode 2 locate.toNat ++
      encode 2 tracking.toNat ++ encode 6 tsNs.toNat) := rfl
  rw [hcons, holds_append, holds_append, holds_append, holds_singleton] at h
  obtain ⟨htype, ⟨hlocate, htracking⟩, htime⟩ := h
  rw [List.length_append, BigEndian.length_encode, BigEndian.length_encode] at htime
  rw [BigEndian.length_encode] at htracking
  exact ⟨htype ▸ ofByte_code t, be16_encode hlocate, be16_encode htracking, be48_encode hts htime⟩

theorem length_header (t : MessageType) (locate tracking : UInt16) (tsNs : UInt64) :
    (Wire.header t locate tracking tsNs).length = 11 := by
  simp [Wire.header]

theorem decode_addOrder {t : MessageType} (ht : t = .addOrder ∨ t = .addOrderMpid) {a : AddOrder}
    (hts : a.tsNs.toNat < 2 ^ 48) (h : Holds data m (Wire.addOrderBody t a)) :
    (decode data m msgLen).value = .addOrder a := by
  unfold Wire.addOrderBody at h
  simp only [holds_append, holds_singleton, List.length_append, BigEndian.length_encode,
    length_header, Vector.length_toList, List.length_singleton] at h
  obtain ⟨⟨⟨⟨⟨hheader, href⟩, hside⟩, hshares⟩, hstock⟩, hprice⟩ := h
  obtain ⟨htype, hlocate, htracking, htime⟩ := holds_header hts hheader
  have hcode : data (m + 19) = Wire.sideCode a.side := hside
  unfold decode
  rw [bind_value, byte_value, htype]
  obtain ⟨locate, tracking, tsNs, orderRef, side, shares, stock, price⟩ := a
  -- both types take the same branch
  rcases ht with rfl | rfl
  · simp only [bind_value, pure_value, byte_value, hlocate, htracking, htime, hcode,
      be64_encode href, be32_encode hshares, readSymbol_encode hstock, be32_encode hprice]
    cases side <;> rfl
  · simp only [bind_value, pure_value, byte_value, hlocate, htracking, htime, hcode,
      be64_encode href, be32_encode hshares, readSymbol_encode hstock, be32_encode hprice]
    cases side <;> rfl

/-- **The `switch` delivers the fields** of a message whose body is in memory. -/
theorem decode_wire {w : Wire} (hv : w.Valid) (h : Holds data m w.body) :
    (decode data m msgLen).value = w.call msgLen.toNat := by
  cases w with
  | addOrder a => exact decode_addOrder (Or.inl rfl) hv h
  | addOrderMpid a mpid => exact decode_addOrder (Or.inr rfl) hv (holds_append.mp h).1
  | other type rest =>
    have htype : data m = type := h 0 type rfl
    unfold decode
    rw [bind_value, byte_value, htype, show MessageType.ofByte type = none from hv]
    rfl
  | systemEvent locate tracking ev =>
    unfold Wire.body at h
    simp only [holds_append, holds_singleton, length_header] at h
    obtain ⟨hheader, hcode⟩ := h
    obtain ⟨htype, -, -, htime⟩ := holds_header hv hheader
    unfold decode
    rw [bind_value, byte_value, htype]
    simp only [bind_value, pure_value, byte_value, htime, hcode]
    rfl
  | stockDirectory tracking sd rest =>
    unfold Wire.body at h
    simp only [holds_append, holds_singleton, length_header, List.length_append,
      Vector.length_toList] at h
    obtain ⟨⟨⟨hheader, hstock⟩, hcategory⟩, -⟩ := h
    obtain ⟨htype, hlocate, -, htime⟩ := holds_header hv hheader
    unfold decode
    rw [bind_value, byte_value, htype]
    simp only [bind_value, pure_value, byte_value, hlocate, htime, readSymbol_encode hstock,
      hcategory]
    rfl
  | orderExecuted tracking e =>
    unfold Wire.body at h
    simp only [holds_append, length_header, List.length_append, BigEndian.length_encode] at h
    obtain ⟨⟨⟨hheader, href⟩, hshares⟩, hmatch⟩ := h
    obtain ⟨htype, hlocate, -, htime⟩ := holds_header hv hheader
    unfold decode
    rw [bind_value, byte_value, htype]
    simp only [bind_value, pure_value, hlocate, htime, be64_encode href, be32_encode hshares,
      be64_encode hmatch]
    rfl
  | orderExecutedWithPrice tracking e =>
    unfold Wire.body at h
    simp only [holds_append, holds_singleton, length_header, List.length_append,
      BigEndian.length_encode, List.length_singleton] at h
    obtain ⟨⟨⟨⟨⟨hheader, href⟩, hshares⟩, hmatch⟩, hflag⟩, hprice⟩ := h
    obtain ⟨htype, hlocate, -, htime⟩ := holds_header hv hheader
    have hprintable : (data (m + 31) == 'Y'.toUInt8) = e.printable := by
      rw [hflag]
      cases e.printable <;> rfl
    unfold decode
    rw [bind_value, byte_value, htype]
    simp only [bind_value, pure_value, byte_value, hlocate, htime, be64_encode href,
      be32_encode hshares, be64_encode hmatch, hprintable, be32_encode hprice]
    rfl
  | orderCancel tracking c =>
    unfold Wire.body at h
    simp only [holds_append, length_header, List.length_append, BigEndian.length_encode] at h
    obtain ⟨⟨hheader, href⟩, hshares⟩ := h
    obtain ⟨htype, hlocate, -, htime⟩ := holds_header hv hheader
    unfold decode
    rw [bind_value, byte_value, htype]
    simp only [bind_value, pure_value, hlocate, htime, be64_encode href, be32_encode hshares]
    rfl
  | orderDelete tracking d =>
    unfold Wire.body at h
    simp only [holds_append, length_header] at h
    obtain ⟨hheader, href⟩ := h
    obtain ⟨htype, hlocate, -, htime⟩ := holds_header hv hheader
    unfold decode
    rw [bind_value, byte_value, htype]
    simp only [bind_value, pure_value, hlocate, htime, be64_encode href]
    rfl
  | orderReplace tracking r =>
    unfold Wire.body at h
    simp only [holds_append, length_header, List.length_append, BigEndian.length_encode] at h
    obtain ⟨⟨⟨⟨hheader, hold⟩, hnew⟩, hshares⟩, hprice⟩ := h
    obtain ⟨htype, hlocate, -, htime⟩ := holds_header hv hheader
    unfold decode
    rw [bind_value, byte_value, htype]
    simp only [bind_value, pure_value, hlocate, htime, be64_encode hold, be64_encode hnew,
      be32_encode hshares, be32_encode hprice]
    rfl

/-! ### The stream -/

theorem Frame.length_bytes (f : Frame) : f.bytes.length = kFrameLengthBytes + f.length := by
  unfold bytes
  rw [List.length_append, BigEndian.length_encode]
  rfl

/-- The length in front of a frame. -/
theorem frameLength_eq {f : Frame} (h : Holds data pos (encode 2 f.length)) :
    frameLength data pos = f.length := by
  have hbytes : [data pos, data (pos + 1)] = encode 2 f.length :=
    h.map_range (BigEndian.length_encode 2 _)
  unfold frameLength
  rw [hbytes]
  exact BigEndian.value_encode f.fits

/-- A frame in memory is delivered. -/
theorem handledAt_call {f : Frame} (h : Holds data pos f.bytes) :
    frameLength data pos = f.length ∧ (handledAt data pos).handling.value = f.call := by
  unfold Frame.bytes at h
  rw [holds_append, holds_append, BigEndian.length_encode] at h
  obtain ⟨hlength, hbody, -⟩ := h
  have hlen := frameLength_eq hlength
  refine ⟨hlen, ?_⟩
  unfold Frame.call
  rw [← hlen, ← toNat_msgLen]
  exact decode_wire f.valid hbody

/-- A part of a frame at the end of the buffer is not complete. -/
theorem not_complete_of_tail {f : Frame} {tail : List UInt8} (hpart : tail <+: f.bytes)
    (hne : tail ≠ f.bytes) (h : Holds data pos tail) :
    ¬Complete data (pos + tail.length) pos := by
  intro hc
  unfold Complete kFrameLengthBytes at hc
  have hlt : tail.length < f.bytes.length :=
    lt_of_le_of_ne hpart.length_le fun heq => hne (hpart.eq_of_length heq)
  -- the part has the whole length in front
  have hlength : encode 2 f.length <+: tail := by
    refine List.prefix_of_prefix_length_le ⟨_, rfl⟩ hpart ?_
    rw [BigEndian.length_encode]
    omega
  obtain ⟨rest, rfl⟩ := hlength
  rw [frameLength_eq (holds_append.mp h).1] at hc
  rw [f.length_bytes] at hlt
  unfold kFrameLengthBytes at hlt
  omega

theorem parseLoop_encoded {tail : List UInt8} (frames : List Frame) (pos count : ℕ)
    (htail : ∀ pos, Holds data pos tail → ¬Complete data (pos + tail.length) pos)
    (h : Holds data pos (frames.flatMap Frame.bytes ++ tail))
    (hlen : len = pos + (frames.flatMap Frame.bytes ++ tail).length) :
    (parseLoop data len pos count).value.1.map (fun f => f.handling.value) =
        frames.map Frame.call ∧
      (parseLoop data len pos count).value.2 = count + frames.length := by
  subst hlen
  induction frames generalizing pos count with
  | nil =>
    have hstop := (parseLoop_stop (htail pos h) count).1
    constructor
    · exact congrArg (fun x => x.1.map fun f => f.handling.value) hstop
    · exact congrArg Prod.snd hstop
  | cons f frames ih =>
    rw [List.flatMap_cons, List.append_assoc, holds_append] at h
    obtain ⟨hf, hrest⟩ := h
    obtain ⟨hlength, hcall⟩ := handledAt_call hf
    have hpos : pos + f.bytes.length = pos + kFrameLengthBytes + frameLength data pos := by
      rw [f.length_bytes, hlength, Nat.add_assoc]
    have hbytes : pos + ((f :: frames).flatMap Frame.bytes ++ tail).length =
        pos + f.bytes.length + (frames.flatMap Frame.bytes ++ tail).length := by
      rw [List.flatMap_cons, List.append_assoc, List.length_append, Nat.add_assoc]
    have hc : Complete data (pos + ((f :: frames).flatMap Frame.bytes ++ tail).length) pos := by
      unfold Complete
      rw [hbytes, ← hpos]
      exact Nat.le_add_right _ _
    obtain ⟨hcalls, hcount⟩ := ih (pos + f.bytes.length) (count + 1) hrest
    rw [(parseLoop_next hc count).1, ← hpos, hbytes]
    constructor
    · rw [List.map_cons, List.map_cons, hcall, hcalls]
    · rw [hcount, List.length_cons, Nat.add_assoc, Nat.add_comm 1]

/-- **Parsing undoes encoding.**  The memory past the buffer is arbitrary. -/
theorem parse_encoded (frames : List Frame) {tail : List UInt8} {f : Frame}
    (htail : tail <+: f.bytes) (hne : tail ≠ f.bytes) {data : ℕ → UInt8}
    (h : Holds data 0 (frames.flatMap Frame.bytes ++ tail)) :
    calls data (frames.flatMap Frame.bytes ++ tail).length = frames.map Frame.call ∧
      count data (frames.flatMap Frame.bytes ++ tail).length = frames.length := by
  obtain ⟨hcalls, hcount⟩ := parseLoop_encoded frames 0 0
    (fun pos htail' => not_complete_of_tail htail hne htail') h (Nat.zero_add _).symm
  exact ⟨hcalls, hcount.trans (Nat.zero_add _)⟩

theorem holds_getD (bs : List UInt8) : Holds (fun i => bs.getD i 0) 0 bs := by
  intro i b hi
  show bs.getD (0 + i) 0 = b
  rw [Nat.zero_add, List.getD_eq_getElem?_getD, hi]
  rfl

/-- The deletion of the order 5 of the stock with locate 1, with a byte after it. -/
def deleteFrame : Frame :=
  ⟨.orderDelete 0 ⟨1, 7, 5⟩, [255], show (7 : UInt64).toNat < 2 ^ 48 by decide, by decide⟩

/-- A trade message, which is not unpacked. -/
def tradeFrame : Frame :=
  ⟨.other 'P'.toUInt8 [1], [], show MessageType.ofByte 'P'.toUInt8 = none by decide, by decide⟩

theorem deleteTrade_parse_encoded :
    calls (fun i => ([deleteFrame, tradeFrame].flatMap Frame.bytes ++ [0]).getD i 0) 27 =
        [.orderDelete ⟨1, 7, 5⟩, .unhandled 'P'.toUInt8 2] ∧
      count (fun i => ([deleteFrame, tradeFrame].flatMap Frame.bytes ++ [0]).getD i 0) 27 = 2 :=
  @parse_encoded [deleteFrame, tradeFrame] [0] tradeFrame (by decide) (by decide) _ (holds_getD _)

end Lob.Itch
