import Lob.Equiv.ItchParser

/-!
# Every well-formed buffer is an encoding

`parse_encoded` says what the parser makes of a buffer that has been encoded.  Here a buffer is
given, and `wireAt` and `frameAt` read off the messages that it has been encoded from: if no frame
announces less than the format has for its type and the bytes for the side and for `printable` are
those of the format (`WellFormed`), then the buffer is the encoding of these messages, which are
also what the parser delivers (`wellFormed_iff`).  So parsing loses nothing of such a buffer but
the fields that no handler is told, and no other buffer is an encoding.
-/

namespace Lob.Itch

open BigEndian (encode)

variable {data : ℕ → UInt8} {len p m n pos : ℕ}

/-! ### Well-formed buffers -/

/-- How many bytes a body of this type has in the format. -/
def wireLength (type : UInt8) : ℕ :=
  match MessageType.ofByte type with
  | some .systemEvent => 12
  | some .stockDirectory => 39
  | some .addOrder => 36
  | some .addOrderMpid => 40
  | some .orderExecuted => 31
  | some .orderExecutedWithPrice => 36
  | some .orderCancel => 23
  | some .orderDelete => 19
  | some .orderReplace => 35
  | none => 1

/-- The side and the flag `printable` of the body at `m` have one of their two codes. -/
def FlagsOk (data : ℕ → UInt8) (m : ℕ) : Prop :=
  match MessageType.ofByte (data m) with
  | some .addOrder | some .addOrderMpid => ∃ side, data (m + 19) = Wire.sideCode side
  | some .orderExecutedWithPrice => ∃ printable, data (m + 31) = Wire.printableCode printable
  | _ => True

/-- What the frame at `pos` is to have. -/
structure FrameOk (data : ℕ → UInt8) (pos : ℕ) : Prop where
  length_le : wireLength (data (pos + kFrameLengthBytes)) ≤ frameLength data pos
  flags : FlagsOk data (pos + kFrameLengthBytes)

/-- All complete frames of the buffer are as the format has them. -/
def WellFormed (data : ℕ → UInt8) (len : ℕ) : Prop :=
  ∀ pos, FrameAt data len pos → Complete data len pos → FrameOk data pos

/-- The bytes are less than a frame, which may be less than its length. -/
def CutOff (tail : List UInt8) : Prop :=
  tail.length < kFrameLengthBytes + BigEndian.value (tail.take kFrameLengthBytes)

/-! ### The bytes of the fields -/

/-- The `n` bytes from the address `p` on. -/
def bytesAt (data : ℕ → UInt8) (p n : ℕ) : List UInt8 := (List.range n).map fun i => data (p + i)

@[simp] theorem length_bytesAt : (bytesAt data p n).length = n := by simp [bytesAt]

theorem holds_bytesAt : Holds data p (bytesAt data p n) := by
  intro i b hi
  unfold bytesAt at hi
  rw [List.getElem?_map, Option.map_eq_some_iff] at hi
  obtain ⟨j, hj, rfl⟩ := hi
  obtain ⟨-, rfl⟩ := List.getElem?_eq_some_iff.mp hj
  rw [List.getElem_range]

/-- A number has the bytes that it has been read from. -/
theorem holds_encode {v : ℕ} (hv : v = BigEndian.value (bytesAt data p n)) :
    Holds data p (encode n v) := by
  have hbytes := BigEndian.encode_value (bytesAt data p n)
  rw [length_bytesAt] at hbytes
  rw [hv, hbytes]
  exact holds_bytesAt

theorem holds_be16 : Holds data p (encode 2 (be16 data p).value.toNat) := holds_encode be16_value

theorem holds_be32 : Holds data p (encode 4 (be32 data p).value.toNat) := holds_encode be32_value

theorem holds_be48 : Holds data p (encode 6 (be48 data p).value.toNat) := holds_encode be48_value

theorem holds_be64 : Holds data p (encode 8 (be64 data p).value.toNat) := holds_encode be64_value

theorem be48_lt (data : ℕ → UInt8) (p : ℕ) : (be48 data p).value.toNat < 2 ^ 48 := by
  have hlt := BigEndian.value_lt (bytesAt data p 6)
  have hvalue : (be48 data p).value.toNat = BigEndian.value (bytesAt data p 6) := be48_value
  rw [length_bytesAt] at hlt
  rw [hvalue]
  exact hlt.trans_eq (by decide)

/-- The `n` bytes from the address `p` on, as the format has fields of a fixed length. -/
def vectorAt (data : ℕ → UInt8) (p n : ℕ) : Vector UInt8 n := Vector.ofFn fun i => data (p + i)

theorem holds_vectorAt : Holds data p (vectorAt data p n).toList := by
  intro i b hi
  unfold vectorAt at hi
  rw [Vector.toList_ofFn, List.getElem?_ofFn] at hi
  split_ifs at hi
  exact Option.some.inj hi

theorem holds_readSymbol : Holds data p (readSymbol data p).value.toList := holds_vectorAt

/-! ### The message at an address -/

/-- The order that the body at `m` adds. -/
def addOrderAt (data : ℕ → UInt8) (m : ℕ) : AddOrder where
  stockLocate := (be16 data (m + 1)).value
  trackingNumber := (be16 data (m + 3)).value
  tsNs := (be48 data (m + 5)).value
  orderRef := (be64 data (m + 11)).value
  side := if data (m + 19) = 'B'.toUInt8 then .buy else .sell
  shares := (be32 data (m + 20)).value
  stock := (readSymbol data (m + 24)).value
  price := (be32 data (m + 32)).value

/-- The message whose body is at `m`. -/
def wireAt (data : ℕ → UInt8) (m : ℕ) : Wire :=
  let locate := (be16 data (m + 1)).value
  let tracking := (be16 data (m + 3)).value
  let tsNs := (be48 data (m + 5)).value
  let ref := (be64 data (m + 11)).value
  match MessageType.ofByte (data m) with
  | some .systemEvent => .systemEvent locate tracking ⟨tsNs, data (m + 11)⟩
  | some .stockDirectory => .stockDirectory tracking
      ⟨locate, tsNs, (readSymbol data (m + 11)).value, data (m + 19)⟩ (vectorAt data (m + 20) 19)
  | some .addOrder => .addOrder (addOrderAt data m)
  | some .addOrderMpid => .addOrderMpid (addOrderAt data m) (vectorAt data (m + 36) 4)
  | some .orderExecuted => .orderExecuted tracking
      ⟨locate, tsNs, ref, (be32 data (m + 19)).value, (be64 data (m + 23)).value⟩
  | some .orderExecutedWithPrice => .orderExecutedWithPrice tracking
      ⟨locate, tsNs, ref, (be32 data (m + 19)).value, (be64 data (m + 23)).value,
        data (m + 31) == 'Y'.toUInt8, (be32 data (m + 32)).value⟩
  | some .orderCancel => .orderCancel tracking ⟨locate, tsNs, ref, (be32 data (m + 19)).value⟩
  | some .orderDelete => .orderDelete tracking ⟨locate, tsNs, ref⟩
  | some .orderReplace => .orderReplace tracking ⟨locate, tsNs, ref, (be64 data (m + 19)).value,
      (be32 data (m + 27)).value, (be32 data (m + 31)).value⟩
  | none => .other (data m) []

theorem code_of_ofByte {type : UInt8} {t : MessageType} (h : MessageType.ofByte type = some t) :
    t.code = type := by
  have hfind := List.find?_some h
  exact beq_iff_eq.mp hfind

theorem wireAt_valid : (wireAt data m).Valid := by
  unfold wireAt
  cases h : MessageType.ofByte (data m) with
  | none => exact h
  | some t => cases t <;> exact be48_lt data (m + 5)

theorem length_wireAt : (wireAt data m).body.length = wireLength (data m) := by
  unfold wireAt wireLength
  cases MessageType.ofByte (data m) with
  | none => rfl
  | some t => cases t <;> simp [Wire.body, Wire.header, Wire.addOrderBody]

/-- The header of a message has the bytes that it has been read from. -/
theorem holds_headerAt {t : MessageType} (h : MessageType.ofByte (data m) = some t) :
    Holds data m (Wire.header t (be16 data (m + 1)).value (be16 data (m + 3)).value
      (be48 data (m + 5)).value) := by
  have hcode : data m = t.code := (code_of_ofByte h).symm
  have hcons : ∀ locate tracking tsNs, Wire.header t locate tracking tsNs =
      [t.code] ++ (encode 2 locate.toNat ++ encode 2 tracking.toNat ++ encode 6 tsNs.toNat) :=
    fun _ _ _ => rfl
  rw [hcons]
  simp only [holds_append, holds_singleton, List.length_append, BigEndian.length_encode,
    List.length_singleton]
  exact ⟨hcode, ⟨holds_be16, holds_be16⟩, holds_be48⟩

theorem holds_addOrderAt {t : MessageType} (h : MessageType.ofByte (data m) = some t)
    {side : Side} (hside : data (m + 19) = Wire.sideCode side) :
    Holds data m (Wire.addOrderBody t (addOrderAt data m)) := by
  have hcode : data (m + 19) = Wire.sideCode (addOrderAt data m).side := by
    unfold addOrderAt
    rw [hside]
    cases side <;> rfl
  unfold Wire.addOrderBody
  simp only [holds_append, holds_singleton, List.length_append, BigEndian.length_encode,
    length_header, Vector.length_toList, List.length_singleton]
  exact ⟨⟨⟨⟨⟨holds_headerAt h, holds_be64⟩, hcode⟩, holds_be32⟩, holds_readSymbol⟩, holds_be32⟩

/-- **The memory holds the message** that is read from it, if its flags are those of the format. -/
theorem holds_wireAt (h : FlagsOk data m) : Holds data m (wireAt data m).body := by
  unfold FlagsOk at h
  unfold wireAt
  cases htype : MessageType.ofByte (data m) with
  | none => exact holds_singleton.mpr rfl
  | some t =>
    rw [htype] at h
    cases t with
    | addOrder =>
      obtain ⟨side, hside⟩ := h
      exact holds_addOrderAt htype hside
    | addOrderMpid =>
      obtain ⟨side, hside⟩ := h
      refine holds_append.mpr ⟨holds_addOrderAt htype hside, ?_⟩
      simp only [Wire.addOrderBody, List.length_append, BigEndian.length_encode, length_header,
        Vector.length_toList, List.length_singleton]
      exact holds_vectorAt
    | orderExecutedWithPrice =>
      obtain ⟨printable, hprintable⟩ := h
      have hcode : data (m + 31) = Wire.printableCode (data (m + 31) == 'Y'.toUInt8) := by
        rw [hprintable]
        cases printable <;> rfl
      simp only [Wire.body, holds_append, holds_singleton, List.length_append,
        BigEndian.length_encode, length_header, List.length_singleton]
      exact ⟨⟨⟨⟨⟨holds_headerAt htype, holds_be64⟩, holds_be32⟩, holds_be64⟩, hcode⟩, holds_be32⟩
    | systemEvent =>
      simp only [Wire.body, holds_append, holds_singleton, length_header]
      exact ⟨holds_headerAt htype, trivial⟩
    | stockDirectory =>
      simp only [Wire.body, holds_append, holds_singleton, List.length_append, length_header,
        Vector.length_toList, List.length_singleton]
      exact ⟨⟨⟨holds_headerAt htype, holds_readSymbol⟩, trivial⟩, holds_vectorAt⟩
    | orderExecuted =>
      simp only [Wire.body, holds_append, List.length_append, BigEndian.length_encode,
        length_header]
      exact ⟨⟨⟨holds_headerAt htype, holds_be64⟩, holds_be32⟩, holds_be64⟩
    | orderCancel =>
      simp only [Wire.body, holds_append, List.length_append, BigEndian.length_encode,
        length_header]
      exact ⟨⟨holds_headerAt htype, holds_be64⟩, holds_be32⟩
    | orderDelete =>
      simp only [Wire.body, holds_append, length_header]
      exact ⟨holds_headerAt htype, holds_be64⟩
    | orderReplace =>
      simp only [Wire.body, holds_append, List.length_append, BigEndian.length_encode,
        length_header]
      exact ⟨⟨⟨⟨holds_headerAt htype, holds_be64⟩, holds_be64⟩, holds_be32⟩, holds_be32⟩

/-! ### The frame at an address -/

theorem frameLength_lt : frameLength data pos < 2 ^ 16 := by
  rw [← toNat_msgLen]
  exact UInt16.toNat_lt _

theorem length_frameAt (h : FrameOk data pos) :
    ((wireAt data (pos + kFrameLengthBytes)).body ++
      bytesAt data (pos + kFrameLengthBytes + wireLength (data (pos + kFrameLengthBytes)))
        (frameLength data pos - wireLength (data (pos + kFrameLengthBytes)))).length =
      frameLength data pos := by
  rw [List.length_append, length_wireAt, length_bytesAt]
  exact Nat.add_sub_cancel' h.length_le

/-- The frame that starts at `pos`. -/
def frameAt (data : ℕ → UInt8) (pos : ℕ) (h : FrameOk data pos) : Frame where
  wire := wireAt data (pos + kFrameLengthBytes)
  trailing := bytesAt data
    (pos + kFrameLengthBytes + wireLength (data (pos + kFrameLengthBytes)))
    (frameLength data pos - wireLength (data (pos + kFrameLengthBytes)))
  valid := wireAt_valid
  fits := (length_frameAt h).trans_lt frameLength_lt

theorem holds_frameAt (h : FrameOk data pos) : Holds data pos (frameAt data pos h).bytes := by
  have hlength : (frameAt data pos h).length = frameLength data pos := length_frameAt h
  unfold Frame.bytes
  rw [hlength, holds_append, holds_append, BigEndian.length_encode]
  refine ⟨holds_encode rfl, holds_wireAt h.flags, ?_⟩
  unfold frameAt
  rw [length_wireAt]
  exact holds_bytesAt

/-! ### Well-formed buffers are encodings -/

theorem cutOff_iff {tail : List UInt8} (h : Holds data pos tail) :
    CutOff tail ↔ ¬Complete data (pos + tail.length) pos := by
  unfold CutOff Complete kFrameLengthBytes
  rcases tail with _ | ⟨a, _ | ⟨b, rest⟩⟩
  · simp only [List.length_nil]
    omega
  · simp only [List.length_singleton]
    omega
  · have hlength : frameLength data pos = BigEndian.value ((a :: b :: rest).take 2) := by
      unfold frameLength
      have ha : data pos = a := h 0 a rfl
      rw [ha, h 1 b rfl]
      rfl
    rw [hlength]
    omega

theorem exists_frames (hle : pos ≤ len)
    (hok : ∀ pos', Relation.ReflTransGen (NextFrame data len) pos pos' →
      Complete data len pos' → FrameOk data pos') :
    ∃ (frames : List Frame) (tail : List UInt8), CutOff tail ∧
      Holds data pos (frames.flatMap Frame.bytes ++ tail) ∧
      pos + (frames.flatMap Frame.bytes ++ tail).length = len := by
  induction pos using frames_induction data len with
  | stop pos hc =>
    have hlength : pos + (bytesAt data pos (len - pos)).length = len := by
      rw [length_bytesAt]
      exact Nat.add_sub_cancel' hle
    refine ⟨[], bytesAt data pos (len - pos), ?_, holds_bytesAt, hlength⟩
    rw [cutOff_iff holds_bytesAt, hlength]
    exact hc
  | next pos hc ih =>
    have hnext : NextFrame data len pos (pos + kFrameLengthBytes + frameLength data pos) :=
      ⟨hc, rfl⟩
    obtain ⟨frames, tail, htail, hholds, hlen⟩ :=
      ih hnext.lt.2 fun pos' hpath => hok pos' (hpath.head hnext)
    have hframe := hok pos .refl hc
    have hbytes : pos + (frameAt data pos hframe).bytes.length =
        pos + kFrameLengthBytes + frameLength data pos := by
      rw [Frame.length_bytes, Nat.add_assoc]
      exact congrArg (fun n => pos + (kFrameLengthBytes + n)) (length_frameAt hframe)
    refine ⟨frameAt data pos hframe :: frames, tail, htail, ?_, ?_⟩
    · rw [List.flatMap_cons, List.append_assoc, holds_append, hbytes]
      exact ⟨holds_frameAt hframe, hholds⟩
    · rw [List.flatMap_cons, List.append_assoc, List.length_append, ← Nat.add_assoc, hbytes]
      exact hlen

/-! ### Encodings are well formed -/

theorem Holds.ofByte {t : MessageType} {rest : List UInt8} (h : Holds data m (t.code :: rest)) :
    MessageType.ofByte (data m) = some t := by
  have hcode : data m = t.code := h 0 _ rfl
  rw [hcode]
  exact ofByte_code t

/-- The body of a message has all the bytes of its type, and the flags of the format. -/
theorem Wire.flagsOk {w : Wire} (hv : w.Valid) (h : Holds data m w.body) :
    wireLength (data m) ≤ w.body.length ∧ FlagsOk data m := by
  unfold wireLength FlagsOk
  cases w with
  | other type rest =>
    have htype : data m = type := h 0 type rfl
    have hnone : MessageType.ofByte type = none := hv
    rw [htype, hnone]
    exact ⟨Nat.succ_le_succ (Nat.zero_le _), trivial⟩
  | addOrder a =>
    have hside : data (m + 19) = sideCode a.side := h 19 _ rfl
    rw [Holds.ofByte (t := .addOrder) h]
    exact ⟨by simp [body, header, addOrderBody], a.side, hside⟩
  | addOrderMpid a mpid =>
    have hside : data (m + 19) = sideCode a.side := h 19 _ rfl
    rw [Holds.ofByte (t := .addOrderMpid) h]
    exact ⟨by simp [body, header, addOrderBody], a.side, hside⟩
  | orderExecutedWithPrice tracking e =>
    have hprintable : data (m + 31) = printableCode e.printable := h 31 _ rfl
    rw [Holds.ofByte (t := .orderExecutedWithPrice) h]
    exact ⟨by simp [body, header], e.printable, hprintable⟩
  | systemEvent =>
    rw [Holds.ofByte (t := .systemEvent) h]
    exact ⟨by simp [body, header], trivial⟩
  | stockDirectory =>
    rw [Holds.ofByte (t := .stockDirectory) h]
    exact ⟨by simp [body, header], trivial⟩
  | orderExecuted =>
    rw [Holds.ofByte (t := .orderExecuted) h]
    exact ⟨by simp [body, header], trivial⟩
  | orderCancel =>
    rw [Holds.ofByte (t := .orderCancel) h]
    exact ⟨by simp [body, header], trivial⟩
  | orderDelete =>
    rw [Holds.ofByte (t := .orderDelete) h]
    exact ⟨by simp [body, header], trivial⟩
  | orderReplace =>
    rw [Holds.ofByte (t := .orderReplace) h]
    exact ⟨by simp [body, header], trivial⟩

theorem Frame.frameOk {f : Frame} (h : Holds data pos f.bytes) : FrameOk data pos := by
  have hlength := (handledAt_call h).1
  unfold Frame.bytes at h
  rw [holds_append, holds_append, BigEndian.length_encode] at h
  obtain ⟨hle, hflags⟩ := Wire.flagsOk f.valid h.2.1
  refine ⟨?_, hflags⟩
  rw [hlength]
  refine hle.trans ?_
  unfold Frame.length
  rw [List.length_append]
  exact Nat.le_add_right _ _

/-- The frames that the parser finds in an encoding are those that have been encoded. -/
theorem frameOk_of_encoded {frames : List Frame} {tail : List UInt8} (htail : CutOff tail)
    (h : Holds data pos (frames.flatMap Frame.bytes ++ tail))
    (hlen : pos + (frames.flatMap Frame.bytes ++ tail).length = len) {pos' : ℕ}
    (hpath : Relation.ReflTransGen (NextFrame data len) pos pos') (hc : Complete data len pos') :
    FrameOk data pos' := by
  subst hlen
  induction frames generalizing pos with
  | nil =>
    have hstop := (cutOff_iff h).mp htail
    rcases hpath.cases_head with rfl | ⟨mid, hmid, -⟩
    · exact absurd hc hstop
    · exact absurd hmid.1 hstop
  | cons f frames ih =>
    rw [List.flatMap_cons, List.append_assoc, holds_append] at h
    obtain ⟨hf, hrest⟩ := h
    rcases hpath.cases_head with rfl | ⟨mid, ⟨-, rfl⟩, hpath⟩
    · exact Frame.frameOk hf
    · have hnext : pos + kFrameLengthBytes + frameLength data pos = pos + f.bytes.length := by
        rw [f.length_bytes, (handledAt_call hf).1, Nat.add_assoc]
      have hbytes : pos + ((f :: frames).flatMap Frame.bytes ++ tail).length =
          pos + f.bytes.length + (frames.flatMap Frame.bytes ++ tail).length := by
        rw [List.flatMap_cons, List.append_assoc, List.length_append, Nat.add_assoc]
      rw [hnext, hbytes] at hpath
      rw [hbytes] at hc
      exact ih hrest hpath hc

/-- **The well-formed buffers are the encodings**, and the parser delivers what has been encoded. -/
theorem wellFormed_iff (data : ℕ → UInt8) (len : ℕ) : WellFormed data len ↔
    ∃ (frames : List Frame) (tail : List UInt8), CutOff tail ∧
      Holds data 0 (frames.flatMap Frame.bytes ++ tail) ∧
      (frames.flatMap Frame.bytes ++ tail).length = len ∧
      calls data len = frames.map Frame.call ∧ count data len = frames.length := by
  constructor
  · intro h
    obtain ⟨frames, tail, htail, hholds, hlen⟩ := exists_frames (Nat.zero_le len) h
    obtain ⟨hcalls, hcount⟩ := parseLoop_encoded frames 0 0
      (fun pos htail' => (cutOff_iff htail').mp htail) hholds hlen.symm
    exact ⟨frames, tail, htail, hholds, (Nat.zero_add _).symm.trans hlen, hcalls,
      hcount.trans (Nat.zero_add _)⟩
  · rintro ⟨frames, tail, htail, hholds, hlen, -⟩ pos hpath hc
    exact frameOk_of_encoded htail hholds ((Nat.zero_add _).trans hlen) hpath hc

/-- In a well-formed buffer no frame is too short for what is unpacked. -/
theorem WellFormed.longEnough (h : WellFormed data len) : LongEnough data len := by
  intro pos hpath hc
  refine le_trans ?_ (h pos hpath hc).length_le
  unfold extent wireLength
  cases MessageType.ofByte (data (pos + kFrameLengthBytes)) with
  | none => exact le_rfl
  | some t => cases t <;> decide

end Lob.Itch
