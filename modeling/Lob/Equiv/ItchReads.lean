import Lob.ItchFormat
import Mathlib.Tactic.SplitIfs

/-!
# What the ITCH parser reads

The readers of `itch_parser.cpp` return the big-endian number at their address (`be16_value` to
`be64_value`) and read the bytes of it only (`be16_reads` to `be64_reads`).  The frames that
`parse` handles are the complete frames of the buffer (`mem_handled_iff`).

The only check on a frame is that its announced length fits the buffer, so that the parser reads
past a frame whose announced length is shorter than what it unpacks for the type
(`readsInside_iff`).
-/

namespace Lob.Itch

variable {data : ℕ → UInt8} {len p m pos : ℕ} {msgLen : UInt16}

/-! ### Reads -/

section Reads

variable {α β : Type}

@[simp] theorem pure_value (a : α) : (pure a : Reads α).value = a := rfl

@[simp] theorem pure_reads (a : α) : (pure a : Reads α).reads = [] := rfl

@[simp] theorem bind_value (x : Reads α) (f : α → Reads β) :
    (x >>= f).value = (f x.value).value := rfl

@[simp] theorem bind_reads (x : Reads α) (f : α → Reads β) :
    (x >>= f).reads = x.reads ++ (f x.value).reads := rfl

end Reads

@[simp] theorem byte_value : (byte data p).value = data p := rfl

@[simp] theorem byte_reads : (byte data p).reads = List.range' p 1 := rfl

@[simp] theorem be16_reads : (be16 data p).reads = List.range' p 2 := rfl

@[simp] theorem be32_reads : (be32 data p).reads = List.range' p 4 := rfl

@[simp] theorem be48_reads : (be48 data p).reads = List.range' p 6 := rfl

@[simp] theorem be64_reads : (be64 data p).reads = List.range' p 8 := rfl

@[simp] theorem readSymbol_reads : (readSymbol data p).reads = List.range' p 8 := rfl

/-! ### The numbers read -/

/-- A byte that is shifted to the left within the width. -/
theorem shl16 (b : UInt8) : (b.toUInt16 <<< 8).toNat = b.toNat * 2 ^ 8 := by
  have hb := b.toNat_lt
  rw [UInt16.toNat_shiftLeft, Nat.shiftLeft_eq, UInt8.toNat_toUInt16]
  exact Nat.mod_eq_of_lt (Nat.mul_lt_mul_of_pos_right hb (by decide))

theorem shl32 (b : UInt8) {k : ℕ} (hk : k ≤ 24) :
    (b.toUInt32 <<< UInt32.ofNat k).toNat = b.toNat * 2 ^ k := by
  have hb := b.toNat_lt
  have hpow : 2 ^ k ≤ 2 ^ 24 := Nat.pow_le_pow_right (show 2 > 0 by decide) hk
  have hmul := Nat.mul_lt_mul_of_lt_of_le hb hpow (Nat.two_pow_pos _)
  rw [UInt32.toNat_shiftLeft, Nat.shiftLeft_eq, UInt8.toNat_toUInt32, UInt32.toNat_ofNat',
    Nat.mod_eq_of_lt (show k < 2 ^ 32 by omega), Nat.mod_eq_of_lt (show k < 32 by omega)]
  exact Nat.mod_eq_of_lt hmul

theorem shl64 (b : UInt8) {k : ℕ} (hk : k ≤ 40) :
    (b.toUInt64 <<< UInt64.ofNat k).toNat = b.toNat * 2 ^ k := by
  have hb := b.toNat_lt
  have hpow : 2 ^ k ≤ 2 ^ 40 := Nat.pow_le_pow_right (show 2 > 0 by decide) hk
  have hmul := Nat.mul_lt_mul_of_lt_of_le hb hpow (Nat.two_pow_pos _)
  rw [UInt64.toNat_shiftLeft, Nat.shiftLeft_eq, UInt8.toNat_toUInt64, UInt64.toNat_ofNat',
    Nat.mod_eq_of_lt (show k < 2 ^ 64 by omega), Nat.mod_eq_of_lt (show k < 64 by omega)]
  exact Nat.mod_eq_of_lt (by omega)

theorem be16_value :
    (be16 data p).value.toNat = BigEndian.value [data p, data (p + 1)] := by
  have h1 := (data (p + 1)).toNat_lt
  show ((data p).toUInt16 <<< 8 ||| (data (p + 1)).toUInt16).toNat = _
  rw [UInt16.toNat_or, shl16, UInt8.toNat_toUInt16, BigEndian.or_eq_add h1]
  show _ = (0 * 256 + (data p).toNat) * 256 + (data (p + 1)).toNat
  omega

theorem be32_value : (be32 data p).value.toNat =
    BigEndian.value [data p, data (p + 1), data (p + 2), data (p + 3)] := by
  have h0 := (data p).toNat_lt
  have h1 := (data (p + 1)).toNat_lt
  have h2 := (data (p + 2)).toNat_lt
  have h3 := (data (p + 3)).toNat_lt
  show ((data p).toUInt32 <<< UInt32.ofNat 24 ||| (data (p + 1)).toUInt32 <<< UInt32.ofNat 16 |||
    (data (p + 2)).toUInt32 <<< UInt32.ofNat 8 ||| (data (p + 3)).toUInt32).toNat = _
  rw [UInt32.toNat_or, UInt32.toNat_or, UInt32.toNat_or, shl32 _ (by decide), shl32 _ (by decide),
    shl32 _ (by decide), UInt8.toNat_toUInt32, Nat.or_assoc, Nat.or_assoc]
  -- the bytes are joined from the right
  rw [BigEndian.or_eq_add h3, BigEndian.or_eq_add (k := 16) (by omega),
    BigEndian.or_eq_add (k := 24) (by omega)]
  show _ = (((0 * 256 + (data p).toNat) * 256 + (data (p + 1)).toNat) * 256 +
    (data (p + 2)).toNat) * 256 + (data (p + 3)).toNat
  omega

theorem be48_value : (be48 data p).value.toNat = BigEndian.value
    [data p, data (p + 1), data (p + 2), data (p + 3), data (p + 4), data (p + 5)] := by
  have h0 := (data p).toNat_lt
  have h1 := (data (p + 1)).toNat_lt
  have h2 := (data (p + 2)).toNat_lt
  have h3 := (data (p + 3)).toNat_lt
  have h4 := (data (p + 4)).toNat_lt
  have h5 := (data (p + 5)).toNat_lt
  show ((data p).toUInt64 <<< UInt64.ofNat 40 ||| (data (p + 1)).toUInt64 <<< UInt64.ofNat 32 |||
    (data (p + 2)).toUInt64 <<< UInt64.ofNat 24 ||| (data (p + 3)).toUInt64 <<< UInt64.ofNat 16 |||
    (data (p + 4)).toUInt64 <<< UInt64.ofNat 8 ||| (data (p + 5)).toUInt64).toNat = _
  rw [UInt64.toNat_or, UInt64.toNat_or, UInt64.toNat_or, UInt64.toNat_or, UInt64.toNat_or,
    shl64 _ (by decide), shl64 _ (by decide), shl64 _ (by decide), shl64 _ (by decide),
    shl64 _ (by decide), UInt8.toNat_toUInt64, Nat.or_assoc, Nat.or_assoc, Nat.or_assoc,
    Nat.or_assoc]
  rw [BigEndian.or_eq_add h5, BigEndian.or_eq_add (k := 16) (by omega),
    BigEndian.or_eq_add (k := 24) (by omega), BigEndian.or_eq_add (k := 32) (by omega),
    BigEndian.or_eq_add (k := 40) (by omega)]
  show _ = (((((0 * 256 + (data p).toNat) * 256 + (data (p + 1)).toNat) * 256 +
    (data (p + 2)).toNat) * 256 + (data (p + 3)).toNat) * 256 + (data (p + 4)).toNat) * 256 +
    (data (p + 5)).toNat
  omega

theorem be64_value : (be64 data p).value.toNat = BigEndian.value
    [data p, data (p + 1), data (p + 2), data (p + 3), data (p + 4), data (p + 5), data (p + 6),
      data (p + 7)] := by
  have hhi := @be32_value data p
  have hlo : (be32 data (p + 4)).value.toNat =
      BigEndian.value [data (p + 4), data (p + 5), data (p + 6), data (p + 7)] := be32_value
  have hhilt := (be32 data p).value.toNat_lt
  have hlolt := (be32 data (p + 4)).value.toNat_lt
  have hshift : ((be32 data p).value.toUInt64 <<< (32 : UInt64)).toNat =
      (be32 data p).value.toNat * 2 ^ 32 := by
    rw [UInt64.toNat_shiftLeft, Nat.shiftLeft_eq, UInt32.toNat_toUInt64]
    exact Nat.mod_eq_of_lt (Nat.mul_lt_mul_of_pos_right hhilt (by decide))
  show ((be32 data p).value.toUInt64 <<< 32 ||| (be32 data (p + 4)).value.toUInt64).toNat = _
  rw [UInt64.toNat_or, hshift, UInt32.toNat_toUInt64, BigEndian.or_eq_add hlolt, hhi, hlo]
  simp only [BigEndian.value, List.foldl_cons, List.foldl_nil]
  omega

/-! ### What a computation depends on -/

/-- What is computed depends only on the bytes that are read for it. -/
def Local {α : Type} (x : (ℕ → UInt8) → Reads α) : Prop :=
  ∀ data data' : ℕ → UInt8, (∀ a ∈ (x data).reads, data' a = data a) → x data' = x data

section Local

variable {α β : Type}

theorem Local.pure (a : α) : Local fun _ => (Pure.pure a : Reads α) := fun _ _ _ => rfl

theorem Local.bind {x : (ℕ → UInt8) → Reads α} {f : (ℕ → UInt8) → α → Reads β} (hx : Local x)
    (hf : ∀ a, Local fun data => f data a) : Local fun data => x data >>= f data := by
  intro data data' h
  have hx' : x data' = x data := hx data data' fun a ha => h a (List.mem_append_left _ ha)
  have hf' : f data' (x data).value = f data (x data).value :=
    hf _ data data' fun a ha => h a (List.mem_append_right _ ha)
  show (⟨(f data' (x data').value).value, _⟩ : Reads β) = _
  rw [hx', hf']
  rfl

end Local

theorem local_byte (p : ℕ) : Local fun data => byte data p := by
  intro data data' h
  show (⟨data' p, [p]⟩ : Reads UInt8) = ⟨data p, [p]⟩
  rw [h p (List.mem_singleton.mpr rfl)]

theorem local_be16 (p : ℕ) : Local fun data => be16 data p :=
  (local_byte p).bind fun _ => (local_byte _).bind fun _ => .pure _

theorem local_be32 (p : ℕ) : Local fun data => be32 data p :=
  (local_byte p).bind fun _ => (local_byte _).bind fun _ => (local_byte _).bind fun _ =>
    (local_byte _).bind fun _ => .pure _

theorem local_be48 (p : ℕ) : Local fun data => be48 data p :=
  (local_byte p).bind fun _ => (local_byte _).bind fun _ => (local_byte _).bind fun _ =>
    (local_byte _).bind fun _ => (local_byte _).bind fun _ => (local_byte _).bind fun _ => .pure _

theorem local_be64 (p : ℕ) : Local fun data => be64 data p :=
  (local_be32 p).bind fun _ => (local_be32 _).bind fun _ => .pure _

theorem local_readSymbol (p : ℕ) : Local fun data => readSymbol data p := by
  intro data data' h
  have hbytes : (fun i : Fin 8 => data' (p + i)) = fun i : Fin 8 => data (p + i) := by
    funext i
    exact h _ (List.mem_range'_1.mpr ⟨by omega, by omega⟩)
  show readSymbol data' p = readSymbol data p
  unfold readSymbol
  rw [hbytes]

theorem local_decode (m : ℕ) (msgLen : UInt16) : Local fun data => decode data m msgLen := by
  refine (local_byte m).bind fun type => ?_
  cases MessageType.ofByte type with
  | none => exact .pure _
  | some t =>
    cases t with
    | systemEvent => exact (local_be48 _).bind fun _ => (local_byte _).bind fun _ => .pure _
    | stockDirectory =>
      exact (local_be16 _).bind fun _ => (local_be48 _).bind fun _ =>
        (local_readSymbol _).bind fun _ => (local_byte _).bind fun _ => .pure _
    | addOrder | addOrderMpid =>
      exact (local_be16 _).bind fun _ => (local_be16 _).bind fun _ => (local_be48 _).bind fun _ =>
        (local_be64 _).bind fun _ => (local_byte _).bind fun _ => (local_be32 _).bind fun _ =>
          (local_readSymbol _).bind fun _ => (local_be32 _).bind fun _ => .pure _
    | orderExecuted =>
      exact (local_be16 _).bind fun _ => (local_be48 _).bind fun _ => (local_be64 _).bind fun _ =>
        (local_be32 _).bind fun _ => (local_be64 _).bind fun _ => .pure _
    | orderExecutedWithPrice =>
      exact (local_be16 _).bind fun _ => (local_be48 _).bind fun _ => (local_be64 _).bind fun _ =>
        (local_be32 _).bind fun _ => (local_be64 _).bind fun _ => (local_byte _).bind fun _ =>
          (local_be32 _).bind fun _ => .pure _
    | orderCancel =>
      exact (local_be16 _).bind fun _ => (local_be48 _).bind fun _ => (local_be64 _).bind fun _ =>
        (local_be32 _).bind fun _ => .pure _
    | orderDelete =>
      exact (local_be16 _).bind fun _ => (local_be48 _).bind fun _ => (local_be64 _).bind fun _ =>
        .pure _
    | orderReplace =>
      exact (local_be16 _).bind fun _ => (local_be48 _).bind fun _ => (local_be64 _).bind fun _ =>
        (local_be64 _).bind fun _ => (local_be32 _).bind fun _ => (local_be32 _).bind fun _ =>
          .pure _

/-! ### One frame -/

/-- The parser unpacks nothing past the extent of the type. -/
theorem decode_reads {a : ℕ} (h : a ∈ (decode data m msgLen).reads) :
    m ≤ a ∧ a < m + extent (data m) := by
  unfold decode at h
  unfold extent
  rw [bind_reads, byte_value, byte_reads] at h
  revert h
  cases MessageType.ofByte (data m) with
  | none =>
    simp
    omega
  | some t =>
    cases t <;> simp [List.mem_range'_1] <;> omega

/-- It unpacks the last byte of it. -/
theorem last_mem_decode_reads : m + (extent (data m) - 1) ∈ (decode data m msgLen).reads := by
  unfold decode extent
  rw [bind_reads, byte_value, byte_reads]
  cases MessageType.ofByte (data m) with
  | none => simp
  | some t => cases t <;> simp [List.mem_range'_1]

theorem extent_pos (type : UInt8) : 0 < extent type := by
  unfold extent
  cases MessageType.ofByte type with
  | none => decide
  | some t => cases t <;> decide

/-! ### The loop -/

theorem toNat_msgLen : (be16 data pos).value.toNat = frameLength data pos := be16_value

/-- What `parse` keeps of the frame at `pos`. -/
def handledAt (data : ℕ → UInt8) (pos : ℕ) : Handled :=
  ⟨pos + kFrameLengthBytes, (be16 data pos).value,
    decode data (pos + kFrameLengthBytes) (be16 data pos).value⟩

/-- The loop ends at a frame that is not complete. -/
theorem parseLoop_stop (h : ¬Complete data len pos) (count : ℕ) :
    (parseLoop data len pos count).value = ([], count) ∧
      ∀ a ∈ (parseLoop data len pos count).reads, a < len := by
  unfold Complete at h
  rw [← toNat_msgLen] at h
  rw [parseLoop]
  split_ifs with hlen
  · rw [bind_value, bind_reads, if_pos (not_le.mp h)]
    refine ⟨rfl, fun a ha => ?_⟩
    -- the length is read from within the buffer all the same
    rw [be16_reads, pure_reads, List.append_nil, List.mem_range'_1] at ha
    unfold kFrameLengthBytes at hlen
    omega
  · exact ⟨rfl, nofun⟩

/-- The loop handles a complete frame and goes on after it. -/
theorem parseLoop_next (h : Complete data len pos) (count : ℕ) :
    (parseLoop data len pos count).value =
        (handledAt data pos :: (parseLoop data len
          (pos + kFrameLengthBytes + frameLength data pos) (count + 1)).value.1,
        (parseLoop data len
          (pos + kFrameLengthBytes + frameLength data pos) (count + 1)).value.2) ∧
      (parseLoop data len pos count).reads = List.range' pos 2 ++
        ((handledAt data pos).handling.reads ++ (parseLoop data len
          (pos + kFrameLengthBytes + frameLength data pos) (count + 1)).reads) := by
  unfold Complete at h
  rw [← toNat_msgLen] at h ⊢
  have hlen : pos + kFrameLengthBytes ≤ len := le_trans (Nat.le_add_right _ _) h
  rw [parseLoop, dif_pos hlen, bind_value, bind_reads, if_neg (not_lt.mpr h), be16_reads]
  refine ⟨rfl, ?_⟩
  rw [bind_reads, bind_reads, pure_reads, List.append_nil]
  rfl

/-- The loop goes forward. -/
theorem NextFrame.lt {pos' : ℕ} (h : NextFrame data len pos pos') : pos < pos' ∧ pos' ≤ len := by
  obtain ⟨hc, rfl⟩ := h
  refine ⟨?_, hc⟩
  unfold kFrameLengthBytes
  omega

/-- **Induction along the frames**, from where the loop ends. -/
theorem frames_induction (data : ℕ → UInt8) (len : ℕ) {motive : ℕ → Prop}
    (stop : ∀ pos, ¬Complete data len pos → motive pos)
    (next : ∀ pos, Complete data len pos →
      motive (pos + kFrameLengthBytes + frameLength data pos) → motive pos) (pos : ℕ) :
    motive pos := by
  -- on the length of the rest of the buffer
  induction hn : len - pos using Nat.strong_induction_on generalizing pos with
  | _ n ih =>
    by_cases hc : Complete data len pos
    · have hnext : NextFrame data len pos (pos + kFrameLengthBytes + frameLength data pos) :=
        ⟨hc, rfl⟩
      obtain ⟨hlt, hle⟩ := hnext.lt
      exact next pos hc (ih _ (by omega) _ rfl)
    · exact stop pos hc

theorem mem_parseLoop {f : Handled} {count : ℕ} : f ∈ (parseLoop data len pos count).value.1 ↔
    ∃ pos', Relation.ReflTransGen (NextFrame data len) pos pos' ∧ Complete data len pos' ∧
      f = handledAt data pos' := by
  induction pos using frames_induction data len generalizing count with
  | stop pos hc =>
    rw [(parseLoop_stop hc count).1]
    constructor
    · nofun
    · rintro ⟨pos', hpath, hc', -⟩
      rcases hpath.cases_head with rfl | ⟨mid, hmid, -⟩
      · exact absurd hc' hc
      · exact absurd hmid.1 hc
  | next pos hc ih =>
    rw [(parseLoop_next hc count).1, List.mem_cons, ih]
    constructor
    · rintro (rfl | ⟨pos', hpath, hpos'⟩)
      · exact ⟨pos, .refl, hc, rfl⟩
      · exact ⟨pos', hpath.head ⟨hc, rfl⟩, hpos'⟩
    · rintro ⟨pos', hpath, hc', rfl⟩
      rcases hpath.cases_head with rfl | ⟨mid, hmid, hpath⟩
      · exact Or.inl rfl
      · obtain ⟨-, rfl⟩ := hmid
        exact Or.inr ⟨pos', hpath, hc', rfl⟩

/-- **The frames handled** are the complete frames of the buffer. -/
theorem mem_handled_iff {f : Handled} : f ∈ (parse data len).value.1 ↔
    ∃ pos, FrameAt data len pos ∧ Complete data len pos ∧ f = handledAt data pos :=
  mem_parseLoop

/-- The reads for the frames and for their lengths are all that the parser reads. -/
theorem parseLoop_reads {count : ℕ}
    (h : ∀ f ∈ (parseLoop data len pos count).value.1, ∀ a ∈ f.handling.reads, a < len) :
    ∀ a ∈ (parseLoop data len pos count).reads, a < len := by
  induction pos using frames_induction data len generalizing count with
  | stop pos hc => exact (parseLoop_stop hc count).2
  | next pos hc ih =>
    obtain ⟨hvalue, hreads⟩ := parseLoop_next hc count
    rw [hvalue] at h
    rw [hreads]
    intro a ha
    rcases List.mem_append.mp ha with ha | ha
    · rw [List.mem_range'_1] at ha
      unfold Complete kFrameLengthBytes at hc
      omega
    · rcases List.mem_append.mp ha with ha | ha
      · exact h _ List.mem_cons_self a ha
      · exact ih (fun f hf => h f (List.mem_cons_of_mem _ hf)) a ha

/-! ### Reads inside the frame -/

theorem handledAt_confined_iff : (∀ a ∈ (handledAt data pos).handling.reads,
      (handledAt data pos).body ≤ a ∧
        a < (handledAt data pos).body + (handledAt data pos).msgLen.toNat) ↔
    extent (data (pos + kFrameLengthBytes)) ≤ frameLength data pos := by
  rw [← toNat_msgLen]
  constructor
  · intro h
    have hlast := (h _ last_mem_decode_reads).2
    have hpos := extent_pos (data (pos + kFrameLengthBytes))
    change _ < pos + kFrameLengthBytes + (be16 data pos).value.toNat at hlast
    omega
  · intro h a ha
    obtain ⟨hle, hlt⟩ := decode_reads ha
    refine ⟨hle, ?_⟩
    show a < pos + kFrameLengthBytes + (be16 data pos).value.toNat
    omega

theorem ReadsInside.longEnough (h : ReadsInside data len) : LongEnough data len := by
  intro pos hat hc
  exact handledAt_confined_iff.mp (h.confined _ (mem_handled_iff.mpr ⟨pos, hat, hc, rfl⟩))

/-- **The parser reads only inside the frame** if and only if every complete frame announces at
least the bytes that are unpacked for its type. -/
theorem readsInside_iff (data : ℕ → UInt8) (len : ℕ) :
    ReadsInside data len ↔ LongEnough data len := by
  constructor
  · exact fun h => h.longEnough
  · intro h
    have hconfined : ∀ f ∈ (parse data len).value.1, ∀ a ∈ f.handling.reads,
        f.body ≤ a ∧ a < f.body + f.msgLen.toNat := by
      intro f hf
      obtain ⟨pos, hat, hc, rfl⟩ := mem_handled_iff.mp hf
      exact handledAt_confined_iff.mpr (h pos hat hc)
    refine ⟨hconfined, parseLoop_reads fun f hf a ha => ?_, fun f hf data' hsame => ?_⟩
    · have hlt := (hconfined f hf a ha).2
      obtain ⟨pos, -, hc, rfl⟩ := mem_handled_iff.mp hf
      change a < pos + kFrameLengthBytes + (be16 data pos).value.toNat at hlt
      rw [toNat_msgLen] at hlt
      exact lt_of_lt_of_le hlt hc
    · -- what is delivered depends on the bytes read, and these are inside
      have hreads : ∀ a ∈ f.handling.reads, data' a = data a := fun a ha =>
        hsame a (hconfined f hf a ha).1 (hconfined f hf a ha).2
      obtain ⟨pos, -, -, rfl⟩ := mem_handled_iff.mp hf
      exact congrArg Reads.value (local_decode _ _ data data' hreads)

/-- A frame of length zero at the end of the buffer. -/
theorem emptyFrame_read_past : ¬∀ (data : ℕ → UInt8) (len : ℕ), ReadsInside data len := by
  intro hall
  have hle := (hall (fun _ => 0) 2).longEnough 0 .refl (le_refl 2)
  exact absurd hle (by decide)

end Lob.Itch
