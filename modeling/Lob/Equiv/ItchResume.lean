import Lob.Equiv.ItchReads

/-!
# Parsing a file in pieces

The parser handles the complete frames of a buffer and leaves the rest of it (`stopped`).  With more
bytes at hand it can go on from there: the messages of the longer buffer are those of the shorter
one and then those that are parsed from where the first parse stopped (`calls_resume`), so that
nothing needs to be parsed twice and no message is lost or doubled where a file is cut.
-/

namespace Lob.Itch

variable {data data' : ℕ → UInt8} {len len' p m pos count : ℕ} {msgLen : UInt16}

/-- The calls of a parse. -/
def messages (x : Reads (List Handled × ℕ)) : List Message :=
  x.value.1.map fun f => f.handling.value

/-- Where the last of the frames ends, which start at `pos`. -/
def endOf (pos : ℕ) (fs : List Handled) : ℕ := fs.foldl (fun _ f => f.body + f.msgLen.toNat) pos

/-- Where the frames end that `parse` has handled. -/
def stopped (data : ℕ → UInt8) (len : ℕ) : ℕ := endOf 0 (parse data len).value.1

/-- The memory from the address `p` on. -/
def shift (p : ℕ) (data : ℕ → UInt8) (a : ℕ) : UInt8 := data (p + a)

/-! ### Another start -/

theorem be16_shift : (be16 data (p + m)).value = (be16 (shift p data) m).value := by
  simp only [be16, bind_value, pure_value, byte_value, shift, Nat.add_assoc]

theorem frameLength_shift : frameLength data (p + pos) = frameLength (shift p data) pos := by
  unfold frameLength shift
  rw [Nat.add_assoc]

theorem decode_shift :
    (decode data (p + m) msgLen).value = (decode (shift p data) m msgLen).value := by
  unfold decode
  rw [bind_value, bind_value, byte_value, byte_value]
  unfold shift
  cases MessageType.ofByte (data (p + m)) with
  | none => rfl
  | some t =>
    cases t <;> simp only [bind_value, pure_value, byte_value, be16, be32, be48, be64, readSymbol,
      Nat.add_assoc] <;> rfl

theorem complete_shift :
    Complete (shift p data) (len - p) pos ↔ Complete data len (p + pos) := by
  unfold Complete
  rw [frameLength_shift]
  unfold kFrameLengthBytes
  omega

theorem NextFrame.of_shift {pos' : ℕ} (h : NextFrame (shift p data) (len - p) pos pos') :
    NextFrame data len (p + pos) (p + pos') := by
  obtain ⟨hc, rfl⟩ := h
  refine ⟨complete_shift.mp hc, ?_⟩
  rw [frameLength_shift, Nat.add_assoc, Nat.add_assoc, Nat.add_assoc]

/-- A parse that starts at `p + pos` is one of the memory from `p` on. -/
theorem parseLoop_shift (data : ℕ → UInt8) (len p pos count count' : ℕ) :
    messages (parseLoop data len (p + pos) count) =
        messages (parseLoop (shift p data) (len - p) pos count') ∧
      (parseLoop data len (p + pos) count).value.2 + count' =
        (parseLoop (shift p data) (len - p) pos count').value.2 + count := by
  induction pos using frames_induction (shift p data) (len - p) generalizing count count' with
  | stop pos hc =>
    unfold messages
    rw [(parseLoop_stop (mt complete_shift.mpr hc) count).1, (parseLoop_stop hc count').1]
    exact ⟨rfl, Nat.add_comm _ _⟩
  | next pos hc ih =>
    have hend : p + pos + kFrameLengthBytes + frameLength data (p + pos) =
        p + (pos + kFrameLengthBytes + frameLength (shift p data) pos) := by
      rw [frameLength_shift, Nat.add_assoc, Nat.add_assoc, Nat.add_assoc]
    have hvalue : (handledAt data (p + pos)).handling.value =
        (handledAt (shift p data) pos).handling.value := by
      unfold handledAt
      rw [be16_shift, Nat.add_assoc, decode_shift]
    have hrest := ih (count + 1) (count' + 1)
    unfold messages at hrest ⊢
    rw [(parseLoop_next (complete_shift.mp hc) count).1, (parseLoop_next hc count').1, hend]
    refine ⟨?_, by dsimp only; omega⟩
    rw [List.map_cons, List.map_cons, hvalue, hrest.1]

/-! ### Where the parse stops -/

theorem endOf_cons (data : ℕ → UInt8) (pos : ℕ) (fs : List Handled) :
    endOf pos (handledAt data pos :: fs) =
      endOf (pos + kFrameLengthBytes + frameLength data pos) fs := by
  unfold endOf
  rw [List.foldl_cons, ← toNat_msgLen]
  rfl

/-- The parse stops where a frame would start. -/
theorem endOf_path (data : ℕ → UInt8) (len pos count : ℕ) :
    Relation.ReflTransGen (NextFrame data len) pos
      (endOf pos (parseLoop data len pos count).value.1) := by
  induction pos using frames_induction data len generalizing count with
  | stop pos hc =>
    rw [(parseLoop_stop hc count).1]
    exact .refl
  | next pos hc ih =>
    rw [(parseLoop_next hc count).1, endOf_cons]
    exact (ih (count + 1)).head ⟨hc, rfl⟩

/-! ### More bytes -/

section Longer

variable (hsame : ∀ a < len, data' a = data a) (hle : len ≤ len')
include hsame hle

theorem Complete.frameLength_eq (hc : Complete data len pos) :
    Complete data' len' pos ∧ frameLength data' pos = frameLength data pos := by
  unfold Complete kFrameLengthBytes at hc ⊢
  have hframe : frameLength data' pos = frameLength data pos := by
    unfold frameLength
    rw [hsame pos (by omega), hsame (pos + 1) (by omega)]
  rw [hframe]
  exact ⟨by omega, rfl⟩

/-- Where a frame of the shorter buffer starts, one of the longer buffer does. -/
theorem FrameAt.longer (hat : FrameAt data len pos) : FrameAt data' len' pos := by
  refine Relation.ReflTransGen.mono (fun pos pos' hnext => ?_) _ _ hat
  obtain ⟨hc, rfl⟩ := hnext
  obtain ⟨hc', hframe⟩ := hc.frameLength_eq hsame hle
  exact ⟨hc', by rw [hframe]⟩

/-- No frame is too short if none of the longer buffer is. -/
theorem LongEnough.shorter (hlong : LongEnough data' len') : LongEnough data len := by
  intro pos hat hc
  obtain ⟨hc', hframe⟩ := hc.frameLength_eq hsame hle
  have hextent := hlong pos (hat.longer hsame hle) hc'
  rw [hframe] at hextent
  have hpos := extent_pos (data' (pos + kFrameLengthBytes))
  unfold Complete at hc
  rwa [hsame _ (by omega)] at hextent

/-- Nor is one of the bytes that are left. -/
theorem LongEnough.rest (hlong : LongEnough data' len') :
    LongEnough (shift (stopped data len) data') (len' - stopped data len) := by
  intro pos hat hc
  have hstopped : FrameAt data' len' (stopped data len) :=
    FrameAt.longer hsame hle (endOf_path data len 0 0)
  have hpath : Relation.ReflTransGen (NextFrame data' len') (stopped data len + 0)
      (stopped data len + pos) :=
    Relation.ReflTransGen.lift (stopped data len + ·) (fun _ _ => NextFrame.of_shift) _ _ hat
  have hextent := hlong _ (hstopped.trans hpath) (complete_shift.mp hc)
  rw [frameLength_shift] at hextent
  unfold shift
  rwa [← Nat.add_assoc]

/-- A frame that is complete in the shorter buffer is the same one in the longer buffer. -/
theorem Complete.longer (hc : Complete data len pos)
    (hlong : extent (data (pos + kFrameLengthBytes)) ≤ frameLength data pos) :
    (handledAt data' pos).handling.value = (handledAt data pos).handling.value := by
  have hlength : (be16 data' pos).value = (be16 data pos).value := by
    rw [← UInt16.toNat_inj, toNat_msgLen, toNat_msgLen]
    exact (hc.frameLength_eq hsame hle).2
  unfold handledAt
  rw [hlength]
  refine congrArg Reads.value (local_decode _ _ data data' fun a ha => hsame a ?_)
  have hread := (decode_reads ha).2
  unfold Complete at hc
  omega

/-- The parse of the longer buffer goes on where that of the shorter one ends. -/
theorem parseLoop_resume (count : ℕ)
    (hlong : ∀ pos', Relation.ReflTransGen (NextFrame data len) pos pos' →
      Complete data len pos' → extent (data (pos' + kFrameLengthBytes)) ≤ frameLength data pos') :
    messages (parseLoop data' len' pos count) = messages (parseLoop data len pos count) ++
        calls (shift (endOf pos (parseLoop data len pos count).value.1) data')
          (len' - endOf pos (parseLoop data len pos count).value.1) ∧
      (parseLoop data' len' pos count).value.2 = (parseLoop data len pos count).value.2 +
        Itch.count (shift (endOf pos (parseLoop data len pos count).value.1) data')
          (len' - endOf pos (parseLoop data len pos count).value.1) := by
  induction pos using frames_induction data len generalizing count with
  | stop pos hc =>
    -- nothing of the shorter buffer is handled any more
    have hstop := (parseLoop_stop hc count).1
    have hshift := parseLoop_shift data' len' pos 0 count 0
    rw [Nat.add_zero, Nat.add_zero] at hshift
    unfold messages at hshift ⊢
    rw [hstop]
    exact ⟨hshift.1, hshift.2.trans (Nat.add_comm _ _)⟩
  | next pos hc ih =>
    obtain ⟨hc', hframe⟩ := hc.frameLength_eq hsame hle
    have hvalue := hc.longer hsame hle (hlong pos .refl hc)
    have hrest := ih (count + 1) fun pos' hpath => hlong pos' (hpath.head ⟨hc, rfl⟩)
    unfold messages at hrest ⊢
    rw [(parseLoop_next hc' count).1, (parseLoop_next hc count).1, hframe, endOf_cons]
    dsimp only
    refine ⟨?_, hrest.2⟩
    rw [List.map_cons, List.map_cons, hvalue, hrest.1, List.cons_append]

/-- **A parse can be resumed** where it stopped: nothing is lost, and nothing is delivered twice. -/
theorem calls_resume (hlong : LongEnough data' len') :
    calls data' len' = calls data len ++
      calls (shift (stopped data len) data') (len' - stopped data len) :=
  (parseLoop_resume hsame hle 0 (hlong.shorter hsame hle)).1

theorem count_resume (hlong : LongEnough data' len') :
    Itch.count data' len' = Itch.count data len +
      Itch.count (shift (stopped data len) data') (len' - stopped data len) :=
  (parseLoop_resume hsame hle 0 (hlong.shorter hsame hle)).2

end Longer

end Lob.Itch
