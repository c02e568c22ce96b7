import Lob.Equiv.ItchResume
import Lob.Equiv.OrderBook.Sink
import Lob.Equiv.Snapshot

/-!
# Replay in pieces

A file may be cut off anywhere, in the middle of a frame or of its length.  The program on such a
file stops after the last frame that is complete, and from there it can go on with the rest of the
file (`Output.resume`) and ends as it does on the whole file: with the same book, counters,
histograms and output (`main_resume`).
-/

namespace Lob

open Itch OrderBook

variable {M : Type} [IdMap M] {clock : ℕ → UInt64} {t : TimedHandler M} {m : Message}

/-! ### The handler does not read the sink -/

omit [IdMap M] in
theorem TimedHandler.blind_time {op : Timed} {fn : OrderBook M → SinkM (OrderBook M)}
    (hfn : Blind (fn t.handler.book)) : Blind (t.time clock op fn) := hfn.bind fun _ => .pure _

theorem TimedHandler.blind_single {x : Single M} (hx : m.single t.handler = some x) :
    Blind (t.onMessage clock m) := by
  rw [onMessage_timed hx]
  exact .ite (.pure _) ((blind_time (blind_exec _ _)).bind fun _ => .pure _)

theorem TimedHandler.blind_onMessage : Blind (t.onMessage clock m) := by
  cases m with
  | addOrder | orderExecuted | orderExecutedWithPrice | orderCancel | orderDelete =>
    exact blind_single rfl
  | systemEvent | unhandled | stockDirectory => exact .pure _
  | orderReplace r =>
    show Blind (t.onOrderReplace clock r)
    unfold TimedHandler.onOrderReplace
    refine .ite (.pure _) ((Blind.quiet _).bind fun found => ?_)
    cases found with
    | none => exact .pure _
    | some o =>
      exact (Blind.quiet _).bind fun _ =>
        (blind_time ((Blind.quiet _).bind fun _ => .pure _)).bind fun _ =>
          (blind_time (blind_submit.bind fun _ => .pure _)).bind fun _ => .pure _

theorem TimedHandler.blind_replay (ms : List Message) : Blind (t.replay clock ms) := by
  induction ms generalizing t with
  | nil => exact .pure _
  | cons m ms ih => exact blind_onMessage.bind fun _ => ih

theorem TimedHandler.replay_append (ms ms' : List Message) :
    t.replay clock (ms ++ ms') = t.replay clock ms >>= fun t => t.replay clock ms' := by
  induction ms generalizing t with
  | nil => rfl
  | cons m ms ih =>
    show (t.onMessage clock m >>= fun t => t.replay clock (ms ++ ms')) =
      (t.onMessage clock m >>= fun t => t.replay clock ms) >>= fun t => t.replay clock ms'
    rw [bind_assoc]
    exact bind_congr fun _ => ih

/-! ### The program -/

/-- The file from the address `k` on. -/
def MappedFile.from (file : MappedFile) (k : ℕ) : MappedFile where
  data := shift k file.data
  size := file.size - k
  readable := file.readable - k
  size_le := Nat.sub_le_sub_right file.size_le k

/-- The program, when it goes on with the frames of another file. -/
def Output.resume (args : Args) (file : MappedFile) (clock : ℕ → UInt64) (out : Output M) :
    Except MainError (Output M) :=
  match (out.final.replay clock file.calls).run [] with
  | .error f _ => .error (.fault f)
  | .ok t _ =>
    if file.Readable then .ok (args.output (out.messages + Itch.count file.data file.size) t)
    else .error .cannotRead

variable {file file' : MappedFile}

theorem main_of_readable (args : Args) (clock : ℕ → UInt64) (hsize : file.size ≠ 0)
    (hread : file.Readable) :
    (main args file clock : Except MainError (Output M)) =
      match (({ handler := args.handler } : TimedHandler M).replay clock file.calls).run [] with
      | .error f _ => .error (.fault f)
      | .ok t _ => .ok (args.output (Itch.count file.data file.size) t) := by
  unfold main
  rw [if_neg hsize]
  generalize (({ handler := args.handler } : TimedHandler M).replay clock file.calls).run [] = x
  cases x with
  | ok => exact if_pos hread
  | error => rfl

theorem resume_of_readable (args : Args) (clock : ℕ → UInt64) (hread : file.Readable)
    (out : Output M) :
    Output.resume args file clock out =
      match (out.final.replay clock file.calls).run [] with
      | .error f _ => .error (.fault f)
      | .ok t _ => .ok (args.output (out.messages + Itch.count file.data file.size) t) := by
  unfold Output.resume
  generalize (out.final.replay clock file.calls).run [] = x
  cases x with
  | ok => exact if_pos hread
  | error => rfl

/-- **A replay can be resumed** at the first frame that was cut off.  No frame of the whole file may
announce less than is unpacked for its type. -/
theorem main_resume (M : Type) [IdMap M] (args : Args) (clock : ℕ → UInt64)
    (hsize : file.size ≠ 0) (hle : file.size ≤ file'.size)
    (hsame : ∀ a < file.size, file'.data a = file.data a)
    (hlong : LongEnough file'.data file'.size) :
    (main args file' clock : Except MainError (Output M)) =
      (main args file clock).bind
        (Output.resume args (file'.from (stopped file.data file.size)) clock) := by
  have hsize' : file'.size ≠ 0 := fun hzero => hsize (Nat.le_zero.mp (hzero ▸ hle))
  have hread : file.Readable := MappedFile.readable_of_longEnough (hlong.shorter hsame hle)
  have hread' : file'.Readable := MappedFile.readable_of_longEnough hlong
  have hrest : (file'.from (stopped file.data file.size)).Readable :=
    MappedFile.readable_of_longEnough (hlong.rest hsame hle)
  have hcalls : file'.calls =
      file.calls ++ (file'.from (stopped file.data file.size)).calls := by
    rw [MappedFile.calls_eq hread, MappedFile.calls_eq hread', MappedFile.calls_eq hrest]
    exact calls_resume hsame hle hlong
  have hcount : Itch.count file'.data file'.size = Itch.count file.data file.size +
      Itch.count (file'.from (stopped file.data file.size)).data
        (file'.from (stopped file.data file.size)).size :=
    count_resume hsame hle hlong
  generalize file'.from (stopped file.data file.size) = rest at hrest hcalls hcount ⊢
  rw [main_of_readable args clock hsize hread, main_of_readable args clock hsize' hread', hcalls,
    hcount, TimedHandler.replay_append]
  cases hrun : (TimedHandler.replay (M := M) clock { handler := args.handler }
      file.calls).run [] with
  | error f ts =>
    rw [sink_bind_error hrun]
    rfl
  | ok t ts =>
    rw [sink_bind hrun]
    show _ = Output.resume args rest clock (args.output (Itch.count file.data file.size) t)
    rw [resume_of_readable args clock hrest]
    -- the trades of the first piece make no difference to the second one
    have hblind : Blind (t.replay clock rest.calls) := TimedHandler.blind_replay _
    show _ = match (t.replay clock rest.calls).run [] with
      | .error f _ => _
      | .ok t _ => _
    cases hlater : (t.replay clock rest.calls).run [] with
    | ok t' ts' =>
      rw [hblind.run_ok hlater ts]
      rfl
    | error f ts' =>
      rw [hblind.run_error hlater ts]

theorem size_cut : 70 ≤ 4096 := by decide

/-- The sample, cut off in its second frame. -/
def sampleCut : MappedFile where
  data i := if i < 70 then sampleData i else 255
  size := 70
  readable := 4096
  size_le := size_cut

theorem sampleFile_resume :
    (main sampleArgs sampleMapped (fun k => UInt64.ofNat (k * k)) :
        Except MainError (Output (OrderIdMap Ptr))) =
      (main sampleArgs sampleCut (fun k => UInt64.ofNat (k * k))).bind
        (Output.resume sampleArgs (sampleMapped.from (stopped sampleCut.data sampleCut.size))
          (fun k => UInt64.ofNat (k * k))) :=
  main_resume _ _ _ (by decide) (by decide) (fun a ha => (if_pos ha).symm)
    sampleFile_tapeFile.wellFormed.longEnough

end Lob
