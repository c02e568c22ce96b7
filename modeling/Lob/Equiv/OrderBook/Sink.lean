import Lob.Calls
import Lob.General.Lockstep

/-!
# The sink is not read

The book hands its trades to a sink and never asks for them again, so that a call does the same and
hands over the same trades whatever the sink has been handed before (`blind_exec`).
-/

namespace Lob

open Lockstep

/-- The computation does the same after the trades `pre`, and hands over the same trades. -/
def Blind {α : Type} (x : SinkM α) : Prop :=
  ∀ pre : List Trade, AgreeWith (fun ts ts' => ts' = pre ++ ts) Eq x x

namespace Blind

variable {α β : Type} {x y : SinkM α} {f : α → SinkM β}

theorem pure (a : α) : Blind (Pure.pure a : SinkM α) := fun _ => .pure rfl

theorem throw (e : Fault) : Blind (MonadExcept.throw e : SinkM α) := fun _ => .throw e

theorem bind (hx : Blind x) (hf : ∀ a, Blind (f a)) : Blind (x >>= f) := fun pre =>
  (hx pre).bind fun a _ hab => hab ▸ hf a pre

theorem ite {c : Prop} [Decidable c] (hx : Blind x) (hy : Blind y) :
    Blind (if c then x else y) := fun pre =>
  .ite Iff.rfl (fun _ => hx pre) fun _ => hy pre

theorem quiet (z : Except Fault α) : Blind (Lob.quiet z) := by
  cases z with
  | ok a => exact .pure a
  | error e => exact .throw e

theorem onTrade (t : Trade) : Blind (Lob.onTrade t) := fun pre =>
  .modify fun ts ts' hts => by
    show ts' ++ [t] = pre ++ (ts ++ [t])
    rw [hts, List.append_assoc]

/-- A run after other trades. -/
theorem run_ok (hx : Blind x) {a : α} {ts : List Trade} (hrun : x.run [] = .ok a ts)
    (pre : List Trade) : x.run pre = .ok a (pre ++ ts) := by
  obtain ⟨b, ts', hrun', rfl, rfl⟩ := (hx pre).exists_of_ok (List.append_nil pre).symm hrun
  exact hrun'

theorem run_error (hx : Blind x) {e : Fault} {ts : List Trade} (hrun : x.run [] = .error e ts)
    (pre : List Trade) : x.run pre = .error e (pre ++ ts) := by
  have hsame := hx pre [] pre (List.append_nil pre).symm
  rw [hrun] at hsame
  generalize x.run pre = r at hsame ⊢
  cases hsame with
  | error hstate => rw [hstate]

end Blind

namespace OrderBook

variable {M : Type} [IdMap M] {b : OrderBook M} {id : OrderId} {side : Side} {type : OrderType}
  {tif : TimeInForce} {price : Price} {qty : Quantity} {ts : Timestamp} {limit i fuel : ℕ}

/-! ### Matching -/

theorem blind_fillLevel : Blind (fillLevel side id ts i fuel b qty) := by
  induction fuel generalizing b qty with
  | zero => exact .throw _
  | succ fuel ih =>
    unfold fillLevel
    refine .ite ?_ (.pure _)
    cases (b.level (opposite side) i).orders.head with
    | none => exact .pure _
    | some head =>
      exact (Blind.quiet _).bind fun _ => (Blind.onTrade _).bind fun _ =>
        (Blind.quiet _).bind fun _ => ih

theorem blind_matchLoop : Blind (matchLoop side limit id ts fuel b i qty) := by
  induction fuel generalizing b i qty with
  | zero => exact .throw _
  | succ fuel ih =>
    unfold matchLoop
    refine .ite (.ite (.pure _) ?_) (.pure _)
    exact blind_fillLevel.bind fun _ => .ite ih (.pure _)

theorem blind_aggress : Blind (b.aggress id side type tif price qty ts) := by
  unfold aggress match_
  exact .ite blind_matchLoop (.pure _)

/-! ### The calls -/

theorem blind_execute : Blind (b.execute id side type tif price qty ts) := by
  unfold execute
  exact blind_aggress.bind fun _ => .ite (.pure _) (.ite (.pure _)
    ((Blind.quiet _).bind fun _ => .pure _))

theorem blind_submit : Blind (b.submit id side type tif price qty ts) := by
  unfold submit
  refine .ite (.pure _) ((Blind.quiet _).bind fun found => ?_)
  cases found with
  | some => exact .pure _
  | none =>
    exact .ite (.pure _) ((Blind.quiet _).bind fun _ => .ite (.pure _)
      (.ite (.pure _) blind_execute))

theorem blind_modify : Blind (b.modify id qty price ts) := by
  unfold modify
  refine (Blind.quiet _).bind fun found => ?_
  cases found with
  | none => exact .pure _
  | some o =>
    exact (Blind.quiet _).bind fun _ => .ite ((Blind.quiet _).bind fun _ => .pure _)
      ((Blind.quiet _).bind fun _ => blind_submit)

/-- **No call reads the sink.** -/
theorem blind_exec (b : OrderBook M) (c : Call) : Blind (b.exec c) := by
  cases c with
  | submit o => exact blind_submit.bind fun _ => .pure _
  | cancel id => exact (Blind.quiet _).bind fun _ => .pure _
  | reduce id delta => exact (Blind.quiet _).bind fun _ => .pure _
  | modify id newQty newPrice ts => exact blind_modify.bind fun _ => .pure _

end OrderBook

end Lob
