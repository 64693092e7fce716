import MagnetoX.Buttons.Delivery
import Mathlib.Data.Nat.Bitwise

/-!
Owns what the callbacks know of the buttons when all reports are acknowledged.

`buttons_event` records a change even if the array of reports is full. Such a change is not
reported later: the next one is found against the state that was recorded.
-/

namespace MagnetoX.Buttons

open Library.Run List

/-- A link, with the states that were recorded and not enqueued since a report was enqueued. -/
structure Watched where
  link : Link
  missed : List UInt8

namespace Watched

def Begins (invert : UInt8) (w : Watched) : Prop :=
  w.missed = [] ∧ Buttons.Begins w.link ∧ w.link.mcu.pressed = invert

def step (invert : UInt8) (callbacks : List (Nat × Nat)) (w : Watched) (input : Input) : Option Watched :=
  (w.link.step invert.toNat callbacks input).map (fun after => {
    link := after
    missed :=
      if after.mcu.enqueued ≠ w.link.mcu.enqueued then []
      else if after.mcu.pressed ≠ w.link.mcu.pressed then w.missed ++ [after.mcu.pressed]
      else w.missed })

end Watched

theorem Mcu.enqueued_buttonsEvent (b : Mcu) (values : List Bool) :
    (b.buttonsEvent values).enqueued = b.enqueued ∨
      (b.buttonsEvent values).enqueued = b.enqueued ++ [(b.buttonsEvent values).pressed] := by
  have pins : (b.checkPins (readPins values)).enqueued = b.enqueued ∨
      (b.checkPins (readPins values)).enqueued = b.enqueued ++ [(b.checkPins (readPins values)).pressed] := by
    unfold checkPins report
    dsimp only
    split
    · split
      · exact .inl rfl
      · exact .inr rfl
    · exact .inl rfl
  unfold buttonsEvent checkRetransmit
  dsimp only
  split
  · exact pins
  · exact pins

structure Link.Changes (invert : Nat) (link after : Link) : Prop where
  reports : after.mcu.enqueued = link.mcu.enqueued ∨
    after.mcu.enqueued = link.mcu.enqueued ++ [after.mcu.pressed]
  callbacks : after.host.handled = link.host.handled ∧ after.host.lastButton = link.host.lastButton ∨
    ∃ button, after.host.handled = link.host.handled ++ [button] ∧ after.host.lastButton = button.toNat ^^^ invert

theorem Host.handleButtonsState_keeps (host : Host) (message : Message) :
    (host.handleButtonsState message).1.handled = host.handled ∧
      (host.handleButtonsState message).1.lastButton = host.lastButton := by
  unfold handleButtonsState
  dsimp only
  split <;> exact ⟨rfl, rfl⟩

theorem Link.changes_receive {invert : Nat} {link after : Link} {again : Bool}
    (moves : link.receive again = some after) : link.Changes invert after := by
  unfold Link.receive at moves
  split at moves
  · cases moves
  · cases moves
    exact ⟨.inl rfl, .inl (link.host.handleButtonsState_keeps _)⟩

theorem Link.changes_step {invert : Nat} {callbacks : List (Nat × Nat)} {link after : Link} {input : Input}
    (moves : link.step invert callbacks input = some after) : link.Changes invert after := by
  cases input with
  | event values =>
    cases moves
    exact ⟨link.mcu.enqueued_buttonsEvent values, .inl ⟨rfl, rfl⟩⟩
  | wake | lose place =>
    cases moves
    exact ⟨.inl rfl, .inl ⟨rfl, rfl⟩⟩
  | task =>
    rw [Link.step] at moves
    split at moves
    · cases moves
      refine ⟨.inl ?_, .inl ⟨rfl, rfl⟩⟩
      rcases link.mcu.buttonsTask_cases with same | same | same <;> rw [same]
    · cases moves
  | send =>
    obtain ⟨reportCount, -, rfl⟩ := Option.map_eq_some_iff.mp moves
    exact ⟨.inl rfl, .inl ⟨rfl, rfl⟩⟩
  | ack =>
    rw [Link.step] at moves
    split at moves
    · cases moves
      exact ⟨.inl rfl, .inl ⟨rfl, rfl⟩⟩
    · cases moves
  | deliver | deliverAgain => exact changes_receive moves
  | callback =>
    rw [Link.step] at moves
    split at moves
    · cases moves
    · cases moves
      exact ⟨.inl rfl, .inr ⟨_, rfl, rfl⟩⟩

/-- The recorded state is the one that was recorded last, and the callbacks know the one that
was handled last. -/
structure Watched.Follows (invert : UInt8) (callbacks : List (Nat × Nat)) (w : Watched) : Prop where
  reached : Reachable Buttons.Begins (Link.step invert.toNat callbacks) w.link
  pressed : w.link.mcu.pressed = w.missed.getLastD (w.link.mcu.enqueued.getLastD invert)
  lastButton : w.link.host.lastButton = (w.link.host.handled.getLastD invert).toNat ^^^ invert.toNat

section Runs

variable {invert : UInt8} {callbacks : List (Nat × Nat)} {w : Watched}

theorem Watched.Follows.step {after : Watched} {input : Input} (follows : w.Follows invert callbacks)
    (moves : w.step invert callbacks input = some after) : after.Follows invert callbacks := by
  obtain ⟨link, isStep, rfl⟩ := Option.map_eq_some_iff.mp moves
  obtain ⟨reports, handles⟩ := Link.changes_step isStep
  refine ⟨follows.reached.after input isStep, ?_, ?_⟩
  · dsimp only
    split
    · rename_i enqueues
      rw [reports.resolve_left enqueues]
      simp
    · rename_i same
      rw [not_not] at same
      split
      · simp
      · rename_i unchanged
        rw [not_not] at unchanged
        rw [unchanged, same]
        exact follows.pressed
  · rcases handles with ⟨handled, lastButton⟩ | ⟨button, handled, lastButton⟩
    · rw [handled, lastButton]
      exact follows.lastButton
    · rw [handled, lastButton]
      simp

end Runs

end MagnetoX.Buttons
