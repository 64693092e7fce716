import MagnetoX.Buttons.Model
import Mathlib.Algebra.Ring.Nat
import Mathlib.Order.Nat

/-!
Owns the delivery of button reports: the host hands on exactly the reports that the
micro-controller enqueued, in order, as far as it has acknowledged them.
-/

namespace MagnetoX.Buttons

open Library.Run

namespace Reports

variable {reports after : Reports}

theorem length_toList (reports : Reports) : reports.toList.length = reports.count := by
  have fits := reports.fits
  simp only [toList, List.length_take, Vector.length_toList]
  omega

theorem push_eq_some {pressed : UInt8} (pushes : reports.push pressed = some after) :
    after.toList = reports.toList ++ [pressed] := by
  unfold push at pushes
  split at pushes
  case isTrue room =>
    cases pushes
    have inside : reports.count < (reports.slots.toList.set reports.count pressed).length := by
      simpa using room
    simp only [toList, Vector.toList_set]
    rw [List.take_succ_eq_append_getElem inside, List.take_set_of_le (Nat.le_refl _), List.getElem_set_self]
  · cases pushes

/-- The entries that the loop has reached come from `count` places behind, and the
others are as before. -/
theorem getElem_shift (slots : Vector UInt8 8) (count : Nat) {pending : Nat} (inside : pending + count ≤ 8)
    {i : Nat} (bound : i < 8) :
    (shift slots count pending inside)[i] = if below : i < pending then slots[i + count] else slots[i] := by
  induction pending generalizing i with
  | zero => rfl
  | succ pending ih =>
    have before : (shift slots count pending (by omega)).get ⟨pending + count, by omega⟩ = slots[pending + count] := by
      refine (ih (by omega) (by omega)).trans ?_
      split
      · omega
      · rfl
    rw [shift, before, Vector.getElem_set, ih (by omega) bound]
    by_cases isLast : pending = i
    · subst isLast
      simp
    · have same : i < pending + 1 ↔ i < pending := by omega
      simp only [isLast, same, if_false]

theorem toList_acknowledge (reports : Reports) (count : Nat) :
    (reports.acknowledge count).toList = reports.toList.drop count := by
  have fits := reports.fits
  unfold acknowledge
  split
  case isTrue partially =>
    refine List.ext_getElem (by simp [toList]; omega) ?_
    intro i inFirst inSecond
    have bound : i < reports.count - count := by
      simp [toList] at inFirst
      omega
    simp only [toList, List.getElem_take, List.getElem_drop, Vector.getElem_toList]
    rw [getElem_shift _ _ _ (by omega), dif_pos bound]
    simp only [Nat.add_comm]
  case isFalse all =>
    rw [List.drop_eq_nil_of_le (by rw [length_toList]; omega)]
    rfl

end Reports

variable {enqueued : List UInt8} {acked limit low first : Nat} {message : Message}
  {states : List Message}

/-- A message that was sent when `first` reports had been acknowledged. -/
structure Carries (enqueued : List UInt8) (message : Message) (first : Nat) : Prop where
  ackCount : message.ackCount.toNat = first % 256
  state : message.state = (enqueued.drop first).take message.state.length
  inside : first + message.state.length ≤ enqueued.length
  short : message.state.length ≤ 8

theorem Carries.append (carries : Carries enqueued message first) (more : List UInt8) :
    Carries (enqueued ++ more) message first where
  ackCount := carries.ackCount
  state := by
    have inside := carries.inside
    rw [List.drop_append_of_le_length (by omega), List.take_append_of_le_length (by rw [List.length_drop]; omega)]
    exact carries.state
  inside := by
    have inside := carries.inside
    rw [List.length_append]
    omega
  short := carries.short

/-- The messages under way: no message reports less than the one ahead of it. The
first reports at least `low` reports, the last at most `limit`. -/
def InFlight (enqueued : List UInt8) (acked limit : Nat) : Nat → List Message → Prop
  | low, [] => low ≤ limit
  | low, message :: states =>
      ∃ first, Carries enqueued message first ∧ first ≤ acked ∧ low ≤ first + message.state.length ∧
        InFlight enqueued acked limit (first + message.state.length) states

namespace InFlight

theorem low_le_limit (flight : InFlight enqueued acked limit low states) : low ≤ limit := by
  induction states generalizing low with
  | nil => exact flight
  | cons message states ih =>
    obtain ⟨first, -, -, above, flight⟩ := flight
    exact above.trans (ih flight)

theorem lower {lower : Nat} (below : lower ≤ low) (flight : InFlight enqueued acked limit low states) :
    InFlight enqueued acked limit lower states := by
  cases states with
  | nil => exact below.trans flight
  | cons message states =>
    obtain ⟨first, carries, isAcked, above, flight⟩ := flight
    exact ⟨first, carries, isAcked, below.trans above, flight⟩

theorem extend {more : List UInt8} {ackedNow limitNow : Nat} (acks : acked ≤ ackedNow) (room : limit ≤ limitNow)
    (flight : InFlight enqueued acked limit low states) :
    InFlight (enqueued ++ more) ackedNow limitNow low states := by
  induction states generalizing low with
  | nil => exact flight.trans room
  | cons message states ih =>
    obtain ⟨first, carries, isAcked, above, flight⟩ := flight
    exact ⟨first, carries.append more, isAcked.trans acks, above, ih flight⟩

theorem concat {limitNow : Nat} (flight : InFlight enqueued acked limit low states)
    (carries : Carries enqueued message first) (isAcked : first ≤ acked)
    (above : limit ≤ first + message.state.length) (room : first + message.state.length ≤ limitNow) :
    InFlight enqueued acked limitNow low (states ++ [message]) := by
  induction states generalizing low with
  | nil => exact ⟨first, carries, isAcked, flight.trans above, room⟩
  | cons ahead states ih =>
    obtain ⟨start, carriesAhead, isAckedAhead, aboveAhead, flight⟩ := flight
    exact ⟨start, carriesAhead, isAckedAhead, aboveAhead, ih flight⟩

theorem eraseIdx (place : Nat) (flight : InFlight enqueued acked limit low states) :
    InFlight enqueued acked limit low (states.eraseIdx place) := by
  induction states generalizing low place with
  | nil => exact flight
  | cons message states ih =>
    obtain ⟨first, carries, isAcked, above, flight⟩ := flight
    cases place with
    | zero => exact flight.lower above
    | succ place => exact ⟨first, carries, isAcked, above, ih place flight⟩

end InFlight

/-- The counter of a message is expanded correctly as long as the host is less than
half a turn ahead. -/
theorem expandAckCount_eq {count : Nat} {ackCount : UInt8} (low : ackCount.toNat = first % 256)
    (ahead : first ≤ count) (near : count < first + 128) : Host.expandAckCount count ackCount = first := by
  have diff : ((count : Int) - ackCount.toNat) % 256 = (count : Int) - first := by omega
  have small : ∀ n : Nat, n < 128 → n &&& 0x80 = 0 := by decide
  have isSmall : (((count : Int) - first).toNat &&& 0x80) = 0 := small _ (by omega)
  rw [Host.expandAckCount]
  simp only [diff, isSmall, ne_eq, not_true_eq_false, if_false]
  omega

structure Host.Receives (host after : Host) (ack : Option Nat) (upTo : Nat) (enqueued : List UInt8) : Prop where
  ackCount : after.ackCount = upTo
  received : after.received = enqueued.take upTo
  ack : host.ackCount + ack.getD 0 = upTo

theorem Host.handleButtonsState_receives {host : Host} {count : Nat} (carries : Carries enqueued message first)
    (counts : host.ackCount = count) (received : host.received = enqueued.take count) (ahead : first ≤ count)
    (fresh : count ≤ first + message.state.length) :
    host.Receives (host.handleButtonsState message).1 (host.handleButtonsState message).2
      (first + message.state.length) enqueued := by
  have short := carries.short
  have expands := expandAckCount_eq carries.ackCount ahead (by omega)
  unfold Host.handleButtonsState
  simp only [counts, expands]
  split
  case isTrue old =>
    have same : first + message.state.length = count := by omega
    exact ⟨by rw [counts, same], by rw [received, same], by rw [counts, same]; simp⟩
  case isFalse =>
    -- The reports behind those that the host has.
    have isNew : ((first : Int) + message.state.length - count).toNat = first + message.state.length - count := by omega
    refine ⟨by dsimp only; omega, ?_, by rw [counts, Option.getD_some]; omega⟩
    have skipped : message.state.length - (first + message.state.length - count) = count - first := by omega
    have start : first + (count - first) = count := by omega
    have rest : message.state.length - (count - first) = first + message.state.length - count := by omega
    have upTo : count + (first + message.state.length - count) = first + message.state.length := by omega
    have states : message.state.drop (count - first) =
        (enqueued.drop count).take (first + message.state.length - count) := by
      refine (congrArg (List.drop (count - first)) carries.state).trans ?_
      rw [List.drop_take, List.drop_drop, start, rest]
    change host.handled ++ (host.asyncCallbacks ++ _) = _
    rw [isNew, skipped, states, ← List.append_assoc, ← Host.received, received, ← List.take_add, upTo]

/-- A step that may enqueue reports and does nothing else that counts here. -/
structure Mcu.Enqueues (b after : Mcu) (more : List UInt8) : Prop where
  enqueued : after.enqueued = b.enqueued ++ more
  reports : after.reports.toList = b.reports.toList ++ more
  ackCount : after.ackCount = b.ackCount
  sending : after.sending = b.sending

theorem Mcu.enqueues_report (b : Mcu) (pressed : UInt8) : ∃ more, b.Enqueues (b.report pressed) more := by
  unfold report
  cases pushes : b.reports.push pressed with
  | none => exact ⟨[], (List.append_nil _).symm, (List.append_nil _).symm, rfl, rfl⟩
  | some reports => exact ⟨[pressed], rfl, Reports.push_eq_some pushes, rfl, rfl⟩

theorem Mcu.enqueues_buttonsEvent (b : Mcu) (values : List Bool) :
    ∃ more, b.Enqueues (b.buttonsEvent values) more := by
  have pins : ∃ more, b.Enqueues (b.checkPins (readPins values)) more := by
    unfold checkPins
    dsimp only
    split
    · exact b.enqueues_report _
    · exact ⟨[], (List.append_nil _).symm, (List.append_nil _).symm, rfl, rfl⟩
  obtain ⟨more, enqueues⟩ := pins
  refine ⟨more, ?_⟩
  unfold buttonsEvent checkRetransmit
  dsimp only
  split
  · exact { enqueues with }
  · exact { enqueues with }

theorem Mcu.buttonsTask_cases (b : Mcu) : b.buttonsTask = b ∨ b.buttonsTask = { b with buttonsWake := false } ∨
    b.buttonsTask = { b with
      buttonsWake := false
      retransmitState := b.retransmitCount
      sending := some b.reports.count } := by
  unfold buttonsTask
  split
  · exact .inl rfl
  split
  · exact .inr (.inl rfl)
  · exact .inr (.inr rfl)

namespace Link

/-- The reports that the messages under way can report, if `acked` of them were
acknowledged. -/
def reportable (link : Link) (acked : Nat) : Nat :=
  match link.mcu.sending with
  | none => link.mcu.enqueued.length
  | some reportCount => acked + reportCount

/-- The micro-controller has `acked` acknowledged reports, and keeps those behind;
the host has the reports that these and the acks under way acknowledge. -/
structure Sound (acked : Nat) (link : Link) : Prop where
  reports : link.mcu.reports.toList = link.mcu.enqueued.drop acked
  inside : acked ≤ link.mcu.enqueued.length
  ackCount : link.mcu.ackCount.toNat = acked % 256
  counts : link.host.ackCount = link.host.received.length
  received : link.host.received <+: link.mcu.enqueued
  acks : acked + link.acks.sum = link.host.received.length
  sending : ∀ reportCount ∈ link.mcu.sending, reportCount ≤ link.mcu.reports.count
  flight : InFlight link.mcu.enqueued acked (link.reportable acked) link.host.received.length link.states

variable {acked invert : Nat} {link after : Link} {callbacks : List (Nat × Nat)}

section

variable (sound : Sound acked link)
include sound

theorem Sound.count : acked + link.mcu.reports.count = link.mcu.enqueued.length := by
  have inside := sound.inside
  rw [← Reports.length_toList, sound.reports, List.length_drop]
  omega

theorem Sound.host_le : link.host.received.length ≤ acked + link.mcu.reports.count := by
  have low := sound.flight.low_le_limit
  have count := sound.count
  unfold reportable at low
  split at low
  · omega
  case h_2 reportCount isSending =>
    have atMost := sound.sending reportCount isSending
    omega

theorem Sound.acked_le : acked ≤ link.host.received.length := by
  have acks := sound.acks
  omega

theorem Sound.event (values : List Bool) :
    Sound acked { link with mcu := link.mcu.buttonsEvent values } := by
  obtain ⟨more, enqueues⟩ := link.mcu.enqueues_buttonsEvent values
  have inside := sound.inside
  have longer : link.mcu.reports.count ≤ (link.mcu.buttonsEvent values).reports.count := by
    rw [← Reports.length_toList, ← Reports.length_toList, enqueues.reports, List.length_append]
    omega
  constructor
  · rw [enqueues.reports, enqueues.enqueued, sound.reports, List.drop_append_of_le_length inside]
  · rw [enqueues.enqueued, List.length_append]
    omega
  · rw [enqueues.ackCount]
    exact sound.ackCount
  · exact sound.counts
  · rw [enqueues.enqueued]
    exact sound.received.trans (List.prefix_append _ _)
  · exact sound.acks
  · intro reportCount isSending
    rw [enqueues.sending] at isSending
    exact (sound.sending reportCount isSending).trans longer
  · have room : link.reportable acked ≤ reportable { link with mcu := link.mcu.buttonsEvent values } acked := by
      simp only [reportable, enqueues.sending, enqueues.enqueued, List.length_append]
      split <;> omega
    rw [enqueues.enqueued]
    exact sound.flight.extend le_rfl room

theorem Sound.task (idle : link.mcu.sending = none) :
    Sound acked { link with mcu := link.mcu.buttonsTask } := by
  have flight := sound.flight
  rcases link.mcu.buttonsTask_cases with same | same | same
  · rw [same]
    exact sound
  · rw [same]
    exact { sound with }
  · rw [same]
    refine { sound with sending := ?_, flight := ?_ }
    · rintro reportCount ⟨⟩
      exact le_rfl
    · unfold reportable at flight
      rw [idle] at flight
      change InFlight _ acked (acked + link.mcu.reports.count) _ _
      rw [sound.count]
      exact flight

theorem Sound.send {reportCount : Nat} (isSending : link.mcu.sending = some reportCount) :
    Sound acked { link with
      mcu := { link.mcu with sending := none }
      states := link.states ++ [link.mcu.message reportCount] } := by
  have atMost := sound.sending reportCount isSending
  have count := sound.count
  have fits := link.mcu.reports.fits
  have length : (link.mcu.message reportCount).state.length = reportCount := by
    simp only [Mcu.message, List.length_take, Vector.length_toList]
    omega
  have carries : Carries link.mcu.enqueued (link.mcu.message reportCount) acked := by
    refine ⟨sound.ackCount, ?_, by omega, by omega⟩
    rw [length, ← sound.reports, Reports.toList, List.take_take, min_eq_left atMost]
    rfl
  have reaches : link.reportable acked ≤ acked + (link.mcu.message reportCount).state.length := by
    rw [reportable, isSending, length]
  exact ⟨sound.reports, sound.inside, sound.ackCount, sound.counts, sound.received, sound.acks, nofun,
    sound.flight.concat carries le_rfl reaches carries.inside⟩

theorem Sound.ack (idle : link.mcu.sending = none) {count : Nat} {acks : List Nat}
    (first : link.acks = count :: acks) :
    Sound (acked + count) { link with mcu := link.mcu.buttonsAck (UInt8.ofNat count), acks } := by
  have total := sound.acks
  have atMost := sound.host_le
  have all := sound.count
  have fits := link.mcu.reports.fits
  rw [first, List.sum_cons] at total
  have byte : (UInt8.ofNat count).toNat = count := by
    rw [UInt8.toNat_ofNat']
    omega
  have flight := sound.flight
  unfold reportable at flight
  rw [idle] at flight
  refine ⟨?_, ?_, ?_, sound.counts, sound.received, ?_, ?_, ?_⟩
  · rw [Mcu.buttonsAck, byte, Reports.toList_acknowledge, sound.reports, List.drop_drop]
  · change acked + count ≤ link.mcu.enqueued.length
    omega
  · change (link.mcu.ackCount + UInt8.ofNat count).toNat = _
    rw [UInt8.toNat_add, byte, sound.ackCount]
    omega
  · change acked + count + acks.sum = link.host.received.length
    omega
  · intro reportCount isSending
    change reportCount ∈ link.mcu.sending at isSending
    rw [idle] at isSending
    cases isSending
  · have same : reportable { link with mcu := link.mcu.buttonsAck (UInt8.ofNat count), acks } (acked + count) =
        link.mcu.enqueued.length := by
      simp only [reportable, Mcu.buttonsAck, idle]
    have extended : InFlight (link.mcu.enqueued ++ []) (acked + count) _ link.host.received.length link.states :=
      flight.extend (Nat.le_add_right acked count) le_rfl
    rw [List.append_nil] at extended
    rw [same]
    exact extended

theorem Sound.receive {again : Bool} (moves : link.receive again = some after) :
    Sound acked after := by
  unfold Link.receive at moves
  split at moves
  · cases moves
  case h_2 message rest isFirst =>
    have flight := sound.flight
    rw [isFirst] at flight
    obtain ⟨first, carries, isAcked, fresh, flight⟩ := flight
    have ahead := isAcked.trans sound.acked_le
    have isPrefix := List.prefix_iff_eq_take.mp sound.received
    have receives := Host.handleButtonsState_receives carries sound.counts isPrefix ahead fresh
    generalize link.host.handleButtonsState message = result at moves receives
    obtain ⟨host, ack⟩ := result
    cases moves
    have length : host.received.length = first + message.state.length := by
      rw [receives.received, List.length_take]
      exact min_eq_left carries.inside
    refine ⟨sound.reports, sound.inside, sound.ackCount, ?_, ?_, ?_, sound.sending, ?_⟩
    · dsimp only
      rw [length]
      exact receives.ackCount
    · dsimp only
      rw [receives.received]
      exact List.take_prefix _ _
    · have total := sound.acks
      have acks := receives.ack
      rw [sound.counts] at acks
      change acked + (link.acks ++ ack.toList).sum = host.received.length
      have added : ack.toList.sum = ack.getD 0 := by
        cases ack with
        | none => rfl
        | some count => simp
      rw [length, List.sum_append_nat, added]
      dsimp only at acks
      omega
    · change InFlight _ acked (link.reportable acked) host.received.length _
      rw [length]
      cases again with
      | false => exact flight
      | true => exact ⟨first, carries, isAcked, le_rfl, flight⟩

end

theorem Sound.callback {button : UInt8} {rest : List UInt8} (invert : Nat) (callbacks : List (Nat × Nat))
    (sound : Sound acked link) (first : link.host.asyncCallbacks = button :: rest) :
    Sound acked { link with
      host := { link.host with asyncCallbacks := rest }.handleButton invert callbacks button } := by
  have same : ({ link.host with asyncCallbacks := rest }.handleButton invert callbacks button).received =
      link.host.received := by
    simp [Host.received, Host.handleButton, first]
  refine ⟨sound.reports, sound.inside, sound.ackCount, ?_, ?_, ?_, sound.sending, ?_⟩
  · dsimp only
    rw [same]
    exact sound.counts
  · dsimp only
    rw [same]
    exact sound.received
  · dsimp only
    rw [same]
    exact sound.acks
  · dsimp only
    rw [same]
    exact sound.flight

theorem sound_of_begins (begins : Begins link) : Sound 0 link := by
  obtain ⟨retransmitCount, invert, starts, host, states, acks⟩ := begins
  unfold buttonsQuery at starts
  split at starts
  · cases starts
  · obtain ⟨mcu, _, _, _⟩ := link
    cases starts
    cases host
    cases states
    cases acks
    exact ⟨rfl, Nat.le_refl 0, rfl, rfl, List.nil_prefix, rfl, nofun, Nat.le_refl 0⟩

theorem Sound.step {input : Input} (sound : Sound acked link)
    (moves : link.step invert callbacks input = some after) : ∃ acked, Sound acked after := by
  cases input with
  | event values =>
    cases moves
    exact ⟨acked, sound.event values⟩
  | wake =>
    cases moves
    exact ⟨acked, { sound with }⟩
  | task =>
    rw [Link.step] at moves
    split at moves
    case isTrue idle =>
      cases moves
      exact ⟨acked, sound.task idle⟩
    · cases moves
  | send =>
    obtain ⟨reportCount, isSending, rfl⟩ := Option.map_eq_some_iff.mp moves
    exact ⟨acked, sound.send isSending⟩
  | ack =>
    rw [Link.step] at moves
    split at moves
    case h_1 count acks first idle =>
      cases moves
      exact ⟨acked + count, sound.ack idle first⟩
    · cases moves
  | deliver => exact ⟨acked, sound.receive moves⟩
  | deliverAgain => exact ⟨acked, sound.receive moves⟩
  | lose place =>
    cases moves
    exact ⟨acked, { sound with flight := sound.flight.eraseIdx place }⟩
  | callback =>
    rw [Link.step] at moves
    split at moves
    · cases moves
    case h_2 button rest first =>
      cases moves
      exact ⟨acked, sound.callback invert callbacks first⟩

def Agrees (link : Link) : Prop := ∃ acked, Sound acked link

theorem agrees_of_reachable
    (reached : Reachable Begins (Link.step invert callbacks) link) : link.Agrees := by
  refine reached.induct_invariant ?_ ?_
  · intro link begins _
    exact ⟨0, sound_of_begins begins⟩
  · rintro before input after - - moves ⟨acked, sound⟩
    exact sound.step moves

end Link

/-- **Reports are delivered once and in order.** What the host has handed on are the
first of the reports that were enqueued, as many as it has acknowledged, and its
callbacks have seen the first of these. -/
theorem reports_delivered {invert : Nat} {callbacks : List (Nat × Nat)} {link : Link}
    (reached : Reachable Begins (Link.step invert callbacks) link) :
    link.host.handled <+: link.mcu.enqueued ∧
      link.host.handled ++ link.host.asyncCallbacks = link.mcu.enqueued.take link.host.ackCount.toNat ∧
      link.host.ackCount = (link.host.handled ++ link.host.asyncCallbacks).length := by
  obtain ⟨acked, sound⟩ := Link.agrees_of_reachable reached
  have length : link.host.ackCount.toNat = link.host.received.length := by
    rw [sound.counts]
    exact Int.toNat_natCast _
  refine ⟨(List.prefix_append _ _).trans sound.received, ?_, sound.counts⟩
  rw [length]
  exact List.prefix_iff_eq_take.mp sound.received

/-- A button is pressed, its report is sent twice and arrives twice. -/
theorem reports_delivered_pressed :
    ∃ link, Reachable Begins (Link.step 0 [(1, 0)]) link ∧ link.mcu.enqueued = [1, 0] ∧ link.host.calls = [(0, 1)] ∧
      link.host.handled <+: link.mcu.enqueued := by
  obtain ⟨link, reached, enqueued, calls⟩ := exists_reachable Begins (Link.step 0 [(1, 0)])
    ⟨⟨0, 0, .empty, 0, BF_ACKED, 0, false, none, []⟩, .initial, [], []⟩ ⟨0, 0, rfl, rfl, rfl, rfl⟩
    [.event [true], .event [true], .task, .send, .event [false], .event [false], .deliver, .task, .send, .ack,
      .deliverAgain, .callback]
    (fun link => link.mcu.enqueued = [1, 0] ∧ link.host.calls = [(0, 1)]) (by decide +kernel)
  exact ⟨link, reached, enqueued, calls, (reports_delivered reached).1⟩

end MagnetoX.Buttons
