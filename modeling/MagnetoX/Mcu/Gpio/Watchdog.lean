import MagnetoX.Mcu.Gpio.DigitalOut

/-!
Owns the watchdog of a digital output with a `max_duration`: while the pin toggles
or is not at its default level, `digital_load_event` is due by the time of the last
update plus `max_duration`, and it shuts down if there is no newer update.

The timer is shared by pulses, updates and the expiry. What keeps them apart is
that its time is `end_time` whenever the next event is a load, and before
`end_time` whenever it is a toggle.
-/

namespace MagnetoX.Mcu.Gpio

open Library.Run Library.Word Mcu.Sched List

/-- The pin toggles or is held at the level that is not its default. -/
def DigitalOut.Active (d : DigitalOut) : Prop := d.toggling = true ∨ d.pin ≠ d.defaultOn

instance (d : DigitalOut) : Decidable d.Active := inferInstanceAs (Decidable (_ ∨ _))

structure Guarded (maxDuration : Nat) (defaultOn : Bool) (o : Output) : Prop where
  isMax : o.d.maxDuration = maxDuration
  isDefault : o.d.defaultOn = defaultOn
  level : o.d.pin = o.d.isOn
  active : o.d.Active → o.d.scheduled = true ∧ o.d.checkEnd = true ∧
    o.d.endTime ≤ o.lastApplied + maxDuration
  queued : ∀ m ∈ o.d.mq.head?, o.d.scheduled = true ∧ o.d.checkEnd = true ∧
    o.d.endTime = m.waketime
  load : o.d.scheduled = true → o.d.func = .digitalLoadEvent →
    o.d.checkEnd = true ∧ o.d.waketime = o.d.endTime
  toggle : o.d.scheduled = true → o.d.func = .digitalToggleEvent →
    o.d.toggling = true ∧ o.d.checkEnd = true ∧ o.d.waketime < o.d.endTime ∧
      0 < o.d.onDuration ∧ 0 < o.d.offDuration

/-! ### Clocks -/

theorem timerIsBefore_iff {first second : Int} (above : first - second < 2 ^ 31)
    (below : second - first < 2 ^ 31) : timerIsBefore first second = true ↔ first < second := by
  unfold timerIsBefore
  rw [i32_of_range (by omega) (by omega), decide_eq_true_iff]
  omega

section Steps

variable {maxDuration : Nat} {defaultOn : Bool} {o : Output} {d after : DigitalOut}

open DigitalOut

theorem mem_live_waketime (scheduled : d.scheduled = true) : d.waketime ∈ d.live := by
  simp [live, scheduled]

theorem mem_live_endTime (checkEnd : d.checkEnd = true) : d.endTime ∈ d.live := by
  simp [live, checkEnd]

theorem mem_live_pulse (scheduled : d.scheduled = true) (toggles : d.func = .digitalToggleEvent)
    (isOn : Bool) : d.waketime + (if isOn then d.onDuration else d.offDuration : Nat) ∈ d.live := by
  cases isOn with
  | false => simp [live, scheduled, toggles]
  | true => simp [live, scheduled, toggles]

variable {m : DigitalMove}

theorem mem_live_move (member : m ∈ d.mq) : m.waketime ∈ d.live := by
  unfold live
  apply mem_append_left
  apply mem_append_right
  exact mem_map_of_mem member

theorem mem_live_on (member : m ∈ d.mq) (pulses : m.onDuration < d.cycleTime) :
    m.waketime + (m.onDuration : Int) ∈ d.live := by
  unfold live
  apply mem_append_right
  apply mem_map.mpr
  exact ⟨m, mem_filter.mpr ⟨member, decide_eq_true pulses⟩, rfl⟩

/-! ### The timer -/

/-- A pulse ends before `end_time`, or the load is due at `end_time`. -/
theorem digitalToggleEvent_cases (checkEnd : d.checkEnd = true)
    (above : d.waketime + (if !d.isOn then d.onDuration else d.offDuration : Nat) - d.endTime < 2 ^ 31)
    (below : d.endTime - (d.waketime + (if !d.isOn then d.onDuration else d.offDuration : Nat)) <
      2 ^ 31) :
    (digitalToggleEvent d = { d with
        pin := !d.pin
        isOn := !d.isOn
        waketime := d.waketime + (if !d.isOn then d.onDuration else d.offDuration : Nat) } ∧
        d.waketime + (if !d.isOn then d.onDuration else d.offDuration : Nat) < d.endTime) ∨
      digitalToggleEvent d = { d with
        pin := !d.pin
        isOn := !d.isOn
        func := .digitalLoadEvent
        waketime := d.endTime } := by
  have before := timerIsBefore_iff above below
  unfold digitalToggleEvent
  dsimp only
  by_cases early : d.waketime + (if !d.isOn then d.onDuration else d.offDuration : Nat) < d.endTime
  · left
    rw [before.mpr early, if_neg (by simp)]
    exact ⟨rfl, early⟩
  · right
    rw [Bool.eq_false_iff.mpr (fun isBefore => early (before.mp isBefore)), checkEnd,
      if_pos (by decide)]

theorem Guarded.toggleEvent (guarded : Guarded maxDuration defaultOn o)
    (clear : Unambiguous o.d.live) (scheduled : o.d.scheduled = true)
    (toggles : o.d.func = .digitalToggleEvent) :
    Guarded maxDuration defaultOn ⟨digitalToggleEvent o.d, o.lastApplied⟩ := by
  obtain ⟨toggling, checkEnd, -, onDuration, offDuration⟩ := guarded.toggle scheduled toggles
  have pulse := mem_live_pulse scheduled toggles (!o.d.isOn)
  have ending := mem_live_endTime checkEnd
  have active := guarded.active (.inl toggling)
  have level : (!o.d.pin) = !o.d.isOn := by rw [guarded.level]
  rcases digitalToggleEvent_cases checkEnd (clear _ pulse _ ending) (clear _ ending _ pulse) with
    ⟨pulses, early⟩ | loads
  · rw [pulses]
    exact { guarded with
      level := level
      active := fun _ => active
      load := fun _ isLoad => nomatch toggles.symm.trans isLoad
      toggle := fun _ _ => ⟨toggling, checkEnd, early, onDuration, offDuration⟩ }
  · rw [loads]
    exact { guarded with
      level := level
      active := fun _ => active
      load := fun _ _ => ⟨checkEnd, rfl⟩
      toggle := fun _ => nofun }

/-- What `digital_load_event` schedules: nothing, the end of a setting that holds
the pin, or a pulse. -/
theorem Guarded.scheduleNext {applied : Int} {onDuration : Nat} (isMax : d.maxDuration = maxDuration)
    (isDefault : d.defaultOn = defaultOn) (level : d.pin = d.isOn) (scheduled : d.scheduled = true)
    (isLoad : d.func = .digitalLoadEvent)
    (active : d.Active → d.checkEnd = true ∧ d.endTime ≤ applied + maxDuration)
    (queued : ∀ m ∈ d.mq.head?, d.checkEnd = true ∧ d.endTime = m.waketime)
    (pulses : d.toggling = true → 0 < onDuration ∧ onDuration < d.cycleTime ∧
      d.waketime + onDuration - d.endTime < 2 ^ 31 ∧
      d.endTime - (d.waketime + onDuration) < 2 ^ 31) :
    Guarded maxDuration defaultOn ⟨Gpio.scheduleNext d onDuration, applied⟩ := by
  unfold Gpio.scheduleNext
  by_cases toggling : d.toggling = true
  · rw [if_neg (by simp [toggling])]
    obtain ⟨checkEnd, bounded⟩ := active (.inl toggling)
    obtain ⟨positive, shorter, above, below⟩ := pulses toggling
    have before := timerIsBefore_iff above below
    dsimp only
    by_cases early : d.waketime + onDuration < d.endTime
    · rw [before.mpr early, if_neg (by simp)]
      refine ⟨isMax, isDefault, level, fun _ => ⟨scheduled, checkEnd, bounded⟩, ?_, ?_, ?_⟩
      · exact fun m isFirst => ⟨scheduled, queued m isFirst⟩
      · exact fun _ => nofun
      · exact fun _ _ => ⟨toggling, checkEnd, early, positive, Nat.sub_pos_of_lt shorter⟩
    · rw [Bool.eq_false_iff.mpr (fun isBefore => early (before.mp isBefore)),
        if_pos (by simp [checkEnd])]
      refine ⟨isMax, isDefault, level, fun _ => ⟨scheduled, checkEnd, bounded⟩, ?_, ?_, ?_⟩
      · exact fun m isFirst => ⟨scheduled, queued m isFirst⟩
      · exact fun _ _ => ⟨checkEnd, rfl⟩
      · exact fun _ isToggle => nomatch isLoad.symm.trans isToggle
  · rw [if_pos (by simp [toggling])]
    by_cases checkEnd : d.checkEnd = true
    · rw [if_neg (by simp [checkEnd])]
      refine ⟨isMax, isDefault, level, ?_, ?_, fun _ _ => ⟨checkEnd, rfl⟩, ?_⟩
      · exact fun isActive => ⟨scheduled, active isActive⟩
      · exact fun m isFirst => ⟨scheduled, queued m isFirst⟩
      · exact fun _ isToggle => nomatch isLoad.symm.trans isToggle
    · rw [if_pos (by simp [checkEnd])]
      refine ⟨isMax, isDefault, level, ?_, ?_, nofun, nofun⟩
      · exact fun isActive => absurd (active isActive).1 checkEnd
      · exact fun m isFirst => absurd (queued m isFirst).1 checkEnd

theorem pulses_of_clear (clear : Unambiguous d.live) (member : m ∈ d.mq)
    (toggling : d.pulses m = true) :
    0 < m.onDuration ∧ m.onDuration < d.cycleTime ∧ (m.onDuration : Int) < 2 ^ 31 := by
  simp only [pulses, DigitalMove.isOn, Bool.not_eq_true', Bool.or_eq_false_iff,
    decide_eq_false_iff_not, Bool.not_eq_false', decide_eq_true_iff] at toggling
  have shorter : m.onDuration < d.cycleTime := by omega
  have near := clear _ (mem_live_on member shorter) _ (mem_live_move member)
  exact ⟨Nat.pos_of_ne_zero toggling.1, shorter, by omega⟩

variable (guarded : Guarded maxDuration defaultOn o)
include guarded

/-- A level that is not the default, and pulses, are limited. -/
theorem Guarded.limits (limited : 0 < maxDuration)
    (isActive : o.d.pulses m = true ∨ m.isOn ≠ o.d.defaultOn) : o.d.limits m = true := by
  have isMax : decide (o.d.maxDuration ≠ 0) = true := by
    rw [guarded.isMax]
    exact decide_eq_true (Nat.ne_of_gt limited)
  unfold DigitalOut.limits
  rw [isMax, Bool.and_true]
  split
  · rfl
  · rename_i steady
    exact bne_iff_ne.mpr (isActive.resolve_left steady)

/-- What is loaded: the pin gets the level of the update, which is limited if it is
not the default. -/
theorem Guarded.loadEvent (limited : 0 < maxDuration) (small : maxDuration < 2 ^ 31)
    (clear : Unambiguous o.d.live) (scheduled : o.d.scheduled = true)
    (isLoad : o.d.func = .digitalLoadEvent) (loads : digitalLoadEvent o.d = .ok after) :
    Guarded maxDuration defaultOn
      ⟨after, (o.d.mq.head?.map DigitalMove.waketime).getD o.lastApplied⟩ := by
  have isMax := guarded.isMax
  unfold digitalLoadEvent at loads
  split at loads
  · cases loads
  · rename_i m mq isQueue
    have isHead : o.d.mq.head? = some m := by rw [isQueue, head?_cons]
    obtain ⟨-, -, endTime⟩ := guarded.queued m isHead
    obtain ⟨-, waketime⟩ := guarded.load scheduled isLoad
    have isTime : o.d.waketime = m.waketime := waketime.trans endTime
    have member : m ∈ o.d.mq := mem_of_head? isHead
    rw [isHead]
    change Guarded maxDuration defaultOn ⟨after, m.waketime⟩
    dsimp only at loads
    split at loads
    · cases loads
      refine Guarded.scheduleNext isMax guarded.isDefault rfl scheduled isLoad ?_ ?_ ?_
      · intro isActive
        have check := guarded.limits limited isActive
        refine ⟨check, ?_⟩
        rw [if_pos check, isTime, isMax]
      · exact fun first isFirst => absurd isFirst (Option.not_mem_none first)
      · intro toggling
        obtain ⟨positive, shorter, near⟩ := pulses_of_clear clear member toggling
        have check := guarded.limits limited (.inl toggling)
        dsimp only
        rw [if_pos check, isMax]
        exact ⟨positive, shorter, by omega, by omega⟩
    · rename_i next rest
      have isNext : next ∈ o.d.mq := by
        rw [isQueue]
        exact .tail _ (.head _)
      split at loads
      · cases loads
      · rename_i accepted
        cases loads
        refine Guarded.scheduleNext isMax guarded.isDefault rfl scheduled isLoad ?_ ?_ ?_
        · intro isActive
          refine ⟨rfl, ?_⟩
          dsimp only
          rw [guarded.limits limited isActive, Bool.true_and, isTime, isMax] at accepted
          have near := clear _ (mem_live_move isNext) _ (mem_live_move member)
          by_contra late
          apply accepted
          exact (timerIsBefore_iff (by omega) (by omega)).mpr (by omega)
        · intro first isFirst
          cases isFirst
          exact ⟨rfl, rfl⟩
        · intro toggling
          obtain ⟨positive, shorter, -⟩ := pulses_of_clear clear member toggling
          have pulse := mem_live_on member shorter
          have above := clear _ pulse _ (mem_live_move isNext)
          have below := clear _ (mem_live_move isNext) _ pulse
          rw [← isTime] at above below
          exact ⟨positive, shorter, above, below⟩

/-! ### The commands -/

theorem Guarded.queue {clock : Int} {onTicks : Nat} (clear : Unambiguous (o.d.live ++ [clock]))
    (queues : queueDigitalOut o.d clock onTicks = .ok after) :
    Guarded maxDuration defaultOn ⟨after, o.lastApplied⟩ := by
  have isClock : clock ∈ o.d.live ++ [clock] := mem_append_right _ (.head _)
  have near : ∀ {other}, other ∈ o.d.live → other - clock < 2 ^ 31 ∧ clock - other < 2 ^ 31 := by
    intro other isLive
    have member := mem_append_left [clock] isLive
    exact ⟨clear _ member _ isClock, clear _ isClock _ member⟩
  unfold queueDigitalOut at queues
  dsimp only at queues
  split at queues
  · rename_i more
    cases queues
    refine { guarded with queued := ?_ }
    intro m isFirst
    apply guarded.queued m
    cases isQueue : o.d.mq with
    | nil =>
      rw [isQueue] at more
      exact absurd more (by decide)
    | cons first rest =>
      rw [isQueue] at isFirst
      exact isFirst
  · rename_i isEmpty
    have empty : o.d.mq = [] := by simpa using isEmpty
    split at queues
    · cases queues
    · rename_i accepted
      -- the new end is not after the old one
      have earlier : o.d.checkEnd = true → clock ≤ o.d.endTime := by
        intro checkEnd
        rw [checkEnd, Bool.true_and] at accepted
        by_contra late
        apply accepted
        obtain ⟨above, below⟩ := near (mem_live_endTime checkEnd)
        exact (timerIsBefore_iff above below).mpr (Int.not_le.mp late)
      have active : o.d.Active → clock ≤ o.lastApplied + maxDuration := by
        intro isActive
        obtain ⟨-, checkEnd, bounded⟩ := guarded.active isActive
        exact (earlier checkEnd).trans bounded
      split at queues
      · rename_i pulses
        cases queues
        rw [Bool.and_eq_true] at pulses
        obtain ⟨toggling, before⟩ := pulses
        obtain ⟨scheduled, checkEnd, -⟩ := guarded.active (.inl toggling)
        obtain ⟨above, below⟩ := near (mem_live_waketime scheduled)
        have early := (timerIsBefore_iff above below).mp before
        refine { guarded with active := ?_, queued := ?_, load := ?_, toggle := ?_ }
        · exact fun isActive => ⟨scheduled, rfl, active isActive⟩
        · intro m isFirst
          rw [empty] at isFirst
          cases isFirst
          exact ⟨scheduled, rfl, rfl⟩
        · intro _ isLoad
          obtain ⟨-, atEnd⟩ := guarded.load scheduled isLoad
          have late := earlier checkEnd
          omega
        · intro _ isToggle
          obtain ⟨-, -, -, positive⟩ := guarded.toggle scheduled isToggle
          exact ⟨toggling, rfl, early, positive⟩
      · cases queues
        refine ⟨guarded.isMax, guarded.isDefault, guarded.level, ?_, ?_, fun _ _ => ⟨rfl, rfl⟩,
          fun _ => nofun⟩
        · exact fun isActive => ⟨rfl, rfl, active isActive⟩
        · intro m isFirst
          rw [empty] at isFirst
          cases isFirst
          exact ⟨rfl, rfl, rfl⟩

theorem Guarded.update (limited : 0 < maxDuration) {timerReadTime : Int} {value : Bool}
    (updates : updateDigitalOut o.d timerReadTime value = .ok after) :
    Guarded maxDuration defaultOn ⟨after, timerReadTime⟩ := by
  have isMax := guarded.isMax
  unfold updateDigitalOut at updates
  dsimp only at updates
  split at updates
  · cases updates
  · rename_i nothing
    have empty : o.d.mq = [] := not_not.mp nothing
    have queued : ∀ m, m ∉ o.d.mq.head? := by
      rw [empty]
      exact fun m => Option.not_mem_none m
    split at updates
    · cases updates
      refine ⟨isMax, guarded.isDefault, rfl, ?_, ?_, fun _ _ => ⟨rfl, rfl⟩, fun _ => nofun⟩
      · intro _
        refine ⟨rfl, rfl, ?_⟩
        rw [isMax]
      · exact fun m isFirst => absurd isFirst (queued m)
    · rename_i isDefault
      cases updates
      refine ⟨isMax, guarded.isDefault, rfl, ?_, ?_, nofun, nofun⟩
      · rintro (toggling | away)
        · cases toggling
        · exfalso
          apply isDefault
          rw [Bool.and_eq_true, bne_iff_ne, isMax]
          exact ⟨away, decide_eq_true (Nat.ne_of_gt limited)⟩
      · exact fun m isFirst => absurd isFirst (queued m)

theorem Guarded.setCycle {cycleTicks : Nat}
    (sets : setDigitalOutPwmCycle o.d cycleTicks = .ok after) :
    Guarded maxDuration defaultOn ⟨after, o.lastApplied⟩ := by
  unfold setDigitalOutPwmCycle at sets
  split at sets
  · cases sets
  · cases sets
    exact { guarded with }

theorem Guarded.step (limited : 0 < maxDuration) (small : maxDuration < 2 ^ 31) {input : Input}
    {later : Output} (steps : o.step input = some later) : Guarded maxDuration defaultOn later := by
  unfold Output.step at steps
  split at steps
  · rename_i clear
    have live : Unambiguous o.d.live := fun first isFirst second isSecond =>
      clear first (mem_append_left _ isFirst) second (mem_append_left _ isSecond)
    split at steps
    · rename_i outcome
      cases steps
      cases input with
      | queueDigitalOut clock onTicks =>
        obtain ⟨after, queues, rfl⟩ := map_eq_ok (Option.some.inj outcome)
        exact guarded.queue clear queues
      | updateDigitalOut timerReadTime value =>
        obtain ⟨after, updates, rfl⟩ := map_eq_ok (Option.some.inj outcome)
        exact guarded.update limited updates
      | setDigitalOutPwmCycle cycleTicks =>
        obtain ⟨after, sets, rfl⟩ := map_eq_ok (Option.some.inj outcome)
        exact guarded.setCycle sets
      | timer =>
        unfold Output.outcome at outcome
        dsimp only at outcome
        split at outcome
        · cases outcome
        · rename_i scheduled
          have isScheduled : o.d.scheduled = true := by simpa using scheduled
          split at outcome
          · rename_i toggles
            cases outcome
            exact guarded.toggleEvent live isScheduled toggles
          · rename_i isLoad
            obtain ⟨after, loads, rfl⟩ := map_eq_ok (Option.some.inj outcome)
            exact guarded.loadEvent limited small live isScheduled isLoad loads
    · cases steps
  · cases steps

end Steps

/-! ### The expiry -/

def toggled : Nat → DigitalOut → DigitalOut
  | 0, d => d
  | pulses + 1, d => toggled pulses (digitalToggleEvent d)

/-- After finitely many pulses the load is due at `end_time`. -/
theorem load_due {d : DigitalOut} (scheduled : d.scheduled = true) (checkEnd : d.checkEnd = true)
    (load : d.func = .digitalLoadEvent → d.waketime = d.endTime)
    (toggle : d.func = .digitalToggleEvent → d.waketime < d.endTime ∧
      d.endTime - d.waketime < 2 ^ 31 ∧ 0 < d.onDuration ∧ 0 < d.offDuration ∧
      d.onDuration < 2 ^ 31 ∧ d.offDuration < 2 ^ 31) :
    ∃ pulses, (∀ earlier < pulses, (toggled earlier d).func = .digitalToggleEvent) ∧
      (toggled pulses d).scheduled = true ∧ (toggled pulses d).func = .digitalLoadEvent ∧
      (toggled pulses d).waketime = d.endTime ∧ (toggled pulses d).mq = d.mq ∧
      (toggled pulses d).defaultOn = d.defaultOn := by
  -- the time to `end_time` gets shorter with every pulse
  generalize isLeft : (d.endTime - d.waketime).toNat = left
  induction left using Nat.strongRecOn generalizing d with
  | ind left ih =>
    cases isFunc : d.func with
    | digitalLoadEvent =>
      exact ⟨0, fun earlier none => absurd none (Nat.not_lt_zero _), scheduled, isFunc,
        load isFunc, rfl, rfl⟩
    | digitalToggleEvent =>
      obtain ⟨early, near, onPositive, offPositive, onSmall, offSmall⟩ := toggle isFunc
      have ticks : 0 < (if !d.isOn then d.onDuration else d.offDuration) ∧
          (if !d.isOn then d.onDuration else d.offDuration) < 2 ^ 31 := by
        split
        · exact ⟨onPositive, onSmall⟩
        · exact ⟨offPositive, offSmall⟩
      have first : ∀ {after pulses}, digitalToggleEvent d = after → (∀ earlier < pulses,
          (toggled earlier after).func = .digitalToggleEvent) →
          ∀ earlier < pulses + 1, (toggled earlier d).func = .digitalToggleEvent := by
        rintro _ pulses rfl later earlier before
        cases earlier with
        | zero => exact isFunc
        | succ earlier => exact later earlier (Nat.lt_of_succ_lt_succ before)
      rcases digitalToggleEvent_cases checkEnd (by omega) (by omega) with ⟨pulses, still⟩ | loads
      · obtain ⟨count, more, due⟩ := ih (d.endTime -
            (d.waketime + (if !d.isOn then d.onDuration else d.offDuration : Nat))).toNat
          (by omega) (d := { d with pin := !d.pin, isOn := !d.isOn, waketime := _ })
          scheduled checkEnd (fun isLoad => nomatch isFunc.symm.trans isLoad)
          (fun _ => ⟨still, by dsimp only; omega, onPositive, offPositive, onSmall, offSmall⟩) rfl
        refine ⟨count + 1, first pulses more, ?_⟩
        rw [toggled, pulses]
        exact due
      · refine ⟨1, first rfl (fun earlier none => absurd none (Nat.not_lt_zero _)), ?_⟩
        change (digitalToggleEvent d).scheduled = true ∧ _
        rw [toggled, toggled, loads]
        exact ⟨scheduled, rfl, rfl, rfl, rfl⟩

theorem guarded_configDigitalOut (value : Bool) (maxDuration : Nat) (lastApplied : Int) :
    Guarded maxDuration value ⟨configDigitalOut value value maxDuration, lastApplied⟩ := by
  refine ⟨rfl, rfl, rfl, ?_, nofun, nofun, nofun⟩
  rintro (toggling | away)
  · cases toggling
  · exact absurd rfl away

theorem buildConfig_limited {mdurTicks : Nat} {startValue shutdownValue : Bool} {first : DigitalOut}
    (config : buildConfig true mdurTicks startValue shutdownValue = .ok first) :
    mdurTicks < 2 ^ 31 ∧ first = configDigitalOut shutdownValue shutdownValue mdurTicks := by
  unfold buildConfig at config
  split at config
  · cases config
  · rename_i same
    split at config
    · cases config
    · rename_i small
      cases config
      have equal : startValue = shutdownValue := by
        by_contra differ
        exact same ⟨rfl, differ⟩
      rw [equal]
      exact ⟨Nat.lt_of_not_le small, rfl⟩

/-- **The watchdog of a digital output.** In every run of commands and timer events
that does not shut down, on a pin that the host configures with a `max_duration`:
while the pin toggles or is not at its default level, its timer is scheduled, and
after the pulses that come before, `digital_load_event` is due at `end_time`, no
later than the last applied update plus `max_duration`. If no newer update is
queued then, it shuts down and the pin is set to its default level; otherwise the
newer update is the one for this time. -/
theorem digital_out_watchdog {mdurTicks : Nat} {startValue shutdownValue : Bool}
    {first : DigitalOut} {o : Output} (limited : 0 < mdurTicks)
    (config : buildConfig true mdurTicks startValue shutdownValue = .ok first)
    (reached : ReachableWithin (fun o => o.d = first) Output.step
      (fun o => Unambiguous o.d.live) o) (isActive : o.d.Active) :
    o.d.scheduled = true ∧ o.d.waketime ≤ o.d.endTime ∧ o.d.endTime ≤ o.lastApplied + mdurTicks ∧
      ∃ pulses, (∀ earlier < pulses, (toggled earlier o.d).func = .digitalToggleEvent) ∧
        (toggled pulses o.d).scheduled = true ∧
        (toggled pulses o.d).func = .digitalLoadEvent ∧
        (toggled pulses o.d).waketime = o.d.endTime ∧
        (o.d.mq = [] → ∃ halted, digitalLoadEvent (toggled pulses o.d) =
            .error ⟨"Missed scheduling of next digital out event", halted⟩ ∧
          halted.pin = shutdownValue) ∧
        ∀ m ∈ o.d.mq.head?, m.waketime = o.d.endTime := by
  obtain ⟨small, isFirst⟩ := buildConfig_limited config
  have guarded : Guarded mdurTicks shutdownValue o := by
    apply reached.induct_invariant
    · intro state begins _
      have initially := guarded_configDigitalOut shutdownValue mdurTicks state.lastApplied
      rw [← isFirst, ← begins] at initially
      exact initially
    · exact fun state input later _ _ steps guarded => guarded.step limited small steps
  have clear := reached.inside
  obtain ⟨scheduled, checkEnd, bounded⟩ := guarded.active isActive
  have atMost : o.d.waketime ≤ o.d.endTime := by
    cases isFunc : o.d.func with
    | digitalLoadEvent => exact (guarded.load scheduled isFunc).2.le
    | digitalToggleEvent => exact (guarded.toggle scheduled isFunc).2.2.1.le
  obtain ⟨pulses, more, stillScheduled, isLoad, waketime, mq, defaultOn⟩ := load_due scheduled checkEnd
    (fun isLoad => (guarded.load scheduled isLoad).2)
    (fun toggles => by
      obtain ⟨-, -, early, onPositive, offPositive⟩ := guarded.toggle scheduled toggles
      have isWaketime := mem_live_waketime scheduled
      have near := clear _ (mem_live_endTime checkEnd) _ isWaketime
      have onNear := clear _ (mem_live_pulse scheduled toggles true) _ isWaketime
      have offNear := clear _ (mem_live_pulse scheduled toggles false) _ isWaketime
      rw [if_pos rfl] at onNear
      rw [if_neg Bool.false_ne_true] at offNear
      exact ⟨early, near, onPositive, offPositive, by omega, by omega⟩)
  refine ⟨scheduled, atMost, bounded, pulses, more, stillScheduled, isLoad, waketime, ?_, ?_⟩
  · intro empty
    rw [empty] at mq
    refine ⟨digitalOutShutdown { toggled pulses o.d with scheduled := false }, ?_, ?_⟩
    · unfold digitalLoadEvent
      rw [mq]
      rfl
    · exact defaultOn.trans guarded.isDefault
  · exact fun m isHead => (guarded.queued m isHead).2.2.symm

/-- A heater pulses with 30 of 100 ticks, and the update for it was at 5000. After
two pulses, no other update has arrived. -/
theorem digital_out_watchdog_pulses :
    ∃ o : Output, o.d.Active ∧ o.lastApplied = 5000 ∧ o.d.endTime ≤ o.lastApplied + 1000 ∧
      ∃ pulses halted, digitalLoadEvent (toggled pulses o.d) =
          .error ⟨"Missed scheduling of next digital out event", halted⟩ ∧ halted.pin = false := by
  let inputs : List Input :=
    [.setDigitalOutPwmCycle 100, .queueDigitalOut 5000 30, .timer, .timer, .timer]
  have result : (run Output.step (fun o => Unambiguous o.d.live)
      ⟨configDigitalOut false false 1000, 0⟩ inputs).map
      (fun o => (decide o.d.Active, o.lastApplied, o.d.mq)) = some (true, 5000, []) := by
    decide +kernel
  have config : buildConfig true 1000 false false = .ok (configDigitalOut false false 1000) := by
    decide
  obtain ⟨o, executes, facts⟩ := Option.map_eq_some_iff.mp result
  obtain ⟨active, rest⟩ := Prod.mk.inj facts
  obtain ⟨applied, empty⟩ := Prod.mk.inj rest
  have isActive : o.d.Active := of_decide_eq_true active
  obtain ⟨-, -, bounded, pulses, -, -, -, -, expires, -⟩ := digital_out_watchdog (by decide) config
    (.of_run (fun inside => .initial rfl inside) executes) isActive
  obtain ⟨halted, stops, isDefault⟩ := expires empty
  exact ⟨o, isActive, applied, bounded, pulses, halted, stops, isDefault⟩

end MagnetoX.Mcu.Gpio
