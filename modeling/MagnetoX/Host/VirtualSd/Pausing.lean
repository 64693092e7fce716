import MagnetoX.Host.VirtualSd.Printing

/-!
Owns pausing and resuming a print. `work_handler` counts the characters it
dispatched and starts again from that count as a byte offset, so the place where
a print resumes is right as long as what was dispatched is ASCII.
-/

namespace MagnetoX.Host.VirtualSd

open Library.Lines Library.Run Library.TextOffset List

variable {contents rest : Text} {locals : Locals} {sd after : VirtualSD} {lower : String → String}

/-- A print that is paused and resumed at will: no command fails, and none
changes the position or the file. -/
def VirtualSD.Event.Undisturbed : VirtualSD.Event → Prop
  | .pass p => p.outcome.result = .ok ∧ ∀ effect ∈ p.outcome.effects, effect = .doPause
  | .cmdM24 => True
  | .cmdM25 => True
  | .workTimer => True
  | _ => False

instance : DecidablePred VirtualSD.Event.Undisturbed
  | .pass p => inferInstanceAs (Decidable (p.outcome.result = .ok ∧ ∀ effect ∈ p.outcome.effects, _))
  | .cmdM24 => inferInstanceAs (Decidable True)
  | .cmdM25 => inferInstanceAs (Decidable True)
  | .workTimer => inferInstanceAs (Decidable True)
  | .cmdM23 _ _ => inferInstanceAs (Decidable False)
  | .cmdSdcardPrintFile _ _ => inferInstanceAs (Decidable False)
  | .cmdSdcardResetFile => inferInstanceAs (Decidable False)
  | .cmdM26 _ => inferInstanceAs (Decidable False)
  | .doCancel => inferInstanceAs (Decidable False)
  | .handleShutdown => inferInstanceAs (Decidable False)

def VirtualSD.printStep (lower : String → String) (sd : VirtualSD) (event : VirtualSD.Event) :
    Option VirtualSD :=
  if event.Undisturbed then sd.step lower event else none

def Begins (contents : Text) (sd : VirtualSD) : Prop :=
  ∃ (before : VirtualSD) (lower : String → String) (files : List (String × Text)) (filename : String),
    before.work = .idle ∧ VirtualSD.lookupFile lower files filename = some contents ∧
      before.loadFile lower files filename = .ok sd

def VirtualSD.Ascii (sd : VirtualSD) : Prop :=
  ∀ line ∈ sd.scripts, ∀ c ∈ line, c.val ≤ 127

instance (sd : VirtualSD) : Decidable sd.Ascii :=
  decidable_of_iff (sd.scripts.all (fun line => line.all (fun c => decide (c.val ≤ 127))) = true)
    (by simp only [List.all_eq_true, decide_eq_true_eq, VirtualSD.Ascii])

theorem VirtualSD.ascii_iff : sd.Ascii ↔
    (closed '\n' sd.scripts).length = byteLength (closed '\n' sd.scripts) := by
  rw [eq_comm, byteLength_eq_length_iff, forall_mem_closed (by decide)]
  rfl

inductive Stage (contents : Text) (sd : VirtualSD) : Prop where
  | paused (isIdle : sd.work = .idle) (stopped : Stopped contents sd)
      (incomplete : sd.printStats.getLast? ≠ some .noteComplete)
  | registered (isRegistered : sd.work = .registered) (stopped : Stopped contents sd)
      (exact : sd.filePosition = byteLength (closed '\n' sd.scripts))
  | running {rest : Text} {locals : Locals} (running : Running contents rest locals sd)
  | ended (ended : Ended contents sd) (returned : sd.work = .idle ∨ sd.work = .registered)

theorem Running.opens (running : Running contents rest locals sd) :
    closed '\n' sd.scripts <+: contents := by
  rw [running.text, closed_append, append_assoc]
  exact prefix_append _ _

open VirtualSD

theorem Running.stage_pass (running : Running contents rest locals sd) {p : VirtualSD.Pass}
    (isOk : p.outcome.result = .ok) (pauses : ∀ effect ∈ p.outcome.effects, effect = .doPause) :
    Stage contents (sd.pass p) := by
  cases goesOn : sd.mustPauseWork with
  | true =>
    rw [running.pass_pauses goesOn p]
    refine .paused rfl ⟨⟨_, running.isOpen⟩, (unbroken_append.mp running.unbroken).1,
      running.opens, running.position⟩ ?_
    change (sd.printStats ++ [Note.notePause]).getLast? ≠ _
    simp
  | false =>
    cases isLines : locals.lines with
    | nil =>
      by_cases more : rest = []
      · subst more
        obtain ⟨ended, completed⟩ := running.pass_ends goesOn isLines p
        exact .ended ended (.inl completed.1)
      · obtain ⟨later, running, -⟩ := running.pass_reads goesOn isLines more p
        exact .running running
    | cons line lines =>
      cases isBusy : p.busy with
      | true =>
        have stays : sd.pass p = sd := by
          simp [VirtualSD.pass, running.work, goesOn, isLines, isBusy]
        rw [stays]
        exact .running running
      | false => exact .running (running.pass_dispatches goesOn isLines isBusy isOk pauses).1

section

variable (stage : Stage contents sd)
include stage

theorem Stage.doPause : Stage contents sd.doPause := by
  rw [VirtualSD.doPause]
  split
  · cases stage with
    | paused isIdle stopped incomplete =>
      exact .paused isIdle { stopped with } incomplete
    | registered isRegistered stopped exact =>
      exact .registered isRegistered { stopped with } exact
    | running running =>
      exact .running { running with }
    | ended ended returned => exact .ended { ended with } returned
  · exact stage

theorem Stage.doResume (ascii : sd.Paused → sd.Ascii)
    (resumes : sd.doResume = .ok after) : Stage contents after := by
  obtain ⟨isIdle, rfl⟩ := doResume_ok resumes
  cases stage with
  | paused _ stopped _ =>
    obtain ⟨upcoming, isOpen⟩ := stopped.isOpen
    have isAscii := ascii ⟨isIdle, by simp [isOpen]⟩
    exact .registered rfl { stopped with } (stopped.position.trans (ascii_iff.mp isAscii))
  | registered isRegistered => cases isIdle.symm.trans isRegistered
  | running running => cases isIdle.symm.trans running.work
  | ended ended _ => exact .ended { ended with } (.inr rfl)

theorem Stage.startWork (isRegistered : sd.work = .registered) :
    Stage contents sd.startWork := by
  cases stage with
  | paused isIdle => cases isIdle.symm.trans isRegistered
  | registered _ stopped exact =>
    obtain ⟨rest, -, running, -⟩ := stopped.startWork exact
    exact .running running
  | running running => cases isRegistered.symm.trans running.work
  | ended ended _ =>
    have returns : sd.startWork = { sd with work := .idle } := by
      rw [VirtualSD.startWork, ended.isClosed]
    rw [returns]
    exact .ended { ended with } (.inl rfl)

theorem Stage.step (ascii : sd.Paused → sd.Ascii)
    {event : VirtualSD.Event} (moves : sd.printStep lower event = some after) :
    Stage contents after := by
  unfold VirtualSD.printStep VirtualSD.step at moves
  split at moves
  · rename_i undisturbed
    split at moves
    · rename_i enabled
      cases event with
      | pass p =>
        cases moves
        obtain ⟨notIdle, notRegistered⟩ := of_decide_eq_true enabled
        cases stage with
        | paused isIdle => exact absurd isIdle notIdle
        | registered isRegistered => exact absurd isRegistered notRegistered
        | running running => exact running.stage_pass undisturbed.1 undisturbed.2
        | ended _ returned => exact absurd returned (not_or.mpr ⟨notIdle, notRegistered⟩)
      | cmdM24 =>
        cases resumes : sd.doResume with
        | ok resumed =>
          simp only [VirtualSD.Event.outcome, cmdM24, resumes] at moves
          cases moves
          exact stage.doResume ascii resumes
        | error failure =>
          simp only [VirtualSD.Event.outcome, cmdM24, resumes] at moves
          cases moves
          rw [doResume_error resumes]
          exact stage
      | cmdM25 =>
        cases moves
        exact stage.doPause
      | workTimer =>
        cases moves
        exact stage.startWork (of_decide_eq_true enabled)
      | _ => exact undisturbed.elim
    · cases moves
  · cases moves

end

theorem Begins.stage (begins : Begins contents sd) : Stage contents sd := by
  obtain ⟨before, lower, files, filename, isIdle, found, loads⟩ := begins
  obtain ⟨stopped, -, sameWork, lastNote⟩ := loadFile_stopped found loads
  exact .paused (sameWork.trans isIdle) stopped (by simp [lastNote])

theorem Stage.opens (stage : Stage contents sd) :
    Unbroken '\n' sd.scripts ∧ closed '\n' sd.scripts <+: contents := by
  cases stage with
  | paused _ stopped => exact ⟨stopped.unbroken, stopped.text⟩
  | registered _ stopped => exact ⟨stopped.unbroken, stopped.text⟩
  | running running => exact ⟨(unbroken_append.mp running.unbroken).1, running.opens⟩
  | ended ended =>
    obtain ⟨unread, -, text⟩ := ended.text
    exact ⟨ended.unbroken, unread, text.symm⟩

/-- Where the first line starts that was not yet dispatched. -/
def nextLineOffset (contents : Text) (sd : VirtualSD) : Nat :=
  (bytes (closed '\n' ((linesOf '\n' contents).take sd.scripts.length))).length

/-- The position of a paused print is a byte offset exactly if it counted ASCII. -/
theorem Stage.position_iff (stage : Stage contents sd) (isPaused : sd.Paused) :
    sd.filePosition = nextLineOffset contents sd ↔ sd.Ascii := by
  obtain ⟨unbroken, opens⟩ := stage.opens
  have same : (linesOf '\n' contents).take sd.scripts.length = sd.scripts :=
    (prefix_iff_eq_take.mp (prefix_linesOf unbroken opens)).symm
  rw [nextLineOffset, same, length_bytes, ascii_iff]
  cases stage with
  | paused _ stopped => rw [stopped.position]
  | registered isRegistered => cases isPaused.1.symm.trans isRegistered
  | running running => cases isPaused.1.symm.trans running.work
  | ended ended => exact absurd ended.isClosed isPaused.2

theorem Stage.completed (stage : Stage contents sd) (terminated : Terminated '\n' contents)
    (completed : sd.Completed) : sd.scripts = linesOf '\n' contents := by
  cases stage with
  | paused _ _ incomplete => exact absurd completed.2.1 incomplete
  | registered isRegistered => cases completed.1.symm.trans isRegistered
  | running running => cases completed.1.symm.trans running.work
  | ended ended => exact ended.scripts_eq_iff.mpr terminated

/-- A paused print that is resumed and left alone dispatches all that is left. -/
theorem Stage.resumes (stage : Stage contents sd) (terminated : Terminated '\n' contents)
    (isPaused : sd.Paused) (ascii : sd.Ascii) :
    ∃ resumed, sd.doResume = .ok resumed ∧ ∀ passes : List VirtualSD.Pass, (∀ p ∈ passes, p.Quiet) →
      2 * contents.length < passes.countP (fun p => !p.busy) →
        (resumed.workHandler passes).Completed ∧
          (resumed.workHandler passes).scripts = linesOf '\n' contents := by
  have resumes : sd.doResume = .ok { sd with mustPauseWork := false, work := .registered } := by
    rw [VirtualSD.doResume, VirtualSD.isActive, isPaused.1]
    rfl
  refine ⟨_, resumes, fun passes quiet enough => ?_⟩
  cases stage.doResume (fun _ => ascii) resumes with
  | paused isIdle => cases isIdle
  | registered _ stopped exact =>
    obtain ⟨rest, text, running, goesOn⟩ := stopped.startWork exact
    have atMost := Locals.remaining_le text
    obtain ⟨ended, completed⟩ := running.completes goesOn quiet (by omega)
    exact ⟨completed, ended.scripts_eq_iff.mpr terminated⟩
  | running running => cases running.work
  | ended ended => exact absurd ended.isClosed isPaused.2

/-- In every run that only pauses while what was dispatched is ASCII: the lines
dispatched so far are the first lines of the file, a paused print is at the byte
offset of the next line and, resumed, dispatches the rest, so that all the runs of
`work_handler` together dispatch what a single one does. The first pause after
other text is at a wrong offset. -/
theorem pause_resume_transparent (terminated : Terminated '\n' contents)
    (reached : ReachableWithin (Begins contents) (VirtualSD.printStep lower)
      (fun sd => sd.Paused → sd.Ascii) sd) :
    sd.scripts <+: linesOf '\n' contents ∧ (sd.Completed → sd.scripts = linesOf '\n' contents) ∧
      (sd.Paused → sd.filePosition = nextLineOffset contents sd ∧
        ∃ resumed, sd.doResume = .ok resumed ∧
          ∀ passes : List VirtualSD.Pass, (∀ p ∈ passes, p.Quiet) →
            2 * contents.length < passes.countP (fun p => !p.busy) →
              (resumed.workHandler passes).Completed ∧
                (resumed.workHandler passes).scripts = linesOf '\n' contents) ∧
      ∀ event after, sd.printStep lower event = some after → after.Paused →
        (after.filePosition = nextLineOffset contents after ↔ after.Ascii) := by
  have stage : Stage contents sd := reached.induct_invariant (fun _ begins _ => begins.stage)
    (fun _ _ _ ascii _ moves stage => stage.step ascii moves)
  have ascii := reached.inside
  obtain ⟨unbroken, opens⟩ := stage.opens
  refine ⟨prefix_linesOf unbroken opens, stage.completed terminated, fun isPaused => ?_, ?_⟩
  · exact ⟨(stage.position_iff isPaused).mpr (ascii isPaused),
      stage.resumes terminated isPaused (ascii isPaused)⟩
  · exact fun event after moves isPaused => (stage.step ascii moves).position_iff isPaused

/-- `M25` follows the first of two lines. -/
theorem pause_resume_transparent_ascii :
    ∃ sd : VirtualSD, sd.scripts = ["G28".toList] ∧ sd.filePosition = 4 ∧
      ∃ resumed, sd.doResume = .ok resumed ∧
        (resumed.workHandler (List.replicate 17 ⟨false, ⟨[], .ok⟩⟩)).scripts =
          ["G28".toList, "M84".toList] := by
  let contents : Text := "G28\nM84\n".toList
  let events : List VirtualSD.Event :=
    [.cmdM24, .workTimer, .pass ⟨false, ⟨[], .ok⟩⟩, .pass ⟨false, ⟨[], .ok⟩⟩, .cmdM25,
      .pass ⟨false, ⟨[], .ok⟩⟩]
  obtain ⟨loaded, loads⟩ : ∃ loaded,
      initial.loadFile id [("a.g", contents)] "a.g" = .ok loaded := ⟨_, rfl⟩
  have result : (run (printStep id) (fun sd => sd.Paused → sd.Ascii) loaded events).map
      (fun sd => (sd.scripts, sd.filePosition, decide sd.Paused)) =
        some (["G28".toList], 4, true) := by
    cases loads
    decide +kernel
  obtain ⟨sd, executes, facts⟩ := Option.map_eq_some_iff.mp result
  obtain ⟨scripts, rest⟩ := Prod.mk.inj facts
  obtain ⟨position, isPaused⟩ := Prod.mk.inj rest
  obtain ⟨-, -, resumable, -⟩ := @pause_resume_transparent contents sd id (by decide)
    (.of_run (fun inside => .initial ⟨_, id, _, _, rfl, rfl, loads⟩ inside) executes)
  obtain ⟨-, resumed, resumes, completes⟩ := resumable (of_decide_eq_true isPaused)
  exact ⟨sd, scripts, position, resumed, resumes,
    (completes _ (by decide) (by decide)).2.trans (by decide)⟩

/-- A comment of eight bytes that are four characters: after a pause, the print
resumes four bytes early and `G28` is dispatched again. -/
theorem resume_repeats_line :
    ∃ loaded paused last : VirtualSD,
      VirtualSD.initial.loadFile id [("a.g", ";éééé\nG28\nM84\n".toList)] "a.g" = .ok loaded ∧
      run (VirtualSD.printStep id) (fun _ => True) loaded
        [.cmdM24, .workTimer, .pass ⟨false, ⟨[], .ok⟩⟩, .pass ⟨false, ⟨[], .ok⟩⟩,
          .pass ⟨false, ⟨[], .ok⟩⟩, .cmdM25, .pass ⟨false, ⟨[], .ok⟩⟩] = some paused ∧
      paused.Paused ∧ paused.filePosition = 10 ∧
      nextLineOffset ";éééé\nG28\nM84\n".toList paused = 14 ∧
      run (VirtualSD.printStep id) (fun _ => True) paused
        ([.cmdM24, .workTimer] ++ List.replicate 4 (.pass ⟨false, ⟨[], .ok⟩⟩)) = some last ∧
      last.Completed ∧
      last.scripts = [";éééé".toList, "G28".toList, "G28".toList, "M84".toList] ∧
      linesOf '\n' ";éééé\nG28\nM84\n".toList = [";éééé".toList, "G28".toList, "M84".toList] := by
  refine ⟨_, _, _, rfl, rfl, ?_, ?_, ?_, rfl, ?_, ?_, ?_⟩
  all_goals decide +kernel

end MagnetoX.Host.VirtualSd
