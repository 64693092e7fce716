import MagnetoX.Host.VirtualSd.Model

/-!
Owns what `work_handler` dispatches. While its loop runs, the lines given to
`run_script`, the lines still on the stack, the partial line and the text not yet
read make up the file. What follows the last newline is never dispatched.
-/

namespace MagnetoX.Host.VirtualSd

open Library.Lines Library.TextOffset List

variable {contents rest : Text} {locals : Locals} {sd resumed loaded : VirtualSD}

/-- The loop has dispatched `sd.scripts` and the reader has `rest` before it. -/
structure Running (contents rest : Text) (locals : Locals) (sd : VirtualSD) : Prop where
  work : sd.work = .running locals
  isOpen : sd.currentFile = some ⟨contents, some rest⟩
  unbroken : Unbroken '\n' (sd.scripts ++ locals.lines)
  whole : '\n' ∉ locals.partialInput
  text : contents = closed '\n' (sd.scripts ++ locals.lines) ++ (locals.partialInput ++ rest)
  position : sd.filePosition = (closed '\n' sd.scripts).length

structure Stopped (contents : Text) (sd : VirtualSD) : Prop where
  isOpen : ∃ upcoming, sd.currentFile = some ⟨contents, upcoming⟩
  unbroken : Unbroken '\n' sd.scripts
  text : closed '\n' sd.scripts <+: contents
  position : sd.filePosition = (closed '\n' sd.scripts).length

structure Ended (contents : Text) (sd : VirtualSD) : Prop where
  isClosed : sd.currentFile = none
  unbroken : Unbroken '\n' sd.scripts
  text : ∃ unread, '\n' ∉ unread ∧ contents = closed '\n' sd.scripts ++ unread

theorem VirtualSD.foldl_apply_pauses {effects : List VirtualSD.Effect} (active : sd.isActive)
    (pauses : ∀ effect ∈ effects, effect = .doPause) :
    effects.foldl apply sd = { sd with mustPauseWork := sd.mustPauseWork || !effects.isEmpty } := by
  induction effects generalizing sd with
  | nil => simp
  | cons effect effects ih =>
    obtain ⟨rfl, others⟩ := forall_mem_cons.mp pauses
    have paused : sd.apply .doPause = { sd with mustPauseWork := true } := if_pos active
    rw [foldl_cons, paused, @ih { sd with mustPauseWork := true } active others]
    simp

open VirtualSD

/-- A command that does no more than pause is dispatched and left behind. -/
theorem VirtualSD.dispatch_ok {line : Text} {outcome : VirtualSD.Outcome} (active : sd.isActive)
    (isOk : outcome.result = .ok) (pauses : ∀ effect ∈ outcome.effects, effect = .doPause) :
    sd.dispatch line locals outcome =
      { sd with
        cmdFromSd := false
        nextFilePosition := sd.filePosition + line.length + 1
        filePosition := sd.filePosition + line.length + 1
        scripts := sd.scripts ++ [line]
        mustPauseWork := sd.mustPauseWork || !outcome.effects.isEmpty
        work := .running locals } := by
  have runs : runScript
      { sd with cmdFromSd := true, nextFilePosition := sd.filePosition + line.length + 1 }
      line outcome.effects = _ := foldl_apply_pauses active pauses
  simp only [dispatch, runs, isOk]
  simp

theorem VirtualSD.readData_more (partialInput : Text)
    (isOpen : sd.currentFile = some ⟨contents, some rest⟩) (more : rest ≠ []) :
    sd.readData partialInput = { sd with
        currentFile := some ⟨contents, some (rest.drop 8192)⟩
        work := .running ⟨(feed '\n' partialInput (rest.take 8192)).2,
          (feed '\n' partialInput (rest.take 8192)).1⟩ } := by
  obtain ⟨c, chars, isCons⟩ := exists_cons_of_ne_nil
    (show rest.take 8192 ≠ [] by simpa using more)
  have reads : sd.currentFile.bind (fun f => f.read 8192) =
      some (c :: chars, ⟨contents, some (rest.drop 8192)⟩) := by
    rw [isOpen, ← isCons]
    rfl
  rw [readData, reads, isCons]

theorem VirtualSD.readData_end (partialInput : Text)
    (isOpen : sd.currentFile = some ⟨contents, some []⟩) :
    sd.readData partialInput =
      ({ sd with currentFile := none }.respondRaw "Done printing file").finishWork none := by
  have reads : sd.currentFile.bind (fun f => f.read 8192) = some ([], ⟨contents, some []⟩) := by
    rw [isOpen]
    rfl
  rw [readData, reads]

/-- How much work is left: every pass reads or dispatches. -/
def Locals.remaining (locals : Locals) (rest : Text) : Nat :=
  rest.length + (closed '\n' locals.lines ++ (locals.partialInput ++ rest)).length

namespace Running

theorem isActive (running : Running contents rest locals sd) : sd.isActive := by
  simp [VirtualSD.isActive, running.work]

theorem pass_pauses (running : Running contents rest locals sd) (pauses : sd.mustPauseWork = true)
    (p : VirtualSD.Pass) :
    sd.pass p = { sd with
      work := .idle
      cmdFromSd := false
      printStats := sd.printStats ++ [.notePause] } := by
  simp [VirtualSD.pass, running.work, pauses, finishWork, running.isOpen, note]

theorem pass_reads (running : Running contents rest locals sd) (goesOn : sd.mustPauseWork = false)
    (noLines : locals.lines = []) (more : rest ≠ []) (p : VirtualSD.Pass) :
    ∃ later, Running contents (rest.drop 8192) later (sd.pass p) ∧
      later.remaining (rest.drop 8192) < locals.remaining rest ∧
      (sd.pass p).mustPauseWork = false ∧ (sd.pass p).scripts = sd.scripts := by
  have passes : sd.pass p = sd.readData locals.partialInput := by
    rw [VirtualSD.pass, running.work]
    simp [goesOn, noLines]
  have text := running.text
  have unbroken := running.unbroken
  obtain ⟨linesUnbroken, whole, fed⟩ := feed_spec (rest.take 8192) running.whole
  rw [passes, readData_more locals.partialInput running.isOpen more]
  rw [noLines, append_nil] at text unbroken
  have same : closed '\n' (feed '\n' locals.partialInput (rest.take 8192)).1 ++
      ((feed '\n' locals.partialInput (rest.take 8192)).2 ++ rest.drop 8192) =
      locals.partialInput ++ rest := by
    rw [← append_assoc, fed, append_assoc, take_append_drop]
  refine ⟨_, ⟨rfl, rfl, unbroken_append.mpr ⟨unbroken, linesUnbroken⟩, whole, ?_,
    running.position⟩, ?_, goesOn, rfl⟩
  · rw [closed_append, append_assoc, same]
    exact text
  · have positive := length_pos_iff.mpr more
    rw [Locals.remaining, Locals.remaining, noLines, same, length_drop]
    simp only [closed_nil, nil_append]
    omega

theorem pass_ends (running : Running contents [] locals sd) (goesOn : sd.mustPauseWork = false)
    (noLines : locals.lines = []) (p : VirtualSD.Pass) :
    Ended contents (sd.pass p) ∧ (sd.pass p).Completed := by
  have passes : sd.pass p = sd.readData locals.partialInput := by
    rw [VirtualSD.pass, running.work]
    simp [goesOn, noLines]
  have text := running.text
  have unbroken := running.unbroken
  rw [noLines, append_nil] at text unbroken
  rw [passes, readData_end locals.partialInput running.isOpen]
  refine ⟨⟨rfl, unbroken, locals.partialInput, running.whole, ?_⟩, rfl, ?_, ?_⟩
  · rw [append_nil] at text
    exact text
  · exact getLast?_concat
  · exact getLast?_concat

theorem pass_dispatches {line : Text} {lines : List Text}
    (running : Running contents rest locals sd) (goesOn : sd.mustPauseWork = false)
    (isNext : locals.lines = line :: lines) {p : VirtualSD.Pass} (free : p.busy = false)
    (isOk : p.outcome.result = .ok) (pauses : ∀ effect ∈ p.outcome.effects, effect = .doPause) :
    Running contents rest ⟨locals.partialInput, lines⟩ (sd.pass p) ∧
      (sd.pass p).mustPauseWork = !p.outcome.effects.isEmpty := by
  have passes : sd.pass p = sd.dispatch line ⟨locals.partialInput, lines⟩ p.outcome := by
    rw [VirtualSD.pass, running.work]
    simp [goesOn, isNext, free]
  have text := running.text
  have unbroken := running.unbroken
  have moved : sd.scripts ++ locals.lines = (sd.scripts ++ [line]) ++ lines := by
    rw [isNext, append_assoc, singleton_append]
  rw [moved] at text unbroken
  rw [passes, dispatch_ok running.isActive isOk pauses]
  refine ⟨⟨rfl, running.isOpen, unbroken, running.whole, text, ?_⟩, ?_⟩
  · change sd.filePosition + line.length + 1 = _
    rw [running.position]
    simp
    omega
  · simp [goesOn]

end Running

theorem VirtualSD.foldl_pass_idle (idle : sd.work = .idle) (passes : List VirtualSD.Pass) :
    passes.foldl VirtualSD.pass sd = sd := by
  induction passes with
  | nil => rfl
  | cons p passes ih =>
    have stays : sd.pass p = sd := by rw [VirtualSD.pass, idle]
    rw [foldl_cons, stays, ih]

/-- The command of a pass neither fails, nor pauses, nor changes the position. -/
def VirtualSD.Pass.Quiet (p : VirtualSD.Pass) : Prop := p.outcome = ⟨[], .ok⟩

instance (p : VirtualSD.Pass) : Decidable p.Quiet :=
  inferInstanceAs (Decidable (_ = _))

/-- The loop ends once it found the mutex free often enough. -/
theorem Running.completes (running : Running contents rest locals sd)
    (goesOn : sd.mustPauseWork = false) {passes : List VirtualSD.Pass}
    (quiet : ∀ p ∈ passes, p.Quiet)
    (enough : locals.remaining rest < passes.countP (fun p => !p.busy)) :
    Ended contents (passes.foldl VirtualSD.pass sd) ∧
      (passes.foldl VirtualSD.pass sd).Completed := by
  induction passes generalizing sd rest locals with
  | nil => exact absurd enough (Nat.not_lt_zero _)
  | cons p passes ih =>
    obtain ⟨isQuiet, quiet⟩ := forall_mem_cons.mp quiet
    have atMost : (p :: passes).countP (fun p => !p.busy) ≤ passes.countP (fun p => !p.busy) + 1 := by
      rw [countP_cons]
      split <;> omega
    rw [foldl_cons]
    cases isLines : locals.lines with
    | nil =>
      by_cases more : rest = []
      · subst more
        obtain ⟨ended, completed⟩ := running.pass_ends goesOn isLines p
        rw [foldl_pass_idle completed.1]
        exact ⟨ended, completed⟩
      · obtain ⟨later, running, less, goesOn, -⟩ := running.pass_reads goesOn isLines more p
        exact ih running goesOn quiet (by omega)
    | cons line lines =>
      cases isBusy : p.busy with
      | true =>
        have stays : sd.pass p = sd := by
          simp [VirtualSD.pass, running.work, goesOn, isLines, isBusy]
        rw [countP_cons_of_neg (by simp [isBusy])] at enough
        rw [stays]
        exact ih running goesOn quiet enough
      | false =>
        have plain : p.outcome = ⟨[], .ok⟩ := isQuiet
        obtain ⟨running, goesOn⟩ := running.pass_dispatches goesOn isLines isBusy
          (by rw [plain]) (by simp [plain])
        refine ih running (by simp [goesOn, plain]) quiet ?_
        simp only [Locals.remaining, isLines, closed_cons, length_append,
          length_cons] at enough ⊢
        omega

theorem Stopped.startWork (stopped : Stopped contents sd)
    (exact : sd.filePosition = byteLength (closed '\n' sd.scripts)) :
    ∃ rest, contents = closed '\n' sd.scripts ++ rest ∧
      Running contents rest ⟨[], []⟩ sd.startWork ∧
      sd.startWork.mustPauseWork = sd.mustPauseWork := by
  obtain ⟨upcoming, isOpen⟩ := stopped.isOpen
  obtain ⟨rest, text⟩ := stopped.text
  have found : fromByte contents sd.filePosition = some rest := by
    rw [exact, ← text, fromByte_append]
  have starts : sd.startWork = { sd with
      printStats := sd.printStats ++ [.noteStart]
      currentFile := some ⟨contents, some rest⟩
      work := .running ⟨[], []⟩ } := by
    rw [VirtualSD.startWork, isOpen]
    simp only [TextFile.seek, found]
    rfl
  rw [starts]
  refine ⟨rest, text.symm, ⟨rfl, rfl, ?_, nofun, ?_, stopped.position⟩, rfl⟩
  · simpa using stopped.unbroken
  · simpa using text.symm

theorem Locals.remaining_le (text : contents = closed '\n' sd.scripts ++ rest) :
    (⟨[], []⟩ : Locals).remaining rest ≤ 2 * contents.length := by
  have shorter : rest.length ≤ contents.length := by
    rw [text, length_append]
    omega
  simp [Locals.remaining]
  omega

theorem VirtualSD.loadFile_stopped {lower : String → String} {files : List (String × Text)}
    {filename : String} (found : lookupFile lower files filename = some contents)
    (loads : sd.loadFile lower files filename = .ok loaded) :
    Stopped contents loaded ∧ loaded.scripts = [] ∧ loaded.work = sd.work ∧
      loaded.printStats.getLast? = some (.setCurrentFile filename) := by
  rw [loadFile, found] at loads
  cases loads
  exact ⟨⟨⟨_, rfl⟩, unbroken_nil _, nil_prefix, rfl⟩, rfl, rfl, getLast?_concat⟩

theorem VirtualSD.doResume_ok (resumes : sd.doResume = .ok resumed) :
    sd.work = .idle ∧ resumed = { sd with mustPauseWork := false, work := .registered } := by
  rw [doResume] at resumes
  split at resumes
  · cases resumes
  · rename_i notActive
    cases resumes
    exact ⟨by simpa [isActive] using notActive, rfl⟩

theorem VirtualSD.doResume_error {failure : VirtualSD.Failure}
    (fails : sd.doResume = .error failure) : failure.sd = sd := by
  rw [doResume] at fails
  split at fails
  · cases fails
    rfl
  · cases fails

/-- What was dispatched is the lines of the file if its last line was. -/
theorem Ended.scripts_eq_iff (ended : Ended contents sd) :
    sd.scripts = linesOf '\n' contents ↔ Terminated '\n' contents := by
  obtain ⟨unread, whole, text⟩ := ended.text
  rw [text, terminated_closed_append whole, linesOf_closed_append ended.unbroken whole]
  split
  · simp [*]
  · simp [*]

/-- The lines that `work_handler` gives to `run_script` are the lines of the file
exactly if the last of them ends in a newline: an unfinished line stays in
`partial_input`, and the print is reported as complete without it. -/
theorem print_dispatches_lines {lower : String → String} {files : List (String × Text)}
    {filename : String} {loaded started : VirtualSD} {passes : List VirtualSD.Pass}
    (found : VirtualSD.lookupFile lower files filename = some contents)
    (loads : sd.loadFile lower files filename = .ok loaded)
    (resumes : loaded.doResume = .ok started)
    (quiet : ∀ p ∈ passes, p.Quiet)
    (enough : 2 * contents.length < passes.countP (fun p => !p.busy)) :
    (started.workHandler passes).Completed ∧
      ((started.workHandler passes).scripts = linesOf '\n' contents ↔ Terminated '\n' contents) := by
  obtain ⟨stopped, noScripts, -⟩ := loadFile_stopped found loads
  obtain ⟨-, rfl⟩ := doResume_ok resumes
  have again : Stopped contents { loaded with mustPauseWork := false, work := .registered } :=
    { stopped with }
  obtain ⟨rest, text, running, goesOn⟩ := again.startWork (by
    change loaded.filePosition = byteLength (closed '\n' loaded.scripts)
    rw [stopped.position, noScripts]
    rfl)
  have atMost := Locals.remaining_le text
  obtain ⟨ended, completed⟩ := running.completes goesOn quiet (by omega)
  exact ⟨completed, ended.scripts_eq_iff⟩

/-- Two lines that end in newlines are dispatched. -/
theorem print_dispatches_lines_terminated :
    ∃ loaded started, VirtualSD.initial.loadFile id [("a.g", "G28\nM84\n".toList)] "a.g" = .ok loaded ∧
      loaded.doResume = .ok started ∧
      (started.workHandler (List.replicate 17 ⟨false, ⟨[], .ok⟩⟩)).scripts =
        ["G28".toList, "M84".toList] := by
  obtain ⟨loaded, loads⟩ : ∃ loaded,
      initial.loadFile id [("a.g", "G28\nM84\n".toList)] "a.g" = .ok loaded := ⟨_, rfl⟩
  obtain ⟨-, -, idle, -⟩ := loadFile_stopped rfl loads
  have resumes : loaded.doResume = .ok { loaded with mustPauseWork := false, work := .registered } := by
    rw [doResume, isActive, idle]
    rfl
  obtain ⟨-, iff⟩ := @print_dispatches_lines "G28\nM84\n".toList _ id
    [("a.g", "G28\nM84\n".toList)] "a.g" _ _ (replicate 17 ⟨false, ⟨[], .ok⟩⟩) rfl loads resumes
    (by decide) (by decide)
  exact ⟨loaded, _, loads, resumes, (iff.mpr (by decide)).trans (by decide)⟩

/-- The last line has no newline: it is never dispatched. -/
theorem print_loses_last_line :
    ∃ loaded started, VirtualSD.initial.loadFile id [("a.g", "G28\nM84".toList)] "a.g" = .ok loaded ∧
      loaded.doResume = .ok started ∧
      (started.workHandler (List.replicate 15 ⟨false, ⟨[], .ok⟩⟩)).Completed ∧
      (started.workHandler (List.replicate 15 ⟨false, ⟨[], .ok⟩⟩)).scripts = ["G28".toList] ∧
      linesOf '\n' "G28\nM84".toList = ["G28".toList, "M84".toList] := by
  refine ⟨_, _, rfl, rfl, ?_, ?_, ?_⟩
  · decide +kernel
  · decide +kernel
  · decide

end MagnetoX.Host.VirtualSd
