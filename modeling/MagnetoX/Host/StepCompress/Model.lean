import MagnetoX.Library.Word

/-!
Owns the model of the step compressor of `klippy/chelper/stepcompress.c`: the
queue of step times, the search for a `step_move` that covers a series of them,
its check, and the functions that append, commit and flush steps.

All arithmetic is that of the C types, with two's complement wrap-around; a
division truncates. The buffer is given by its live part `queue_pos` to
`queue_next`, the place of that part and the size of the buffer. A write behind
the buffer is a failure of its own.

Step times are floating point numbers in the source. Here a step comes with its
clock, and the two limits that the source computes from the frequency are given
in ticks.
-/

namespace MagnetoX.Host.StepCompress

open Library.Word

def QUEUE_START_SIZE : Nat := 1024
def QUADRATIC_DEV : Int := 11
def CLOCK_DIFF_MAX : Int := 805306368
def UINT64_MAX : Int := 18446744073709551615
def INT32_MIN : Int := -2147483648

inductive Command where
  | queueStep (interval count add : Int)
  | setNextStepDir (dir : Bool)
deriving DecidableEq, Repr

/-- A `struct queue_message` on `msg_queue`, before it is encoded. -/
structure StepMessage where
  command : Command
  minClock : Int
  reqClock : Int
deriving DecidableEq, Repr

structure HistorySteps where
  firstClock : Int
  lastClock : Int
  startPosition : Int
  stepCount : Int
  interval : Int
  add : Int
deriving DecidableEq, Repr

structure Stepcompress where
  /-- The words from `queue_pos` to `queue_next`. -/
  queue : List Int
  /-- `queue_pos - queue`. -/
  queuePos : Nat
  /-- `queue_end - queue`. -/
  queueSize : Nat
  maxError : Int
  lastStepClock : Int
  msgQueue : List StepMessage
  /-- `none` stands for `-1`, a direction that is not known. -/
  sdir : Option Bool
  invertSdir : Bool
  /-- Zero if no step is pending. -/
  nextStepClock : Int
  nextStepDir : Bool
  lastPosition : Int
  historyList : List HistorySteps
  /-- `SDS_FILTER_TIME` in ticks. -/
  sdsFilter : Int
  /-- `HISTORY_EXPIRE` in ticks. -/
  historyExpire : Int
deriving DecidableEq, Repr

structure StepMove where
  interval : Int
  count : Int
  add : Int
deriving DecidableEq, Repr

/-- `(struct step_move){ interval, count, add }` with its narrow fields. -/
def stepMove (interval count add : Int) : StepMove := ⟨u32 interval, u16 count, i16 add⟩

/-- Why a call does not complete: `check_line` rejects a move, a write would go
behind the buffer, or a loop does not end. -/
inductive Failure where
  | errorRet
  | overrun
  | endless
deriving DecidableEq, Repr

def idivUp (n d : Int) : Int :=
  if n ≥ 0 then (i32 (i32 (n + d) - 1)).tdiv d else n.tdiv d

def idivDown (n d : Int) : Int :=
  if n ≥ 0 then n.tdiv d else (i32 (i32 (n - d) + 1)).tdiv d

/-- `count*(count-1)/2`. -/
def addFactor (count : Int) : Int := (i32 (count * (count - 1))).tdiv 2

structure Points where
  minp : Int
  maxp : Int
deriving DecidableEq, Repr

/-- Given a requested step time, return the minimum and maximum acceptable
times. `pos` counts from `queue_pos`. -/
def minmaxPoint (sc : Stepcompress) (pos : Nat) : Points :=
  let lsc := u32 sc.lastStepClock
  let point := u32 (sc.queue.getD pos 0 - lsc)
  let prevpoint := if pos > 0 then u32 (sc.queue.getD (pos - 1) 0 - lsc) else 0
  let maxError := u32 (point - prevpoint) / 2
  let maxError := if maxError > sc.maxError then sc.maxError else maxError
  ⟨i32 (u32 (point - maxError)), i32 point⟩

/-- How the search for the longest sequence with one `add` ends: it covers the
queue, or the point behind it cannot be reached. -/
inductive Longest where
  | coversQueue (interval : Int) (count : Nat)
  | stops (interval nextmininterval nextmaxinterval : Int) (nextcount : Nat) (nextpoint : Points)
deriving DecidableEq, Repr

/-- The lowest interval that reaches the next point. -/
def raiseMin (nextmininterval c minp : Int) (nextcount : Nat) : Int :=
  if i32 (nextmininterval * nextcount) < i32 (minp - c) then idivUp (i32 (minp - c)) nextcount
  else nextmininterval

/-- The greatest interval that is not behind the next point. -/
def lowerMax (nextmaxinterval c maxp : Int) (nextcount : Nat) : Int :=
  if i32 (nextmaxinterval * nextcount) > i32 (maxp - c) then idivDown (i32 (maxp - c)) nextcount
  else nextmaxinterval

/-- Find longest valid sequence with the given `add`. `available` points are in
the queue; `nextcount` is the number of points covered so far. -/
def findLongest (sc : Stepcompress) (available : Nat) (add : Int) :
    Nat → Int → Int → Int → Nat → Option Longest
  | 0, _, _, _, _ => none
  | fuel + 1, nextmininterval, nextmaxinterval, interval, count =>
      let nextcount := count + 1
      if count ≥ available then some (.coversQueue interval count)
      else
        let nextpoint := minmaxPoint sc count
        let c := i32 (add * addFactor nextcount)
        let nextmininterval := raiseMin nextmininterval c nextpoint.minp nextcount
        let nextmaxinterval := lowerMax nextmaxinterval c nextpoint.maxp nextcount
        if nextmininterval > nextmaxinterval then
          some (.stops interval nextmininterval nextmaxinterval nextcount nextpoint)
        else findLongest sc available add fuel nextmininterval nextmaxinterval nextmaxinterval nextcount

/-- The variables of the outer loop of `compress_bisect_add`. -/
structure Search where
  outerMininterval : Int
  outerMaxinterval : Int
  add : Int
  minadd : Int
  maxadd : Int
  bestinterval : Int
  bestcount : Int
  bestadd : Int
  bestreach : Int
  zerointerval : Int
  zerocount : Int
deriving DecidableEq, Repr

def Search.better (s : Search) (interval reach : Int) : Bool :=
  decide (reach > s.bestreach) || (decide (reach = s.bestreach) && decide (interval > s.bestinterval))

def Search.record (s : Search) (interval count reach : Int) : Search :=
  { s with
    bestinterval := interval
    bestcount := count
    bestadd := s.add
    bestreach := reach
    zerointerval := if s.add = 0 then interval else s.zerointerval
    zerocount := if s.add = 0 then count else s.zerocount }

/-- Check if a greater or lesser add could extend the sequence. -/
def Search.exclude (s : Search) (interval nextmininterval nextmaxinterval : Int) (nextcount : Nat)
    (nextpoint : Points) : Search :=
  let nextreach := i32 (i32 (s.add * addFactor nextcount) + i32 (interval * nextcount))
  if nextreach < nextpoint.minp then
    { s with minadd := i32 (s.add + 1), outerMaxinterval := nextmaxinterval }
  else { s with maxadd := i32 (s.add - 1), outerMininterval := nextmininterval }

/-- The maximum valid deviation between two quadratic sequences can be
calculated and used to further limit the add range. -/
def Search.limitDeviation (s : Search) (maxError count : Int) : Search :=
  if count > 1 then
    let errdelta := i32 (u32 (maxError * QUADRATIC_DEV) / u32 (i32 (count * count)))
    { s with
      minadd := if s.minadd < i32 (s.add - errdelta) then i32 (s.add - errdelta) else s.minadd
      maxadd := if s.maxadd > i32 (s.add + errdelta) then i32 (s.add + errdelta) else s.maxadd }
  else s

def Search.limitNext (s : Search) (nextcount : Nat) (nextpoint : Points) : Search :=
  let nextaddfactor := addFactor nextcount
  let low := i32 (nextpoint.minp - i32 (s.outerMaxinterval * nextcount))
  let high := i32 (nextpoint.maxp - i32 (s.outerMininterval * nextcount))
  { s with
    minadd := if i32 (s.minadd * nextaddfactor) < low then idivUp low nextaddfactor else s.minadd
    maxadd :=
      if i32 (s.maxadd * nextaddfactor) > high then idivDown high nextaddfactor else s.maxadd }

def Search.bisect (s : Search) : Search :=
  { s with add := i32 (s.maxadd - (i32 (s.maxadd - s.minadd)).tdiv 4) }

/-- Prefer `add=0` if it's similar to the best found sequence. -/
def Search.result (s : Search) : StepMove :=
  if i32 (s.zerocount + s.zerocount.tdiv 16) ≥ s.bestcount then
    stepMove s.zerointerval s.zerocount 0
  else stepMove s.bestinterval s.bestcount s.bestadd

/-- The outer loop of `compress_bisect_add`. -/
def bisectLoop (sc : Stepcompress) (available : Nat) : Nat → Search → Option StepMove
  | 0, _ => none
  | fuel + 1, s =>
      match findLongest sc available s.add (available + 1) s.outerMininterval s.outerMaxinterval
          s.outerMaxinterval 1 with
      | none => none
      | some (.coversQueue interval count) => some (stepMove interval count s.add)
      | some (.stops interval nextmininterval nextmaxinterval nextcount nextpoint) =>
          let count : Int := nextcount - 1
          let reach := i32 (i32 (s.add * addFactor count) + i32 (interval * count))
          let better := s.better interval reach
          let s := if better then s.record interval count reach else s
          -- No 'add' will improve sequence; avoid integer overflow
          if better ∧ count > 0x200 then some s.result
          else
            let s := s.exclude interval nextmininterval nextmaxinterval nextcount nextpoint
            let s := s.limitDeviation sc.maxError count
            let s := s.limitNext nextcount nextpoint
            if s.minadd > s.maxadd then some s.result
            else bisectLoop sc available fuel s.bisect

/-- Each round of the outer loop removes an `add` from the range. -/
def bisectLimit : Nat := 65537

/-- Find a `step_move` that covers a series of step times. -/
def compressBisectAdd (sc : Stepcompress) : Option StepMove :=
  let available := min sc.queue.length 65535
  let point := minmaxPoint sc 0
  bisectLoop sc available bisectLimit
    { outerMininterval := point.minp, outerMaxinterval := point.maxp
      add := 0, minadd := -0x8000, maxadd := 0x7fff
      bestinterval := 0, bestcount := 1, bestadd := 1, bestreach := INT32_MIN
      zerointerval := 0, zerocount := 0 }

/-- The loop of `check_line`. The comparisons with a point are unsigned. -/
def checkPoints (sc : Stepcompress) (add : Int) : Nat → Nat → Int → Int → Bool
  | 0, _, _, _ => true
  | remaining + 1, i, interval, p =>
      let point := minmaxPoint sc i
      let p := u32 (p + interval)
      if p < u32 point.minp ∨ p > u32 point.maxp then false
      else if interval ≥ 0x80000000 then false
      else checkPoints sc add remaining (i + 1) (u32 (interval + add)) p

def checkLine (sc : Stepcompress) (move : StepMove) : Bool :=
  if move.count = 0 ∨ (move.interval = 0 ∧ move.add = 0 ∧ move.count > 1) ∨
      move.interval ≥ 0x80000000 then false
  else checkPoints sc move.add move.count.toNat 0 move.interval 0

def freeHistory (sc : Stepcompress) (endClock : Int) : Stepcompress :=
  { sc with
    historyList :=
      (sc.historyList.reverse.dropWhile (fun hs => decide (hs.lastClock ≤ endClock))).reverse }

/-- What `calc_last_step_print_time` does besides the conversion to a time. -/
def calcLastStepPrintTime (sc : Stepcompress) : Stepcompress :=
  if sc.lastStepClock > sc.historyExpire then
    freeHistory sc (sc.lastStepClock - sc.historyExpire)
  else sc

def addMove (sc : Stepcompress) (firstClock : Int) (move : StepMove) : Stepcompress :=
  let ticks := u32 (i32 (move.add * addFactor move.count) + u32 (move.interval * (move.count - 1)))
  let lastClock := u64 (firstClock + ticks)
  let far := move.count = 1 ∧ firstClock ≥ u64 (sc.lastStepClock + CLOCK_DIFF_MAX)
  let stepCount := if sc.sdir = some false then -move.count else move.count
  { sc with
    msgQueue := sc.msgQueue ++
      [{ command := .queueStep move.interval move.count move.add
         minClock := sc.lastStepClock
         reqClock := if far then firstClock else sc.lastStepClock }]
    lastStepClock := lastClock
    historyList :=
      { firstClock, lastClock, startPosition := sc.lastPosition, stepCount
        interval := move.interval, add := move.add } :: sc.historyList
    lastPosition := sc.lastPosition + stepCount }

def queueFlushLoop (moveClock : Int) : Nat → Stepcompress → Except Failure Stepcompress
  | 0, _ => .error .endless
  | fuel + 1, sc =>
      if sc.lastStepClock < moveClock then
        match compressBisectAdd sc with
        | none => .error .endless
        | some move =>
            if checkLine sc move then
              let moved := addMove sc (u64 (sc.lastStepClock + move.interval)) move
              if move.count ≥ sc.queue.length then .ok { moved with queue := [], queuePos := 0 }
              else
                queueFlushLoop moveClock fuel
                  { moved with
                    queue := sc.queue.drop move.count.toNat
                    queuePos := sc.queuePos + move.count.toNat }
            else .error .errorRet
      else .ok sc

def queueFlush (sc : Stepcompress) (moveClock : Int) : Except Failure Stepcompress :=
  if sc.queue = [] then .ok sc
  else (queueFlushLoop moveClock (sc.queue.length + 1) sc).map calcLastStepPrintTime

/-- Generate a `queue_step` for a step far in the future from the last step. -/
def stepcompressFlushFar (sc : Stepcompress) (absStepClock : Int) : Stepcompress :=
  calcLastStepPrintTime
    (addMove sc absStepClock (stepMove (u64 (absStepClock - sc.lastStepClock)) 1 0))

def setNextStepDir (sc : Stepcompress) (sdir : Bool) : Except Failure Stepcompress :=
  if sc.sdir = some sdir then .ok sc
  else
    (queueFlush sc UINT64_MAX).map (fun sc =>
      { sc with
        sdir := some sdir
        msgQueue := sc.msgQueue ++
          [{ command := .setNextStepDir (xor sdir sc.invertSdir)
             minClock := 0
             reqClock := sc.lastStepClock }] })

/-- `*sc->queue_next++ = step_clock`. -/
def writeNext (sc : Stepcompress) (stepClock : Int) : Except Failure Stepcompress :=
  if sc.queuePos + sc.queue.length < sc.queueSize then
    .ok { sc with queue := sc.queue ++ [u32 stepClock] }
  else .error .overrun

/-- Slow path for `queue_append` - handle next step far in future. -/
def queueAppendFar (sc : Stepcompress) : Except Failure Stepcompress :=
  let stepClock := sc.nextStepClock
  (queueFlush { sc with nextStepClock := 0 } (u64 (u64 (stepClock - CLOCK_DIFF_MAX) + 1))).bind
    (fun sc =>
      if stepClock ≥ u64 (sc.lastStepClock + CLOCK_DIFF_MAX) then
        .ok (stepcompressFlushFar sc stepClock)
      else writeNext sc stepClock)

/-- `while (in_use >= alloc) alloc *= 2`. -/
def growAlloc (inUse : Nat) : Nat → Nat → Nat
  | 0, alloc => alloc
  | fuel + 1, alloc => if inUse ≥ alloc then growAlloc inUse fuel (alloc * 2) else alloc

def makeRoom (sc : Stepcompress) : Stepcompress :=
  if sc.queuePos + sc.queue.length ≥ sc.queueSize then
    if sc.queuePos > 0 then { sc with queuePos := 0 }
    else
      let alloc := if sc.queueSize = 0 then QUEUE_START_SIZE else sc.queueSize
      { sc with queueSize := growAlloc sc.queue.length 32 alloc }
  else sc

/-- Slow path for `queue_append` - expand the internal queue storage. No point in
keeping more than 64K steps in memory. -/
def queueAppendExtend (sc : Stepcompress) : Except Failure Stepcompress :=
  let inUse := sc.queue.length
  let flush := u32 (sc.queue.getD (inUse - 65535) 0 - u32 sc.lastStepClock)
  (if inUse > 65535 + 2000 then queueFlush sc (u64 (sc.lastStepClock + flush)) else .ok sc).bind
    (fun sc => (writeNext (makeRoom sc) sc.nextStepClock).map (fun sc =>
      { sc with nextStepClock := 0 }))

def queueAppend (sc : Stepcompress) : Except Failure Stepcompress :=
  (setNextStepDir sc sc.nextStepDir).bind (fun sc =>
    if sc.nextStepClock ≥ u64 (sc.lastStepClock + CLOCK_DIFF_MAX) then queueAppendFar sc
    else if sc.queuePos + sc.queue.length ≥ sc.queueSize then queueAppendExtend sc
    else (writeNext sc sc.nextStepClock).map (fun sc => { sc with nextStepClock := 0 }))

/-- Add next step time. Rapid step+dir+step is avoided by rolling the last step
back. -/
def stepcompressAppend (sc : Stepcompress) (sdir : Bool) (stepClock : Int) :
    Except Failure Stepcompress :=
  let store := fun sc : Stepcompress => { sc with nextStepClock := stepClock, nextStepDir := sdir }
  if sc.nextStepClock = 0 then .ok (store sc)
  else if sdir ≠ sc.nextStepDir ∧ i64 (stepClock - sc.nextStepClock) < sc.sdsFilter then
    .ok { sc with nextStepClock := 0, nextStepDir := sdir }
  else (queueAppend sc).map store

def stepcompressCommit (sc : Stepcompress) : Except Failure Stepcompress :=
  if sc.nextStepClock = 0 then .ok sc else queueAppend sc

def stepcompressFlush (sc : Stepcompress) (moveClock : Int) : Except Failure Stepcompress :=
  (if sc.nextStepClock ≠ 0 ∧ moveClock ≥ sc.nextStepClock then queueAppend sc else .ok sc).bind
    (fun sc => queueFlush sc moveClock)

end MagnetoX.Host.StepCompress
