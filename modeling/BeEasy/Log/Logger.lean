import BeEasy.CVerif.AppendStreams
import BeEasy.CVerif.EventLoop

/-!
# Log — Logger

`log.c`: two globals, four functions that change or use them. `close_log`
does not set `log_file` back to `NULL`, so between a `close_log` and the next
`init_log` both tests `log_file != NULL` let a closed stream through.

The time and the text `vfprintf` makes of a message are arguments of the
call, and so are whether `fopen` succeeds, what becomes of each print and how
much the last write of a close loses. Which file a name leads to is a
parameter: two names may be one file.
-/

namespace BeEasy.Log

open CVerif

inductive LogLevel where
  | debug
  | info
  | warn
  | error
  deriving DecidableEq

def LogLevel.val : LogLevel → Nat
  | .debug => 0
  | .info => 1
  | .warn => 2
  | .error => 3

def levelString : LogLevel → String
  | .debug => "DEBUG"
  | .info => "INFO"
  | .warn => "WARN"
  | .error => "ERROR"

section Log

variable {ν : Type}

/-- The streams of the process, `log_file` and `current_log_level`. -/
structure Logger (ν : Type) where
  world : AppendStreams ν
  logFile : Option Nat
  currentLogLevel : LogLevel

def Logger.start (files : ν → List Char) : Logger ν := ⟨⟨[], files⟩, none, .debug⟩

/-- What becomes of the three prints of a message. -/
structure MessageOutcome where
  head : PrintOutcome
  text : PrintOutcome
  newline : PrintOutcome

/-- What the first print of a message puts before its text. -/
def header (level : LogLevel) (now : String) : List Char :=
  ("[" ++ now ++ "] [" ++ levelString level ++ "] ").toList

namespace Logger

variable (s : Logger ν)

def setLogLevel (level : LogLevel) : Logger ν := { s with currentLogLevel := level }

/-- `init_log` on a name that leads to `file`, with what it returns. -/
def initLog (file : ν) (opens : Bool) : Logger ν × Int :=
  if opens then
    let (world, fp) := s.world.fopen file
    ({ s with world := world, logFile := some fp }, 0)
  else ({ s with logFile := none }, -1)

variable [DecidableEq ν]

def closeLog (lost : Nat) : Except StreamFault (Logger ν) :=
  match s.logFile with
  | none => .ok s
  | some fp => do
      let world ← s.world.fclose fp lost
      return { s with world := world }

def logMessage (level : LogLevel) (now text : String) (outcome : MessageOutcome) :
    Except StreamFault (Logger ν) :=
  if level.val < s.currentLogLevel.val then .ok s
  else
    match s.logFile with
    | none => .ok s
    | some fp => do
        let world ← s.world.fprintf fp (header level now) outcome.head
        let world ← world.fprintf fp text.toList outcome.text
        let world ← world.fprintf fp ['\n'] outcome.newline
        return { s with world := world }

omit [DecidableEq ν] in
/-- `log_file` is `NULL` or an open stream. -/
def Valid : Prop := ∀ fp, s.logFile = some fp → ∃ file, s.world.IsOpen fp file

end Logger

inductive Call where
  | initLog (fileName : String) (opens : Bool)
  | setLogLevel (level : LogLevel)
  | logMessage (level : LogLevel) (now text : String) (outcome : MessageOutcome)
  | closeLog (lost : Nat)

def Call.isInit : Call → Bool
  | .initLog _ _ => true
  | _ => false

/-- The writes of the call succeed. -/
def Call.Whole : Call → Prop
  | .logMessage level now text outcome =>
      outcome.head.Whole (header level now) ∧ outcome.text.Whole text.toList
        ∧ outcome.newline.Whole ['\n']
  | .closeLog lost => lost = 0
  | _ => True

section Calls

variable [DecidableEq ν] (fileOf : String → ν)

def Logger.call (s : Logger ν) : Call → Except StreamFault (Logger ν)
  | .initLog fileName opens => .ok (s.initLog (fileOf fileName) opens).1
  | .setLogLevel level => .ok (s.setLogLevel level)
  | .logMessage level now text outcome => s.logMessage level now text outcome
  | .closeLog lost => s.closeLog lost

def Logger.run (s : Logger ν) (calls : List Call) : Except StreamFault (Logger ν) :=
  calls.foldlM (Logger.call fileOf) s

end Calls

/-! ## What the calls say -/

/-- Where the latest log stands. -/
inductive Status where
  | unset
  | opened (fileName : String)
  | closed
  deriving DecidableEq

/-- What the calls so far come to, told from the calls alone. -/
structure Seen where
  status : Status
  threshold : LogLevel

def Seen.start : Seen := ⟨.unset, .debug⟩

def Seen.next (seen : Seen) : Call → Seen
  | .initLog fileName opens =>
      { seen with status := if opens then .opened fileName else .unset }
  | .setLogLevel level => { seen with threshold := level }
  | .logMessage _ _ _ _ => seen
  | .closeLog _ =>
      match seen.status with
      | .opened _ => { seen with status := .closed }
      | _ => seen

/-- After a `close_log` no other, and no message at or above the threshold. -/
def Seen.Allows (seen : Seen) : Call → Prop
  | .logMessage level _ _ _ => seen.status = .closed → level.val < seen.threshold.val
  | .closeLog _ => seen.status ≠ .closed
  | _ => True

/-- No `close_log` but where no log was opened. -/
def Seen.NeverCloses (seen : Seen) : Call → Prop
  | .closeLog _ => seen.status = .unset
  | _ => True

/-- One line of the log. -/
def record (level : LogLevel) (now text : String) : List Char :=
  header level now ++ text.toList ++ ['\n']

/-- The messages of a log that is open, up to its `close_log`, as far as
their level is at least the threshold at the time of the call. -/
def logged : LogLevel → List Call → List Char
  | _, [] => []
  | _, .setLogLevel level :: calls => logged level calls
  | threshold, .logMessage level now text _ :: calls =>
      if threshold.val ≤ level.val then record level now text ++ logged threshold calls
      else logged threshold calls
  | _, .closeLog _ :: _ => []
  | _, .initLog _ _ :: _ => []

/-- The latest `init_log` of the calls, with those before and after it. -/
structure Latest (calls before : List Call) (fileName : String) (after : List Call) : Prop where
  split : calls = before ++ .initLog fileName true :: after
  last : ∀ c ∈ after, c.isInit = false

section Claimed

variable [DecidableEq ν] (fileOf : String → ν) (files : ν → List Char) (calls : List Call)

/-- What the latest `init_log` opened holds at the end of the process, after
what it held when it was opened, the messages issued while it was open. -/
def LinesExact : Prop :=
  ∀ before fileName after s₀ s order, Latest calls before fileName after →
    (Logger.start files).run fileOf before = .ok s₀ →
    (Logger.start files).run fileOf calls = .ok s → s.world.Covers order →
    (s.world.exit order).files (fileOf fileName)
      = s₀.world.files (fileOf fileName)
        ++ logged (before.foldl Seen.next Seen.start).threshold after

/-- `log_file` is `NULL` or an open stream after every call, so no closed
stream is ever used. -/
def AlwaysValid : Prop :=
  ∀ before, before <+: calls → ∃ s, (Logger.start files).run fileOf before = .ok s ∧ s.Valid

/-- No closed stream is used. -/
def NoFault : Prop := ∃ s, (Logger.start files).run fileOf calls = .ok s

/-- When the latest `init_log` opened its file, no stream left open on that
file held anything back. -/
def LatestAlone : Prop :=
  ∀ before fileName after s₀, Latest calls before fileName after →
    (Logger.start files).run fileOf before = .ok s₀ → s₀.world.Quiet (fileOf fileName)

omit [DecidableEq ν] in
/-- The writes of the calls after the latest `init_log` succeed. -/
def LatestWhole : Prop :=
  ∀ before fileName after, Latest calls before fileName after → ∀ c ∈ after, c.Whole

end Claimed

/-! ## What a call does -/

/-- The state of the program is what the calls say. -/
structure Tracks (fileOf : String → ν) (seen : Seen) (s : Logger ν) : Prop where
  level : s.currentLogLevel = seen.threshold
  log : match seen.status with
    | .unset => s.logFile = none
    | .opened fileName => ∃ fp, s.logFile = some fp ∧ s.world.IsOpen fp (fileOf fileName)
    | .closed => ∃ fp file, s.logFile = some fp ∧ s.world.IsClosed fp file

variable [DecidableEq ν] {fileOf : String → ν} {seen : Seen} {s t : Logger ν} {c : Call}
  {calls : List Call} {fileName : String} {level : LogLevel} {now text : String}
  {outcome : MessageOutcome} {lost : Nat} {file : ν} {files : ν → List Char}

omit [DecidableEq ν] in
theorem tracks_start : Tracks fileOf Seen.start (Logger.start files) := ⟨rfl, rfl⟩

theorem run_cons (h : s.call fileOf c = .ok t) :
    s.run fileOf (c :: calls) = t.run fileOf calls := by
  rw [Logger.run, List.foldlM_cons, h]
  rfl

theorem run_cons_fault (h : s.call fileOf c = .error .closed) :
    s.run fileOf (c :: calls) = .error .closed := by
  rw [Logger.run, List.foldlM_cons, h]
  rfl

theorem logMessage_below (h : level.val < s.currentLogLevel.val) :
    s.logMessage level now text outcome = .ok s := by
  rw [Logger.logMessage, if_pos h]

theorem logMessage_null (h : s.logFile = none) : s.logMessage level now text outcome = .ok s := by
  rw [Logger.logMessage, h]
  exact ite_self _

section Streams

variable {fp : Nat} (hfile : s.logFile = some fp)
include hfile

/-- A message to an open log is one line more of its stream, if its writes
succeed. -/
theorem logMessage_open (hopen : s.world.IsOpen fp file)
    (hlevel : ¬ level.val < s.currentLogLevel.val) :
    ∃ world, s.logMessage level now text outcome = .ok { s with world := world }
      ∧ world.IsOpen fp file
      ∧ ((Call.logMessage level now text outcome).Whole →
          s.world.Takes world fp file (record level now text)) := by
  obtain ⟨first, hfirst, hfirstOpen, hfirstTakes⟩ := hopen.fprintf (header level now) outcome.head
  obtain ⟨second, hsecond, hsecondOpen, hsecondTakes⟩ :=
    hfirstOpen.fprintf text.toList outcome.text
  obtain ⟨third, hthird, hthirdOpen, hthirdTakes⟩ := hsecondOpen.fprintf ['\n'] outcome.newline
  refine ⟨third, ?_, hthirdOpen, ?_⟩
  · simp only [Logger.logMessage, if_neg hlevel, hfile, bind, Except.bind, hfirst, hsecond, hthird]
    rfl
  · rintro ⟨hhead, htext, hnewline⟩
    exact ((hfirstTakes hhead).trans (hsecondTakes htext)).trans (hthirdTakes hnewline)

theorem logMessage_closed (hclosed : s.world.IsClosed fp file)
    (hlevel : ¬ level.val < s.currentLogLevel.val) :
    s.logMessage level now text outcome = .error .closed := by
  simp only [Logger.logMessage, if_neg hlevel, hfile, hclosed.fprintf]
  rfl

/-- `close_log` closes the stream and keeps it in `log_file`. -/
theorem closeLog_open (hopen : s.world.IsOpen fp file) :
    ∃ world, s.closeLog lost = .ok { s with world := world } ∧ world.IsClosed fp file
      ∧ (lost = 0 → s.world.Takes world fp file []) := by
  obtain ⟨world, hclose, hclosed, htakes⟩ := hopen.fclose lost
  refine ⟨world, ?_, hclosed, htakes⟩
  simp only [Logger.closeLog, hfile, hclose]
  rfl

theorem closeLog_closed (hclosed : s.world.IsClosed fp file) :
    s.closeLog lost = .error .closed := by
  simp only [Logger.closeLog, hfile, hclosed.fclose]
  rfl

end Streams

theorem closeLog_null (h : s.logFile = none) : s.closeLog lost = .ok s := by
  rw [Logger.closeLog, h]

omit [DecidableEq ν] in
theorem Tracks.initLog (h : Tracks fileOf seen s) {opens : Bool} :
    Tracks fileOf (seen.next (.initLog fileName opens))
      (s.initLog (fileOf fileName) opens).1 := by
  cases opens with
  | true => exact ⟨h.level, s.world.streams.length, rfl, AppendStreams.isOpen_fopen⟩
  | false => exact ⟨h.level, rfl⟩

/-- A call that is allowed succeeds, ... -/
theorem Tracks.call (h : Tracks fileOf seen s) (hallow : seen.Allows c) :
    ∃ t, s.call fileOf c = .ok t ∧ Tracks fileOf (seen.next c) t := by
  obtain ⟨status, threshold⟩ := seen
  obtain ⟨hlevel, hlog⟩ := h
  cases c with
  | initLog fileName opens => exact ⟨_, rfl, Tracks.initLog ⟨hlevel, hlog⟩⟩
  | setLogLevel level => exact ⟨s.setLogLevel level, rfl, rfl, hlog⟩
  | logMessage level now text outcome =>
      by_cases hbelow : level.val < s.currentLogLevel.val
      · exact ⟨s, logMessage_below hbelow, hlevel, hlog⟩
      · cases status with
        | unset => exact ⟨s, logMessage_null hlog, hlevel, hlog⟩
        | opened fileName =>
            obtain ⟨fp, hfile, hopen⟩ := hlog
            obtain ⟨world, hmessage, hstill, -⟩ := logMessage_open hfile hopen hbelow
            exact ⟨_, hmessage, hlevel, fp, hfile, hstill⟩
        | closed => exact absurd (hlevel ▸ hallow rfl) hbelow
  | closeLog lost =>
      cases status with
      | unset => exact ⟨s, closeLog_null hlog, hlevel, hlog⟩
      | opened fileName =>
          obtain ⟨fp, hfile, hopen⟩ := hlog
          obtain ⟨world, hclose, hclosed, -⟩ := closeLog_open hfile hopen
          exact ⟨_, hclose, hlevel, fp, _, hfile, hclosed⟩
      | closed => exact absurd rfl hallow

/-- ... and one that is not uses a closed stream. -/
theorem Tracks.faults (h : Tracks fileOf seen s) (hallow : ¬ seen.Allows c) :
    s.call fileOf c = .error .closed := by
  obtain ⟨status, threshold⟩ := seen
  obtain ⟨hlevel, hlog⟩ := h
  cases c with
  | initLog fileName opens => exact absurd trivial hallow
  | setLogLevel level => exact absurd trivial hallow
  | logMessage level now text outcome =>
      obtain ⟨hstatus, hbelow⟩ := Classical.not_imp.mp hallow
      cases hstatus
      obtain ⟨fp, file, hfile, hclosed⟩ := hlog
      refine logMessage_closed hfile hclosed ?_
      rw [hlevel]
      exact hbelow
  | closeLog lost =>
      have hstatus := Decidable.of_not_not hallow
      cases hstatus
      obtain ⟨fp, file, hfile, hclosed⟩ := hlog
      exact closeLog_closed hfile hclosed

/-- A run uses no closed stream exactly when every call of it is allowed. -/
theorem Tracks.run_iff (h : Tracks fileOf seen s) :
    (∃ t, s.run fileOf calls = .ok t) ↔ EveryStep Seen.next Seen.Allows seen calls := by
  induction calls generalizing seen s with
  | nil => exact iff_of_true ⟨s, rfl⟩ trivial
  | cons c calls ih =>
      by_cases hallow : seen.Allows c
      · obtain ⟨t, hcall, htracks⟩ := h.call hallow
        rw [run_cons hcall, ih htracks]
        exact (and_iff_right hallow).symm
      · rw [run_cons_fault (h.faults hallow)]
        constructor
        · rintro ⟨t, ht⟩
          cases ht
        · intro hevery
          exact absurd hevery.1 hallow

theorem Tracks.run (h : Tracks fileOf seen s) (hrun : s.run fileOf calls = .ok t) :
    Tracks fileOf (calls.foldl Seen.next seen) t := by
  induction calls generalizing seen s with
  | nil =>
      cases hrun
      exact h
  | cons c calls ih =>
      by_cases hallow : seen.Allows c
      · obtain ⟨u, hcall, htracks⟩ := h.call hallow
        rw [run_cons hcall] at hrun
        exact ih htracks hrun
      · rw [run_cons_fault (h.faults hallow)] at hrun
        cases hrun

/-! ## The stream in `log_file` -/

omit [DecidableEq ν] in
theorem Tracks.valid_iff (h : Tracks fileOf seen s) : s.Valid ↔ seen.status ≠ .closed := by
  obtain ⟨status, threshold⟩ := seen
  obtain ⟨-, hlog⟩ := h
  cases status with
  | unset =>
      refine iff_of_true ?_ Status.noConfusion
      intro fp hfile
      rw [show s.logFile = none from hlog] at hfile
      cases hfile
  | opened fileName =>
      obtain ⟨fp, hfile, hopen⟩ := hlog
      refine iff_of_true ?_ Status.noConfusion
      intro fp' hfile'
      rw [hfile] at hfile'
      cases hfile'
      exact ⟨_, hopen⟩
  | closed =>
      obtain ⟨fp, file, hfile, hclosed⟩ := hlog
      refine iff_of_false ?_ (not_not_intro rfl)
      intro hvalid
      obtain ⟨file', hopen⟩ := hvalid fp hfile
      exact hclosed.not_isOpen hopen

/-- Only a `close_log` of a log that was opened leaves a closed stream in
`log_file`. -/
theorem Seen.next_closed_iff (h : seen.status ≠ .closed) :
    (seen.next c).status = .closed ↔ ¬ seen.NeverCloses c := by
  obtain ⟨status, threshold⟩ := seen
  cases c with
  | initLog fileName opens => cases opens <;> simp [Seen.next, Seen.NeverCloses]
  | setLogLevel level => exact iff_of_false h (not_not_intro trivial)
  | logMessage level now text outcome => exact iff_of_false h (not_not_intro trivial)
  | closeLog lost =>
      cases status with
      | unset => exact iff_of_false Status.noConfusion (not_not_intro rfl)
      | opened fileName => exact iff_of_true rfl Status.noConfusion
      | closed => exact absurd rfl h

theorem Seen.allows_of_not_closed (h : seen.status ≠ .closed) : seen.Allows c := by
  cases c with
  | initLog fileName opens => trivial
  | setLogLevel level => trivial
  | logMessage level now text outcome => exact fun hclosed => absurd hclosed h
  | closeLog lost => exact h

theorem Tracks.alwaysValid_iff (h : Tracks fileOf seen s) (hstatus : seen.status ≠ .closed) :
    (∀ before, before <+: calls → ∃ t, s.run fileOf before = .ok t ∧ t.Valid)
      ↔ EveryStep Seen.next Seen.NeverCloses seen calls := by
  induction calls generalizing seen s with
  | nil =>
      refine iff_of_true ?_ trivial
      intro before hbefore
      rw [List.prefix_nil.mp hbefore]
      exact ⟨s, rfl, h.valid_iff.mpr hstatus⟩
  | cons c calls ih =>
      obtain ⟨t, hcall, htracks⟩ := h.call (Seen.allows_of_not_closed (c := c) hstatus)
      by_cases hkeeps : seen.NeverCloses c
      · have hnext : (seen.next c).status ≠ .closed := by
          intro hclosed
          exact (Seen.next_closed_iff hstatus).mp hclosed hkeeps
        rw [EveryStep, and_iff_right hkeeps, ← ih htracks hnext]
        constructor
        · intro hall before hbefore
          obtain ⟨u, hrun, hvalid⟩ := hall (c :: before) (List.prefix_cons_inj c |>.mpr hbefore)
          rw [run_cons hcall] at hrun
          exact ⟨u, hrun, hvalid⟩
        · intro hall before hbefore
          rcases List.prefix_cons_iff.mp hbefore with rfl | ⟨rest, rfl, hrest⟩
          · exact ⟨s, rfl, h.valid_iff.mpr hstatus⟩
          · rw [run_cons hcall]
            exact hall rest hrest
      · refine iff_of_false ?_ (fun hevery => hkeeps hevery.1)
        intro hall
        obtain ⟨u, hrun, hvalid⟩ := hall [c] ⟨calls, rfl⟩
        rw [run_cons hcall] at hrun
        cases hrun
        exact htracks.valid_iff.mp hvalid ((Seen.next_closed_iff hstatus).mpr hkeeps)

/-! ## The lines -/

/-- Nothing is written after `close_log`. -/
theorem run_closed {threshold : LogLevel} (h : Tracks fileOf ⟨.closed, threshold⟩ s)
    (hsame : ∀ c ∈ calls, c.isInit = false) (hrun : s.run fileOf calls = .ok t) :
    t.world = s.world := by
  induction calls generalizing s threshold with
  | nil =>
      cases hrun
      rfl
  | cons c calls ih =>
      have hrest := fun c' hc' => hsame c' (List.mem_cons_of_mem c hc')
      cases c with
      | initLog fileName opens => cases hsame _ List.mem_cons_self
      | setLogLevel level => exact ih (s := s.setLogLevel level) ⟨rfl, h.log⟩ hrest hrun
      | logMessage level now text outcome =>
          by_cases hbelow : level.val < s.currentLogLevel.val
          · rw [run_cons (c := .logMessage level now text outcome)
              (logMessage_below hbelow)] at hrun
            exact ih h hrest hrun
          · obtain ⟨fp, file, hfile, hclosed⟩ := h.log
            rw [run_cons_fault (c := .logMessage level now text outcome)
              (logMessage_closed hfile hclosed hbelow)] at hrun
            cases hrun
      | closeLog lost =>
          obtain ⟨fp, file, hfile, hclosed⟩ := h.log
          rw [run_cons_fault (c := .closeLog lost) (closeLog_closed hfile hclosed)] at hrun
          cases hrun

/-- What the stream of an open log takes from the calls up to the next
`init_log`. -/
theorem run_opened {threshold : LogLevel} {fp : Nat} (hlevel : s.currentLogLevel = threshold)
    (hfile : s.logFile = some fp) (hopen : s.world.IsOpen fp (fileOf fileName))
    (hsame : ∀ c ∈ calls, c.isInit = false) (hwhole : ∀ c ∈ calls, c.Whole)
    (hrun : s.run fileOf calls = .ok t) :
    s.world.Takes t.world fp (fileOf fileName) (logged threshold calls)
      ∧ t.world.IsOn fp (fileOf fileName) := by
  induction calls generalizing s threshold with
  | nil =>
      cases hrun
      exact ⟨AppendStreams.Takes.refl _, hopen.isOn⟩
  | cons c calls ih =>
      have hrest := fun c' hc' => hsame c' (List.mem_cons_of_mem c hc')
      have hrestWhole := fun c' hc' => hwhole c' (List.mem_cons_of_mem c hc')
      have hone : c.Whole := hwhole c List.mem_cons_self
      cases c with
      | initLog fileName opens => cases hsame _ List.mem_cons_self
      | setLogLevel level =>
          exact ih (s := s.setLogLevel level) rfl hfile hopen hrest hrestWhole hrun
      | logMessage level now text outcome =>
          by_cases hbelow : level.val < s.currentLogLevel.val
          · rw [run_cons (c := .logMessage level now text outcome)
              (logMessage_below hbelow)] at hrun
            rw [logged, if_neg (by rw [← hlevel]; exact Nat.not_le_of_lt hbelow)]
            exact ih hlevel hfile hopen hrest hrestWhole hrun
          · obtain ⟨world, hmessage, hstill, htakes⟩ := logMessage_open hfile hopen hbelow
            rw [run_cons (c := .logMessage level now text outcome) hmessage] at hrun
            rw [logged, if_pos (by rw [← hlevel]; exact Nat.le_of_not_lt hbelow)]
            obtain ⟨hlater, hon⟩ := ih (s := { s with world := world }) hlevel hfile hstill hrest
              hrestWhole hrun
            exact ⟨(htakes hone).trans hlater, hon⟩
      | closeLog lost =>
          obtain ⟨world, hclose, hclosed, htakes⟩ := closeLog_open hfile hopen
          rw [run_cons (c := .closeLog lost) hclose] at hrun
          have hshut : Tracks fileOf ⟨.closed, threshold⟩ { s with world := world } :=
            ⟨hlevel, fp, _, hfile, hclosed⟩
          rw [run_closed hshut hrest hrun]
          exact ⟨htakes hone, hclosed.isOn⟩

/-- What the stream of the latest `init_log` took by the end of the calls. -/
theorem run_latest {before after : List Call} {s₀ : Logger ν} (hwhole : LatestWhole calls)
    (hlatest : Latest calls before fileName after)
    (hbefore : (Logger.start files).run fileOf before = .ok s₀)
    (hrun : (Logger.start files).run fileOf calls = .ok s) :
    (s₀.world.fopen (fileOf fileName)).1.Takes s.world (s₀.world.fopen (fileOf fileName)).2
        (fileOf fileName) (logged (before.foldl Seen.next Seen.start).threshold after)
      ∧ s.world.IsOn (s₀.world.fopen (fileOf fileName)).2 (fileOf fileName) := by
  have htracks : Tracks fileOf (before.foldl Seen.next Seen.start) s₀ := tracks_start.run hbefore
  have hafter : (s₀.initLog (fileOf fileName) true).1.run fileOf after = .ok s := by
    rw [hlatest.split, Logger.run, List.foldlM_append] at hrun
    rw [Logger.run] at hbefore
    rw [hbefore] at hrun
    exact hrun
  exact run_opened (s := (s₀.initLog (fileOf fileName) true).1) htracks.level rfl
    AppendStreams.isOpen_fopen hlatest.last (hwhole before fileName after hlatest) hafter

/-- **The file of the latest `init_log`** gets the messages issued while it
is open whose level is at least the threshold then in force, in order, and
nothing else, exactly when no earlier stream has text for it. -/
theorem linesExact_iff (hwhole : LatestWhole calls) (hnoFault : NoFault fileOf files calls) :
    LinesExact fileOf files calls ↔ LatestAlone fileOf files calls := by
  obtain ⟨s, hrun⟩ := hnoFault
  constructor
  · intro hexact before fileName after s₀ hlatest hbefore
    obtain ⟨htakes, hon⟩ := run_latest hwhole hlatest hbefore hrun
    rw [← AppendStreams.alone_fopen_iff, ← htakes.alone_iff]
    intro k stream hk hget hfile
    by_contra hheld
    -- whatever the order behind them, the other stream goes first and the log's own next
    let order := k :: (s₀.world.fopen (fileOf fileName)).2 :: List.range s.world.streams.length
    have hcovers : s.world.Covers order := by
      intro j hj
      exact List.mem_cons_of_mem _ (List.mem_cons_of_mem _ (List.mem_range.mpr hj))
    have hlonger : (s.world.due (fileOf fileName) (s₀.world.fopen (fileOf fileName)).2).length
        < ((s.world.exit order).files (fileOf fileName)).length :=
      AppendStreams.exit_files_longer hon hk hget hfile hheld
    have hlines := hexact before fileName after s₀ s order hlatest hbefore hrun hcovers
    rw [htakes.due, AppendStreams.due_fopen, ← hlines] at hlonger
    exact Nat.lt_irrefl _ hlonger
  · intro halone before fileName after s₀ s' order hlatest hbefore hrun' hcovers
    obtain ⟨htakes, hon⟩ := run_latest hwhole hlatest hbefore hrun'
    have hquiet := halone before fileName after s₀ hlatest hbefore
    have hlog := htakes.alone_iff.mpr (AppendStreams.alone_fopen_iff.mpr hquiet)
    rw [hlog.exit_files hon hcovers, htakes.due, AppendStreams.due_fopen]

theorem AlwaysValid.noFault (h : AlwaysValid fileOf files calls) : NoFault fileOf files calls := by
  obtain ⟨s, hrun, -⟩ := h calls List.prefix_rfl
  exact ⟨s, hrun⟩

/-- **When the log is used rightly.** `log_file` is always `NULL` or open
exactly when no log that was opened is ever closed; no closed stream is used
exactly when between a `close_log` and the next `init_log` there is neither
another `close_log` nor a message at or above the threshold. As far as the
writes succeed, the lines are then right exactly when no stream left open on
the same file still had text to write. -/
theorem log_right_iff (fileOf : String → ν) (files : ν → List Char) (calls : List Call) :
    (AlwaysValid fileOf files calls ↔ EveryStep Seen.next Seen.NeverCloses Seen.start calls)
      ∧ (NoFault fileOf files calls ↔ EveryStep Seen.next Seen.Allows Seen.start calls)
      ∧ (LatestWhole calls →
          (AlwaysValid fileOf files calls ∧ LinesExact fileOf files calls
            ↔ EveryStep Seen.next Seen.NeverCloses Seen.start calls
              ∧ LatestAlone fileOf files calls)
          ∧ (NoFault fileOf files calls ∧ LinesExact fileOf files calls
            ↔ EveryStep Seen.next Seen.Allows Seen.start calls
              ∧ LatestAlone fileOf files calls)) := by
  have hvalid : AlwaysValid fileOf files calls ↔ _ :=
    tracks_start.alwaysValid_iff Status.noConfusion
  have hnoFault : NoFault fileOf files calls ↔ _ := tracks_start.run_iff
  refine ⟨hvalid, hnoFault, fun hwhole => ⟨?_, ?_⟩⟩
  · rw [← hvalid]
    exact and_congr_right fun h => linesExact_iff hwhole h.noFault
  · rw [← hnoFault]
    exact and_congr_right fun h => linesExact_iff hwhole h

/-- A message after `close_log` goes to the closed stream. -/
theorem message_after_close :
    let whole : PrintOutcome := ⟨30, 0, 0⟩
    let calls : List Call := [.initLog "app.log" true, .closeLog 0,
      .logMessage .error "2024-01-01 00:00:00" "late" ⟨whole, whole, whole⟩]
    (Logger.start fun _ => []).run id calls = .error .closed
      ∧ ¬ AlwaysValid id (fun _ => []) calls := by
  refine ⟨rfl, ?_⟩
  intro hvalid
  obtain ⟨s, hrun, -⟩ := hvalid _ List.prefix_rfl
  cases hrun

end Log

end BeEasy.Log
