import N8n.Foundations.BoundedWalk
import Mathlib.Data.Int.ConditionallyCompleteOrder
import Mathlib.Data.Rat.Cast.Order
import N8n.Foundations.Failure

/-!
# Recurrence

Schedules and the instants at which they fire, in milliseconds since the epoch. What the cron and
time zone libraries compute is a parameter, `Calendar`.

## Main definitions

* `Schedule`: cron, interval, one-off and recurring cron schedules
* `validateSchedule`: the checks of a schedule
* `occurrencesFrom`: the occurrences of a schedule from a given one on, as the step from one
  occurrence to the next

## Main results

* `occurrencesFrom_increasing`: occurrences come in order
-/

namespace N8n.Scheduler

open Failure

/-- `Time.seconds.toMilliseconds` -/
def toMilliseconds (seconds : ℕ) : ℤ := seconds * 1000

inductive ScheduledJobKind
  | cron
  | interval
  | oneOff
  | recurringCron
  /-- A kind that this version does not know. -/
  | other (name : String)
  deriving DecidableEq

def ScheduledJobKind.name : ScheduledJobKind → String
  | cron => "cron"
  | interval => "interval"
  | oneOff => "one_off"
  | recurringCron => "recurring_cron"
  | other name => name

inductive RecurringCronUnit
  | hours
  | days
  | weeks
  | months
  /-- A unit that this version does not know. -/
  | other (name : String)
  deriving DecidableEq

def RecurringCronUnit.name : RecurringCronUnit → String
  | hours => "hours"
  | days => "days"
  | weeks => "weeks"
  | months => "months"
  | other name => name

inductive SchedulerError
  | invalidSchedule (message : String)
  | corruptStorageRow (message : String)
  /-- An error that a library threw. -/
  | library (message : String)
  deriving DecidableEq

structure CronSchedule where
  cronExpression : String
  timezone : Option String
  deriving DecidableEq

structure RecurringCronSchedule extends CronSchedule where
  recurrenceUnit : RecurringCronUnit
  recurrenceSize : ℤ
  deriving DecidableEq

inductive Schedule
  | cron (schedule : CronSchedule)
  | interval (intervalSeconds : ℤ)
  | oneOff (fireAt : ℤ)
  | recurringCron (schedule : RecurringCronSchedule)
  deriving DecidableEq

/-! ## Libraries -/

/-- What a clock on the wall shows at an instant. -/
structure LocalTime where
  year : ℤ
  month : ℤ
  /-- The number of the calendar day, counted from some day. -/
  day : ℤ
  /-- Monday is 1 and Sunday is 7. -/
  weekday : ℤ
  hour : ℤ
  deriving DecidableEq

/-- What the cron and time zone libraries compute. -/
structure Calendar where
  isValidZone : String → Bool
  /-- What is wrong with a cron expression in a zone. -/
  parseError : String → String → Option String
  /-- The next fire of a cron expression in a zone, strictly after an instant. -/
  next : String → String → ℤ → Except String ℤ
  localTime : String → ℤ → LocalTime

/-- Fires come after the instant they are asked for. -/
def Calendar.Increasing (calendar : Calendar) : Prop :=
  ∀ expression zone after fire, calendar.next expression zone after = .ok fire → after < fire

/-! ## Validation -/

/-- A text as JSON writes it. -/
def jsonString (s : String) : String :=
  "\"" ++ String.join (s.toList.map fun c =>
    if c = '"' then "\\\"" else if c = '\\' then "\\\\" else String.singleton c) ++ "\""

/-- White space of regular expressions. -/
def isSpace (c : Char) : Bool :=
  c.toNat ∈ [0x09, 0x0A, 0x0B, 0x0C, 0x0D, 0x20, 0xA0, 0x1680, 0x2028, 0x2029, 0x202F, 0x205F,
    0x3000, 0xFEFF] ∨ (0x2000 ≤ c.toNat ∧ c.toNat ≤ 0x200A)

/-- The number of fields between white space; an empty text counts as one field. -/
def fieldCount (expression : String) : ℕ :=
  max 1 ((expression.toList.splitOnP isSpace).filter (· ≠ [])).length

def minCronFieldCount : ℕ := 5
def maxCronFieldCount : ℕ := 6

def validateCron (calendar : Calendar) (schedule : CronSchedule) : Except SchedulerError Unit := do
  let count := fieldCount schedule.cronExpression
  if count < minCronFieldCount ∨ maxCronFieldCount < count then
    throw (.invalidSchedule ("Cron expression must have 5 or 6 fields (seconds optional), got " ++
      toString count ++ ": " ++ jsonString schedule.cronExpression))
  match schedule.timezone with
  | some zone =>
    if ¬ calendar.isValidZone zone then
      throw (.invalidSchedule ("Unknown IANA timezone: " ++ jsonString zone))
  | none => pure ()
  match calendar.parseError schedule.cronExpression (schedule.timezone.getD "UTC") with
  | some message =>
    throw (.invalidSchedule ("Invalid cron expression " ++ jsonString schedule.cronExpression ++
      ": " ++ message))
  | none => pure ()

def validateRecurringCron (calendar : Calendar) (schedule : RecurringCronSchedule) :
    Except SchedulerError Unit := do
  validateCron calendar schedule.toCronSchedule
  if schedule.recurrenceUnit ∉
      [RecurringCronUnit.hours, .days, .weeks, .months] then
    throw (.invalidSchedule
      ("recurring_cron.recurrenceUnit must be one of hours, days, weeks, months, got " ++
        jsonString schedule.recurrenceUnit.name))
  if schedule.recurrenceSize < 2 then
    throw (.invalidSchedule ("recurring_cron.recurrenceSize must be an integer of at least 2 " ++
      "(a stride of 1 is a plain cron), got " ++ toString schedule.recurrenceSize))

def validateInterval (intervalSeconds : ℤ) : Except SchedulerError Unit :=
  if intervalSeconds ≤ 0 then
    throw (.invalidSchedule ("interval.intervalSeconds must be a positive integer, got " ++
      toString intervalSeconds))
  else pure ()

/-- The fire time of a one-off schedule is an instant, so there is nothing to check. -/
def validateSchedule (calendar : Calendar) : Schedule → Except SchedulerError Unit
  | .cron schedule => validateCron calendar schedule
  | .recurringCron schedule => validateRecurringCron calendar schedule
  | .interval intervalSeconds => validateInterval intervalSeconds
  | .oneOff _ => pure ()

/-! ## Occurrences -/

def resolvedTimezone (schedule : CronSchedule) : Except SchedulerError String :=
  match schedule.timezone with
  | some zone => pure zone
  | none => throw (.invalidSchedule
      "Cron timezone must be resolved to a concrete zone before computing the next run, got null")

/-- A cursor over the fires of a cron expression in a zone: the next fire after an instant. -/
def parseCron (calendar : Calendar) (expression zone : String) :
    Except SchedulerError (ℤ → Except SchedulerError ℤ) :=
  match calendar.parseError expression zone with
  | some message =>
    throw (.invalidSchedule ("Failed to evaluate cron expression " ++ jsonString expression ++
      " in timezone " ++ jsonString zone ++ ": " ++ message))
  | none => pure fun after => (calendar.next expression zone after).mapError .library

/-- The number of whole days between two local midnights. -/
def calendarDaysBetween (startOfFromDay startOfToDay : ℤ) : ℤ := startOfToDay - startOfFromDay

def startOfSundayWeek (instant : LocalTime) : ℤ := instant.day - instant.weekday % 7

/-- The number of periods between two instants, none if the unit is not known. -/
def periodsBetween (calendar : Calendar) («from» «to» : ℤ) (unit : RecurringCronUnit)
    (zone : String) : Option ℚ :=
  let start := calendar.localTime zone «from»
  let «end» := calendar.localTime zone «to»
  match unit with
  | .hours => some (calendarDaysBetween start.day «end».day * 24 + «end».hour - start.hour)
  | .days => some (calendarDaysBetween start.day «end».day)
  | .weeks => some (calendarDaysBetween (startOfSundayWeek start) (startOfSundayWeek «end») / 7)
  | .months => some («end».year * 12 + «end».month - (start.year * 12 + start.month))
  | .other _ => none

def isOnCadence (calendar : Calendar) (previousFire candidate : ℤ)
    (schedule : RecurringCronSchedule) (zone : String) : Bool :=
  match periodsBetween calendar previousFire candidate schedule.recurrenceUnit zone with
  | some elapsed => elapsed = 0 ∨ schedule.recurrenceSize ≤ elapsed
  | none => false

def maxRecurrenceCandidates : ℕ := 10000

/-- The next fire that the rule keeps, from a cursor that stands at an instant. The first argument
is the number of fires that may still be scanned. -/
def advanceToOnCadence (calendar : Calendar) (schedule : RecurringCronSchedule)
    (previousFire : ℤ) (zone : String) (cursor : ℤ → Except SchedulerError ℤ) :
    ℕ → ℤ → Except SchedulerError ℤ
  | 0, _ => throw (.invalidSchedule ("No fire of cron expression " ++
      jsonString schedule.cronExpression ++ " lands on the every-" ++
      toString schedule.recurrenceSize ++ "-" ++ schedule.recurrenceUnit.name ++
      " cadence within 10000 candidates"))
  | left + 1, position => do
    let candidate ← cursor position
    if isOnCadence calendar previousFire candidate schedule zone then
      pure candidate
    else advanceToOnCadence calendar schedule previousFire zone cursor left candidate

/-- The step from an occurrence to the next one, none where there is no next one. -/
abbrev Occurrences := ℤ → Except SchedulerError (Option ℤ)

def cronOccurrences (calendar : Calendar) (schedule : CronSchedule) :
    Except SchedulerError Occurrences := do
  let zone ← resolvedTimezone schedule
  let cursor ← parseCron calendar schedule.cronExpression zone
  pure fun previous => some <$> cursor previous

def recurringCronOccurrences (calendar : Calendar) (schedule : RecurringCronSchedule) :
    Except SchedulerError Occurrences := do
  let zone ← resolvedTimezone schedule.toCronSchedule
  let cursor ← parseCron calendar schedule.cronExpression zone
  pure fun previous => some <$> advanceToOnCadence calendar schedule previous zone cursor
    maxRecurrenceCandidates previous

def intervalNextRun (intervalSeconds : ℤ) (after : ℤ) : ℤ :=
  after + intervalSeconds * 1000

def intervalOccurrences (intervalSeconds : ℤ) : Occurrences :=
  fun previous => pure (some (intervalNextRun intervalSeconds previous))

def oneOffOccurrences : Occurrences := fun _ => pure none

def occurrencesFrom (calendar : Calendar) (schedule : Schedule) :
    Except SchedulerError Occurrences := do
  validateSchedule calendar schedule
  match schedule with
  | .cron schedule => cronOccurrences calendar schedule
  | .recurringCron schedule => recurringCronOccurrences calendar schedule
  | .interval intervalSeconds => pure (intervalOccurrences intervalSeconds)
  | .oneOff _ => pure oneOffOccurrences

/-! ## Occurrences come in order -/

section Increasing

variable {calendar : Calendar} (hcal : calendar.Increasing) {cursor : ℤ → Except SchedulerError ℤ}

include hcal

theorem parseCron_lt {expression zone : String}
    (h : parseCron calendar expression zone = .ok cursor) {after fire : ℤ}
    (hfire : cursor after = .ok fire) : after < fire := by
  unfold parseCron at h
  split at h
  · cases h
  · cases h
    cases hnext : calendar.next expression zone after with
    | error message => simp [hnext, Except.mapError] at hfire
    | ok next =>
      obtain rfl : next = fire := by simpa [hnext, Except.mapError] using hfire
      exact hcal expression zone after next hnext

omit hcal in
/-- The scan goes on from each rejected candidate, so what it keeps comes after its start. -/
theorem advanceToOnCadence_lt {schedule : RecurringCronSchedule} {previousFire : ℤ}
    {zone : String}
    (hcursor : ∀ after fire, cursor after = .ok fire → after < fire) {left : ℕ}
    {position fire : ℤ}
    (h : advanceToOnCadence calendar schedule previousFire zone cursor left position = .ok fire) :
    position < fire := by
  induction left generalizing position with
  | zero => cases h
  | succ left ih =>
    rw [advanceToOnCadence, bind_eq_ok] at h
    obtain ⟨candidate, hc, h⟩ := h
    have hlt := hcursor position candidate hc
    split_ifs at h
    · cases h
      exact hlt
    · exact hlt.trans (ih h)

/-- **Occurrences come in order.** -/
theorem occurrencesFrom_increasing {schedule : Schedule} {advance : Occurrences}
    (h : occurrencesFrom calendar schedule = .ok advance) : BoundedWalk.Increasing advance := by
  intro previous next hnext
  unfold occurrencesFrom at h
  obtain ⟨_, hv, h⟩ := bind_eq_ok.mp h
  cases schedule with
  | cron schedule =>
    simp only [cronOccurrences, bind_eq_ok] at h
    obtain ⟨zone, -, cursor, hcursor, h⟩ := h
    cases h
    obtain ⟨fire, hfire, he⟩ := map_eq_ok.mp hnext
    exact Option.some.inj he ▸ parseCron_lt hcal hcursor hfire
  | recurringCron schedule =>
    simp only [recurringCronOccurrences, bind_eq_ok] at h
    obtain ⟨zone, -, cursor, hcursor, h⟩ := h
    cases h
    obtain ⟨fire, hfire, he⟩ := map_eq_ok.mp hnext
    exact Option.some.inj he ▸
      advanceToOnCadence_lt (fun _ _ => parseCron_lt hcal hcursor) hfire
  | interval intervalSeconds =>
    cases h
    have hpos : ¬ intervalSeconds ≤ 0 := by
      intro hle
      simp [validateSchedule, validateInterval, hle, throw, throwThe, MonadExceptOf.throw] at hv
    obtain rfl : intervalNextRun intervalSeconds previous = next :=
      Option.some.inj (Except.ok.inj hnext)
    change previous < previous + intervalSeconds * 1000
    omega
  | oneOff fireAt =>
    cases h
    cases Except.ok.inj hnext

end Increasing

end N8n.Scheduler
