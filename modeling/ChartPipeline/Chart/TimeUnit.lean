import ChartPipeline.Expression

/-!
# Time units

A time unit keeps some parts of a point in time and pins the others to the first of January 2012,
midnight.  That year starts on a Sunday, so a bare day of the week falls into its first week.
-/

namespace ChartPipeline

/-- A part of a point in time. -/
inductive TimePart where
  | year | quarter | month | day | date | hours | minutes | seconds | milliseconds
deriving DecidableEq, Repr

/-- The name of a part, which is also the function that reads it. -/
def TimePart.name : TimePart → String
  | year => "year"
  | quarter => "quarter"
  | month => "month"
  | day => "day"
  | date => "date"
  | hours => "hours"
  | minutes => "minutes"
  | seconds => "seconds"
  | milliseconds => "milliseconds"

/-- A unit that points in time are cut down to. -/
inductive TimeUnit where
  | year | quarter | month | day | date | hours | minutes | seconds | milliseconds
  | yearQuarter | yearQuarterMonth | yearMonth | yearMonthDate | yearMonthDateHours
  | yearMonthDateHoursMinutes | yearMonthDateHoursMinutesSeconds
  | quarterMonth | monthDate | hoursMinutes | hoursMinutesSeconds | minutesSeconds
  | secondsMilliseconds
deriving DecidableEq, Repr

namespace TimeUnit

/-- Every time unit. -/
def all : List TimeUnit :=
  [year, quarter, month, day, date, hours, minutes, seconds, milliseconds,
    yearQuarter, yearQuarterMonth, yearMonth, yearMonthDate, yearMonthDateHours,
    yearMonthDateHoursMinutes, yearMonthDateHoursMinutesSeconds,
    quarterMonth, monthDate, hoursMinutes, hoursMinutesSeconds, minutesSeconds,
    secondsMilliseconds]

/-- The parts that a unit keeps, from the coarsest on. -/
def parts : TimeUnit → List TimePart
  | year => [.year]
  | quarter => [.quarter]
  | month => [.month]
  | day => [.day]
  | date => [.date]
  | hours => [.hours]
  | minutes => [.minutes]
  | seconds => [.seconds]
  | milliseconds => [.milliseconds]
  | yearQuarter => [.year, .quarter]
  | yearQuarterMonth => [.year, .quarter, .month]
  | yearMonth => [.year, .month]
  | yearMonthDate => [.year, .month, .date]
  | yearMonthDateHours => [.year, .month, .date, .hours]
  | yearMonthDateHoursMinutes => [.year, .month, .date, .hours, .minutes]
  | yearMonthDateHoursMinutesSeconds => [.year, .month, .date, .hours, .minutes, .seconds]
  | quarterMonth => [.quarter, .month]
  | monthDate => [.month, .date]
  | hoursMinutes => [.hours, .minutes]
  | hoursMinutesSeconds => [.hours, .minutes, .seconds]
  | minutesSeconds => [.minutes, .seconds]
  | secondsMilliseconds => [.seconds, .milliseconds]

/-- The name of a unit: the names of its parts, one after the other. -/
def name (unit : TimeUnit) : String := String.join (unit.parts.map TimePart.name)

/-- Whether the unit keeps a part. -/
def keeps (unit : TimeUnit) (part : TimePart) : Bool := unit.parts.contains part

/-- The name of the field that holds `field` cut down to the unit. -/
def outputName (unit : TimeUnit) (field : String) : String := unit.name ++ "_" ++ field

/-- The expression that cuts `field` down to the unit. -/
def expression (unit : TimeUnit) (field : String) : String :=
  let read (part : TimePart) := part.name ++ "(" ++ Expression.datum field ++ ")"
  let readOr (part : TimePart) (pinned : String) :=
    if unit.keeps part then read part else pinned
  -- a quarter begins with its first month, a bare day of the week is in the first week
  let month :=
    if unit.keeps .month then read .month
    else if unit.keeps .quarter then "(" ++ read .quarter ++ "-1)*3"
    else "0"
  let date :=
    if unit.keeps .date then read .date
    else if unit.keeps .day then read .day ++ "+1"
    else "1"
  "datetime(" ++ ", ".intercalate
    [readOr .year "2012", month, date, readOr .hours "0", readOr .minutes "0",
      readOr .seconds "0", readOr .milliseconds "0"] ++ ")"

end TimeUnit

end ChartPipeline
