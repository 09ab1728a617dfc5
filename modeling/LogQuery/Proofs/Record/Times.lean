import LogQuery.Proofs.Calendar.Written
import LogQuery.Query.Scalar
import LogQuery.Record

/-!
# Times of records

A record tells its time in milliseconds, in 64 bits and thus far beyond the years of the calendar. Within
those years the time is there, as a value to search for it is the same integer, and on a line of text it is a
date and a time of day that can be read back; outside of them a dash stands for it (`time_column`).
-/

namespace LogQuery

open LogQuery.Text

/-! ## The years of the calendar -/

/-- The millisecond is in one of the years that instants are in. -/
def InCalendar (ms : Int) : Prop :=
  ∃ d : Date, d.IsDay (ms / 86400000) ∧ -262143 ≤ d.year ∧ d.year ≤ 262142

theorem inCalendar_iff {ms : Int} : InCalendar ms ↔ -8334601228800000 ≤ ms ∧ ms ≤ 8210266876799999 := by
  have hfirst : Date.toDays ⟨-262143, 1, 1⟩ = -96465292 := by decide
  have hend : Date.toDays ⟨262143, 1, 1⟩ = 95026237 := by decide
  have hlower := Date.le_year_ofDays_iff (y := -262143) (n := ms / 86400000)
  have hupper := Date.le_year_ofDays_iff (y := 262143) (n := ms / 86400000)
  rw [hfirst] at hlower
  rw [hend] at hupper
  have hyears : InCalendar ms ↔
      -262143 ≤ (Date.ofDays (ms / 86400000)).year ∧ (Date.ofDays (ms / 86400000)).year ≤ 262142 := by
    simp [InCalendar, Date.isDay_iff]
  rw [hyears]
  omega

theorem Instant.ofMillis?_eq_none_iff {ms : Int} : ofMillis? ms = none ↔ ¬ InCalendar ms := by
  rw [inCalendar_iff, ofMillis?]
  split_ifs with h <;> simp [h]

theorem Instant.exists_ofMillis? {ms : Int} (h : InCalendar ms) :
    ∃ t, ofMillis? ms = some t ∧ t.millis = ms :=
  ⟨_, dif_pos (inCalendar_iff.1 h), rfl⟩

/-! ## The column of the time -/

namespace Record

variable {r s : Record} {ms : Int64}

theorem time?_eq_none_iff (h : r.timeMillis = some ms) : r.time? = none ↔ ¬ InCalendar ms.toInt := by
  rw [time?, h, Option.bind_some, Instant.ofMillis?_eq_none_iff]

theorem exists_time? (h : r.timeMillis = some ms) (hms : InCalendar ms.toInt) :
    ∃ t, r.time? = some t ∧ t.millis = ms.toInt ∧ r.timeText = t.lineText := by
  obtain ⟨t, ht, hmillis⟩ := Instant.exists_ofMillis? hms
  have htime : r.time? = some t := by rw [time?, h, Option.bind_some, ht]
  exact ⟨t, htime, hmillis, by rw [timeText, htime, Option.elim_some]⟩

/-- What is read of the column is the time, and nothing else. -/
theorem exists_read?_timeText (h : r.timeMillis = some ms) (hms : InCalendar ms.toInt) :
    ∃ m, Moment.read? r.timeText.toList = some m ∧ ∀ n, m.IsAt n ↔ n = ms.toInt := by
  obtain ⟨t, -, hmillis, htext⟩ := exists_time? h hms
  refine ⟨t.moment, by rw [htext, t.read?_lineText], fun n => ?_⟩
  rw [t.isAt_moment_iff, hmillis]

theorem timeText_eq_dash_iff (h : r.timeMillis = some ms) : r.timeText = "-" ↔ ¬ InCalendar ms.toInt := by
  constructor
  · intro hdash hms
    obtain ⟨m, hread, -⟩ := exists_read?_timeText h hms
    have hnone : Moment.read? "-".toList = none := by decide
    rw [hdash, hnone] at hread
    cases hread
  · intro hms
    rw [timeText, (time?_eq_none_iff h).2 hms, Option.elim_none]

/-- The column tells times apart. -/
theorem eq_of_timeText_eq {ns : Int64} (h : r.timeMillis = some ms) (hs : s.timeMillis = some ns)
    (hms : InCalendar ms.toInt) (hns : InCalendar ns.toInt) (htext : r.timeText = s.timeText) : ms = ns := by
  obtain ⟨m, hread, hat⟩ := exists_read?_timeText h hms
  obtain ⟨m', hread', hat'⟩ := exists_read?_timeText hs hns
  rw [htext, hread'] at hread
  obtain rfl := Option.some.inj hread
  exact Int64.toInt_inj.1 ((hat' ms.toInt).1 ((hat ms.toInt).2 rfl))

theorem exists_line_eq (r : Record) : ∃ rest, r.line = r.timeText ++ " " ++ rest := by
  refine ⟨padRight 5 (r.level.getD "-") ++ " [" ++ r.thread.getD "-" ++ "] " ++ r.loggerName.getD "-" ++ ": " ++
    r.message.getD "", ?_⟩
  simp only [line, String.append_assoc]

/-- **The time that is shown determines the time of the record** (`LogRecord::timestamp`). A record with
milliseconds has no time, and a dash in its line, just if these are outside of the years of the calendar. Within
them they are the value that the time is searched for, and the only ones that the beginning of the line can be read
as, so that no other time is shown in the same way. -/
theorem time_column (h : r.timeMillis = some ms) :
    (∃ rest, r.line = r.timeText ++ " " ++ rest) ∧
    (r.time? = none ↔ ¬ InCalendar ms.toInt) ∧
    (r.timeText = "-" ↔ ¬ InCalendar ms.toInt) ∧
    (InCalendar ms.toInt →
      (∃ t, r.time? = some t ∧ Scalar.ofInstant t = .integer ms) ∧
      (∃ m, Moment.read? r.timeText.toList = some m ∧ ∀ n, m.IsAt n ↔ n = ms.toInt) ∧
      ∀ (s : Record) (ns : Int64), s.timeMillis = some ns → InCalendar ns.toInt → ms ≠ ns →
        r.timeText ≠ s.timeText) := by
  refine ⟨r.exists_line_eq, time?_eq_none_iff h, timeText_eq_dash_iff h, fun hms =>
    ⟨?_, exists_read?_timeText h hms, ?_⟩⟩
  · obtain ⟨t, htime, hmillis, -⟩ := exists_time? h hms
    refine ⟨t, htime, ?_⟩
    rw [Scalar.ofInstant, hmillis, Int64.ofInt_toInt]
  · intro s ns hs hns hne htext
    exact hne (eq_of_timeText_eq h hs hms hns htext)

/-- A record that tells nothing but its time. -/
def ofMillis (ms : Int64) : Record :=
  { timeMillis := some ms
    thread := none
    level := none
    loggerName := none
    message := none
    endOfBatch := none
    loggerFqcn := none
    contextMap := none
    threadId := none
    threadPriority := none
    source := none
    additional := [] }

/-- The last millisecond of a leap day before the year 0, and one far outside of the calendar. -/
theorem time_column_leapDay :
    (∃ t, (ofMillis (-62288265600001)).time? = some t ∧ Scalar.ofInstant t = .integer (-62288265600001)) ∧
    (∃ m, Moment.read? (ofMillis (-62288265600001)).timeText.toList = some m ∧
      ∀ n, m.IsAt n ↔ n = -62288265600001) ∧
    (ofMillis Int64.maxValue).time? = none ∧ (ofMillis Int64.maxValue).timeText = "-" := by
  have hwithin : InCalendar (-62288265600001 : Int64).toInt := inCalendar_iff.2 (by decide)
  have hbeyond : ¬ InCalendar Int64.maxValue.toInt := fun h => absurd (inCalendar_iff.1 h) (by decide)
  obtain ⟨-, -, -, hshown⟩ := time_column (r := ofMillis (-62288265600001)) rfl
  obtain ⟨htime, hread, -⟩ := hshown hwithin
  obtain ⟨-, hnone, hdash, -⟩ := time_column (r := ofMillis Int64.maxValue) rfl
  exact ⟨htime, hread, hnone.2 hbeyond, hdash.2 hbeyond⟩

end Record

end LogQuery
