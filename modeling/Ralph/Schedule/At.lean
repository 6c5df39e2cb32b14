import Mathlib.Order.Bounds.Basic
import Mathlib.Tactic
import Ralph.Chat.Command
import Ralph.Schedule.Basic

namespace Ralph.Schedule

inductive LocalResult
  | none
  | single (moment : Nanos)
  | ambiguous (earliest latest : Nanos)
  deriving DecidableEq

namespace LocalResult

def earliest : LocalResult → Option Nanos
  | none => .none
  | single moment => some moment
  | ambiguous earliest _ => some earliest

def latest : LocalResult → Option Nanos
  | none => .none
  | single moment => some moment
  | ambiguous _ latest => some latest

end LocalResult

/-- A time zone: the local time of a moment, in nanoseconds, and what `from_local_datetime`
gives for a local time. -/
structure Zone where
  naiveLocal : Nanos → ℤ
  fromLocal : ℤ → LocalResult

/-- The readers and printers of time stamps. -/
structure AtText where
  parseRfc3339 : String → Option Nanos
  parseHourMinute : String → Option (Fin 24 × Fin 60)
  stamp : Nanos → String
  dateText : ℤ → String

def dayNanos : ℤ := 86400 * 1000000000

/-- The date of a local time, as a number of days. -/
def dateOf (wanted : ℤ) : ℤ := wanted / dayNanos

def timeOfDay (time : Fin 24 × Fin 60) : ℤ := (time.1 * 3600 + time.2 * 60) * 1000000000

/-- `day.and_time(time)`. -/
def andTime (day : ℤ) (time : Fin 24 × Fin 60) : ℤ := day * dayNanos + timeOfDay time

/-- One round of the loop over today and tomorrow. -/
def tryDay (text : AtText) (raw : String) (now : Nanos) (zone : Zone) (time : Fin 24 × Fin 60) (day : ℤ) :
    Option (Except String Nanos) :=
  let wanted := andTime day time
  let resolved := zone.fromLocal wanted
  if resolved = .none ∧ zone.naiveLocal now < wanted then
    let date := text.dateText day
    some (.error s!"at '{raw}' does not exist on {date} in the local time zone (a daylight saving change skips it). Give another time, or use after.")
  else
    ((resolved.earliest.toList ++ resolved.latest.toList).find? fun moment => now < moment).map .ok

def parseAt (text : AtText) (raw : String) (now : Nanos) (zone : Zone) : Except String Nanos :=
  match text.parseRfc3339 (Chat.trim raw) with
  | some moment =>
    if moment ≤ now then
      let stamp := text.stamp now
      .error s!"at '{raw}' is in the past (now is {stamp}). Give a future time, or use after."
    else .ok moment
  | none =>
    match text.parseHourMinute (Chat.trim raw) with
    | none => .error s!"at '{raw}' must be an RFC 3339 timestamp or a local HH:MM time."
    | some time =>
      let today := dateOf (zone.naiveLocal now)
      ([today, today + 1].findSome? (tryDay text raw now zone time)).getD
        (.error s!"at '{raw}' is not a valid local time.")

namespace Zone

/-- `from_local_datetime` gives no, one or both moments with the local time, the earlier first. -/
structure Resolves (zone : Zone) : Prop where
  none : ∀ {wanted}, zone.fromLocal wanted = .none → ∀ moment, zone.naiveLocal moment ≠ wanted
  single : ∀ {wanted found}, zone.fromLocal wanted = .single found →
    ∀ moment, zone.naiveLocal moment = wanted ↔ moment = found
  ambiguous : ∀ {wanted earliest latest}, zone.fromLocal wanted = .ambiguous earliest latest →
    earliest < latest ∧ ∀ moment, zone.naiveLocal moment = wanted ↔ moment = earliest ∨ moment = latest

/-- No change of the offset sets the local date back. -/
def KeepsDate (zone : Zone) : Prop :=
  ∀ moment moment', moment ≤ moment' → dateOf (zone.naiveLocal moment) ≤ dateOf (zone.naiveLocal moment')

/-- The clock shows the hour and the minute, with no seconds. -/
def Shows (zone : Zone) (time : Fin 24 × Fin 60) (moment : Nanos) : Prop :=
  zone.naiveLocal moment % dayNanos = timeOfDay time

/-- The local time falls into a gap of the clock. -/
def Skips (zone : Zone) (wanted : ℤ) : Prop := ∀ moment, zone.naiveLocal moment ≠ wanted

/-- Today's HH:MM is ahead and skipped, or no moment to come shows it and tomorrow's is skipped. -/
def Missing (zone : Zone) (now : Nanos) (time : Fin 24 × Fin 60) : Prop :=
  let today := dateOf (zone.naiveLocal now)
  (zone.naiveLocal now < andTime today time ∧ zone.Skips (andTime today time)) ∨
    (∀ moment, zone.naiveLocal moment = andTime today time → moment ≤ now) ∧
      zone.Skips (andTime (today + 1) time)

end Zone

theorem timeOfDay_mem (time : Fin 24 × Fin 60) : 0 ≤ timeOfDay time ∧ timeOfDay time < dayNanos := by
  obtain ⟨hour, minute⟩ := time
  have hhour := hour.isLt
  have hminute := minute.isLt
  simp only [timeOfDay, dayNanos]
  omega

theorem dateOf_andTime (day : ℤ) (time : Fin 24 × Fin 60) : dateOf (andTime day time) = day := by
  have h := timeOfDay_mem time
  rw [dateOf, andTime, add_comm, Int.add_mul_ediv_right _ _ (by decide), Int.ediv_eq_zero_of_lt h.1 h.2, zero_add]

/-- A moment shows the hour and the minute where its local time is that of its date. -/
theorem shows_iff {zone : Zone} {time : Fin 24 × Fin 60} {moment : Nanos} :
    zone.Shows time moment ↔ zone.naiveLocal moment = andTime (dateOf (zone.naiveLocal moment)) time := by
  have hdiv := Int.ediv_mul_add_emod (zone.naiveLocal moment) dayNanos
  unfold Zone.Shows andTime dateOf
  constructor
  · intro h
    omega
  · intro h
    omega

section Days

variable (text : AtText) (raw : String) {zone : Zone} {now : Nanos} (time : Fin 24 × Fin 60) {day : ℤ}

/-- The round fails at a local time to come that the clock skips. -/
theorem tryDay_of_skips (hz : zone.Resolves) (hahead : zone.naiveLocal now < andTime day time)
    (hskips : zone.Skips (andTime day time)) : ∃ e, tryDay text raw now zone time day = some (.error e) := by
  have hnone : zone.fromLocal (andTime day time) = .none := by
    cases hresolved : zone.fromLocal (andTime day time) with
    | none => rfl
    | single found => exact absurd ((hz.single hresolved found).mpr rfl) (hskips found)
    | ambiguous earliest latest =>
      exact absurd (((hz.ambiguous hresolved).2 earliest).mpr (.inl rfl)) (hskips earliest)
  rw [tryDay]
  exact ⟨_, if_pos ⟨hnone, hahead⟩⟩

/-- The round goes on where no moment to come has the local time, if that is no gap ahead. -/
theorem tryDay_of_past (hz : zone.Resolves) (hnot : ¬ (zone.naiveLocal now < andTime day time ∧
      zone.Skips (andTime day time)))
    (hpast : ∀ moment, zone.naiveLocal moment = andTime day time → moment ≤ now) :
    tryDay text raw now zone time day = none := by
  rw [tryDay]
  cases hresolved : zone.fromLocal (andTime day time) with
  | none =>
    rw [if_neg fun h => hnot ⟨h.2, hz.none hresolved⟩]
    rfl
  | single found =>
    have hfound := hpast found ((hz.single hresolved found).mpr rfl)
    rw [if_neg fun h => LocalResult.noConfusion h.1]
    simp [LocalResult.earliest, LocalResult.latest, hfound]
  | ambiguous earliest latest =>
    have hearliest := hpast earliest (((hz.ambiguous hresolved).2 earliest).mpr (.inl rfl))
    have hlatest := hpast latest (((hz.ambiguous hresolved).2 latest).mpr (.inr rfl))
    rw [if_neg fun h => LocalResult.noConfusion h.1]
    simp [LocalResult.earliest, LocalResult.latest, hearliest, hlatest]

/-- The round gives the earliest moment to come with the local time. -/
theorem tryDay_of_coming (hz : zone.Resolves) {coming : Nanos} (hnow : now < coming)
    (hcoming : zone.naiveLocal coming = andTime day time) :
    ∃ moment, tryDay text raw now zone time day = some (.ok moment) ∧
      IsLeast {moment | now < moment ∧ zone.naiveLocal moment = andTime day time} moment := by
  rw [tryDay]
  cases hresolved : zone.fromLocal (andTime day time) with
  | none => exact absurd hcoming (hz.none hresolved coming)
  | single found =>
    have hiff := hz.single hresolved
    have hfound := (hiff coming).mp hcoming
    rw [if_neg fun h => LocalResult.noConfusion h.1]
    refine ⟨found, ?_, ⟨hfound ▸ hnow, (hiff found).mpr rfl⟩, fun other hother => ?_⟩
    · simp [LocalResult.earliest, LocalResult.latest, hfound ▸ hnow]
    · exact ((hiff other).mp hother.2).ge
  | ambiguous earliest latest =>
    obtain ⟨hlt, hiff⟩ := hz.ambiguous hresolved
    rw [if_neg fun h => LocalResult.noConfusion h.1]
    by_cases hearliest : now < earliest
    · refine ⟨earliest, ?_, ⟨hearliest, (hiff earliest).mpr (.inl rfl)⟩, fun other hother => ?_⟩
      · simp [LocalResult.earliest, LocalResult.latest, hearliest]
      · obtain rfl | rfl := (hiff other).mp hother.2
        · exact le_rfl
        · exact hlt.le
    · have hlatest : now < latest := by
        obtain rfl | rfl := (hiff coming).mp hcoming
        · exact absurd hnow hearliest
        · exact hnow
      refine ⟨latest, ?_, ⟨hlatest, (hiff latest).mpr (.inr rfl)⟩, fun other hother => ?_⟩
      · simp [LocalResult.earliest, LocalResult.latest, hearliest, hlatest]
      · obtain rfl | rfl := (hiff other).mp hother.2
        · exact absurd hother.1 hearliest
        · exact le_rfl

/-- The earliest moment of a date is the earliest of all that show the hour and the minute,
where no date before shows them to come. -/
theorem least_of_day (hz : zone.KeepsDate) {moment : Nanos}
    (hleast : IsLeast {moment | now < moment ∧ zone.naiveLocal moment = andTime day time} moment)
    (hfirst : ∀ other, now < other → zone.Shows time other → day ≤ dateOf (zone.naiveLocal other)) :
    IsLeast {moment | now < moment ∧ zone.Shows time moment} moment := by
  have hdate : dateOf (zone.naiveLocal moment) = day := by rw [hleast.1.2, dateOf_andTime]
  refine ⟨⟨hleast.1.1, shows_iff.mpr (by rw [hdate, hleast.1.2])⟩, fun other hother => ?_⟩
  obtain hlt | heq := (hfirst other hother.1 hother.2).lt_or_eq
  · by_contra hle
    have hback := hz other moment (not_le.mp hle).le
    rw [hdate] at hback
    exact absurd hback (not_le.mpr hlt)
  · exact hleast.2 ⟨hother.1, by rw [shows_iff.mp hother.2, ← heq]⟩

end Days

theorem parseAt_of_time {text : AtText} {raw : String} {time : Fin 24 × Fin 60}
    (hstamp : text.parseRfc3339 (Chat.trim raw) = none)
    (htime : text.parseHourMinute (Chat.trim raw) = some time) (zone : Zone) (now : Nanos) :
    parseAt text raw now zone =
      ([dateOf (zone.naiveLocal now), dateOf (zone.naiveLocal now) + 1].findSome?
        (tryDay text raw now zone time)).getD (.error s!"at '{raw}' is not a valid local time.") := by
  rw [parseAt, hstamp, htime]

/-- Tomorrow is ahead of any local time of today. -/
theorem lt_tomorrow (wanted : ℤ) (time : Fin 24 × Fin 60) : wanted < andTime (dateOf wanted + 1) time := by
  have htime := timeOfDay_mem time
  have hdiv := Int.ediv_mul_add_emod wanted dayNanos
  have hmod := Int.emod_lt_of_pos wanted (by decide : 0 < dayNanos)
  simp only [andTime, dateOf, dayNanos] at *
  omega

section Time

variable {text : AtText} {raw : String} {zone : Zone} {now : Nanos} {time : Fin 24 × Fin 60}
  (hstamp : text.parseRfc3339 (Chat.trim raw) = none)
  (htime : text.parseHourMinute (Chat.trim raw) = some time) (hz : zone.Resolves)

include hstamp htime hz

theorem parseAt_of_missing (hmissing : zone.Missing now time) : ∃ e, parseAt text raw now zone = .error e := by
  rw [parseAt_of_time hstamp htime]
  by_cases hahead : zone.naiveLocal now < andTime (dateOf (zone.naiveLocal now)) time ∧
      zone.Skips (andTime (dateOf (zone.naiveLocal now)) time)
  · obtain ⟨e, he⟩ := tryDay_of_skips text raw time hz hahead.1 hahead.2
    rw [List.findSome?_cons, he]
    exact ⟨e, rfl⟩
  · obtain ⟨hpast, hskips⟩ := hmissing.resolve_left hahead
    obtain ⟨e, he⟩ := tryDay_of_skips text raw time hz (lt_tomorrow _ time) hskips
    rw [List.findSome?_cons, tryDay_of_past text raw time hz hahead hpast, List.findSome?_cons, he]
    exact ⟨e, rfl⟩

theorem parseAt_of_not_missing (hdate : zone.KeepsDate) (hmissing : ¬ zone.Missing now time) :
    ∃ moment, parseAt text raw now zone = .ok moment ∧
      IsLeast {moment | now < moment ∧ zone.Shows time moment} moment := by
  rw [parseAt_of_time hstamp htime]
  obtain ⟨hahead, hlater⟩ := not_or.mp hmissing
  by_cases hpast : ∀ moment, zone.naiveLocal moment = andTime (dateOf (zone.naiveLocal now)) time → moment ≤ now
  · obtain ⟨coming, hcoming⟩ := not_forall_not.mp (not_and.mp hlater hpast)
    have hnow : now < coming := by
      by_contra hle
      have hback := hdate coming now (not_lt.mp hle)
      rw [hcoming, dateOf_andTime] at hback
      omega
    obtain ⟨moment, hday, hleast⟩ := tryDay_of_coming text raw time hz hnow hcoming
    refine ⟨moment, ?_, least_of_day time hdate hleast fun other hother hshows => ?_⟩
    · rw [List.findSome?_cons, tryDay_of_past text raw time hz hahead hpast, List.findSome?_cons, hday]
      rfl
    · have hle := hdate now other hother.le
      have hne : dateOf (zone.naiveLocal other) ≠ dateOf (zone.naiveLocal now) := by
        intro heq
        have hlocal := shows_iff.mp hshows
        rw [heq] at hlocal
        exact absurd (hpast other hlocal) (not_le.mpr hother)
      omega
  · push Not at hpast
    obtain ⟨coming, hcoming, hnow⟩ := hpast
    obtain ⟨moment, hday, hleast⟩ := tryDay_of_coming text raw time hz hnow hcoming
    refine ⟨moment, ?_, least_of_day time hdate hleast fun other hother _ => hdate now other hother.le⟩
    rw [List.findSome?_cons, hday]
    rfl

end Time

/-- The first HH:MM at or after the local now. -/
def Zone.firstAhead (zone : Zone) (now : Nanos) (time : Fin 24 × Fin 60) : ℤ :=
  let today := dateOf (zone.naiveLocal now)
  if zone.naiveLocal now ≤ andTime today time then andTime today time else andTime (today + 1) time

/-- A time stamp is taken exactly when it lies after now. HH:MM means the next moment that shows
it, unless the day that is due skips it. All other texts are refused. -/
theorem parseAt_spec {zone : Zone} (hz : zone.Resolves) (hdate : zone.KeepsDate) (text : AtText) (raw : String)
    (now : Nanos) :
    (∀ moment, text.parseRfc3339 (Chat.trim raw) = some moment →
      (parseAt text raw now zone).toOption = if now < moment then some moment else none) ∧
    (∀ time, text.parseRfc3339 (Chat.trim raw) = none → text.parseHourMinute (Chat.trim raw) = some time →
      (zone.Missing now time → ∃ e, parseAt text raw now zone = .error e) ∧
      (¬ zone.Missing now time → ∃ moment, parseAt text raw now zone = .ok moment ∧
        IsLeast {moment | now < moment ∧ zone.Shows time moment} moment)) ∧
    (text.parseRfc3339 (Chat.trim raw) = none → text.parseHourMinute (Chat.trim raw) = none →
      ∃ e, parseAt text raw now zone = .error e) ∧
    ∀ moment, parseAt text raw now zone = .ok moment → now < moment := by
  have hstamps : ∀ moment, text.parseRfc3339 (Chat.trim raw) = some moment →
      (parseAt text raw now zone).toOption = if now < moment then some moment else none := by
    intro moment hstamp
    rw [parseAt, hstamp]
    by_cases hnow : now < moment
    · simp only [if_neg (not_le.mpr hnow), if_pos hnow]
      rfl
    · simp only [if_pos (not_lt.mp hnow), if_neg hnow]
      rfl
  have hother : text.parseRfc3339 (Chat.trim raw) = none → text.parseHourMinute (Chat.trim raw) = none →
      ∃ e, parseAt text raw now zone = .error e := by
    intro hstamp htime
    rw [parseAt, hstamp, htime]
    exact ⟨_, rfl⟩
  refine ⟨hstamps, fun time hstamp htime => ⟨parseAt_of_missing hstamp htime hz,
    parseAt_of_not_missing hstamp htime hz hdate⟩, hother, fun moment hok => ?_⟩
  cases hstamp : text.parseRfc3339 (Chat.trim raw) with
  | some stamp =>
    have htaken := hstamps stamp hstamp
    rw [hok] at htaken
    split_ifs at htaken with hnow
    · cases htaken
      exact hnow
    · exact absurd htaken (Option.some_ne_none moment)
  | none =>
    cases htime : text.parseHourMinute (Chat.trim raw) with
    | none =>
      obtain ⟨e, he⟩ := hother hstamp htime
      rw [he] at hok
      cases hok
    | some time =>
      by_cases hmissing : zone.Missing now time
      · obtain ⟨e, he⟩ := parseAt_of_missing hstamp htime hz hmissing
        rw [he] at hok
        cases hok
      · obtain ⟨found, hfound, hleast⟩ := parseAt_of_not_missing hstamp htime hz hdate hmissing
        rw [hfound] at hok
        cases hok
        exact hleast.1.1

def hourNanos : ℤ := 3600 * 1000000000

/-- A zone that skips 02:00 to 03:00 on day 1. -/
def springForward : Zone where
  naiveLocal moment := if moment < dayNanos + 2 * hourNanos then moment else moment + hourNanos
  fromLocal wanted :=
    if wanted < dayNanos + 2 * hourNanos then .single wanted
    else if wanted < dayNanos + 3 * hourNanos then .none
    else .single (wanted - hourNanos)

def halfPastTwo : AtText where
  parseRfc3339 _ := none
  parseHourMinute text := if text = "02:30" then some (2, 30) else none
  stamp _ := ""
  dateText _ := ""

theorem naiveLocal_springForward (moment : Nanos) : springForward.naiveLocal moment =
    if moment < dayNanos + 2 * hourNanos then moment else moment + hourNanos := rfl

theorem fromLocal_springForward (wanted : ℤ) : springForward.fromLocal wanted =
    if wanted < dayNanos + 2 * hourNanos then .single wanted
    else if wanted < dayNanos + 3 * hourNanos then .none else .single (wanted - hourNanos) := rfl

theorem resolves_springForward : springForward.Resolves := by
  have hhour : 0 < hourNanos := by decide
  constructor
  · intro wanted hnone moment
    rw [fromLocal_springForward] at hnone
    rw [naiveLocal_springForward]
    split_ifs at hnone with hbefore hgap
    split_ifs
    · linarith
    · linarith
  · intro wanted found hsingle moment
    rw [fromLocal_springForward] at hsingle
    rw [naiveLocal_springForward]
    split_ifs at hsingle with hbefore hgap
    · cases hsingle
      split_ifs
      · exact Iff.rfl
      · exact ⟨fun h => by linarith, fun h => by linarith⟩
    · cases hsingle
      split_ifs
      · exact ⟨fun h => by linarith, fun h => by linarith⟩
      · exact ⟨fun h => by linarith, fun h => by linarith⟩
  · intro wanted earliest latest hambiguous
    rw [fromLocal_springForward] at hambiguous
    split_ifs at hambiguous

theorem keepsDate_springForward : springForward.KeepsDate := by
  have hhour : 0 < hourNanos := by decide
  intro moment moment' hle
  apply Int.ediv_le_ediv (by decide)
  rw [naiveLocal_springForward, naiveLocal_springForward]
  split_ifs
  all_goals linarith

/-- It is 02:30 now, and tomorrow there is no 02:30. -/
def nowHalfPastTwo : Nanos := timeOfDay (2, 30)

theorem missing_springForward : springForward.Missing nowHalfPastTwo (2, 30) := by
  have hhour : 0 < hourNanos := by decide
  have hlocal : springForward.naiveLocal nowHalfPastTwo = andTime 0 (2, 30) := by decide
  have htoday : dateOf (springForward.naiveLocal nowHalfPastTwo) = 0 := by decide
  right
  rw [htoday]
  constructor
  · intro moment hmoment
    rw [naiveLocal_springForward] at hmoment
    have hday : andTime 0 (2, 30) = nowHalfPastTwo := by decide
    rw [hday] at hmoment
    split_ifs at hmoment
    all_goals linarith
  · intro moment hmoment
    have hgap : dayNanos + 2 * hourNanos ≤ andTime (0 + 1) (2, 30) ∧
        andTime (0 + 1) (2, 30) < dayNanos + 3 * hourNanos := by decide
    rw [naiveLocal_springForward] at hmoment
    split_ifs at hmoment
    all_goals linarith

theorem parseAt_spec_springForward :
    ∃ e, parseAt halfPastTwo "02:30" nowHalfPastTwo springForward = .error e :=
  ((parseAt_spec resolves_springForward keepsDate_springForward halfPastTwo "02:30" nowHalfPastTwo).2.1 (2, 30)
    rfl (by decide)).1 missing_springForward

/-- The first HH:MM at or after the local now is now itself, but tomorrow's falls into a gap. -/
theorem first_ahead_refused :
    ¬ ∀ (text : AtText) (zone : Zone), zone.Resolves → zone.KeepsDate → ∀ raw now time,
      text.parseRfc3339 (Chat.trim raw) = none → text.parseHourMinute (Chat.trim raw) = some time →
      (zone.Skips (zone.firstAhead now time) → ∃ e, parseAt text raw now zone = .error e) ∧
      (¬ zone.Skips (zone.firstAhead now time) → ∃ moment, parseAt text raw now zone = .ok moment ∧
        IsLeast {moment | now < moment ∧ zone.Shows time moment} moment) := by
  intro h
  have hclaim := (h halfPastTwo springForward resolves_springForward keepsDate_springForward "02:30"
    nowHalfPastTwo (2, 30) rfl (by decide)).2
  have hfirst : springForward.firstAhead nowHalfPastTwo (2, 30) = springForward.naiveLocal nowHalfPastTwo := by
    decide
  obtain ⟨moment, hok, -⟩ := hclaim fun hskips => hskips nowHalfPastTwo hfirst.symm
  have hrefused : ∃ e, parseAt halfPastTwo "02:30" nowHalfPastTwo springForward = .error e :=
    parseAt_of_missing rfl (by decide) resolves_springForward missing_springForward
  obtain ⟨e, he⟩ := hrefused
  rw [he] at hok
  cases hok

end Ralph.Schedule
