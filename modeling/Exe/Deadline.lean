/-
The deadlines of timers in 64 bits.

`Set` takes a reading of the clock in nanoseconds, casts it to microseconds and adds the
delay; the queues turn the deadline back into a `time_point` of the clock, in
nanoseconds. The cast truncates, so up to a microsecond of the delay is lost, and the way
back multiplies by a thousand, which takes long delays out of range.

`run_loop::Runtime` and `TimerThread` do the same arithmetic. What they compute is stated
here against the integers. `TimerThread`'s model rests on it; the models of the runtimes, in
which any reading of the clock may follow any other, work over the integers.

# Conventions

* A signed operation that overflows wraps.
-/
import Mathlib.Algebra.Order.Ring.Int

set_option autoImplicit false

namespace Exe.Timer

/-! ## The model -/

/-- A reading of `Clock`, or a `Clock::time_point`, in nanoseconds. -/
abbrev TimePoint := Int64

/-- Microseconds. -/
abbrev Instant := Int64

/-- Microseconds. -/
abbrev Duration := Int64

/-- `duration_cast<timer::Instant>(now.time_since_epoch())`. -/
def duration_cast (now : TimePoint) : Instant := now / 1000

/-- What `Set` writes to `timer->deadline`. -/
def deadline (now : TimePoint) (delay : Duration) : Instant := duration_cast now + delay

/-- `Clock::time_point(deadline)`. -/
def time_point (deadline : Instant) : TimePoint := deadline * 1000

/-- `run_loop::Runtime::Set`. -/
def RunLoop.Set (now : TimePoint) (delay : Duration) : Instant := deadline now delay

/-- The test `Clock::now() >= *deadline` of `GetTask`. -/
def RunLoop.isDue (now : TimePoint) (deadline : Instant) : Bool :=
  decide (now ≥ time_point deadline)

/-- `TimerThread::Set`. -/
def TimerThread.Set (now : TimePoint) (delay : Duration) : Instant := deadline now delay

/-- Past the test `now < *deadline` of `Run`, and the sleep. -/
def TimerThread.isDue (now : TimePoint) (deadline : Instant) : Bool :=
  !decide (now < time_point deadline)

/-! ## Against the integers -/

theorem toInt_duration_cast (now : TimePoint) : (duration_cast now).toInt = now.toInt.tdiv 1000 :=
  Int64.toInt_div_of_ne_right now 1000 (by decide)

theorem bmod_eq (x : ℤ) : ∃ wraps : ℤ, x.bmod (2 ^ 64) = x + 2 ^ 64 * wraps := by
  refine ⟨-x.bdiv (2 ^ 64), ?_⟩
  have h := Int.bmod_add_bdiv x (2 ^ 64)
  omega

/-- The quotient that is cut towards zero. -/
theorem tdiv_cases (x : ℤ) :
    0 ≤ x ∧ x.tdiv 1000 = x / 1000 ∨ x < 0 ∧ x.tdiv 1000 = -(-x / 1000) := by
  rcases lt_or_ge x 0 with hx | hx
  · refine .inr ⟨hx, ?_⟩
    have hneg : 0 ≤ -x := by omega
    rw [← Int.tdiv_eq_ediv_of_nonneg hneg, Int.neg_tdiv, Int.neg_neg]
  · exact .inl ⟨hx, Int.tdiv_eq_ediv_of_nonneg hx⟩

/-- With the sum in range the deadline is the sum, with the reading cut to a microsecond. -/
theorem toInt_deadline_of_range {now : TimePoint} {delay : Duration}
    (hlow : -2 ^ 63 ≤ now.toInt.tdiv 1000 + delay.toInt)
    (hhigh : now.toInt.tdiv 1000 + delay.toInt < 2 ^ 63) :
    (deadline now delay).toInt = now.toInt.tdiv 1000 + delay.toInt := by
  unfold deadline
  rw [Int64.toInt_add, toInt_duration_cast]
  exact Int.bmod_eq_of_le (by omega) (by omega)

/-- With the product in range the time point is the product. -/
theorem toInt_time_point_of_range {deadline : Instant} (hlow : -2 ^ 63 ≤ 1000 * deadline.toInt)
    (hhigh : 1000 * deadline.toInt < 2 ^ 63) :
    (time_point deadline).toInt = 1000 * deadline.toInt := by
  have hthousand : (1000 : Int64).toInt = 1000 := rfl
  unfold time_point
  rw [Int64.toInt_mul, hthousand, mul_comm]
  exact Int.bmod_eq_of_le (by omega) (by omega)

/-- The time point a timer is due at, up to the wraps on the way. -/
theorem toInt_time_point (now : TimePoint) (delay : Duration) :
    ∃ wraps : ℤ, (time_point (deadline now delay)).toInt =
      1000 * (now.toInt.tdiv 1000 + delay.toInt) + 2 ^ 64 * wraps := by
  -- the sum and the product may each wrap
  obtain ⟨j, hj⟩ := bmod_eq ((duration_cast now).toInt + delay.toInt)
  obtain ⟨k, hk⟩ := bmod_eq ((deadline now delay).toInt * (1000 : Int64).toInt)
  rw [← Int64.toInt_add, toInt_duration_cast] at hj
  rw [← Int64.toInt_mul] at hk
  change (deadline now delay).toInt = _ at hj
  change (time_point (deadline now delay)).toInt = (deadline now delay).toInt * 1000 + _ at hk
  exact ⟨1000 * j + k, by omega⟩

/-- With nothing out of range it is the sum, with the reading cut to a microsecond. -/
theorem toInt_time_point_of_lt {now : TimePoint} {delay : Duration} (hdelay : 0 ≤ delay.toInt)
    (hlt : 1000 * (now.toInt.tdiv 1000 + delay.toInt) < 2 ^ 63) :
    (time_point (deadline now delay)).toInt = 1000 * (now.toInt.tdiv 1000 + delay.toInt) := by
  obtain ⟨wraps, h⟩ := toInt_time_point now delay
  -- from below nothing gets out of range: a negative reading is only cut towards zero
  have hcut := tdiv_cases now.toInt
  have hnow := now.le_toInt
  have hlow := (time_point (deadline now delay)).le_toInt
  have hhigh := (time_point (deadline now delay)).toInt_lt
  omega

/-! ## How long a sleep lasts -/

/-- A timer that `set` was given at the reading `now` is judged due by `isDue` only when at
least its delay has passed. The clock is steady. -/
def LastsItsDelay (set : TimePoint → Duration → Instant) (isDue : TimePoint → Instant → Bool)
    (now : TimePoint) (delay : Duration) : Prop :=
  ∀ m : TimePoint, now ≤ m → isDue m (set now delay) = true →
    now.toInt + 1000 * delay.toInt ≤ m.toInt

/-- The reading is cut down to a whole number of microseconds without loss, and the
deadline is in the range of the clock. -/
def Exact (now : TimePoint) (delay : Duration) : Prop :=
  (now.toInt ≤ 0 ∨ 1000 ∣ now.toInt) ∧ 1000 * (now.toInt.tdiv 1000 + delay.toInt) < 2 ^ 63

/-- Every reading from the later of the two on is judged due. -/
theorem lastsItsDelay_iff_max (now : TimePoint) (delay : Duration) :
    (∀ m : TimePoint, now ≤ m → m ≥ time_point (deadline now delay) →
      now.toInt + 1000 * delay.toInt ≤ m.toInt) ↔
    now.toInt + 1000 * delay.toInt ≤
      max now.toInt (time_point (deadline now delay)).toInt := by
  -- the later of the two is itself a reading
  constructor
  · intro h
    rcases le_total now.toInt (time_point (deadline now delay)).toInt with hle | hle
    · rw [max_eq_right hle]
      exact h _ (Int64.le_iff_toInt_le.mpr hle) (Int64.le_iff_toInt_le.mpr (Int.le_refl _))
    · rw [max_eq_left hle]
      exact h _ (Int64.le_iff_toInt_le.mpr (Int.le_refl _)) (Int64.le_iff_toInt_le.mpr hle)
  · intro h m hnow hpoint
    have hn := Int64.le_iff_toInt_le.mp hnow
    have hp := Int64.le_iff_toInt_le.mp hpoint
    exact h.trans (max_le hn hp)

theorem max_iff_exact (now : TimePoint) {delay : Duration} (hdelay : 0 ≤ delay.toInt) :
    now.toInt + 1000 * delay.toInt ≤ max now.toInt (time_point (deadline now delay)).toInt ↔
      delay = 0 ∨ Exact now delay := by
  have hzero : delay = 0 ↔ delay.toInt = 0 := by
    rw [← Int64.toInt_inj]
    rfl
  rw [hzero, Exact]
  constructor
  · intro h
    obtain ⟨wraps, hwraps⟩ := toInt_time_point now delay
    have hhigh := (time_point (deadline now delay)).toInt_lt
    have hlow := (time_point (deadline now delay)).le_toInt
    have hnow := now.le_toInt
    have hcut := tdiv_cases now.toInt
    by_cases hd : delay.toInt = 0
    · exact .inl hd
    · refine .inr ⟨?_, ?_⟩
      -- a positive reading that is cut, or a deadline that wraps, comes out too small
      · omega
      · omega
  · have hcast := tdiv_cases now.toInt
    rintro (hd | ⟨hcut, hlt⟩)
    · rw [hd]
      exact le_max_of_le_left (by omega)
    · rw [toInt_time_point_of_lt hdelay hlt]
      exact le_max_of_le_right (by omega)

/-- **When a sleep lasts its delay.** A timer set at the reading `now` is never judged due
before `now` plus its delay if and only if the delay is zero, or the cast to microseconds
cut nothing off and the deadline is in the range of the clock. -/
theorem lastsItsDelay_iff (now : TimePoint) (delay : Duration) (hdelay : 0 ≤ delay.toInt) :
    (LastsItsDelay RunLoop.Set RunLoop.isDue now delay ↔ delay = 0 ∨ Exact now delay) ∧
    (LastsItsDelay TimerThread.Set TimerThread.isDue now delay ↔
      delay = 0 ∨ Exact now delay) := by
  have hiff := (lastsItsDelay_iff_max now delay).trans (max_iff_exact now hdelay)
  constructor
  · rw [← hiff]
    unfold LastsItsDelay RunLoop.isDue RunLoop.Set
    simp only [decide_eq_true_eq]
  · rw [← hiff]
    unfold LastsItsDelay TimerThread.isDue TimerThread.Set
    simp only [Bool.not_eq_true', decide_eq_false_iff_not, Int64.not_lt]

/-- A sleep of ten microseconds from the reading 2000. -/
theorem lastsItsDelay_iff_whole :
    LastsItsDelay RunLoop.Set RunLoop.isDue 2000 10 ∧
    LastsItsDelay TimerThread.Set TimerThread.isDue 2000 10 := by
  have hexact : Exact 2000 10 := by
    unfold Exact
    decide
  have h := lastsItsDelay_iff 2000 10 (by decide)
  exact ⟨h.1.mpr (.inr hexact), h.2.mpr (.inr hexact)⟩

/-- From the reading 1999 a sleep of one microsecond is over at 2000, one nanosecond later. -/
theorem shorter_than_its_delay :
    ¬LastsItsDelay RunLoop.Set RunLoop.isDue 1999 1 ∧
    ¬LastsItsDelay TimerThread.Set TimerThread.isDue 1999 1 := by
  constructor
  · intro h
    exact absurd (h 2000 (by decide) (by decide)) (by decide)
  · intro h
    exact absurd (h 2000 (by decide) (by decide)) (by decide)

end Exe.Timer
