/-
The parking protocol of the pool: who is in `stopped_`, what `wakeups_` counts,
and why nobody sleeps through a wake-up.

A worker that finds no work reads `wakeups_`, links itself into `stopped_`,
searches once more and only then goes to sleep, on the value it read. Whoever
wants it awake takes it out of `stopped_` and adds one to `wakeups_` in one
section of the coordinator's lock, and so does `Stop`, without the unlinking.
What relates the two words is one equation (`Stage.Holds`):

    wakeups_ = expected_wu + [taken out of stopped_] + [bumped by Stop]

The sum is at most two above the value the worker has read, so the 32 bits never
wrap back onto it, and a sleeper is still in `stopped_`.

`approximate_size_` is only a bound: `Unlink` takes a worker out of `stopped_`
and leaves the counter, so it never falls below the length, and it never exceeds
the number of `AddStoppedWorker`s. At `2^64` of these it wraps.
-/
import Exe.Places
import Exe.PoolSteps

set_option autoImplicit false

namespace Exe.Pool

open WorkStealingQueue
open Function (update)

variable {n m : ℕ} {τ : Type*} {capacity : ℕ}

/-! ## Stages

What the parking protocol sees of a program counter. -/

/-- Where a worker is between reading `wakeups_` and leaving `stopped_`. -/
inductive Stage
  | free
  | committed (expected_wu : ℕ)
  | scanning (expected_wu : ℕ)
  | resting (expected_wu : ℕ)
  | asleep (expected_wu : ℕ)
  | leaving
  | exiting
  | gone

/-- The second search is made while linked. -/
def Scan.stage : Scan → Stage
  | .second expected_wu => .scanning expected_wu
  | _ => .free

def Caller.stage : Caller τ → Stage
  | .getFromBuffer scan _ _ => scan.stage
  | .push _ => .free

def AfterNotify.stage : AfterNotify τ → Stage
  | .offload k => k.stage
  | _ => .free

def Pc.stage : Pc n τ → Stage
  | .lifo scan => scan.stage
  | .pop scan _ => scan.stage
  | .grab scan => scan.stage
  | .steal scan _ _ _ => scan.stage
  | .pushLocal k _ _ => k.stage
  | .offload k _ _ => k.stage
  | .pushMany k _ => k.stage
  | .shouldWake k => k.stage
  | .wakeWorker k => k.stage
  | .addStopped expected_wu => .committed expected_wu
  | .unlinkFound _ => .leaving
  | .checkStop expected_wu => .scanning expected_wu
  | .unlinkStopped => .exiting
  | .wait expected_wu => .resting expected_wu
  | .asleep expected_wu => .asleep expected_wu
  | .unlinkWoken => .leaving
  | .returned => .gone
  | _ => .free

/-- How far a step that touches neither `stopped_` nor `wakeups_` may move. -/
def Stage.Moves (a b : Stage) : Prop := b = a ∨ b = .leaving ∧ a ≠ .free

theorem Stage.Moves.refl (a : Stage) : a.Moves a := .inl rfl

theorem stage_eq_asleep {pc : Pc n τ} {e : ℕ} : pc.stage = .asleep e ↔ pc = .asleep e := by
  have hscan : ∀ scan : Scan, scan.stage ≠ .asleep e := by
    intro scan
    cases scan <;> simp [Scan.stage]
  have hcaller : ∀ k : Caller τ, k.stage ≠ .asleep e := by
    intro k
    cases k with
    | getFromBuffer scan task rest => exact hscan scan
    | push cur => simp [Caller.stage]
  have hnotify : ∀ k : AfterNotify τ, k.stage ≠ .asleep e := by
    intro k
    cases k with
    | offload k => exact hcaller k
    | _ => simp [AfterNotify.stage]
  cases pc <;> simp [Pc.stage, hscan, hcaller, hnotify]

theorem found_moves (scan : Scan) (task : τ) :
    scan.stage.Moves (found scan task : Pc n τ).stage := by
  cases scan with
  | second e => exact .inr ⟨rfl, by simp [Scan.stage]⟩
  | _ => exact .inl rfl

theorem notFound_stage (scan : Scan) : (notFound scan : Pc n τ).stage = scan.stage := by
  cases scan <;> rfl

theorem getFromBuffer_moves (scan : Scan) (task : τ) (rest : List τ) :
    scan.stage.Moves (getFromBuffer scan task rest : Pc n τ).stage := by
  cases rest with
  | nil => exact found_moves scan task
  | cons next rest => exact .inl rfl

theorem resume_moves (k : Caller τ) : k.stage.Moves (k.resume : Pc n τ).stage := by
  cases k with
  | getFromBuffer scan task rest => exact getFromBuffer_moves scan task rest
  | push cur => exact .inl rfl

theorem stealFrom_stage (scan : Scan) (l : List (Fin n)) :
    (stealFrom scan l : Pc n τ).stage = scan.stage := by
  cases l with
  | nil => exact notFound_stage scan
  | cons v l => rfl

theorem afterGrab_stage (w : Fin n) (scan : Scan) :
    (afterGrab w scan : Pc n τ).stage = scan.stage := by
  cases scan with
  | starvation => rfl
  | first => exact stealFrom_stage _ _
  | second e => exact stealFrom_stage _ _

theorem afterNotify_resume_moves (k : AfterNotify τ) :
    k.stage.Moves (k.resume : Pc n τ).stage := by
  cases k with
  | offload k => exact resume_moves k
  | _ => exact .inl rfl

/-! ## `Stop`, as the parking protocol sees it -/

/-- The workers `Stop` still has to flag, and those it still has to bump. -/
def StopPc.toFlag : StopPc n → List (Fin n)
  | .notStarted => List.finRange n
  | .flag w rest => w :: rest
  | .fetchAdd _ rest => rest
  | .wakeOne _ rest => rest
  | _ => []

def StopPc.toBump : StopPc n → List (Fin n)
  | .notStarted => List.finRange n
  | .flag w rest => w :: rest
  | .fetchAdd w rest => w :: rest
  | .wakeOne _ rest => rest
  | _ => []

/-- How often `Stop` has bumped `wakeups_` of `w`. -/
def StopPc.bumps (stop : StopPc n) (w : Fin n) : ℕ := if w ∈ stop.toBump then 0 else 1

theorem bumps_le_one (stop : StopPc n) (w : Fin n) : stop.bumps w ≤ 1 := by
  unfold StopPc.bumps
  split <;> omega

theorem bumps_congr {a b : StopPc n} {w : Fin n} (h : w ∈ a.toBump ↔ w ∈ b.toBump) :
    a.bumps w = b.bumps w := by
  simp only [StopPc.bumps, h]

@[simp] theorem toBump_stopNext (l : List (Fin n)) : (stopNext l).toBump = l := by
  cases l <;> rfl

@[simp] theorem toFlag_stopNext (l : List (Fin n)) : (stopNext l).toFlag = l := by
  cases l <;> rfl

theorem stopNext_ne_notStarted (l : List (Fin n)) : stopNext l ≠ .notStarted := by
  cases l <;> simp [stopNext]

/-! ## The invariant -/

/-- What a stage says about `stopped_` and `wakeups_`. `linked` tells whether the
worker is in `stopped_`, `bumps` how often `Stop` has added to `wakeups`. -/
def Stage.Holds (linked : Prop) [Decidable linked] (wakeups bumps : ℕ) (has_stopped : Bool) :
    Stage → Prop
  | .free => ¬ linked
  | .committed e => ¬ linked ∧ ∃ b ≤ bumps, wakeups = (e + b) % u32Mod
  | .scanning e => ∃ b ≤ bumps, wakeups = (e + (if linked then 0 else 1) + b) % u32Mod
  | .resting e => wakeups = (e + (if linked then 0 else 1) + bumps) % u32Mod
  | .asleep e => wakeups = (e + (if linked then 0 else 1) + bumps) % u32Mod
  | .leaving => True
  | .exiting => has_stopped = true
  | .gone => ¬ linked ∧ has_stopped = true

/-- Worker `w` is where its program counter says it is. -/
def Parked (s : State n m τ) (w : Fin n) : Prop :=
  (s.pc w).stage.Holds (w ∈ s.stopped_) (s.wakeups_ w) (s.stopPc.bumps w)
    (s.has_stopped_ w)

/-- The invariant of the parking protocol. -/
structure Parking (s : State n m τ) : Prop where
  parked : ∀ w, Parked s w
  nodup : s.stopped_.Nodup
  wakeups_lt : ∀ w, s.wakeups_ w < u32Mod
  /-- A sleeper is in `stopped_` unless `Stop` is about to wake it. -/
  asleep : ∀ w e, s.pc w = .asleep e →
    (w ∈ s.stopped_ ∧ s.stopPc.bumps w = 0) ∨ ∃ rest, s.stopPc = .wakeOne w rest
  flagged : ∀ w, s.has_stopped_ w = true ↔ w ∉ s.stopPc.toFlag
  bump_nodup : s.stopPc.toBump.Nodup

theorem Stage.Moves.holds {a b : Stage} {linked : Prop} [Decidable linked] {u c : ℕ}
    {f : Bool} (hm : a.Moves b) (h : a.Holds linked u c f) : b.Holds linked u c f := by
  rcases hm with rfl | ⟨rfl, -⟩
  · exact h
  · trivial

/-- What is bumped has been flagged. -/
theorem Parking.bumps_eq_zero {s : State n m τ} (h : Parking s) {w : Fin n}
    (hw : s.has_stopped_ w = false) : s.stopPc.bumps w = 0 := by
  have hf := (h.flagged w).not
  simp only [hw, Bool.false_eq_true, not_false_eq_true, not_not, true_iff] at hf
  unfold StopPc.bumps
  cases hs : s.stopPc <;> rw [hs] at hf <;> simp_all [StopPc.toFlag, StopPc.toBump]

/-- Before `Stop` no flag is set. -/
theorem Parking.not_flagged {s : State n m τ} (h : Parking s) (hs : s.stopPc = .notStarted)
    (w : Fin n) : s.has_stopped_ w = false := by
  have hf := h.flagged w
  rw [hs] at hf
  simpa [StopPc.toFlag] using hf

/-! ## Frame lemmas -/

/-- `t` and `s` agree on all the parking protocol works on. -/
structure SameLot (s t : State n m τ) : Prop where
  pc : t.pc = s.pc
  stopped_ : t.stopped_ = s.stopped_
  wakeups_ : t.wakeups_ = s.wakeups_
  has_stopped_ : t.has_stopped_ = s.has_stopped_
  stopPc : t.stopPc = s.stopPc

theorem Parking.congr {s t : State n m τ} (h : Parking s) (ht : SameLot s t) : Parking t := by
  obtain ⟨hpc, hst, hwu, hhs, hsp⟩ := ht
  refine ⟨fun w => ?_, ?_, ?_, ?_, ?_, ?_⟩
  · simpa only [Parked, hpc, hst, hwu, hhs, hsp] using h.parked w
  · rw [hst]; exact h.nodup
  · rw [hwu]; exact h.wakeups_lt
  · rw [hpc, hst, hsp]; exact h.asleep
  · rw [hhs, hsp]; exact h.flagged
  · rw [hsp]; exact h.bump_nodup

/-- A worker moves its program counter and knows what its new stage says. -/
theorem Parking.setPc {s : State n m τ} (h : Parking s) {w : Fin n} {pc : Pc n τ}
    (hpc : pc.stage.Holds (w ∈ s.stopped_) (s.wakeups_ w) (s.stopPc.bumps w)
    (s.has_stopped_ w))
    (hsleep : ∀ e, pc = .asleep e →
      (w ∈ s.stopped_ ∧ s.stopPc.bumps w = 0) ∨ ∃ rest, s.stopPc = .wakeOne w rest) :
    Parking (s.setPc w pc) := by
  refine ⟨fun v => ?_, h.nodup, h.wakeups_lt, fun v e he => ?_, h.flagged, h.bump_nodup⟩
  · by_cases hv : v = w
    · subst hv
      simpa [Parked, State.setPc] using hpc
    · rw [Parked, setPc_pc_of_ne s pc hv]
      exact h.parked v
  · by_cases hv : v = w
    · subst hv
      exact hsleep e (by simpa using he)
    · rw [setPc_pc_of_ne s pc hv] at he
      exact h.asleep v e he

/-- A worker moves on within its stage, or leaves it. -/
theorem Parking.move {s t : State n m τ} (h : Parking s) {w : Fin n} {pc : Pc n τ}
    (ht : SameLot s t) (hm : (s.pc w).stage.Moves pc.stage) : Parking (t.setPc w pc) := by
  refine (h.congr ht).setPc ?_ fun e he => ?_
  · rw [ht.stopped_, ht.wakeups_, ht.stopPc, ht.has_stopped_]
    exact hm.holds (h.parked w)
  · rw [← stage_eq_asleep] at he
    rcases hm with hm | ⟨hm, -⟩
    · rw [ht.stopped_, ht.stopPc]
      exact h.asleep w e (stage_eq_asleep.mp (hm ▸ he))
    · rw [hm] at he
      cases he

/-- `Unlink`, the step a worker leaves the protocol with. -/
theorem Parking.unlink {s : State n m τ} (h : Parking s) {w : Fin n} {pc : Pc n τ}
    (hpc : pc.stage = .free ∨ pc.stage = .gone ∧ s.has_stopped_ w = true) :
    Parking ((s.unlink w).setPc w pc) := by
  refine ⟨fun v => ?_, h.nodup.erase w, h.wakeups_lt, fun v e he => ?_, h.flagged, h.bump_nodup⟩
  · by_cases hv : v = w
    · subst hv
      have hv : v ∉ s.stopped_.erase v := h.nodup.not_mem_erase
      rcases hpc with hpc | ⟨hpc, hf⟩
      · simpa [Parked, State.setPc, State.unlink, hpc, Stage.Holds] using hv
      · simpa [Parked, State.setPc, State.unlink, hpc, Stage.Holds, hf] using hv
    · have hp := h.parked v
      simpa [Parked, State.setPc, State.unlink, hv, List.mem_erase_of_ne hv] using hp
  · by_cases hv : v = w
    · subst hv
      rw [setPc_pc_self] at he
      rw [he] at hpc
      rcases hpc with hpc | ⟨hpc, -⟩ <;> cases hpc
    · rw [setPc_pc_of_ne _ pc hv] at he
      simpa [State.setPc, State.unlink, List.mem_erase_of_ne hv] using h.asleep v e he

/-- `AddStoppedWorker`. -/
theorem Parking.addStopped {s : State n m τ} (h : Parking s) {w : Fin n} {e : ℕ}
    (hpc : s.pc w = .addStopped e) :
    Parking ((s.addStoppedWorker w).setPc w (.lifo (.second e))) := by
  have hp := h.parked w
  rw [Parked, hpc] at hp
  obtain ⟨hlink, b, hb, hwu⟩ := hp
  unfold State.addStoppedWorker
  rw [if_neg hlink]
  -- for the other workers the list is as before
  have hmem : ∀ v, v ≠ w → (v ∈ s.stopped_ ++ [w] ↔ v ∈ s.stopped_) := by
    intro v hv
    simp [hv]
  refine ⟨fun v => ?_, ?_, h.wakeups_lt, fun v e he => ?_, h.flagged, h.bump_nodup⟩
  · by_cases hv : v = w
    · subst hv
      rw [Parked, setPc_pc_self]
      exact ⟨b, hb, by simpa [State.setPc] using hwu⟩
    · have hp := h.parked v
      simpa [Parked, State.setPc, hv, hmem v hv] using hp
  · exact Places.nodup_push h.nodup hlink
  · by_cases hv : v = w
    · subst hv
      rw [setPc_pc_self] at he
      cases he
    · rw [setPc_pc_of_ne _ _ hv] at he
      simpa [State.setPc, hmem v hv] using h.asleep v e he

/-- The two additions never bring `wakeups_` back to the value the worker read. -/
theorem Stage.Holds.eq_self {linked : Prop} [Decidable linked] {e u c : ℕ} {f : Bool}
    (h : (Stage.resting e).Holds linked u c f) (he : u = e) (hc : c ≤ 1) :
    linked ∧ c = 0 := by
  simp only [Stage.Holds] at h
  subst he
  -- one or two additions are less than the range of the counter
  unfold u32Mod at h
  by_cases hl : linked
  · rw [if_pos hl] at h
    exact ⟨hl, by omega⟩
  · rw [if_neg hl] at h
    omega

/-- Whoever takes a worker out of `stopped_` has added one for it. -/
theorem Stage.Holds.pop {st : Stage} {linked linked' : Prop} [Decidable linked]
    [Decidable linked'] {u c : ℕ} {f : Bool} (h : st.Holds linked u c f) (hl : linked)
    (hl' : ¬ linked') : st.Holds linked' ((u + 1) % u32Mod) c f := by
  cases st with
  | free => exact absurd hl h
  | committed e => exact absurd hl h.1
  | scanning e =>
    obtain ⟨b, hb, hu⟩ := h
    rw [if_pos hl] at hu
    exact ⟨b, hb, by rw [if_neg hl', hu, Nat.mod_add_mod]; congr 1; omega⟩
  | resting e =>
    simp only [Stage.Holds, if_pos hl] at h
    simp only [Stage.Holds, if_neg hl', h, Nat.mod_add_mod]
    congr 1
    omega
  | asleep e =>
    simp only [Stage.Holds, if_pos hl] at h
    simp only [Stage.Holds, if_neg hl', h, Nat.mod_add_mod]
    congr 1
    omega
  | leaving => trivial
  | exiting => exact h
  | gone => exact absurd hl h.1

theorem woken_moves {pc : Pc n τ} : pc.stage.Moves pc.woken.stage := by
  rcases woken_eq_or pc with h | ⟨⟨e, he⟩, h⟩
  · rw [h]
    exact .refl _
  · rw [h, he]
    exact .inr ⟨rfl, by simp [Pc.stage]⟩

theorem Parking.wakeWorker {s : State n m τ} (h : Parking s) : Parking s.wakeWorker := by
  cases hst : s.stopped_ with
  | nil => rwa [wakeWorker_of_nil hst]
  | cons w rest =>
    rw [wakeWorker_of_cons hst]
    have hnd := h.nodup
    rw [hst, List.nodup_cons] at hnd
    -- only the head of the list is woken
    have hmem : ∀ v, v ≠ w → (v ∈ rest ↔ v ∈ s.stopped_) := by
      intro v hv
      simp [hst, hv]
    refine ⟨fun v => ?_, hnd.2, fun v => ?_, fun v e he => ?_, h.flagged, h.bump_nodup⟩
    · have hp := h.parked v
      by_cases hv : v = w
      · subst hv
        simpa [Parked] using woken_moves.holds (hp.pop (by simp [hst]) hnd.1)
      · simpa [Parked, hv, hmem v hv] using hp
    · by_cases hv : v = w
      · subst hv
        change update s.wakeups_ v ((s.wakeups_ v + 1) % u32Mod) v < u32Mod
        rw [Function.update_self]
        exact Nat.mod_lt _ (Nat.two_pow_pos 32)
      · simpa [hv] using h.wakeups_lt v
    · by_cases hv : v = w
      · subst hv
        simp [woken_ne_asleep] at he
      · simpa [hmem v hv] using h.asleep v e (by simpa [hv] using he)

/-! ## The steps keep it -/

/-- A worker's step keeps the parking invariant. -/
theorem Parking.workerStep {s s' : State n m τ} {w : Fin n} (h : Parking s)
    (hs : WorkerStep capacity w s s') : Parking s' := by
  have hp := h.parked w
  unfold Parked at hp
  cases hs with
  | pickTask hpc =>
    refine h.move ⟨rfl, rfl, rfl, rfl, rfl⟩ ?_
    rw [hpc]
    split <;> exact .refl _
  | lifoTake hpc hfilo hslot =>
    exact h.move ⟨rfl, rfl, rfl, rfl, rfl⟩ (by rw [hpc]; exact found_moves _ _)
  | lifoSkip hpc hslot =>
    exact h.move ⟨rfl, rfl, rfl, rfl, rfl⟩ (by rw [hpc]; exact .refl _)
  | popMove hpc hv => exact h.move ⟨rfl, rfl, rfl, rfl, rfl⟩ (by rw [hpc]; exact .refl _)
  | popTake hpc hq =>
    exact h.move ⟨rfl, rfl, rfl, rfl, rfl⟩ (by rw [hpc]; exact found_moves _ _)
  | popEmpty hpc hempty => exact h.move ⟨rfl, rfl, rfl, rfl, rfl⟩ (by rw [hpc]; exact .refl _)
  | grabNone hpc hempty =>
    exact h.move ⟨rfl, rfl, rfl, rfl, rfl⟩ (by rw [hpc, afterGrab_stage]; exact .refl _)
  | grabSome hpc hg =>
    exact h.move ⟨rfl, rfl, rfl, rfl, rfl⟩ (by rw [hpc]; exact getFromBuffer_moves _ _ _)
  | stealMove hpc hv hempty =>
    exact h.move ⟨rfl, rfl, rfl, rfl, rfl⟩ (by rw [hpc]; exact .refl _)
  | stealNone hpc =>
    exact h.move ⟨rfl, rfl, rfl, rfl, rfl⟩ (by rw [hpc, stealFrom_stage]; exact .refl _)
  | stealSome hpc hq =>
    exact h.move ⟨rfl, rfl, rfl, rfl, rfl⟩ (by rw [hpc]; exact getFromBuffer_moves _ _ _)
  | pushMove hpc hq hv => exact h.move ⟨rfl, rfl, rfl, rfl, rfl⟩ (by rw [hpc]; exact .refl _)
  | pushDone hpc hq => exact h.move ⟨rfl, rfl, rfl, rfl, rfl⟩ (by rw [hpc]; exact resume_moves _)
  | pushRefused hpc => exact h.move ⟨rfl, rfl, rfl, rfl, rfl⟩ (by rw [hpc]; exact .refl _)
  | offloadMove hpc hv => exact h.move ⟨rfl, rfl, rfl, rfl, rfl⟩ (by rw [hpc]; exact .refl _)
  | offloadTake hpc hq => exact h.move ⟨rfl, rfl, rfl, rfl, rfl⟩ (by rw [hpc]; exact .refl _)
  | pushMany hpc => exact h.move ⟨rfl, rfl, rfl, rfl, rfl⟩ (by rw [hpc]; exact .refl _)
  | shouldWakeYes hpc hsize =>
    exact h.move ⟨rfl, rfl, rfl, rfl, rfl⟩ (by rw [hpc]; exact .refl _)
  | shouldWakeNo hpc hsize =>
    rw [notified_eq]
    exact h.move ⟨rfl, rfl, rfl, rfl, rfl⟩ (by rw [hpc]; exact afterNotify_resume_moves _)
  | wakeWorker hpc =>
    rw [notified_eq]
    refine h.wakeWorker.move ⟨rfl, rfl, rfl, rfl, rfl⟩ ?_
    rcases wakeWorker_pc s w with he | ⟨⟨e, he⟩, -⟩
    · rw [he, hpc]
      exact afterNotify_resume_moves _
    · rw [hpc] at he
      cases he
  | loadWakeups hpc =>
    rw [hpc] at hp
    refine h.setPc ⟨hp, 0, Nat.zero_le _, ?_⟩ fun e he => by cases he
    exact (Nat.mod_eq_of_lt (h.wakeups_lt w)).symm
  | addStopped hpc => exact h.addStopped hpc
  | unlinkFound hpc => exact h.unlink (.inl rfl)
  | checkStopYes hpc hstop => exact h.setPc hstop fun e he => by cases he
  | checkStopNo hpc hstop =>
    rw [hpc] at hp
    obtain ⟨b, hb, hwu⟩ := hp
    -- `Stop` sets the flag first, so it has not bumped this worker
    have h0 := h.bumps_eq_zero hstop
    refine h.setPc ?_ fun e he => by cases he
    simp only [Pc.stage, Stage.Holds, hwu, h0]
    congr 1
    omega
  | unlinkStopped hpc =>
    rw [hpc] at hp
    exact h.unlink (.inr ⟨rfl, hp⟩)
  -- nobody has added anything since the key was read
  | @waitSleep e hpc he =>
    rw [hpc] at hp
    exact h.setPc hp fun _ _ => .inl
      (hp.eq_self he (bumps_le_one _ _))
  | waitPass hpc he =>
    exact h.move ⟨rfl, rfl, rfl, rfl, rfl⟩ (by rw [hpc]; exact .inr ⟨rfl, by simp [Pc.stage]⟩)
  | unlinkWoken hpc => exact h.unlink (.inl rfl)
  | pushGlobal hpc => exact h.move ⟨rfl, rfl, rfl, rfl, rfl⟩ (by rw [hpc]; exact .refl _)

/-- `Stop` adds one to `wakeups_` of a worker it had not bumped. -/
theorem Stage.Holds.bump {st : Stage} {linked : Prop} [Decidable linked] {u : ℕ}
    {f : Bool} (h : st.Holds linked u 0 f) : st.Holds linked ((u + 1) % u32Mod) 1 f := by
  cases st with
  | free => exact h
  | committed e =>
    obtain ⟨hl, b, hb, hu⟩ := h
    exact ⟨hl, b + 1, by omega, by rw [hu, Nat.mod_add_mod]; rfl⟩
  | scanning e =>
    obtain ⟨b, hb, hu⟩ := h
    exact ⟨b + 1, by omega, by rw [hu, Nat.mod_add_mod]; rfl⟩
  | resting e =>
    simp only [Stage.Holds] at h ⊢
    rw [h, Nat.mod_add_mod]
  | asleep e =>
    simp only [Stage.Holds] at h ⊢
    rw [h, Nat.mod_add_mod]
  | leaving => trivial
  | exiting => exact h
  | gone => exact h

/-- `Stop` sets a flag. -/
theorem Stage.Holds.flag {st : Stage} {linked : Prop} [Decidable linked] {u c : ℕ}
    {f g : Bool} (h : st.Holds linked u c f) (hfg : f = true → g = true) :
    st.Holds linked u c g := by
  cases st with
  | exiting => exact hfg h
  | gone => exact ⟨h.1, hfg h.2⟩
  | _ => exact h

/-- A step of `Stop` between the bumps. -/
theorem Parking.stop {s t : State n m τ} (h : Parking s) (hpc : t.pc = s.pc)
    (hst : t.stopped_ = s.stopped_) (hwu : t.wakeups_ = s.wakeups_)
    (hb : t.stopPc.toBump = s.stopPc.toBump)
    (hmono : ∀ w, s.has_stopped_ w = true → t.has_stopped_ w = true)
    (hf : ∀ w, t.has_stopped_ w = true ↔ w ∉ t.stopPc.toFlag)
    (hw : ∀ w rest, s.stopPc ≠ .wakeOne w rest) : Parking t := by
  have hbumps : ∀ w, t.stopPc.bumps w = s.stopPc.bumps w := fun w => bumps_congr (by rw [hb])
  refine ⟨fun w => ?_, hst ▸ h.nodup, hwu ▸ h.wakeups_lt, fun w e he => ?_, hf,
    hb ▸ h.bump_nodup⟩
  · simpa only [Parked, hpc, hst, hwu, hbumps] using (h.parked w).flag (hmono w)
  · rw [hpc] at he
    rw [hst, hbumps]
    exact .inl ((h.asleep w e he).resolve_right fun ⟨rest, hr⟩ => hw w rest hr)

/-- `wakeups_.fetch_add(1)` in `Stop`. -/
theorem Parking.stopFetchAdd {s : State n m τ} (h : Parking s) {w : Fin n}
    {rest : List (Fin n)} (hs : s.stopPc = .fetchAdd w rest) :
    Parking { s.fetchAddWakeups w with stopPc := .wakeOne w rest } := by
  have hnd := h.bump_nodup
  have hfl := h.flagged
  rw [hs] at hnd hfl
  obtain ⟨hnot, hrest⟩ := List.nodup_cons.mp hnd
  have h0 : s.stopPc.bumps w = 0 := by simp [hs, StopPc.bumps, StopPc.toBump]
  have h1 : (StopPc.wakeOne w rest).bumps w = 1 := by simp [StopPc.bumps, StopPc.toBump, hnot]
  -- the others are as far as they were
  have hne : ∀ v, v ≠ w → (StopPc.wakeOne w rest).bumps v = s.stopPc.bumps v := by
    intro v hv
    exact bumps_congr (by simp [hs, StopPc.toBump, hv])
  refine ⟨fun v => ?_, h.nodup, fun v => ?_, fun v e he => ?_, hfl, hrest⟩
  · have hp := h.parked v
    by_cases hv : v = w
    · subst hv
      rw [Parked, h0] at hp
      simpa [Parked, State.fetchAddWakeups, h1] using hp.bump
    · simpa [Parked, State.fetchAddWakeups, hv, hne v hv] using hp
  · by_cases hv : v = w
    · subst hv
      change update s.wakeups_ v ((s.wakeups_ v + 1) % u32Mod) v < u32Mod
      rw [Function.update_self]
      exact Nat.mod_lt _ (Nat.two_pow_pos 32)
    · simpa [State.fetchAddWakeups, hv] using h.wakeups_lt v
  · by_cases hv : v = w
    · subst hv
      exact .inr ⟨rest, rfl⟩
    · have hno : ¬∃ r, s.stopPc = .wakeOne v r := by
        rintro ⟨r, hr⟩
        rw [hs] at hr
        cases hr
      have ha := (h.asleep v e he).resolve_right hno
      exact .inl ⟨ha.1, (hne v hv).trans ha.2⟩

/-- `futex::WakeOne` in `Stop`. -/
theorem Parking.stopWake {s : State n m τ} (h : Parking s) {w : Fin n}
    {rest : List (Fin n)} (hs : s.stopPc = .wakeOne w rest) :
    Parking { s.wakeOne w with stopPc := stopNext rest } := by
  have hnd := h.bump_nodup
  have hfl := h.flagged
  rw [hs] at hnd hfl
  have hb : ∀ v, (stopNext rest).bumps v = s.stopPc.bumps v := fun v =>
    bumps_congr (by rw [hs, toBump_stopNext, StopPc.toBump])
  rw [wakeOne_eq]
  refine ⟨fun v => ?_, h.nodup, h.wakeups_lt, fun v e he => ?_, ?_, ?_⟩
  · have hp := h.parked v
    by_cases hv : v = w
    · subst hv
      simpa [Parked, State.setPc, hb] using woken_moves.holds hp
    · simpa [Parked, State.setPc, hv, hb] using hp
  · by_cases hv : v = w
    · subst hv
      exact absurd he (by simp [State.setPc, woken_ne_asleep])
    · have ha := h.asleep v e (by simpa [State.setPc, hv] using he)
      rcases ha with ⟨hl, h0⟩ | ⟨r, hr⟩
      · exact .inl ⟨hl, (hb v).trans h0⟩
      · rw [hs] at hr
        cases hr
        exact absurd rfl hv
  · rw [toFlag_stopNext]
    exact hfl
  · rw [toBump_stopNext]
    exact hnd

/-- Every step keeps the parking invariant. -/
theorem Parking.effect {s s' : State n m τ} {a : Action n m τ} (h : Parking s)
    (hs : Effect capacity s a s') : Parking s' := by
  cases hs with
  | work hw => exact h.workerStep hw
  | spurious hpc =>
    exact h.move ⟨rfl, rfl, rfl, rfl, rfl⟩ (by rw [hpc]; exact .inr ⟨rfl, by simp [Pc.stage]⟩)
  | bodyLocal hpc => exact h.move ⟨rfl, rfl, rfl, rfl, rfl⟩ (by rw [hpc]; exact .refl _)
  | bodySlot hpc hslot => exact h.move ⟨rfl, rfl, rfl, rfl, rfl⟩ (by rw [hpc]; exact .refl _)
  | bodyEvict hpc hslot => exact h.move ⟨rfl, rfl, rfl, rfl, rfl⟩ (by rw [hpc]; exact .refl _)
  | bodyGlobal hpc => exact h.move ⟨rfl, rfl, rfl, rfl, rfl⟩ (by rw [hpc]; exact .refl _)
  | bodyDone hpc => exact h.move ⟨rfl, rfl, rfl, rfl, rfl⟩ (by rw [hpc]; exact .refl _)
  | submit hi => exact h.congr ⟨rfl, rfl, rfl, rfl, rfl⟩
  | outsidePush hi => exact h.congr ⟨rfl, rfl, rfl, rfl, rfl⟩
  | outsideYes hi hsize => exact h.congr ⟨rfl, rfl, rfl, rfl, rfl⟩
  | outsideNo hi hsize => exact h.congr ⟨rfl, rfl, rfl, rfl, rfl⟩
  | outsideWake hi => exact h.wakeWorker.congr ⟨rfl, rfl, rfl, rfl, rfl⟩
  | stopStart hs =>
    refine h.stop rfl rfl rfl (by rw [hs, toBump_stopNext, StopPc.toBump]) (fun _ hw => hw)
      (fun w => ?_) (by simp [hs])
    rw [toFlag_stopNext, h.flagged w, hs, StopPc.toFlag]
  | @stopFlag w rest hs =>
    refine h.stop rfl rfl rfl (by simp [hs, StopPc.toBump]) (fun v hv => ?_) (fun v => ?_)
      (by simp [hs])
    · by_cases hvw : v = w <;> simp [hvw, hv]
    have hf := h.flagged v
    have hnd := h.bump_nodup
    rw [hs] at hf hnd
    by_cases hv : v = w
    · subst hv
      simpa [StopPc.toFlag] using (List.nodup_cons.mp hnd).1
    · simpa [StopPc.toFlag, hv] using hf
  | stopFetchAdd hs => exact h.stopFetchAdd hs
  | stopWake hs => exact h.stopWake hs
  | stopJoin hs hret =>
    refine h.stop rfl rfl rfl (by simp [hs, StopPc.toBump]) (fun _ hw => hw) (fun w => ?_)
      (by simp [hs])
    simpa [hs, StopPc.toFlag] using h.flagged w

theorem parking_of_reachable {C : Action n m τ → State n m τ → Prop} {s : State n m τ}
    (hs : (machine n m τ capacity).ReachableVia C s) : Parking s := by
  refine hs.invariant_of (fun h => queues_of_reachable h) (fun s hinit => ?_)
    fun _ _ _ hq _ h _ hst => h.effect (step_cases hq hst)
  obtain ⟨null, rfl⟩ := hinit
  refine ⟨fun w => ?_, List.nodup_nil, fun _ => Nat.two_pow_pos 32, fun w e he => ?_, fun w => ?_,
    List.nodup_finRange n⟩
  · simp [Parked, State.start, Pc.stage, Stage.Holds]
  · simp [State.start] at he
  · simp [State.start, StopPc.toFlag]

/-! ## `approximate_size_` -/

/-- `approximate_size_` is at least the length of `stopped_`, as long as fewer
than `2^64` calls of `AddStoppedWorker` have been made. -/
def Sized (s : State n m τ) : Prop :=
  s.parks < u64Mod → s.stopped_.length ≤ s.approximate_size_ ∧ s.approximate_size_ ≤ s.parks

theorem Sized.unlink {s : State n m τ} (h : Sized s) (w : Fin n) : Sized (s.unlink w) :=
  fun hp => ⟨(List.length_erase_le).trans (h hp).1, (h hp).2⟩

theorem Sized.addStopped {s : State n m τ} (h : Sized s) (w : Fin n) :
    Sized (s.addStoppedWorker w) := by
  unfold State.addStoppedWorker
  split
  · intro hp
    have hs := h (by dsimp only at hp; omega)
    exact ⟨hs.1, hs.2.trans (Nat.le_succ _)⟩
  · intro hp
    dsimp only at hp ⊢
    have hs := h (by omega)
    rw [Nat.mod_eq_of_lt (by omega), List.length_append, List.length_singleton]
    omega

theorem Sized.wakeWorker {s : State n m τ} (h : Sized s) : Sized s.wakeWorker := by
  cases hst : s.stopped_ with
  | nil => rwa [wakeWorker_of_nil hst]
  | cons w rest =>
    rw [wakeWorker_of_cons hst]
    intro hp
    have hs := h hp
    rw [hst, List.length_cons] at hs
    dsimp only at hp ⊢
    unfold u64Mod at hp ⊢
    omega

theorem Sized.effect {s s' : State n m τ} {a : Action n m τ} (h : Sized s)
    (hs : Effect capacity s a s') : Sized s' := by
  cases hs with
  | work hw =>
    cases hw with
    | shouldWakeNo hpc hsize =>
      rw [notified_eq]
      exact h
    | wakeWorker hpc =>
      rw [notified_eq]
      exact h.wakeWorker
    | addStopped hpc => exact h.addStopped _
    | unlinkFound hpc => exact h.unlink _
    | unlinkStopped hpc => exact h.unlink _
    | unlinkWoken hpc => exact h.unlink _
    | _ => exact h
  | outsideWake hi => exact h.wakeWorker
  | stopWake hs =>
    rw [wakeOne_eq]
    exact h
  | _ => exact h

theorem sized_of_reachable {C : Action n m τ → State n m τ → Prop} {s : State n m τ}
    (hs : (machine n m τ capacity).ReachableVia C s) : Sized s := by
  refine hs.invariant_of (fun h => queues_of_reachable h) (fun s hinit => ?_)
    fun _ _ _ hq _ h _ hst => h.effect (step_cases hq hst)
  obtain ⟨null, rfl⟩ := hinit
  exact fun _ => ⟨le_rfl, le_rfl⟩

/-- When `ShouldWakeWorker` says no, there is nobody to wake. -/
theorem Sized.stopped_eq_nil {s : State n m τ} (h : Sized s) (hp : s.parks < u64Mod)
    (hsize : s.approximate_size_ = 0) : s.stopped_ = [] :=
  List.eq_nil_of_length_eq_zero (by have := (h hp).1; omega)

end Exe.Pool
