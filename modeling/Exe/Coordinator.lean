/-
`v2::Coordinator`, access by access: what `approximate_size_` is worth.

The list of the workers that sleep is guarded by a spin lock, and next to it a counter is kept
that `ShouldWakeWorker` reads without the lock. `AddStoppedWorker` and `WakeWorker` count
each worker they link and take out. `Unlink` takes a worker out as well, if nobody has done
it before, and does not count it: from then on the counter is one too high, for good. What
holds in every run is one equation (`Inv.size`):

    approximate_size_ = linked + [on its way in or out] + taken out by Unlink    (mod 2^64)

The methods are those of the pool, which has them in one step each (`Pool`). The pool is a run
of this machine (`run_of_pool`), so the equation is one about the pool.

# Conventions

* There are `n` workers, and threads of type `θ`, each of which may call any method at any
  time, for any worker. `WakeWorker` may be called on its own.
* `Wake`, inside `WakeWorker`, works on the worker's own words, which are not here.
* A worker is linked if it is in `stopped_`.
-/
import Exe.Machine
import Exe.Places
import Exe.PoolSteps
import Mathlib.Data.Fintype.Card

set_option autoImplicit false

namespace Exe.Pool.Coordinator

open Function (update)

/-! ## The model -/

/-- The methods that take the lock. -/
inductive Section (n : ℕ)
  | addStoppedWorker (w : Fin n)
  | unlink (w : Fin n)
  | wakeWorker
  deriving DecidableEq

/-- Where a thread is: outside, before the load of `ShouldWakeWorker`, before the lock, in one
of the three sections, or before the release of the lock. -/
inductive Pc (n : ℕ)
  | outside
  | shouldWakeWorker
  | lock (sec : Section n)
  | addIsLinked (w : Fin n)
  | fetchAdd (w : Fin n)
  | pushBack (w : Fin n)
  | wakeIsEmpty
  | popFront
  | wake (w : Fin n)
  | fetchSub (w : Fin n)
  | unlinkIsLinked (w : Fin n)
  | unlinkNode (w : Fin n)
  | unlock
  deriving DecidableEq

/-- The first access under the lock. -/
def Section.enter {n : ℕ} : Section n → Pc n
  | addStoppedWorker w => .addIsLinked w
  | unlink w => .unlinkIsLinked w
  | wakeWorker => .wakeIsEmpty

structure State (n : ℕ) (θ : Type*) where
  stopped_ : List (Fin n)
  approximate_size_ : ℕ
  spin_ : Option θ
  pc : θ → Pc n

variable {n : ℕ} {θ : Type*}

def State.new : State n θ where
  stopped_ := []
  approximate_size_ := 0
  spin_ := none
  pc _ := .outside

def ShouldWakeWorker (s : State n θ) : Bool := decide (0 < s.approximate_size_)

/-- Who moves: a thread calls `NotifyOnSubmit` or one of the others, or makes its next access. -/
inductive Action (n : ℕ) (θ : Type*)
  | notifyOnSubmit (t : θ)
  | call (t : θ) (sec : Section n)
  | run (t : θ)

section Step

variable [DecidableEq θ]

def State.setPc (s : State n θ) (t : θ) (pc : Pc n) : State n θ :=
  { s with pc := update s.pc t pc }

/-- The next access of thread `t`. -/
def run (t : θ) (s : State n θ) : Option (State n θ) :=
  match s.pc t with
  | .outside => none
  | .shouldWakeWorker =>
    some (s.setPc t (if ShouldWakeWorker s then .lock .wakeWorker else .outside))
  | .lock sec =>
    match s.spin_ with
    | none => some ({ s with spin_ := some t }.setPc t sec.enter)
    | some _ => none
  | .addIsLinked w => some (s.setPc t (if w ∈ s.stopped_ then .unlock else .fetchAdd w))
  | .fetchAdd w =>
    some ({ s with approximate_size_ := (s.approximate_size_ + 1) % u64Mod }.setPc t (.pushBack w))
  | .pushBack w => some ({ s with stopped_ := s.stopped_ ++ [w] }.setPc t .unlock)
  | .wakeIsEmpty => some (s.setPc t (if s.stopped_.isEmpty then .unlock else .popFront))
  | .popFront =>
    match s.stopped_ with
    | [] => none
    | w :: rest => some ({ s with stopped_ := rest }.setPc t (.wake w))
  | .wake w => some (s.setPc t (.fetchSub w))
  | .fetchSub _ =>
    some ({ s with approximate_size_ := (s.approximate_size_ + (u64Mod - 1)) % u64Mod }.setPc t
      .unlock)
  -- the counter stays as it is
  | .unlinkIsLinked w => some (s.setPc t (if w ∈ s.stopped_ then .unlinkNode w else .unlock))
  | .unlinkNode w => some ({ s with stopped_ := s.stopped_.erase w }.setPc t .unlock)
  | .unlock => some ({ s with spin_ := none }.setPc t .outside)

def step (a : Action n θ) (s : State n θ) : Option (State n θ) :=
  match a with
  | .notifyOnSubmit t => if s.pc t = .outside then some (s.setPc t .shouldWakeWorker) else none
  | .call t sec => if s.pc t = .outside then some (s.setPc t (.lock sec)) else none
  | .run t => run t s

def machine (n : ℕ) (θ : Type*) [DecidableEq θ] : Machine (State n θ) (Action n θ) where
  init s := s = .new
  step := step

end Step

/-- No operation is in progress. -/
def State.Quiet (s : State n θ) : Prop := ∀ t, s.pc t = .outside

/-- The counter is the length of the list, and the fast path is taken if nobody is parked. -/
structure Exact (s : State n θ) : Prop where
  size : s.approximate_size_ = s.stopped_.length
  fast : ShouldWakeWorker s = false ↔ s.stopped_ = []

def Pc.isUnlinkNode : Pc n → Bool
  | unlinkNode _ => true
  | _ => false

/-- `Unlink` has found its worker linked, and takes it out. -/
def unlinks (a : Action n θ) (s : State n θ) : Bool :=
  match a with
  | .run t => (s.pc t).isUnlinkNode
  | _ => false

/-- How many workers `Unlink` has taken out. -/
def drift (h : List (Transition (State n θ) (Action n θ))) : ℕ :=
  h.countP fun t => unlinks t.act t.pre

/-! ## The equation -/

/-- The thread holds the lock. -/
def Pc.inside : Pc n → Bool
  | outside => false
  | shouldWakeWorker => false
  | lock _ => false
  | _ => true

/-- What is counted and not linked, or taken out and not counted yet. -/
def Pc.pending : Pc n → ℕ
  | pushBack _ => 1
  | wake _ => 1
  | fetchSub _ => 1
  | _ => 0

/-- What the tests of a section have found, which holds as long as the lock is held. -/
def Pc.Fits (l : List (Fin n)) : Pc n → Prop
  | fetchAdd w => w ∉ l
  | pushBack w => w ∉ l
  | popFront => l ≠ []
  | wake w => w ∉ l
  | fetchSub w => w ∉ l
  | unlinkNode w => w ∈ l
  | _ => True

theorem Pc.fits_of_outside {pc : Pc n} (h : pc.inside = false) (l : List (Fin n)) : pc.Fits l := by
  cases pc with
  | fetchAdd w => cases h
  | pushBack w => cases h
  | popFront => cases h
  | wake w => cases h
  | fetchSub w => cases h
  | unlinkNode w => cases h
  | _ => trivial

theorem Section.inside_enter (sec : Section n) : sec.enter.inside = true := by
  cases sec <;> rfl

theorem Section.pending_enter (sec : Section n) : sec.enter.pending = 0 := by
  cases sec <;> rfl

theorem Section.fits_enter (sec : Section n) (l : List (Fin n)) : sec.enter.Fits l := by
  cases sec <;> trivial

/-- What the holder of the lock has on its way. -/
def State.pending (s : State n θ) : ℕ := s.spin_.elim 0 fun t => (s.pc t).pending

/-- `d` workers have been taken out by `Unlink`. -/
structure Inv (d : ℕ) (s : State n θ) : Prop where
  holder : ∀ t, (s.pc t).inside = true ↔ s.spin_ = some t
  nodup : s.stopped_.Nodup
  fits : ∀ t, (s.pc t).Fits s.stopped_
  size : s.approximate_size_ = (s.stopped_.length + s.pending + d) % u64Mod

/-- The equation, for the holder of the lock. -/
theorem Inv.size_at {d : ℕ} {s : State n θ} (h : Inv d s) {t : θ} {pc : Pc n} (hpc : s.pc t = pc)
    (hin : pc.inside = true) :
    s.approximate_size_ = (s.stopped_.length + pc.pending + d) % u64Mod := by
  subst hpc
  have hsize := h.size
  rw [State.pending, (h.holder t).mp hin] at hsize
  exact hsize

section Step

variable [DecidableEq θ]

/-- The holder of the lock makes an access. -/
theorem Inv.within {d d' : ℕ} {s : State n θ} (h : Inv d s) {t : θ} {pc pc' : Pc n}
    (hpc : s.pc t = pc) (hin : pc.inside = true) (hin' : pc'.inside = true)
    {stopped : List (Fin n)} {size : ℕ} (hnodup : stopped.Nodup) (hfits : pc'.Fits stopped)
    (hsize : size = (stopped.length + pc'.pending + d') % u64Mod) :
    Inv d' { s with
      stopped_ := stopped
      approximate_size_ := size
      pc := update s.pc t pc' } := by
  subst hpc
  have hspin := (h.holder t).mp hin
  refine ⟨?_, hnodup, ?_, ?_⟩
  · refine (Function.forall_update_iff s.pc fun u pc => pc.inside = true ↔ s.spin_ = some u).mpr ?_
    refine ⟨?_, fun u _ => h.holder u⟩
    rw [hin', hspin]
    exact ⟨fun _ => rfl, fun _ => rfl⟩
  · refine (Function.forall_update_iff s.pc fun _ pc => pc.Fits stopped).mpr ⟨hfits, ?_⟩
    intro u hu
    -- nobody else is in a section
    have hout : (s.pc u).inside = false := by
      rw [Bool.eq_false_iff, Ne, h.holder u, hspin, Option.some.injEq]
      exact fun he => hu he.symm
    exact Pc.fits_of_outside hout stopped
  · simp only [State.pending, hspin, Option.elim_some, Function.update_self]
    exact hsize

/-- A thread that does not hold the lock makes an access, and does not get it. -/
theorem Inv.away {d : ℕ} {s : State n θ} (h : Inv d s) {t : θ} {pc pc' : Pc n}
    (hpc : s.pc t = pc) (hin : pc.inside = false) (hin' : pc'.inside = false) :
    Inv d (s.setPc t pc') := by
  subst hpc
  have hspin : s.spin_ ≠ some t := by
    rw [Ne, ← h.holder t, hin]
    exact Bool.false_ne_true
  refine ⟨?_, h.nodup, ?_, ?_⟩
  · refine (Function.forall_update_iff s.pc fun u pc => pc.inside = true ↔ s.spin_ = some u).mpr ?_
    refine ⟨?_, fun u _ => h.holder u⟩
    rw [hin']
    exact ⟨fun he => absurd he Bool.false_ne_true, fun he => absurd he hspin⟩
  · refine (Function.forall_update_iff s.pc fun _ pc => pc.Fits s.stopped_).mpr ?_
    exact ⟨Pc.fits_of_outside hin' _, fun u _ => h.fits u⟩
  · have hpending : (s.setPc t pc').pending = s.pending := by
      unfold State.pending State.setPc
      cases hs : s.spin_ with
      | none => rfl
      | some u =>
        have hu : u ≠ t := fun he => hspin (by rw [hs, he])
        simp only [Option.elim_some, Function.update_of_ne hu]
    rw [hpending]
    exact h.size

theorem Inv.acquire {d : ℕ} {s : State n θ} (h : Inv d s) {t : θ} {sec : Section n}
    (hfree : s.spin_ = none) : Inv d ({ s with spin_ := some t }.setPc t sec.enter) := by
  have hout : ∀ u, (s.pc u).inside = false := by
    intro u
    rw [Bool.eq_false_iff, Ne, h.holder u, hfree]
    exact fun he => by cases he
  have hsize := h.size
  rw [State.pending, hfree, Option.elim_none] at hsize
  refine ⟨?_, h.nodup, ?_, ?_⟩
  · refine (Function.forall_update_iff s.pc fun u pc => pc.inside = true ↔ some t = some u).mpr ?_
    refine ⟨?_, ?_⟩
    · rw [sec.inside_enter]
      exact ⟨fun _ => rfl, fun _ => rfl⟩
    · intro u hu
      rw [hout u, Option.some.injEq]
      exact ⟨fun he => absurd he Bool.false_ne_true, fun he => absurd he.symm hu⟩
  · refine (Function.forall_update_iff s.pc fun _ pc => pc.Fits s.stopped_).mpr ?_
    exact ⟨sec.fits_enter _, fun u _ => h.fits u⟩
  · simp only [State.pending, State.setPc, Option.elim_some, Function.update_self,
      sec.pending_enter]
    exact hsize

theorem Inv.release {d : ℕ} {s : State n θ} (h : Inv d s) {t : θ} (hpc : s.pc t = .unlock) :
    Inv d ({ s with spin_ := none }.setPc t .outside) := by
  have hspin := (h.holder t).mp (by rw [hpc]; rfl)
  have hsize := h.size_at hpc rfl
  refine ⟨?_, h.nodup, ?_, hsize⟩
  · refine (Function.forall_update_iff s.pc fun u pc => pc.inside = true ↔ none = some u).mpr ?_
    refine ⟨?_, ?_⟩
    · exact ⟨fun he => absurd he Bool.false_ne_true, fun he => by cases he⟩
    · intro u hu
      rw [h.holder u, hspin, Option.some.injEq]
      exact ⟨fun he => absurd he.symm hu, fun he => by cases he⟩
  · refine (Function.forall_update_iff s.pc fun _ pc => pc.Fits s.stopped_).mpr ?_
    exact ⟨trivial, fun u _ => h.fits u⟩

/-- The step rule for the accesses of a section. -/
theorem Inv.run {d : ℕ} {s s' : State n θ} (h : Inv d s) {t : θ} (hst : run t s = some s') :
    Inv (d + (s.pc t).isUnlinkNode.toNat) s' := by
  unfold Coordinator.run at hst
  have hfits := h.fits t
  cases hpc : s.pc t with
  | outside =>
    rw [hpc] at hst
    cases hst
  | shouldWakeWorker =>
    rw [hpc] at hst
    cases hst
    refine h.away hpc rfl ?_
    split <;> rfl
  | lock sec =>
    rw [hpc] at hst
    cases hspin : s.spin_ with
    | some u =>
      rw [hspin] at hst
      cases hst
    | none =>
      rw [hspin] at hst
      cases hst
      exact h.acquire hspin
  | addIsLinked w =>
    have hsize := h.size_at hpc rfl
    rw [hpc] at hst
    cases hst
    by_cases hw : w ∈ s.stopped_
    · rw [if_pos hw]
      exact h.within hpc rfl rfl h.nodup trivial hsize
    · rw [if_neg hw]
      exact h.within hpc rfl rfl h.nodup hw hsize
  | fetchAdd w =>
    have hsize := h.size_at hpc rfl
    rw [hpc] at hst hfits
    cases hst
    refine h.within hpc rfl rfl h.nodup hfits ?_
    rw [hsize, Nat.mod_add_mod]
    simp only [Pc.pending, Pc.isUnlinkNode, Bool.toNat_false]
    congr 1
    omega
  | pushBack w =>
    have hsize := h.size_at hpc rfl
    rw [hpc] at hst hfits
    cases hst
    refine h.within hpc rfl rfl ?_ trivial ?_
    · exact Places.nodup_push h.nodup hfits
    · rw [hsize, List.length_append, List.length_singleton]
      rfl
  | wakeIsEmpty =>
    have hsize := h.size_at hpc rfl
    rw [hpc] at hst
    cases hst
    by_cases hnil : s.stopped_.isEmpty = true
    · rw [if_pos hnil]
      exact h.within hpc rfl rfl h.nodup trivial hsize
    · rw [if_neg hnil]
      refine h.within hpc rfl rfl h.nodup ?_ hsize
      rwa [List.isEmpty_iff] at hnil
  | popFront =>
    have hsize := h.size_at hpc rfl
    rw [hpc] at hst
    cases hstopped : s.stopped_ with
    | nil =>
      rw [hstopped] at hst
      cases hst
    | cons w rest =>
      have hnodup := h.nodup
      rw [hstopped] at hst hsize hnodup
      cases hst
      obtain ⟨hw, hrest⟩ := List.nodup_cons.mp hnodup
      refine h.within hpc rfl rfl hrest hw ?_
      rw [hsize, List.length_cons]
      rfl
  | wake w =>
    have hsize := h.size_at hpc rfl
    rw [hpc] at hst hfits
    cases hst
    exact h.within hpc rfl rfl h.nodup hfits hsize
  | fetchSub w =>
    have hsize := h.size_at hpc rfl
    rw [hpc] at hst
    cases hst
    refine h.within hpc rfl rfl h.nodup trivial ?_
    rw [hsize]
    simp only [Pc.pending, Pc.isUnlinkNode, Bool.toNat_false, u64Mod]
    omega
  | unlinkIsLinked w =>
    have hsize := h.size_at hpc rfl
    rw [hpc] at hst
    cases hst
    by_cases hw : w ∈ s.stopped_
    · rw [if_pos hw]
      exact h.within hpc rfl rfl h.nodup hw hsize
    · rw [if_neg hw]
      exact h.within hpc rfl rfl h.nodup trivial hsize
  | unlinkNode w =>
    have hsize := h.size_at hpc rfl
    rw [hpc] at hst hfits
    cases hst
    refine h.within hpc rfl rfl (h.nodup.erase w) trivial ?_
    have hpos := List.length_pos_of_mem hfits
    rw [hsize, List.length_erase_of_mem hfits]
    simp only [Pc.pending, Pc.isUnlinkNode, Bool.toNat_true]
    congr 1
    omega
  | unlock =>
    rw [hpc] at hst
    cases hst
    exact h.release hpc

theorem Inv.step {d : ℕ} {s s' : State n θ} {a : Action n θ} (h : Inv d s)
    (hst : step a s = some s') : Inv (d + (unlinks a s).toNat) s' := by
  cases a with
  | notifyOnSubmit t =>
    simp only [Coordinator.step, Option.ite_none_right_eq_some, Option.some.injEq] at hst
    obtain ⟨hpc, rfl⟩ := hst
    exact h.away hpc rfl rfl
  | call t sec =>
    simp only [Coordinator.step, Option.ite_none_right_eq_some, Option.some.injEq] at hst
    obtain ⟨hpc, rfl⟩ := hst
    exact h.away hpc rfl rfl
  | run t => exact h.run hst

omit [DecidableEq θ] in
theorem Inv.new : Inv 0 (.new : State n θ) := by
  refine ⟨?_, List.nodup_nil, fun _ => trivial, rfl⟩
  intro t
  simp only [State.new, Pc.inside, Bool.false_eq_true, reduceCtorEq]

omit [DecidableEq θ] in
theorem drift_cons (t : Transition (State n θ) (Action n θ))
    (h : List (Transition (State n θ) (Action n θ))) :
    drift (t :: h) = drift h + (unlinks t.act t.pre).toNat := by
  rw [drift, List.countP_cons, ← drift]
  cases unlinks t.act t.pre <;> rfl

theorem inv_of_run {h : List (Transition (State n θ) (Action n θ))} {s : State n θ}
    (hr : (machine n θ).Run h s) : Inv (drift h) s := by
  refine hr.invariant (I := fun h s => Inv (drift h) s) (fun s hinit => ?_)
    fun h a s s' _ hinv hst => ?_
  · have hnew : s = .new := hinit
    rw [hnew]
    exact .new
  · rw [drift_cons]
    exact hinv.step hst

end Step

/-! ## When the counter is exact -/

/-- Nobody is in two places of the list. -/
theorem Inv.length_le {d : ℕ} {s : State n θ} (h : Inv d s) : s.stopped_.length ≤ n := by
  have hcard := h.nodup.length_le_card
  rwa [Fintype.card_fin] at hcard

theorem Inv.size_of_quiet {d : ℕ} {s : State n θ} (h : Inv d s) (hquiet : s.Quiet) :
    s.approximate_size_ = (s.stopped_.length + d) % u64Mod := by
  have hsize := h.size
  cases hs : s.spin_ with
  | none =>
    rw [State.pending, hs] at hsize
    exact hsize
  | some t =>
    have hin := (h.holder t).mpr hs
    rw [hquiet t] at hin
    cases hin

theorem exact_of_size {s : State n θ} (h : s.approximate_size_ = s.stopped_.length) : Exact s := by
  refine ⟨h, ?_⟩
  rw [ShouldWakeWorker, decide_eq_false_iff_not, h, ← List.length_eq_zero_iff]
  omega

/-- What `Unlink` has taken out is what the counter is off by. -/
theorem Inv.exact_iff {d : ℕ} {s : State n θ} (h : Inv d s) (hn : n < u64Mod) (hquiet : s.Quiet) :
    Exact s ↔ d % u64Mod = 0 := by
  have hlen := h.length_le
  have hsize := h.size_of_quiet hquiet
  constructor
  · intro hexact
    have heq := hexact.size
    unfold u64Mod at hn hsize ⊢
    omega
  · intro hdrift
    refine exact_of_size ?_
    unfold u64Mod at hn hsize hdrift
    omega

variable [DecidableEq θ]

/-- **The counter is exact as long as `Unlink` finds nobody.** In a state in which no operation
is in progress, `approximate_size_` is the number of the workers that are linked, and
`ShouldWakeWorker` is false exactly if there is none, if and only if the number of workers
that `Unlink` has taken out is a multiple of `2 ^ 64`. While it has taken out none, no
`fetch_sub` finds the counter at zero, in the middle of the operations either. There are as
many workers as `size_t` can count. -/
theorem exact_iff_no_drift (hn : n < u64Mod) {h : List (Transition (State n θ) (Action n θ))}
    {s : State n θ} (hr : (machine n θ).Run h s) :
    (s.Quiet → (Exact s ↔ drift h % u64Mod = 0)) ∧
    ((∀ t ∈ h, unlinks t.act t.pre = false) →
      (s.Quiet → Exact s) ∧ ∀ t w, s.pc t = .fetchSub w → 0 < s.approximate_size_) := by
  have hinv := inv_of_run hr
  have hiff : s.Quiet → (Exact s ↔ drift h % u64Mod = 0) := hinv.exact_iff hn
  refine ⟨hiff, ?_⟩
  intro hnone
  have hzero : drift h = 0 := by
    rw [drift, List.countP_eq_zero]
    intro t ht
    rw [hnone t ht]
    exact Bool.false_ne_true
  refine ⟨?_, ?_⟩
  · intro hquiet
    rw [hiff hquiet, hzero]
    rfl
  · intro t w hpc
    -- the worker that is on its way out is counted, and is none of those in the list
    have hsize := hinv.size_at hpc rfl
    have hfits := hinv.fits t
    rw [hpc] at hfits
    have hlt : s.stopped_.length < n := by
      have hcard := (List.nodup_cons.mpr ⟨hfits, hinv.nodup⟩).length_le_card
      rwa [Fintype.card_fin, List.length_cons] at hcard
    simp only [Pc.pending, hzero] at hsize
    unfold u64Mod at hn hsize
    omega

/-- A worker links itself, and a `NotifyOnSubmit` takes it out before it calls `Unlink`. -/
theorem exact_iff_no_drift_woken : ∃ s : State 1 (Fin 2), (machine 1 (Fin 2)).Reachable s ∧
    s.Quiet ∧ Exact s := by
  obtain ⟨h, s, hr, hp⟩ := Machine.Run.record_any (M := machine 1 (Fin 2)) (s := .new) (.init rfl)
    [.call 0 (.addStoppedWorker 0), .run 0, .run 0, .run 0, .run 0, .run 0, .notifyOnSubmit 1,
      .run 1, .run 1, .run 1, .run 1, .run 1, .run 1, .run 1, .call 0 (.unlink 0), .run 0, .run 0,
      .run 0]
    (fun h s => decide (drift h = 0 ∧ ∀ t, s.pc t = .outside)) (by decide)
  obtain ⟨hdrift, hquiet⟩ := of_decide_eq_true hp
  refine ⟨s, hr.reachable, hquiet, ((exact_iff_no_drift (by decide) hr).1 hquiet).mpr ?_⟩
  rw [hdrift]
  rfl

/-- The worker calls `Unlink` while it is linked: nobody is, and the counter says one. -/
theorem counts_nobody : ∃ s : State 1 (Fin 1), (machine 1 (Fin 1)).Reachable s ∧ s.Quiet ∧
    s.stopped_ = [] ∧ s.approximate_size_ = 1 ∧ ¬Exact s := by
  obtain ⟨s, hs, hp⟩ := Machine.Reachable.exec_any (M := machine 1 (Fin 1)) (s := .new) (.init rfl)
    [.call 0 (.addStoppedWorker 0), .run 0, .run 0, .run 0, .run 0, .run 0, .call 0 (.unlink 0),
      .run 0, .run 0, .run 0, .run 0]
    (fun s => decide ((∀ t, s.pc t = .outside) ∧ s.stopped_ = [] ∧ s.approximate_size_ = 1))
    (by decide)
  obtain ⟨hquiet, hnil, hone⟩ := of_decide_eq_true hp
  refine ⟨s, hs, hquiet, hnil, hone, ?_⟩
  intro hexact
  have hsize := hexact.size
  rw [hone, hnil] at hsize
  cases hsize

/-! ## The pool -/

/-- From `s` the machine can go on to `s'`, and `Unlink` takes out `k` workers on the way. -/
def Goes (k : ℕ) (s s' : State n θ) : Prop :=
  ∀ h, (machine n θ).Run h s → ∃ h', (machine n θ).Run h' s' ∧ drift h' = drift h + k

theorem Goes.refl (s : State n θ) : Goes 0 s s := fun h hr => ⟨h, hr, rfl⟩

theorem Goes.trans {k k' : ℕ} {s s' s'' : State n θ} (hg : Goes k s s') (hg' : Goes k' s' s'') :
    Goes (k + k') s s'' := by
  intro h hr
  obtain ⟨h', hr', hdrift⟩ := hg h hr
  obtain ⟨h'', hr'', hdrift'⟩ := hg' h' hr'
  refine ⟨h'', hr'', ?_⟩
  rw [hdrift', hdrift, Nat.add_assoc]

theorem goes_of_step {s s' : State n θ} {a : Action n θ} (hst : step a s = some s') :
    Goes (unlinks a s).toNat s s' :=
  fun _ hr => ⟨_, hr.step a hst, drift_cons _ _⟩

/-- Between the operations. -/
def quiet (θ : Type*) (stopped : List (Fin n)) (size : ℕ) : State n θ :=
  ⟨stopped, size, none, fun _ => .outside⟩

/-- Only thread `t` is inside an operation. -/
def busy (t : θ) (pc : Pc n) (stopped : List (Fin n)) (size : ℕ) (spin : Option θ) : State n θ :=
  ⟨stopped, size, spin, update (fun _ => .outside) t pc⟩

/-- One access under the lock. -/
theorem goes_access {t : θ} {pc pc' : Pc n} {stopped stopped' : List (Fin n)} {size size' : ℕ}
    (hst : run t (busy t pc stopped size (some t)) = some (busy t pc' stopped' size' (some t))) :
    Goes pc.isUnlinkNode.toNat (busy t pc stopped size (some t))
      (busy t pc' stopped' size' (some t)) := by
  have hg := goes_of_step (a := .run t) hst
  simp only [unlinks, busy, Function.update_self] at hg
  exact hg

/-- A whole call: the lock is taken, the section run, and the lock released. -/
theorem goes_call {k : ℕ} (t : θ) (sec : Section n) {stopped stopped' : List (Fin n)}
    {size size' : ℕ} (hg : Goes k (busy t sec.enter stopped size (some t))
      (busy t .unlock stopped' size' (some t))) :
    Goes k (quiet θ stopped size) (quiet θ stopped' size') := by
  have hidle : update (fun _ : θ => (Pc.outside : Pc n)) t .outside = fun _ => .outside :=
    Function.update_eq_self _ _
  have hcall : step (.call t sec) (quiet θ stopped size) =
      some (busy t (.lock sec) stopped size none) := rfl
  have hlock : step (.run t) (busy t (.lock sec) stopped size none) =
      some (busy t sec.enter stopped size (some t)) := by
    simp only [step, run, busy, State.setPc, Function.update_self, Function.update_idem]
  have hunlock : step (.run t) (busy t .unlock stopped' size' (some t)) =
      some (quiet θ stopped' size') := by
    simp only [step, run, busy, State.setPc, Function.update_self, Function.update_idem, quiet,
      hidle]
  have hall := (((goes_of_step hcall).trans (goes_of_step hlock)).trans hg).trans
    (goes_of_step hunlock)
  simpa only [unlinks, busy, Function.update_self, Pc.isUnlinkNode, Bool.toNat_false,
    Nat.zero_add, Nat.add_zero] using hall

section Sections

variable {w : Fin n} {stopped : List (Fin n)} {size : ℕ}

theorem goes_addStoppedWorker (t : θ) (hw : w ∉ stopped) :
    Goes 0 (quiet θ stopped size) (quiet θ (stopped ++ [w]) ((size + 1) % u64Mod)) := by
  refine goes_call t (.addStoppedWorker w) ?_
  have htest : Goes 0 (busy t (.addIsLinked w) stopped size (some t))
      (busy t (.fetchAdd w) stopped size (some t)) := by
    refine goes_access ?_
    simp only [run, busy, State.setPc, Function.update_self, Function.update_idem, hw,
      if_false]
  have hadd : Goes 0 (busy t (.fetchAdd w) stopped size (some t))
      (busy t (.pushBack w) stopped ((size + 1) % u64Mod) (some t)) := by
    refine goes_access ?_
    simp only [run, busy, State.setPc, Function.update_self, Function.update_idem]
  have hpush : Goes 0 (busy t (.pushBack w) stopped ((size + 1) % u64Mod) (some t))
      (busy t .unlock (stopped ++ [w]) ((size + 1) % u64Mod) (some t)) := by
    refine goes_access ?_
    simp only [run, busy, State.setPc, Function.update_self, Function.update_idem]
  exact (htest.trans hadd).trans hpush

theorem goes_wakeWorker (t : θ) :
    Goes 0 (quiet θ (w :: stopped) size) (quiet θ stopped ((size + (u64Mod - 1)) % u64Mod)) := by
  refine goes_call t .wakeWorker ?_
  have htest : Goes 0 (busy t .wakeIsEmpty (w :: stopped) size (some t))
      (busy t .popFront (w :: stopped) size (some t)) := by
    refine goes_access ?_
    simp only [run, busy, State.setPc, Function.update_self, Function.update_idem,
      List.isEmpty_cons, Bool.false_eq_true, if_false]
  have hpop : Goes 0 (busy t .popFront (w :: stopped) size (some t))
      (busy t (.wake w) stopped size (some t)) := by
    refine goes_access ?_
    simp only [run, busy, State.setPc, Function.update_self, Function.update_idem]
  have hwake : Goes 0 (busy t (.wake w) stopped size (some t))
      (busy t (.fetchSub w) stopped size (some t)) := by
    refine goes_access ?_
    simp only [run, busy, State.setPc, Function.update_self, Function.update_idem]
  have hsub : Goes 0 (busy t (.fetchSub w) stopped size (some t))
      (busy t .unlock stopped ((size + (u64Mod - 1)) % u64Mod) (some t)) := by
    refine goes_access ?_
    simp only [run, busy, State.setPc, Function.update_self, Function.update_idem]
  exact ((htest.trans hpop).trans hwake).trans hsub

theorem goes_unlink (t : θ) (hw : w ∈ stopped) :
    Goes 1 (quiet θ stopped size) (quiet θ (stopped.erase w) size) := by
  refine goes_call t (.unlink w) ?_
  have htest : Goes 0 (busy t (.unlinkIsLinked w) stopped size (some t))
      (busy t (.unlinkNode w) stopped size (some t)) := by
    refine goes_access ?_
    simp only [run, busy, State.setPc, Function.update_self, Function.update_idem, hw,
      if_true]
  have htake : Goes 1 (busy t (.unlinkNode w) stopped size (some t))
      (busy t .unlock (stopped.erase w) size (some t)) := by
    refine goes_access ?_
    simp only [run, busy, State.setPc, Function.update_self, Function.update_idem]
  exact htest.trans htake

end Sections

section Pool

variable {m capacity : ℕ} {τ : Type*}

/-- The coordinator of the pool, between the steps. Its threads are the workers and the threads
outside. -/
def view (p : Pool.State n m τ) : State n (Fin n ⊕ Fin m) :=
  quiet (Fin n ⊕ Fin m) p.stopped_ p.approximate_size_

/-- The worker calls `Unlink` next. -/
def isUnlink : Pool.Pc n τ → Bool
  | .unlinkFound _ => true
  | .unlinkStopped => true
  | .unlinkWoken => true
  | _ => false

/-- A worker calls `Unlink`, and is linked. -/
def poolUnlinks (a : Pool.Action n m τ) (p : Pool.State n m τ) : Bool :=
  match a with
  | .work w _ => isUnlink (p.pc w) && decide (w ∈ p.stopped_)
  | _ => false

/-- How many workers `Unlink` has taken out. -/
def poolDrift (h : List (Transition (Pool.State n m τ) (Pool.Action n m τ))) : ℕ :=
  h.countP fun t => poolUnlinks t.act t.pre

theorem goes_view_wakeWorker (t : Fin n ⊕ Fin m) (p : Pool.State n m τ) :
    Goes 0 (view p) (view p.wakeWorker) := by
  cases hstopped : p.stopped_ with
  | nil =>
    rw [wakeWorker_of_nil hstopped]
    exact .refl _
  | cons w rest =>
    rw [wakeWorker_of_cons hstopped]
    unfold view
    rw [hstopped]
    exact goes_wakeWorker t

theorem goes_view_addStoppedWorker (p : Pool.State n m τ) (w : Fin n) :
    Goes 0 (view p) (view (p.addStoppedWorker w)) := by
  unfold Pool.State.addStoppedWorker
  by_cases hw : w ∈ p.stopped_
  · rw [if_pos hw]
    exact .refl _
  · rw [if_neg hw]
    exact goes_addStoppedWorker (.inl w) hw

theorem goes_view_unlink (p : Pool.State n m τ) (w : Fin n) :
    Goes (decide (w ∈ p.stopped_)).toNat (view p) (view (p.unlink w)) := by
  unfold view Pool.State.unlink
  by_cases hw : w ∈ p.stopped_
  · rw [decide_eq_true hw]
    exact goes_unlink (.inl w) hw
  · rw [decide_eq_false hw, List.erase_of_not_mem hw]
    exact .refl _

/-- A step of the pool is a call of the coordinator, or none of its business. -/
theorem goes_of_effect {p p' : Pool.State n m τ} {a : Pool.Action n m τ}
    (h : Effect capacity p a p') : Goes (poolUnlinks a p).toNat (view p) (view p') := by
  cases h with
  | @work w weak p' hw =>
    cases hw with
    | shouldWakeNo hpc hsize =>
      rw [notified_eq]
      simp only [poolUnlinks, hpc, isUnlink, Bool.false_and, Bool.toNat_false]
      exact .refl _
    | wakeWorker hpc =>
      rw [notified_eq]
      simp only [poolUnlinks, hpc, isUnlink, Bool.false_and, Bool.toNat_false]
      exact goes_view_wakeWorker (.inl w) p
    | addStopped hpc =>
      simp only [poolUnlinks, hpc, isUnlink, Bool.false_and, Bool.toNat_false]
      exact goes_view_addStoppedWorker p w
    | unlinkFound hpc =>
      simp only [poolUnlinks, hpc, isUnlink, Bool.true_and]
      exact goes_view_unlink p w
    | unlinkStopped hpc =>
      simp only [poolUnlinks, hpc, isUnlink, Bool.true_and]
      exact goes_view_unlink p w
    | unlinkWoken hpc =>
      simp only [poolUnlinks, hpc, isUnlink, Bool.true_and]
      exact goes_view_unlink p w
    | _ =>
      simp only [poolUnlinks, *, isUnlink, Bool.false_and, Bool.toNat_false]
      exact .refl _
  | @outsideWake i hi => exact goes_view_wakeWorker (.inr i) p
  | stopWake hs =>
    rw [wakeOne_eq]
    exact .refl _
  | _ => exact .refl _

theorem poolDrift_cons (t : Transition (Pool.State n m τ) (Pool.Action n m τ))
    (h : List (Transition (Pool.State n m τ) (Pool.Action n m τ))) :
    poolDrift (t :: h) = poolDrift h + (poolUnlinks t.act t.pre).toNat := by
  rw [poolDrift, List.countP_cons, ← poolDrift]
  cases poolUnlinks t.act t.pre <;> rfl

/-- The pool is a run of the coordinator: a step of the pool is a whole call, or nothing. -/
theorem run_of_pool {h : List (Transition (Pool.State n m τ) (Pool.Action n m τ))}
    {p : Pool.State n m τ} (hr : (Pool.machine n m τ capacity).Run h p) :
    ∃ h', (machine n (Fin n ⊕ Fin m)).Run h' (view p) ∧ drift h' = poolDrift h := by
  refine hr.invariant
    (I := fun h p => ∃ h', (machine n (Fin n ⊕ Fin m)).Run h' (view p) ∧ drift h' = poolDrift h)
    (fun p hinit => ?_) fun h a p p' hreach hrun hst => ?_
  · obtain ⟨null, rfl⟩ := hinit
    exact ⟨[], .init rfl, rfl⟩
  · obtain ⟨h', hr', hdrift⟩ := hrun
    have heff := step_cases (queues_of_reachable hreach) hst
    obtain ⟨h'', hr'', hdrift'⟩ := goes_of_effect heff h' hr'
    refine ⟨h'', hr'', ?_⟩
    rw [hdrift', hdrift, poolDrift_cons]

/-- **What the counter of the pool is worth.** It is the number of the workers that are linked
if and only if the number of those that `Unlink` has taken out is a multiple of `2 ^ 64`. -/
theorem pool_exact_iff (hn : n < u64Mod)
    {h : List (Transition (Pool.State n m τ) (Pool.Action n m τ))} {p : Pool.State n m τ}
    (hr : (Pool.machine n m τ capacity).Run h p) :
    p.approximate_size_ = p.stopped_.length ↔ poolDrift h % u64Mod = 0 := by
  obtain ⟨h', hr', hdrift⟩ := run_of_pool hr
  have hiff := (inv_of_run hr').exact_iff hn fun _ => rfl
  rw [hdrift] at hiff
  rw [← hiff]
  exact ⟨fun hsize => exact_of_size hsize, fun hexact => hexact.size⟩

/-- The second `TryGetWork` of a worker that is linked finds the task: nobody is parked, and from
now on every submit takes the lock. -/
example : ∃ p : Pool.State 1 1 ℕ, (Pool.machine 1 1 ℕ 1).Reachable p ∧
    p.stopped_ = [] ∧ p.approximate_size_ = 1 := by
  obtain ⟨p, hp, h⟩ := Machine.Reachable.exec_any (M := Pool.machine 1 1 ℕ 1)
    (s := Pool.State.start 0) (.init ⟨0, rfl⟩)
    [.work 0 false, .work 0 false, .work 0 false, .work 0 false, .work 0 false, .work 0 false,
      .work 0 false, .submit 0 7, .outside 0, .work 0 false, .work 0 false, .work 0 false,
      .work 0 false, .work 0 false]
    (fun p => decide (p.stopped_ = [] ∧ p.approximate_size_ = 1)) (by decide)
  exact ⟨p, hp, of_decide_eq_true h⟩

end Pool

end Exe.Pool.Coordinator
