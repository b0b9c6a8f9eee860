/-
Every fiber has exactly one owner.

A live fiber is executed by a worker, held by its own suspend callback, parked in a wait
list, in the hands of an operation that is about to submit it or to set its timer, held by
a timer, or queued as a task. `places` counts how often it is in any of these places, and
the invariant is that the count is one, in every reachable state. The rest of `Owned` is
what the operations rely on when they take a fiber out of a place: that a linked node and a
running timer hold the fiber on whose stack they are, and that a fiber that is not being
executed has nothing in its hands.
-/
import Exe.Fibers
import Mathlib.Algebra.Order.BigOperators.Group.Finset

set_option autoImplicit false

namespace Exe.Fiber.Core

open Function (update)
open BufferedChannel (States Role)

variable {n m : ℕ}

/-! ## The places of a fiber -/

/-- The fibers that have been released by the operations of this stack and not submitted. -/
def Pc.hand : Pc m → Multiset ℕ
  | submit fiber next => {fiber} + next.hand
  | _ => 0

namespace Worker

def executes : Worker m → Multiset ℕ
  | running fiber => {fiber}
  | returned fiber => {fiber}
  | _ => 0

/-- In the hands of the callback, which has not run yet, or is running with the handle. -/
def calls : Worker m → Multiset ℕ
  | suspended fiber => {fiber}
  | callback fiber _ => {fiber}
  | _ => 0

def hand (pc : ℕ → Pc m) : Worker m → Multiset ℕ
  | running fiber => (pc fiber).hand
  | submit fiber => {fiber}
  | set timer => {timer}
  | _ => 0

/-- Everything the worker holds. -/
def holds (pc : ℕ → Pc m) (x : Worker m) : Multiset ℕ := x.executes + x.calls + x.hand pc

end Worker

namespace State

variable (s : State n m) (f : ℕ)

def executing : ℕ := ∑ w, (s.worker w).executes.count f
def inCallback : ℕ := ∑ w, (s.worker w).calls.count f
def parked : ℕ := ∑ p, (s.primitive p).waiters.count f
def inHands : ℕ := ∑ w, ((s.worker w).hand s.pc).count f + s.spawned.count f
def byTimer : ℕ := s.timers.count f + s.tasks.count (.timer f)
def queued : ℕ := s.tasks.count (.fiber f)

/-- How often the fiber is anywhere. -/
def places : ℕ :=
  s.executing f + s.inCallback f + s.parked f + s.inHands f + s.byTimer f + s.queued f

/-- How often the workers hold it. -/
def byWorkers : ℕ := ∑ w, ((s.worker w).holds s.pc).count f

theorem places_eq : s.places f = s.byWorkers f + s.parked f + s.spawned.count f +
    s.timers.count f + s.tasks.count (.timer f) + s.tasks.count (.fiber f) := by
  have hworkers : s.byWorkers f = s.executing f + s.inCallback f +
      ∑ w, ((s.worker w).hand s.pc).count f := by
    simp only [byWorkers, executing, inCallback, Worker.holds, Multiset.count_add,
      Finset.sum_add_distrib]
  rw [hworkers, places, inHands, byTimer, queued]
  omega

end State

/-- Every live fiber is in one place, or is one of those a step has taken out of a place and
not put into another yet. -/
structure Owned (s : State n m) (moving : Multiset ℕ) : Prop where
  count : ∀ f, s.places f + moving.count f = (s.live f).toNat
  fresh : ∀ f, s.size ≤ f → s.live f = false
  quiet : ∀ f, (∀ w, s.worker w ≠ .running f) → (s.pc f).hand = 0
  node : ∀ p, ∀ f ∈ (s.primitive p).waiters, s.node f = some f
  timer : ∀ f, f ∈ s.timers ∨ .timer f ∈ s.tasks ∨ (∃ w, s.worker w = .set f) →
    s.timer f = some f
  cb : ∀ w f, s.worker w = .suspended f → s.cb_ f ≠ none
  channel : ∀ p state_, (s.primitive p).data.state_ = some state_ →
    state_ ≠ .Nobody → (s.primitive p).waiters ≠ []
  fault : s.fault = false

/-! ## A fiber that is in one place is in no other -/

section Places

variable {s : State n m} {moving moving' : Multiset ℕ} {f : ℕ} {w : Fin n}

theorem holds_le_byWorkers (s : State n m) (w : Fin n) (f : ℕ) :
    ((s.worker w).holds s.pc).count f ≤ s.byWorkers f :=
  Finset.single_le_sum (f := fun w => ((s.worker w).holds s.pc).count f)
    (fun _ _ => Nat.zero_le _) (Finset.mem_univ w)

theorem Owned.places_le (h : Owned s moving) (f : ℕ) :
    s.byWorkers f + s.parked f + s.spawned.count f + s.timers.count f +
      s.tasks.count (.timer f) + s.tasks.count (.fiber f) + moving.count f ≤ 1 := by
  rw [← State.places_eq, h.count f]
  exact Bool.toNat_le _

theorem parked_pos {p : Fin m} (hf : f ∈ (s.primitive p).waiters) : 0 < s.parked f := by
  have hle : (s.primitive p).waiters.count f ≤ s.parked f :=
    Finset.single_le_sum (f := fun p => (s.primitive p).waiters.count f)
      (fun _ _ => Nat.zero_le _) (Finset.mem_univ p)
  exact lt_of_lt_of_le (List.count_pos_iff.mpr hf) hle

/-- What a worker holds, no other worker holds, and it is nowhere else. -/
structure Only (s : State n m) (w : Fin n) (f : ℕ) : Prop where
  worker : ∀ v, v ≠ w → f ∉ (s.worker v).holds s.pc
  waiters : ∀ p, f ∉ (s.primitive p).waiters
  timers : f ∉ s.timers
  timer : .timer f ∉ s.tasks

theorem Owned.only (h : Owned s moving) (hf : f ∈ (s.worker w).holds s.pc) : Only s w f := by
  have hpos : 0 < ((s.worker w).holds s.pc).count f := Multiset.count_pos.mpr hf
  have hle := holds_le_byWorkers s w f
  have hone := h.places_le f
  refine ⟨fun v hv hmem => ?_, fun p hmem => ?_, fun hmem => ?_, fun hmem => ?_⟩
  · -- two workers would hold it twice
    have hpair : ((s.worker w).holds s.pc).count f + ((s.worker v).holds s.pc).count f ≤
        s.byWorkers f := by
      have hsub : ∑ x ∈ {w, v}, ((s.worker x).holds s.pc).count f ≤ s.byWorkers f :=
        Finset.sum_le_sum_of_subset (Finset.subset_univ _)
      rwa [Finset.sum_pair (Ne.symm hv)] at hsub
    have hpos' := Multiset.count_pos.mpr hmem
    omega
  · have hpos' := parked_pos hmem
    omega
  · have hpos' := Multiset.count_pos.mpr hmem
    omega
  · have hpos' := Multiset.count_pos.mpr hmem
    omega

theorem mem_holds_running {pc : ℕ → Pc m} (f : ℕ) : f ∈ (Worker.running f).holds pc := by
  simp [Worker.holds, Worker.executes]

theorem count_holds_running (pc : ℕ → Pc m) (f g : ℕ) :
    ((Worker.running f).holds pc).count g =
      ({f} : Multiset ℕ).count g + (pc f).hand.count g := by
  simp only [Worker.holds, Worker.executes, Worker.calls, Worker.hand, add_zero,
    Multiset.count_add]

theorem Owned.only_runner (h : Owned s moving) (hw : s.worker w = .running f) (v : Fin n)
    (hv : v ≠ w) : s.worker v ≠ .running f := by
  intro hvf
  have honly := h.only (w := w) (f := f) (by rw [hw]; exact mem_holds_running f)
  exact honly.worker v hv (by rw [hvf]; exact mem_holds_running f)

/-- A fiber that is on its way is not being executed. -/
theorem Owned.not_running (h : Owned s moving) (hf : f ∈ moving) (v : Fin n) :
    s.worker v ≠ .running f := by
  intro hv
  have hpos := Multiset.count_pos.mpr hf
  have hpos' : 0 < ((s.worker v).holds s.pc).count f :=
    Multiset.count_pos.mpr (by rw [hv]; exact mem_holds_running f)
  have hle := holds_le_byWorkers s v f
  have hone := h.places_le f
  omega

/-! ## Taking a fiber out of a place and putting it into one -/

/-- The running fiber goes on: what it takes into its hands was moving, and the other way
round. -/
theorem Owned.setPc (h : Owned s moving) (hw : s.worker w = .running f) (pc : Pc m)
    (hhand : pc.hand + moving' = (s.pc f).hand + moving) : Owned (s.setPc f pc) moving' := by
  have hpc : ∀ g, g ≠ f → update s.pc f pc g = s.pc g := fun g hg => Function.update_of_ne hg _ _
  refine
    { count := fun g => ?_
      fresh := h.fresh
      quiet := fun g hg => ?_
      node := h.node
      timer := h.timer
      cb := h.cb
      channel := h.channel
      fault := h.fault }
  · have hoff : ∀ v, v ≠ w → ((s.worker v).holds (update s.pc f pc)).count g =
        ((s.worker v).holds s.pc).count g := by
      intro v hv
      have hhand : (s.worker v).hand (update s.pc f pc) = (s.worker v).hand s.pc := by
        cases hx : s.worker v with
        | running x =>
          have hxf : x ≠ f := by
            rintro rfl
            exact h.only_runner hw v hv hx
          exact congrArg Pc.hand (hpc x hxf)
        | _ => rfl
      rw [Worker.holds, Worker.holds, hhand]
    have hsum := sum_add_of_eq_off w hoff
    rw [hw, count_holds_running, count_holds_running, Function.update_self] at hsum
    have hcount := h.count g
    have hg := congrArg (Multiset.count g) hhand
    rw [Multiset.count_add, Multiset.count_add] at hg
    rw [State.places_eq] at hcount ⊢
    change (∑ j, ((s.worker j).holds (update s.pc f pc)).count g) + s.parked g +
      s.spawned.count g + s.timers.count g + s.tasks.count (.timer g) +
      s.tasks.count (.fiber g) + moving'.count g = (s.live g).toNat
    rw [State.byWorkers] at hcount
    omega
  · change (update s.pc f pc g).hand = 0
    have hgf : g ≠ f := by
      rintro rfl
      exact hg w hw
    rw [hpc g hgf]
    exact h.quiet g hg

/-- The worker goes on; if it leaves a fiber, that has nothing in its hands. -/
theorem Owned.setWorker (h : Owned s moving) (next : Worker m)
    (hholds : next.holds s.pc + moving' = (s.worker w).holds s.pc + moving)
    (hrun : ∀ g, s.worker w = .running g → (s.pc g).hand = 0)
    (hset : ∀ g, next = .set g → s.timer g = some g)
    (hcb : ∀ g, next = .suspended g → s.cb_ g ≠ none) : Owned (s.setWorker w next) moving' := by
  refine
    { count := fun g => ?_
      fresh := h.fresh
      quiet := fun g hg => ?_
      node := h.node
      timer := fun g hg => ?_
      cb := fun v g hv => ?_
      channel := h.channel
      fault := h.fault }
  · have hoff : ∀ v, v ≠ w → ((update s.worker w next v).holds s.pc).count g =
        ((s.worker v).holds s.pc).count g := fun v hv => by rw [Function.update_of_ne hv]
    have hsum := sum_add_of_eq_off w hoff
    have hcount := h.count g
    have hg := congrArg (Multiset.count g) hholds
    rw [State.places_eq] at hcount ⊢
    rw [Function.update_self] at hsum
    rw [Multiset.count_add, Multiset.count_add] at hg
    simp only [State.byWorkers, State.setWorker] at hcount ⊢
    change _ + s.parked g + _ + _ + _ + _ + _ = _
    omega
  · by_cases hwg : s.worker w = .running g
    · exact hrun g hwg
    · refine h.quiet g fun v hv => ?_
      have hvw : v ≠ w := fun he => hwg (he ▸ hv)
      exact hg v ((Function.update_of_ne hvw _ _).trans hv)
  · refine hg.elim (fun hg => h.timer g (.inl hg)) fun hg => hg.elim
      (fun hg => h.timer g (.inr (.inl hg))) ?_
    rintro ⟨v, hv⟩
    change update s.worker w next v = _ at hv
    by_cases hvw : v = w
    · rw [hvw, Function.update_self] at hv
      exact hset g hv
    · rw [Function.update_of_ne hvw] at hv
      exact h.timer g (.inr (.inr ⟨v, hv⟩))
  · change update s.worker w next v = _ at hv
    by_cases hvw : v = w
    · rw [hvw, Function.update_self] at hv
      exact hcb g hv
    · rw [Function.update_of_ne hvw] at hv
      exact h.cb v g hv

/-- A primitive becomes `x`: who does not wait at it any more is moving, and the other way
round. -/
theorem Owned.setPrimitive (h : Owned s moving) {p : Fin m} {x : Primitive}
    (hwait : (x.waiters : Multiset ℕ) + moving' = ((s.primitive p).waiters : Multiset ℕ) + moving)
    (hnode : ∀ g ∈ x.waiters, s.node g = some g)
    (hstate : ∀ st, x.data.state_ = some st → st ≠ .Nobody → x.waiters ≠ []) :
    Owned (s.setPrimitive p x) moving' := by
  refine
    { count := fun g => ?_
      fresh := h.fresh
      quiet := h.quiet
      node := fun q g hg => ?_
      timer := h.timer
      cb := h.cb
      channel := fun q st hst => ?_
      fault := h.fault }
  · have hoff : ∀ q, q ≠ p → (update s.primitive p x q).waiters.count g =
        (s.primitive q).waiters.count g := fun q hq => by rw [Function.update_of_ne hq]
    have hsum := sum_add_of_eq_off p hoff
    have hcount := h.count g
    have hg := congrArg (Multiset.count g) hwait
    rw [State.places_eq] at hcount ⊢
    rw [Function.update_self] at hsum
    rw [Multiset.count_add, Multiset.count_add, Multiset.coe_count, Multiset.coe_count] at hg
    simp only [State.parked, State.setPrimitive] at hcount ⊢
    change s.byWorkers g + _ + _ + _ + _ + _ + _ = _
    omega
  · change g ∈ (update s.primitive p x q).waiters at hg
    by_cases hq : q = p
    · rw [hq, Function.update_self] at hg
      exact hnode g hg
    · rw [Function.update_of_ne hq] at hg
      exact h.node q g hg
  · simp only [State.setPrimitive] at hst ⊢
    by_cases hq : q = p
    · subst hq
      rw [Function.update_self] at hst ⊢
      exact hstate st hst
    · rw [Function.update_of_ne hq] at hst ⊢
      exact h.channel q st hst

/-- The lock or the data of a primitive change, and not who waits at it. -/
theorem Owned.setData (h : Owned s moving) {p : Fin m} {x : Primitive}
    (hwait : x.waiters = (s.primitive p).waiters)
    (hstate : x.data.state_ = (s.primitive p).data.state_) :
    Owned (s.setPrimitive p x) moving := by
  refine h.setPrimitive (by rw [hwait]) (fun g hg => h.node p g (by rwa [← hwait]))
    fun st hst => ?_
  rw [hwait]
  exact h.channel p st (by rwa [← hstate])

/-- `cb_ = cb`. -/
theorem Owned.setCb (h : Owned s moving) (f : ℕ) (cb : Callback m) :
    Owned { s with cb_ := update s.cb_ f (some cb) } moving := by
  refine ⟨h.count, h.fresh, h.quiet, h.node, h.timer, fun v g hv => ?_, h.channel, h.fault⟩
  by_cases hg : g = f
  · subst hg
    simp only [Function.update_self, ne_eq, reduceCtorEq, not_false_eq_true]
  · simp only [Function.update_of_ne hg]
    exact h.cb v g hv

/-- A node that is not linked may be written, or else with the fiber on whose stack it is. -/
theorem Owned.setNode (h : Owned s moving) {x : Option ℕ}
    (hx : x = some f ∨ ∀ p, f ∉ (s.primitive p).waiters) :
    Owned { s with node := update s.node f x } moving := by
  refine ⟨h.count, h.fresh, h.quiet, fun p g hg => ?_, h.timer, h.cb, h.channel, h.fault⟩
  dsimp only at hg ⊢
  by_cases hgf : g = f
  · subst hgf
    rw [Function.update_self]
    exact hx.resolve_right fun hno => hno p hg
  · rw [Function.update_of_ne hgf]
    exact h.node p g hg

/-- The same for the timer on the fiber's stack. -/
theorem Owned.setTimer (h : Owned s moving) {x : Option ℕ}
    (hx : x = some f ∨ ¬(f ∈ s.timers ∨ .timer f ∈ s.tasks ∨ ∃ w, s.worker w = .set f)) :
    Owned { s with timer := update s.timer f x } moving := by
  refine ⟨h.count, h.fresh, h.quiet, h.node, fun g hg => ?_, h.cb, h.channel, h.fault⟩
  dsimp only at hg ⊢
  by_cases hgf : g = f
  · subst hgf
    rw [Function.update_self]
    exact hx.resolve_right fun hno => hno hg
  · rw [Function.update_of_ne hgf]
    exact h.timer g hg

/-- The bags: tasks, timers and the fibers spawned from outside. -/
theorem Owned.setBags (h : Owned s moving) (moving' : Multiset ℕ) (tasks : Multiset Task)
    (timers spawned : Multiset ℕ)
    (hcount : ∀ g, tasks.count (.fiber g) + tasks.count (.timer g) + timers.count g +
      spawned.count g + moving'.count g = s.tasks.count (.fiber g) + s.tasks.count (.timer g) +
      s.timers.count g + s.spawned.count g + moving.count g)
    (htimer : ∀ g, g ∈ timers ∨ .timer g ∈ tasks → s.timer g = some g) :
    Owned { s with tasks, timers, spawned } moving' := by
  refine ⟨fun g => ?_, h.fresh, h.quiet, h.node, fun g hg => ?_, h.cb, h.channel, h.fault⟩
  · have hold := h.count g
    have hnew := hcount g
    rw [State.places_eq] at hold ⊢
    change s.byWorkers g + s.parked g + spawned.count g + timers.count g +
      tasks.count (.timer g) + tasks.count (.fiber g) + moving'.count g = (s.live g).toNat
    omega
  · exact hg.elim (fun hg => htimer g (.inl hg)) fun hg => hg.elim
      (fun hg => htimer g (.inr hg)) fun hg => h.timer g (.inr (.inr hg))

/-- What is not live is nowhere. -/
theorem Owned.not_held (h : Owned s moving) (hf : s.live f = false) (v : Fin n) :
    f ∉ (s.worker v).holds s.pc := by
  intro hmem
  have hpos := Multiset.count_pos.mpr hmem
  have hle := holds_le_byWorkers s v f
  have hcount := h.count f
  rw [State.places_eq, hf, Bool.toNat_false] at hcount
  omega

/-- `new Fiber`: it is on its way. -/
theorem Owned.newFiber (h : Owned s moving) : Owned s.newFiber ({s.size} + moving) := by
  have hnot := h.not_held (h.fresh s.size le_rfl)
  have hnew : ∀ v g, g ∈ (s.worker v).holds s.pc → g ≠ s.size := by
    rintro v g hg rfl
    exact hnot v hg
  refine
    { count := fun g => ?_
      fresh := fun g hg => ?_
      quiet := fun g hg => ?_
      node := h.node
      timer := h.timer
      cb := fun v g hv => ?_
      channel := h.channel
      fault := h.fault }
  · have hworkers : ∑ v, ((s.worker v).holds (update s.pc s.size .user)).count g =
        s.byWorkers g := by
      refine Finset.sum_congr rfl fun v _ => ?_
      have hhand : (s.worker v).hand (update s.pc s.size .user) = (s.worker v).hand s.pc := by
        cases hx : s.worker v with
        | running x =>
          have hxs : x ≠ s.size := hnew v x (by rw [hx]; exact mem_holds_running x)
          exact congrArg Pc.hand (Function.update_of_ne hxs _ _)
        | _ => rfl
      rw [Worker.holds, Worker.holds, hhand]
    have hcount := h.count g
    rw [State.places_eq] at hcount ⊢
    change (∑ v, ((s.worker v).holds (update s.pc s.size .user)).count g) + s.parked g +
      s.spawned.count g + s.timers.count g + s.tasks.count (.timer g) +
      s.tasks.count (.fiber g) + ({s.size} + moving).count g = (update s.live s.size true g).toNat
    rw [hworkers, Multiset.count_add]
    by_cases hg : g = s.size
    · subst hg
      rw [h.fresh s.size le_rfl, Bool.toNat_false] at hcount
      rw [Function.update_self, Multiset.count_singleton_self, Bool.toNat_true]
      omega
    · rw [Function.update_of_ne hg, Multiset.count_singleton, if_neg hg]
      omega
  · have hgs : g ≠ s.size := Nat.ne_of_gt hg
    exact (Function.update_of_ne hgs _ _).trans (h.fresh g (Nat.le_of_succ_le hg))
  · by_cases hgs : g = s.size
    · subst hgs
      change (update s.pc s.size .user s.size).hand = 0
      rw [Function.update_self]
      rfl
    · change (update s.pc s.size .user g).hand = 0
      rw [Function.update_of_ne hgs]
      exact h.quiet g hg
  · have hgs : g ≠ s.size := by
      refine hnew v g ?_
      change s.worker v = .suspended g at hv
      simp [hv, Worker.holds, Worker.calls]
    change update s.cb_ s.size none g ≠ none
    rw [Function.update_of_ne hgs]
    exact h.cb v g hv

/-- `delete` of a fiber that is on its way. -/
theorem Owned.delete (h : Owned s ({f} + moving)) :
    Owned { s with live := update s.live f false } moving := by
  refine ⟨fun g => ?_, fun g hg => ?_, h.quiet, h.node, h.timer, h.cb, h.channel, h.fault⟩
  · have hcount := h.count g
    rw [Multiset.count_add] at hcount
    change s.places g + moving.count g = (update s.live f false g).toNat
    by_cases hg : g = f
    · subst hg
      have hle := Bool.toNat_le (s.live g)
      rw [Multiset.count_singleton_self] at hcount
      rw [Function.update_self, Bool.toNat_false]
      omega
    · rw [Multiset.count_singleton, if_neg hg, Nat.zero_add] at hcount
      rw [Function.update_of_ne hg]
      exact hcount
  · change update s.live f false g = false
    by_cases hgf : g = f
    · rw [hgf, Function.update_self]
    · rw [Function.update_of_ne hgf]
      exact h.fresh g hg

/-- A fiber that is on its way is nowhere. -/
theorem Owned.only_moving (h : Owned s moving) (hf : f ∈ moving) :
    (∀ p, f ∉ (s.primitive p).waiters) ∧
      ¬(f ∈ s.timers ∨ .timer f ∈ s.tasks ∨ ∃ w, s.worker w = .set f) := by
  have hpos := Multiset.count_pos.mpr hf
  have hone := h.places_le f
  refine ⟨fun p hmem => ?_, ?_⟩
  · have hpos' := parked_pos hmem
    omega
  · rintro (hmem | hmem | ⟨v, hv⟩)
    · have hpos' := Multiset.count_pos.mpr hmem
      omega
    · have hpos' := Multiset.count_pos.mpr hmem
      omega
    · have hpos' : 0 < ((s.worker v).holds s.pc).count f := by
        rw [hv]
        exact Multiset.count_pos.mpr (by simp [Worker.holds, Worker.hand])
      have hle := holds_le_byWorkers s v f
      omega

/-- `Submit` of a fiber that is on its way. -/
theorem Owned.submit (h : Owned s {f}) : Owned { s with tasks := {Task.fiber f} + s.tasks } 0 := by
  refine h.setBags 0 ({Task.fiber f} + s.tasks) s.timers s.spawned (fun x => ?_)
    (fun x hx => ?_)
  · simp only [Multiset.count_add, Multiset.count_singleton, Task.fiber.injEq, reduceCtorEq,
      if_false, Multiset.count_zero]
    omega
  · refine h.timer x (hx.imp_right fun hx => .inl ?_)
    simpa using hx

/-- An idle worker resumes a fiber that is on its way. -/
theorem Owned.resume (h : Owned s {f}) (hw : s.worker w = .idle) :
    Owned (s.setWorker w (.running f)) 0 := by
  have hquiet := h.quiet f (h.not_running (Multiset.mem_singleton_self f))
  refine h.setWorker _ ?_ (fun g hg => ?_) (fun g hg => ?_) (fun g hg => ?_)
  · rw [hw]
    simp [Worker.holds, Worker.executes, Worker.calls, Worker.hand, hquiet]
  · rw [hw] at hg
    cases hg
  · cases hg
  · cases hg

/-- The switch back to `Fiber::Resume`: only the callback has the fiber now. -/
theorem Owned.suspend (h : Owned s 0) (hw : s.worker w = .running f)
    (hhand : (s.pc f).hand = 0) (cb : Callback m) {next : Pc m} (hnext : next.hand = 0) :
    Owned (s.suspend w f cb next) 0 := by
  have hcb := h.setCb f cb
  have hpc : Owned ({ s with cb_ := update s.cb_ f (some cb) }.setPc f next) 0 :=
    hcb.setPc hw next (by rw [hnext, hhand])
  refine hpc.setWorker _ ?_ (fun g hg => ?_) (fun g hg => ?_) (fun g hg => ?_)
  · change (Worker.suspended f).holds (update s.pc f next) + 0 =
      (s.worker w).holds (update s.pc f next) + 0
    rw [hw]
    simp [Worker.holds, Worker.executes, Worker.calls, Worker.hand, hnext]
  · obtain rfl : f = g := by
      change s.worker w = .running g at hg
      rw [hw] at hg
      injection hg
    change (update s.pc f next f).hand = 0
    rw [Function.update_self, hnext]
  · cases hg
  · obtain rfl : f = g := by injection hg
    change update s.cb_ f (some cb) f ≠ none
    rw [Function.update_self]
    exact Option.some_ne_none cb

theorem state_popped {x : Primitive} {rest : List ℕ} {st : States}
    (hst : (x.popped rest).data.state_ = some st) (hno : st ≠ .Nobody) : rest ≠ [] := by
  rintro rfl
  apply hno
  rw [Primitive.popped] at hst
  simp only [List.isEmpty_nil, if_true] at hst
  cases hdata : x.data <;> rw [hdata] at hst <;> simp_all [Data.setState, Data.state_]

/-- The front waiter is unlinked, and its handle released for `Submit`. -/
theorem Owned.popFront (h : Owned s 0) (hw : s.worker w = .running f)
    (hhand : (s.pc f).hand = 0) {p : Fin m} (hwait : (s.primitive p).waiters ≠ [])
    {next : Pc m} (hnext : next.hand = 0) : Owned (s.popFront f p next) 0 := by
  rw [State.popFront]
  cases hlist : (s.primitive p).waiters with
  | nil => exact absurd hlist hwait
  | cons x rest =>
    have hnode : s.node x = some x := h.node p x (by rw [hlist]; exact List.mem_cons_self)
    simp only [hnode]
    have hpop : Owned (s.setPrimitive p ((s.primitive p).popped rest)) {x} := by
      refine h.setPrimitive ?_ (fun g hg => h.node p g ?_) (fun st => state_popped)
      · rw [hlist, Primitive.popped]
        simp only [add_zero]
        rw [add_comm, Multiset.singleton_add, Multiset.cons_coe]
      · rw [hlist]
        exact List.mem_cons_of_mem x hg
    -- it is in no list any more: its node may be cleared
    have hclear := hpop.setNode (f := x) (x := none)
      (.inr (hpop.only_moving (Multiset.mem_singleton_self x)).1)
    refine hclear.setPc hw (.submit x next) ?_
    change ({x} + next.hand) + 0 = (s.pc f).hand + {x}
    rw [hnext, hhand, add_zero, zero_add, add_zero]

end Places

/-! ## The steps -/

/-- A body changes who may be waiting only through its verdict. -/
theorem enter_state {data data' : Data} {call : Call} {verdict : Verdict}
    (h : data.enter call = some (data', verdict)) : data'.state_ = data.state_ := by
  revert h
  fun_cases Data.enter data call <;> intro h <;>
    (simp only [Option.some.injEq, Prod.mk.injEq, reduceCtorEq] at h)
  all_goals
    obtain ⟨rfl, -⟩ := h
    simp only [Data.state_]

/-- Somebody waits whenever a channel serves its front waiter. -/
theorem enter_serve {data data' : Data} {call : Call}
    (h : data.enter call = some (data', .serve)) :
    ∃ st, data.state_ = some st ∧ st ≠ .Nobody := by
  revert h
  fun_cases Data.enter data call <;> intro h <;>
    simp only [Option.some.injEq, Prod.mk.injEq, reduceCtorEq, and_false, and_true] at h
  -- a mutex and a wait group park and wake, and only a channel that is not `Nobody` serves
  case case1 => split at h <;> cases h.2
  case case5 => split at h <;> cases h.2
  case case6 => split at h <;> cases h.2
  case case7 | case13 => exact ⟨.Receivers, rfl, by decide⟩
  case case11 | case15 => exact ⟨.Senders, rfl, by decide⟩

section Steps

variable {s s' : State n m} {f : ℕ} {w : Fin n}

theorem owned_userStep (h : Owned s 0) (hw : s.worker w = .running f) (hpc : s.pc f = .user)
    (call : UserCall m) : Owned (userStep w f s call) 0 := by
  have hhand : (s.pc f).hand = 0 := by rw [hpc]; rfl
  cases call with
  | go =>
    have hold : s.size ≠ f := by
      rintro rfl
      have hnot := h.not_held (h.fresh s.size le_rfl) w
      rw [hw] at hnot
      exact hnot (mem_holds_running s.size)
    refine h.newFiber.setPc hw (.submit s.size .user) ?_
    change ({s.size} + 0) + 0 = (update s.pc s.size .user f).hand + ({s.size} + 0)
    rw [Function.update_of_ne (Ne.symm hold), hhand, add_zero, zero_add]
  | yield => exact h.suspend hw hhand .yield rfl
  | sleepFor =>
    have honly := h.only (w := w) (f := f) (by rw [hw]; exact mem_holds_running f)
    have htimer := h.setTimer (f := f) (x := none) (.inr ?_)
    · exact htimer.suspend hw hhand .sleepFor rfl
    · rintro (hmem | hmem | ⟨v, hv⟩)
      · exact honly.timers hmem
      · exact honly.timer hmem
      · have hvw : v ≠ w := by
          rintro rfl
          rw [hw] at hv
          cases hv
        refine honly.worker v hvw ?_
        rw [hv]
        simp [Worker.holds, Worker.hand]
  | call p call =>
    refine h.setPc hw (.lock p call) ?_
    rw [hhand]
    rfl
  | finish =>
    refine h.setWorker (.returned f) ?_ (fun g hg => ?_) (fun g hg => ?_)
      (fun g hg => ?_)
    · rw [hw]
      simp [Worker.holds, Worker.executes, Worker.calls, Worker.hand, hhand]
    · rw [hw] at hg
      injection hg with hg
      rw [← hg, hhand]
    · cases hg
    · cases hg

theorem owned_bodyStep (h : Owned s 0) (hw : s.worker w = .running f) {p : Fin m} {call : Call}
    (hhand : (s.pc f).hand = 0) (hstep : bodyStep w f p call s = some s') : Owned s' 0 := by
  rw [bodyStep] at hstep
  split at hstep
  case h_1 => cases hstep
  case h_2 data verdict henter =>
    have hdata := h.setData (p := p) (x := { s.primitive p with data }) rfl (enter_state henter)
    have hset : ∀ pc : Pc m, pc.hand = 0 →
        Owned ((s.setPrimitive p { s.primitive p with data }).setPc f pc) 0 := by
      intro pc hpc
      exact hdata.setPc hw pc (by rw [hpc]; exact congrArg (· + 0) hhand.symm)
    have hself : (s.setPrimitive p { s.primitive p with data }).primitive p =
        { s.primitive p with data } := Function.update_self p _ _
    cases verdict with
    | leave =>
      obtain rfl := Option.some.inj hstep
      exact hset _ rfl
    | park role =>
      obtain rfl := Option.some.inj hstep
      exact hdata.suspend hw hhand _ rfl
    | wakeOne =>
      dsimp only at hstep
      split at hstep
      · obtain rfl := Option.some.inj hstep
        exact hset _ rfl
      · rename_i hne
        obtain rfl := Option.some.inj hstep
        exact hdata.popFront hw hhand (fun he => hne (List.isEmpty_iff.mpr he)) rfl
    | wakeAll =>
      obtain rfl := Option.some.inj hstep
      exact hset _ rfl
    | serve =>
      obtain rfl := Option.some.inj hstep
      obtain ⟨st, hst, hno⟩ := enter_serve henter
      refine hdata.popFront hw hhand ?_ rfl
      rw [hself]
      exact h.channel p st hst hno

theorem owned_fiberStep (h : Owned s 0) (hw : s.worker w = .running f)
    (hstep : fiberStep w f s = some s') : Owned s' 0 := by
  rw [fiberStep] at hstep
  -- everywhere but in front of a `Submit` the fiber has nothing in its hands
  have hset : ∀ (x : Primitive) (p : Fin m) (pc : Pc m), (s.pc f).hand = 0 → pc.hand = 0 →
      x.waiters = (s.primitive p).waiters → x.data = (s.primitive p).data →
      Owned ((s.setPrimitive p x).setPc f pc) 0 := by
    intro x p pc hhand hpc hwait hdata
    refine (h.setData hwait (by rw [hdata])).setPc hw pc ?_
    rw [hpc]
    exact congrArg (· + 0) hhand.symm
  cases hpc : s.pc f with
  | user =>
    rw [hpc] at hstep
    cases hstep
  | submit g next =>
    rw [hpc] at hstep
    obtain rfl := Option.some.inj hstep
    have hgo : Owned (s.setPc f next) {g} := by
      refine h.setPc hw next ?_
      rw [hpc]
      change next.hand + {g} = ({g} + next.hand) + 0
      rw [add_zero, add_comm]
    exact hgo.submit
  | lock p call =>
    rw [hpc] at hstep
    dsimp only at hstep
    split at hstep
    · cases hstep
    · obtain rfl := Option.some.inj hstep
      exact hset _ p _ (by rw [hpc]; rfl) rfl rfl rfl
  | body p call =>
    rw [hpc] at hstep
    exact owned_bodyStep h hw (by rw [hpc]; rfl) hstep
  | wakeAll p =>
    rw [hpc] at hstep
    have hhand : (s.pc f).hand = 0 := by rw [hpc]; rfl
    dsimp only at hstep
    split at hstep
    · obtain rfl := Option.some.inj hstep
      exact h.setPc hw _ (by rw [hhand]; rfl)
    · rename_i hne
      obtain rfl := Option.some.inj hstep
      exact h.popFront hw hhand (fun he => hne (List.isEmpty_iff.mpr he)) rfl
  | relock p call =>
    rw [hpc] at hstep
    dsimp only at hstep
    split at hstep
    · cases hstep
    · obtain rfl := Option.some.inj hstep
      refine hset _ p _ (by rw [hpc]; rfl) ?_ rfl rfl
      split <;> rfl
  | unlock p =>
    rw [hpc] at hstep
    obtain rfl := Option.some.inj hstep
    exact hset _ p _ (by rw [hpc]; rfl) rfl rfl rfl

/-- The callback has passed the handle on. -/
theorem owned_callbackStep (h : Owned s 0) {cb : Callback m} (hw : s.worker w = .callback f cb) :
    Owned (callbackStep w f s cb) 0 := by
  have hholds : (s.worker w).holds s.pc = {f} := by
    rw [hw]
    simp [Worker.holds, Worker.executes, Worker.calls, Worker.hand]
  have hrun : ∀ g, s.worker w = .running g → (s.pc g).hand = 0 := by
    intro g hg
    rw [hw] at hg
    cases hg
  have honly : Only s w f := h.only (by rw [hholds]; exact Multiset.mem_singleton_self f)
  cases cb with
  | yield =>
    refine h.setWorker _ ?_ hrun (fun g hg => ?_) (fun g hg => ?_)
    · rw [hholds]
      simp [Worker.holds, Worker.executes, Worker.calls, Worker.hand]
    · cases hg
    · cases hg
  | sleepFor =>
    have htimer := h.setTimer (f := f) (x := some f) (.inl rfl)
    refine htimer.setWorker _ ?_ hrun (fun g hg => ?_) (fun g hg => ?_)
    · refine Eq.trans ?_ (congrArg (· + 0) hholds).symm
      simp [Worker.holds, Worker.executes, Worker.calls, Worker.hand]
    · obtain rfl : f = g := by injection hg
      exact Function.update_self f _ _
    · cases hg
  | park p role =>
    have hnode := h.setNode (f := f) (x := some f) (.inl rfl)
    -- the handle goes from the callback into the node, and the node into the list
    have hworker : Owned ({ s with node := update s.node f (some f) }.setWorker w (.unlock p))
        {f} := by
      refine hnode.setWorker _ ?_ hrun (fun g hg => ?_) (fun g hg => ?_)
      · refine Eq.trans ?_ (congrArg (· + 0) hholds).symm
        simp [Worker.holds, Worker.executes, Worker.calls, Worker.hand]
      · cases hg
      · cases hg
    refine hworker.setPrimitive (x := (s.primitive p).push f role) ?_ (fun g hg => ?_)
      (fun st hst hno => ?_)
    · change (((s.primitive p).waiters ++ [f] : List ℕ) : Multiset ℕ) + 0 =
        ((s.primitive p).waiters : Multiset ℕ) + {f}
      rw [add_zero, ← Multiset.coe_add]
      rfl
    · obtain hg | hg := List.mem_append.mp hg
      · exact hnode.node p g hg
      · obtain rfl := List.mem_singleton.mp hg
        exact Function.update_self g _ _
    · exact List.append_ne_nil_of_right_ne_nil _ (List.cons_ne_nil f [])

theorem owned_workerStep (h : Owned s 0) (hstep : workerStep w s = some s') : Owned s' 0 := by
  rw [workerStep] at hstep
  -- a worker that is not running a fiber comes to its next place
  have hmove : ∀ (next : Worker m) (moving : Multiset ℕ), (∀ g, s.worker w ≠ .running g) →
      (∀ g, next ≠ .set g) → (∀ g, next ≠ .suspended g) →
      next.holds s.pc + moving = (s.worker w).holds s.pc + 0 →
      Owned (s.setWorker w next) moving := by
    intro next moving hrun hset hcb hholds
    exact h.setWorker next hholds (fun g hg => absurd hg (hrun g)) (fun g hg => absurd hg (hset g))
      (fun g hg => absurd hg (hcb g))
  cases hw : s.worker w with
  | idle =>
    rw [hw] at hstep
    cases hstep
  | running f =>
    rw [hw] at hstep
    exact owned_fiberStep h hw hstep
  | returned f =>
    rw [hw] at hstep
    obtain rfl := Option.some.inj hstep
    have hidle : Owned (s.setWorker w .idle) ({f} + 0) := by
      refine hmove .idle _ (by simp [hw]) (by simp) (by simp) ?_
      rw [hw]
      simp [Worker.holds, Worker.executes, Worker.calls, Worker.hand]
    exact hidle.delete
  | suspended f =>
    rw [hw] at hstep
    dsimp only at hstep
    cases hcb : s.cb_ f with
    | none => exact absurd hcb (h.cb w f hw)
    | some cb =>
      rw [hcb] at hstep
      obtain rfl := Option.some.inj hstep
      refine hmove (.callback f cb) 0 (by simp [hw]) (by simp) (by simp) ?_
      rw [hw]
      simp [Worker.holds, Worker.executes, Worker.calls, Worker.hand]
  | callback f cb =>
    rw [hw] at hstep
    obtain rfl := Option.some.inj hstep
    exact owned_callbackStep h hw
  | submit f =>
    rw [hw] at hstep
    obtain rfl := Option.some.inj hstep
    have hidle : Owned (s.setWorker w .idle) {f} := by
      refine hmove .idle _ (by simp [hw]) (by simp) (by simp) ?_
      rw [hw]
      simp [Worker.holds, Worker.executes, Worker.calls, Worker.hand]
    exact hidle.submit
  | set f =>
    rw [hw] at hstep
    obtain rfl := Option.some.inj hstep
    have hidle : Owned (s.setWorker w .idle) {f} := by
      refine hmove .idle _ (by simp [hw]) (by simp) (by simp) ?_
      rw [hw]
      simp [Worker.holds, Worker.executes, Worker.calls, Worker.hand]
    refine hidle.setBags 0 s.tasks ({f} + s.timers) s.spawned
      (fun x => ?_) (fun x hx => ?_)
    · change _ = s.tasks.count (.fiber x) + s.tasks.count (.timer x) + s.timers.count x +
        s.spawned.count x + _
      simp only [Multiset.count_add, Multiset.count_zero]
      omega
    · obtain hx | hx := hx
      · obtain hx | hx := Multiset.mem_add.mp hx
        · obtain rfl := Multiset.mem_singleton.mp hx
          exact h.timer x (.inr (.inr ⟨w, hw⟩))
        · exact h.timer x (.inl hx)
      · exact h.timer x (.inr (.inl hx))
  | unlock p =>
    rw [hw] at hstep
    obtain rfl := Option.some.inj hstep
    have hidle : Owned (s.setWorker w .idle) 0 := by
      refine hmove .idle _ (by simp [hw]) (by simp) (by simp) ?_
      rw [hw]
      simp [Worker.holds, Worker.executes, Worker.calls, Worker.hand]
    exact hidle.setData rfl rfl

/-- An idle worker runs a task it has taken out of the scheduler. -/
theorem owned_runTask (h : Owned s 0) (hw : s.worker w = .idle) {task : Task}
    (htask : task ∈ s.tasks) :
    Owned (runTask w { s with tasks := s.tasks.erase task } task) 0 := by
  obtain ⟨rest, hrest⟩ := Multiset.exists_cons_of_mem htask
  have hmem : ∀ x ∈ rest, x ∈ s.tasks := by
    intro x hx
    rw [hrest]
    exact Multiset.mem_cons_of_mem hx
  have htimer : ∀ g, g ∈ s.timers ∨ .timer g ∈ rest → s.timer g = some g := by
    intro g hg
    exact h.timer g (hg.imp_right fun hg => .inl (hmem _ hg))
  rw [hrest, Multiset.erase_cons_head]
  cases task with
  | fiber f =>
    have htaken := h.setBags {f} rest s.timers s.spawned (fun g => by
        rw [hrest, Multiset.count_cons, Multiset.count_cons, Multiset.count_singleton]
        simp only [Task.fiber.injEq, reduceCtorEq, if_false, Multiset.count_zero]
        omega) htimer
    exact htaken.resume hw
  | timer x =>
    have htaken := h.setBags {x} rest s.timers s.spawned (fun g => by
        rw [hrest, Multiset.count_cons, Multiset.count_cons, Multiset.count_singleton]
        simp only [Task.timer.injEq, reduceCtorEq, if_false, Multiset.count_zero]
        omega) htimer
    have hself : s.timer x = some x := h.timer x (.inr (.inl htask))
    simp only [runTask, hself]
    have hclear := htaken.setTimer (f := x) (x := none)
      (.inr (htaken.only_moving (Multiset.mem_singleton_self x)).2)
    exact hclear.resume hw

theorem owned_step {a : Action n m} (h : Owned s 0) (hstep : step a s = some s') :
    Owned s' 0 := by
  have hfault : ¬s.fault = true := by
    rw [h.fault]
    exact Bool.false_ne_true
  unfold step at hstep
  rw [if_neg hfault] at hstep
  cases a with
  | spawn =>
    obtain rfl := Option.some.inj hstep
    refine h.newFiber.setBags 0 s.tasks s.timers ({s.size} + s.spawned) (fun g => ?_)
      (fun g hg => ?_)
    · simp only [State.newFiber, Multiset.count_add, Multiset.count_zero]
      omega
    · exact h.timer g (hg.imp_right .inl)
  | submit f =>
    dsimp only at hstep
    split at hstep
    · rename_i hf
      obtain rfl := Option.some.inj hstep
      obtain ⟨rest, hrest⟩ := Multiset.exists_cons_of_mem hf
      rw [hrest, Multiset.erase_cons_head]
      have htaken := h.setBags {f} s.tasks s.timers rest (fun g => by
          rw [hrest, Multiset.count_cons, Multiset.count_singleton, Multiset.count_zero]
          omega) (fun g hg => h.timer g (hg.imp_right .inl))
      exact htaken.submit
    · cases hstep
  | run w task =>
    dsimp only at hstep
    split at hstep
    · rename_i hg
      obtain rfl := Option.some.inj hstep
      exact owned_runTask h hg.1 hg.2
    · cases hstep
  | fire x =>
    dsimp only at hstep
    split at hstep
    · rename_i hx
      obtain rfl := Option.some.inj hstep
      obtain ⟨rest, hrest⟩ := Multiset.exists_cons_of_mem hx
      rw [hrest, Multiset.erase_cons_head]
      refine h.setBags 0 ({Task.timer x} + s.tasks) rest s.spawned (fun g => ?_) (fun g hg => ?_)
      · rw [hrest]
        simp only [Multiset.count_add, Multiset.count_cons, Multiset.count_singleton,
          Task.timer.injEq, reduceCtorEq, if_false, Multiset.count_zero]
        omega
      · obtain hg | hg := hg
        · refine h.timer g (.inl ?_)
          rw [hrest]
          exact Multiset.mem_cons_of_mem hg
        · obtain hg | hg := Multiset.mem_add.mp hg
          · obtain rfl : g = x := by simpa using hg
            exact h.timer g (.inl hx)
          · exact h.timer g (.inr (.inl hg))
    · cases hstep
  | user w call =>
    dsimp only at hstep
    split at hstep
    · rename_i f hw
      split at hstep
      · rename_i hg
        obtain rfl := Option.some.inj hstep
        exact owned_userStep h hw hg.1 call
      · cases hstep
    · cases hstep
  | work w => exact owned_workerStep h hstep

theorem owned_of_reachable (hs : (machine n m).Reachable s) : Owned s 0 := by
  refine hs.invariant (I := fun s => Owned s 0) (fun s hinit => ?_)
    fun _ _ _ h _ hst => owned_step h hst
  obtain ⟨data, hnew, rfl⟩ := hinit
  refine ⟨fun f => ?_, fun f _ => rfl, fun f _ => rfl, fun p f hf => ?_, fun f hf => ?_,
    fun w f hw => ?_, fun p st hst hno => ?_, rfl⟩
  · rw [State.places_eq]
    simp [State.new, State.byWorkers, State.parked, Worker.holds, Worker.executes, Worker.calls,
      Worker.hand]
  · cases hf
  · simp [State.new] at hf
  · cases hw
  · -- the constructors leave `Nobody`
    have hp := hnew p
    change (data p).state_ = some st at hst
    cases hdata : data p <;> rw [hdata] at hp hst <;>
      simp only [Data.state_, Data.IsNew, Option.some.injEq, reduceCtorEq] at hp hst
    · exact absurd (hst ▸ hp.2) hno
    · exact absurd (hst ▸ hp) hno

/-! ## A fiber lives until it returns -/

@[simp] theorem live_popFront (s : State n m) (f : ℕ) (p : Fin m) (next : Pc m) :
    (s.popFront f p next).live = s.live := by
  rw [State.popFront]
  split
  · rfl
  · split <;> rfl

theorem live_bodyStep {p : Fin m} {call : Call} (hstep : bodyStep w f p call s = some s') :
    s'.live = s.live := by
  rw [bodyStep] at hstep
  split at hstep
  · cases hstep
  · rename_i verdict _
    cases verdict <;> dsimp only at hstep <;> (try split at hstep) <;>
      obtain rfl := Option.some.inj hstep <;> simp [State.setPc, State.setPrimitive, State.suspend,
        State.setWorker]

theorem live_fiberStep (hstep : fiberStep w f s = some s') : s'.live = s.live := by
  rw [fiberStep] at hstep
  cases hpc : s.pc f with
  | body p call =>
    rw [hpc] at hstep
    exact live_bodyStep hstep
  | _ =>
    rw [hpc] at hstep
    dsimp only at hstep
    (try split at hstep) <;> (try cases hstep) <;> simp [State.setPc, State.setPrimitive]

theorem live_workerStep (hstep : workerStep w s = some s') :
    s'.live = s.live ∨ ∃ f, s.worker w = .returned f ∧ s'.live = update s.live f false := by
  rw [workerStep] at hstep
  cases hw : s.worker w with
  | returned f =>
    rw [hw] at hstep
    obtain rfl := Option.some.inj hstep
    exact .inr ⟨f, rfl, rfl⟩
  | running f =>
    rw [hw] at hstep
    exact .inl (live_fiberStep hstep)
  | callback f cb =>
    rw [hw] at hstep
    obtain rfl := Option.some.inj hstep
    cases cb <;> exact .inl rfl
  | suspended f =>
    rw [hw] at hstep
    dsimp only at hstep
    split at hstep <;> obtain rfl := Option.some.inj hstep <;> exact .inl rfl
  | idle =>
    rw [hw] at hstep
    cases hstep
  | _ =>
    rw [hw] at hstep
    obtain rfl := Option.some.inj hstep
    exact .inl rfl

/-- Only a fiber that has returned is deleted. -/
theorem step_live {a : Action n m} (hstep : step a s = some s') (hf : s.live f = true)
    (hf' : s'.live f = false) : ∃ w, s.worker w = .returned f := by
  have hnew : ∀ {t : State n m}, t.live = update s.live s.size true → t.live f = true := by
    intro t ht
    rw [ht]
    by_cases hs : f = s.size
    · rw [hs, Function.update_self]
    · rw [Function.update_of_ne hs, hf]
  have hkeep : s'.live = s.live → False := by
    intro he
    rw [he, hf] at hf'
    cases hf'
  simp only [step] at hstep
  split at hstep
  · cases hstep
  cases a with
  | spawn =>
    obtain rfl := Option.some.inj hstep
    rw [hnew rfl] at hf'
    cases hf'
  | submit g =>
    dsimp only at hstep
    split at hstep <;> cases hstep
    exact (hkeep rfl).elim
  | run w task =>
    dsimp only at hstep
    split at hstep <;> cases hstep
    refine (hkeep ?_).elim
    cases task with
    | fiber g => rfl
    | timer x =>
      dsimp only [runTask]
      split <;> rfl
  | fire x =>
    dsimp only at hstep
    split at hstep <;> cases hstep
    exact (hkeep rfl).elim
  | user w call =>
    dsimp only at hstep
    split at hstep
    · split at hstep <;> cases hstep
      cases call with
      | go =>
        rw [hnew rfl] at hf'
        cases hf'
      | _ => exact (hkeep rfl).elim
    · cases hstep
  | work w =>
    obtain he | ⟨g, hw, he⟩ := live_workerStep hstep
    · exact (hkeep he).elim
    · have hgf : f = g := by
        by_contra hne
        rw [he, Function.update_of_ne hne, hf] at hf'
        cases hf'
      exact ⟨w, hgf ▸ hw⟩

end Steps

/-- **Every fiber has exactly one owner.** A live fiber is in one place, once: executed by a
worker, held by its suspend callback, parked in a wait list, in the hands of an operation that
is about to pass it on, held by its timer, or queued. So no handle is released twice, what
wakes the fiber finds its handle, nobody resumes it while it is being executed, and it lives
until it has returned. -/
theorem one_owner {s : State n m} (hs : (machine n m).Reachable s) :
    s.fault = false ∧
    (∀ f, s.executing f + s.inCallback f + s.parked f + s.inHands f + s.byTimer f + s.queued f =
      (s.live f).toNat) ∧
    (∀ p, ∀ f ∈ (s.primitive p).waiters, s.node f = some f) ∧
    (∀ f, f ∈ s.timers ∨ .timer f ∈ s.tasks → s.timer f = some f) ∧
    (∀ f, f ∈ s.timers ∨ .timer f ∈ s.tasks ∨ .fiber f ∈ s.tasks →
      ∀ w, s.worker w ≠ .running f) ∧
    ∀ a s' f, step a s = some s' → s.live f = true → s'.live f = false →
      ∃ w, s.worker w = .returned f := by
  have h := owned_of_reachable hs
  refine ⟨h.fault, fun f => ?_, h.node, fun f hf => h.timer f (hf.imp_right .inl),
    fun f hf w hw => ?_, fun a s' f => step_live⟩
  · exact h.count f
  · have hone := h.places_le f
    have hle := holds_le_byWorkers s w f
    have hpos : 0 < ((s.worker w).holds s.pc).count f :=
      Multiset.count_pos.mpr (by rw [hw]; exact mem_holds_running f)
    obtain hf | hf | hf := hf <;> have hpos' := Multiset.count_pos.mpr hf <;> omega

/-- Two workers and a mutex: a fiber spawned from outside starts another one, takes the mutex,
and the other parks behind it. -/
theorem one_owner_parks : ∃ s : State 2 1, (machine 2 1).Reachable s ∧
    s.parked 1 = 1 ∧ s.queued 1 = 0 := by
  obtain ⟨s, hs, hp⟩ := Machine.Reachable.exec_any (M := machine 2 1)
    (s := .new fun _ => .mutex false)
    (.init ⟨fun _ => .mutex false, (fun _ => rfl), rfl⟩)
    [.spawn, .submit 0, .run 0 (.fiber 0), .user 0 .go, .work 0, .user 0 (.call 0 .Lock), .work 0,
      .work 0, .work 0, .run 1 (.fiber 1), .user 1 (.call 0 .Lock), .work 1, .work 1, .work 1,
      .work 1, .work 1]
    (fun s => decide (s.parked 1 = 1 ∧ s.live 1 = true)) (by decide)
  obtain ⟨hparked, hlive⟩ := of_decide_eq_true hp
  have hcount := (one_owner hs).2.1 1
  rw [hlive, Bool.toNat_true] at hcount
  exact ⟨s, hs, hparked, by omega⟩

end Exe.Fiber.Core
