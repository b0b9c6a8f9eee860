/-
The sections of the primitives, and where the stack of a fiber ends.

One section at a time is inside a primitive. It begins when a fiber takes the spin lock, and
where the fiber parks it ends in the parking callback, on the worker's own stack and after
the fiber has been linked in. What the callback stores is still what the fiber decided on:
nobody else has been inside since.

With this goes the shape of the stacks. A fiber that is not being executed stands in user
code or before the second lock of a call that has parked it, and in the latter case it has
been handed to the wait list of that primitive.
-/
import Exe.Exclusion
import Exe.FiberSteps

set_option autoImplicit false

namespace Exe.Fiber.Core

open Function (update)
open BufferedChannel (States Role)

variable {n m : ℕ}

/-! ## The stack of a fiber and the place it is in -/

/-- Between taking the spin lock of `p` and giving it back. -/
def Pc.InSection (p : Fin m) : Pc m → Prop
  | .submit _ next => next.InSection p
  | .body q _ => q = p
  | .wakeAll q => q = p
  | .unlock q => q = p
  | _ => False

def Callback.InSection (p : Fin m) : Callback m → Prop
  | .park q _ => q = p
  | _ => False

/-- The section of a fiber that parks ends in its callback. -/
def Worker.InSection (pc : ℕ → Pc m) (cb_ : ℕ → Option (Callback m)) (p : Fin m) :
    Worker m → Prop
  | .running f => (pc f).InSection p
  | .suspended f => ∃ cb, cb_ f = some cb ∧ cb.InSection p
  | .callback _ cb => cb.InSection p
  | .unlock q => q = p
  | _ => False

/-- Where the stack of a fiber ends that is not being executed. -/
def Pc.Rests : Pc m → Prop
  | .user => True
  | .relock _ _ => True
  | _ => False

/-- A fiber whose callback parks it has found that it has to wait, and this is still so. -/
def Callback.Fits (data : Fin m → Data) (pc : Pc m) : Callback m → Prop
  | .park p role => ∃ c, pc = .relock p c ∧ (data p).enter c = some (data p, .park role)
  | _ => pc = .user

def Worker.Fits (data : Fin m → Data) (pc : ℕ → Pc m) (cb_ : ℕ → Option (Callback m)) :
    Worker m → Prop
  | .suspended f => ∀ cb, cb_ f = some cb → cb.Fits data (pc f)
  | .callback f cb => cb.Fits data (pc f)
  | .returned f => pc f = .user
  | .set f => pc f = .user
  | _ => True

/-- What the primitives hold. -/
def State.data (s : State n m) (p : Fin m) : Data := (s.primitive p).data

structure Standing (s : State n m) : Prop where
  lock : ∀ p, Exclusion (s.primitive p).spin_ fun w => (s.worker w).InSection s.pc s.cb_ p
  rests : ∀ f, (∀ w, s.worker w ≠ .running f) → (s.pc f).Rests
  out : ∀ f, f ∈ s.spawned ∨ f ∈ s.timers → s.pc f = .user
  worker : ∀ w, (s.worker w).Fits s.data s.pc s.cb_
  waiters : ∀ p, ∀ f ∈ (s.primitive p).waiters, ∃ c, s.pc f = .relock p c

section Standing

variable {s t : State n m} {moving : Multiset ℕ} {w v : Fin n} {f : ℕ} {p : Fin m} {pc : Pc m}

/-- Another worker's section and what it knows depend on the fibers it holds only. -/
theorem inSection_update {x : Worker m} {cb : Option (Callback m)} (hx : f ∉ x.holds s.pc) :
    x.InSection (update s.pc f pc) (update s.cb_ f cb) p ↔ x.InSection s.pc s.cb_ p := by
  have hne : ∀ g, g ∈ x.holds s.pc → g ≠ f := by
    rintro g hg rfl
    exact hx hg
  cases x with
  | running g =>
    have hg := hne g (mem_holds_running g)
    simp only [Worker.InSection, Function.update_of_ne hg]
  | suspended g =>
    have hg := hne g (by simp [Worker.holds, Worker.calls])
    simp only [Worker.InSection, Function.update_of_ne hg]
  | _ => exact Iff.rfl

theorem Callback.Fits.of_data {cb : Callback m} {data data' : Fin m → Data}
    (h : cb.Fits data pc) (hdata : ∀ p, cb.InSection p → data' p = data p) : cb.Fits data' pc := by
  cases cb with
  | park p role =>
    simp only [Callback.Fits, hdata p rfl]
    exact h
  | _ => exact h

theorem Worker.Fits.of_data {x : Worker m} {pc : ℕ → Pc m} {cb_ : ℕ → Option (Callback m)}
    {data data' : Fin m → Data} (h : x.Fits data pc cb_)
    (hdata : ∀ p, x.InSection pc cb_ p → data' p = data p) : x.Fits data' pc cb_ := by
  cases x with
  | suspended g => exact fun cb hcb => (h cb hcb).of_data fun p hp => hdata p ⟨cb, hcb, hp⟩
  | callback g cb => exact Callback.Fits.of_data h hdata
  | _ => exact h

theorem fits_update {x : Worker m} {cb : Option (Callback m)} {data : Fin m → Data}
    (hx : f ∉ x.holds s.pc) (h : x.Fits data s.pc s.cb_) :
    x.Fits data (update s.pc f pc) (update s.cb_ f cb) := by
  have hne : ∀ g, g ∈ x.holds s.pc → g ≠ f := by
    rintro g hg rfl
    exact hx hg
  cases x with
  | suspended g =>
    have hg := hne g (by simp [Worker.holds, Worker.calls])
    simpa only [Worker.Fits, Function.update_of_ne hg] using h
  | callback g c =>
    have hg := hne g (by simp [Worker.holds, Worker.calls])
    simpa only [Worker.Fits, Function.update_of_ne hg] using h
  | returned g =>
    have hg := hne g (by simp [Worker.holds, Worker.executes])
    simpa only [Worker.Fits, Function.update_of_ne hg] using h
  | set g =>
    have hg := hne g (by simp [Worker.holds, Worker.hand])
    simpa only [Worker.Fits, Function.update_of_ne hg] using h
  | _ => trivial

theorem Owned.not_spawned (h : Owned s moving) (hf : f ∈ (s.worker w).holds s.pc) :
    f ∉ s.spawned := by
  intro hmem
  have hpos := Multiset.count_pos.mpr hf
  have hpos' := Multiset.count_pos.mpr hmem
  have hle := holds_le_byWorkers s w f
  have hone := h.places_le f
  omega

/-- A worker makes a step with the fiber it executes or carries. -/
theorem Standing.move (h : Standing s) (ho : Owned s moving) (next : Worker m)
    {cb : Option (Callback m)} (hf : f ∈ (s.worker w).holds s.pc)
    (hrun : ∀ g, s.worker w = .running g → g = f)
    (hpc : t.pc = update s.pc f pc) (hcb : t.cb_ = update s.cb_ f cb)
    (hworker : t.worker = update s.worker w next)
    (hout : ∀ g, g ∈ t.spawned ∨ g ∈ t.timers → (g ∈ s.spawned ∨ g ∈ s.timers) ∨
      g = f ∧ pc = .user)
    (hwait : ∀ p, ∀ g ∈ (t.primitive p).waiters, g ∈ (s.primitive p).waiters ∨
      g = f ∧ ∃ c, pc = .relock p c)
    (hdata : ∀ p, t.data p = s.data p ∨ (s.worker w).InSection s.pc s.cb_ p)
    (hfits : next.Fits t.data t.pc t.cb_) (hrest : next = .running f ∨ pc.Rests)
    (hturn : ∀ p, Exclusion.Turns (s.primitive p).spin_ (t.primitive p).spin_
      ((s.worker w).InSection s.pc s.cb_ p) (next.InSection t.pc t.cb_ p)) : Standing t := by
  have honly := ho.only hf
  have hpcOf : ∀ g, g ≠ f → t.pc g = s.pc g := fun g hg => by rw [hpc, Function.update_of_ne hg]
  have hpcSelf : t.pc f = pc := by rw [hpc, Function.update_self]
  have hworkerOf : ∀ v, v ≠ w → t.worker v = s.worker v := fun v hv => by
    rw [hworker, Function.update_of_ne hv]
  have hworkerSelf : t.worker w = next := by rw [hworker, Function.update_self]
  refine ⟨fun p => ?_, fun g hg => ?_, fun g hg => ?_, fun v => ?_, fun p g hg => ?_⟩
  · refine (h.lock p).turn (t := w) ?_ fun v hv => ?_
    · rw [hworkerSelf]
      exact hturn p
    · rw [hworkerOf v hv, hpc, hcb]
      exact inSection_update (honly.worker v hv)
  · by_cases hgf : g = f
    · subst hgf
      rw [hpcSelf]
      exact hrest.resolve_left fun hn => hg w (by rw [hworkerSelf, hn])
    · rw [hpcOf g hgf]
      refine h.rests g fun v hv => ?_
      by_cases hvw : v = w
      · subst hvw
        exact hgf (hrun g hv)
      · exact hg v (by rw [hworkerOf v hvw, hv])
  · obtain hold | ⟨rfl, hpc'⟩ := hout g hg
    · have hgf : g ≠ f := by
        rintro rfl
        exact hold.elim (ho.not_spawned hf) honly.timers
      rw [hpcOf g hgf]
      exact h.out g hold
    · rw [hpcSelf, hpc']
  · by_cases hvw : v = w
    · subst hvw
      rw [hworkerSelf]
      exact hfits
    · rw [hworkerOf v hvw, hpc, hcb]
      refine fits_update (honly.worker v hvw) ((h.worker v).of_data fun p hp => ?_)
      -- two sections of one primitive would be inside at once
      refine (hdata p).resolve_right fun hw => hvw ?_
      exact (h.lock p).one v w hp hw
  · obtain hold | ⟨rfl, c, hpc'⟩ := hwait p g hg
    · have hgf : g ≠ f := by
        rintro rfl
        exact honly.waiters p hold
      rw [hpcOf g hgf]
      exact h.waiters p g hold
    · exact ⟨c, by rw [hpcSelf, hpc']⟩

/-- The fiber that worker `w` executes goes on. -/
theorem Standing.go (h : Standing s) (ho : Owned s moving) (hw : s.worker w = .running f)
    (hpc : t.pc = update s.pc f pc) (hcb : t.cb_ = s.cb_) (hworker : t.worker = s.worker)
    (hout : ∀ g, g ∈ t.spawned ∨ g ∈ t.timers → g ∈ s.spawned ∨ g ∈ s.timers)
    (hwait : ∀ p, ∀ g ∈ (t.primitive p).waiters, g ∈ (s.primitive p).waiters)
    (hdata : ∀ p, t.data p = s.data p ∨ (s.pc f).InSection p)
    (hturn : ∀ p, Exclusion.Turns (s.primitive p).spin_ (t.primitive p).spin_
      ((s.pc f).InSection p) (pc.InSection p)) : Standing t := by
  have hcb' : t.cb_ = update s.cb_ f (s.cb_ f) := by rw [hcb, Function.update_eq_self]
  refine h.move ho (.running f) (w := w) ?_ ?_ hpc hcb' ?_
    (fun g hg => .inl (hout g hg)) (fun p g hg => .inl (hwait p g hg)) ?_ trivial (.inl rfl) ?_
  · rw [hw]
    exact mem_holds_running f
  · intro g hg
    rw [hw] at hg
    cases hg
    rfl
  · rw [hworker, ← hw, Function.update_eq_self]
  · rw [hw]
    exact hdata
  · rw [hw, hpc]
    simp only [Worker.InSection, Function.update_self]
    exact hturn

/-- A worker goes on, and no stack changes. -/
theorem Standing.stay (h : Standing s) (next : Worker m) (hpc : t.pc = s.pc)
    (hcb : t.cb_ = s.cb_) (hworker : t.worker = update s.worker w next)
    (hout : ∀ g, g ∈ t.spawned ∨ g ∈ t.timers → (g ∈ s.spawned ∨ g ∈ s.timers) ∨ s.pc g = .user)
    (hwait : ∀ p, ∀ g ∈ (t.primitive p).waiters, g ∈ (s.primitive p).waiters ∨
      ∃ c, s.pc g = .relock p c)
    (hdata : ∀ p, t.data p = s.data p ∨ (s.worker w).InSection s.pc s.cb_ p)
    (hfits : next.Fits t.data s.pc s.cb_)
    (hrest : ∀ g, s.worker w = .running g → next = .running g ∨ (s.pc g).Rests)
    (hturn : ∀ p, Exclusion.Turns (s.primitive p).spin_ (t.primitive p).spin_
      ((s.worker w).InSection s.pc s.cb_ p) (next.InSection s.pc s.cb_ p)) : Standing t := by
  have hworkerOf : ∀ v, v ≠ w → t.worker v = s.worker v := fun v hv => by
    rw [hworker, Function.update_of_ne hv]
  have hworkerSelf : t.worker w = next := by rw [hworker, Function.update_self]
  refine ⟨fun p => ?_, fun g hg => ?_, fun g hg => ?_, fun v => ?_, fun p g hg => ?_⟩
  · rw [hpc, hcb]
    refine (h.lock p).turn (t := w) ?_ fun v hv => by rw [hworkerOf v hv]
    rw [hworkerSelf]
    exact hturn p
  · rw [hpc]
    by_cases hwg : s.worker w = .running g
    · exact (hrest g hwg).resolve_left fun hn => hg w (by rw [hworkerSelf, hn])
    · refine h.rests g fun v hv => ?_
      have hvw : v ≠ w := by
        rintro rfl
        exact hwg hv
      exact hg v (by rw [hworkerOf v hvw, hv])
  · rw [hpc]
    exact (hout g hg).elim (h.out g) id
  · rw [hpc, hcb]
    by_cases hvw : v = w
    · subst hvw
      rw [hworkerSelf]
      exact hfits
    · rw [hworkerOf v hvw]
      have hfits' := h.worker v
      have hd : ∀ p, (s.worker v).InSection s.pc s.cb_ p → t.data p = s.data p := fun p hp =>
        (hdata p).resolve_right fun hw => hvw ((h.lock p).one v w hp hw)
      exact hfits'.of_data hd
  · rw [hpc]
    exact (hwait p g hg).elim (h.waiters p g) id

/-- A worker goes on, and that is all that happens. -/
theorem Standing.change (h : Standing s) {x next : Worker m} (hw : s.worker w = x)
    (hpc : t.pc = s.pc) (hcb : t.cb_ = s.cb_) (hworker : t.worker = update s.worker w next)
    (hspawned : t.spawned = s.spawned) (htimers : t.timers = s.timers)
    (hprim : t.primitive = s.primitive) (hfits : next.Fits s.data s.pc s.cb_)
    (hrest : ∀ g, x = .running g → (s.pc g).Rests)
    (hiff : ∀ q, next.InSection s.pc s.cb_ q ↔ x.InSection s.pc s.cb_ q) : Standing t := by
  have hdata : t.data = s.data := by
    unfold State.data
    rw [hprim]
  refine h.stay _ hpc hcb hworker (by rw [hspawned, htimers]; exact fun _ => .inl)
    (by rw [hprim]; exact fun _ _ => .inl) (fun q => .inl (congrFun hdata q))
    (by rw [hdata]; exact hfits) (fun g hg => .inr (hrest g (hw ▸ hg))) fun q => ?_
  rw [hprim, hw]
  exact .stay rfl (hiff q)

/-- A new fiber is nowhere yet. -/
theorem Standing.newFiber (h : Standing s) (ho : Owned s moving) (spawned : Multiset ℕ)
    (hspawned : ∀ g ∈ spawned, g = s.size ∨ g ∈ s.spawned) :
    Standing { s.newFiber with spawned } := by
  have hlive : s.live s.size = false := ho.fresh _ le_rfl
  have hheld : ∀ v, s.size ∉ (s.worker v).holds s.pc := ho.not_held hlive
  have hnone : s.places s.size = 0 := by
    have hcount := ho.count s.size
    rw [hlive, Bool.toNat_false] at hcount
    omega
  have hself : s.newFiber.pc s.size = .user := Function.update_self _ _ _
  have hof : ∀ g, g ≠ s.size → s.newFiber.pc g = s.pc g := fun g hg => Function.update_of_ne hg _ _
  refine ⟨fun p => ?_, fun g hg => ?_, fun g hg => ?_, fun v => ?_, fun p g hg => ?_⟩
  · exact (h.lock p).keep fun v => inSection_update (hheld v)
  · by_cases hgs : g = s.size
    · rw [hgs]
      exact hself ▸ trivial
    · change (s.newFiber.pc g).Rests
      rw [hof g hgs]
      exact h.rests g hg
  · change s.newFiber.pc g = .user
    by_cases hgs : g = s.size
    · rw [hgs, hself]
    · rw [hof g hgs]
      refine h.out g (hg.imp_left fun hg => ?_)
      exact (hspawned g hg).resolve_left hgs
  · exact fits_update (hheld v) (h.worker v)
  · have hgs : g ≠ s.size := by
      rintro rfl
      have hpos := parked_pos hg
      rw [State.places_eq] at hnone
      change 0 < s.parked s.size at hpos
      omega
    change ∃ c, s.newFiber.pc g = _
    rw [hof g hgs]
    exact h.waiters p g hg

/-- The fiber goes on without a look at a primitive. -/
theorem Standing.goOn (h : Standing s) (ho : Owned s moving) (hw : s.worker w = .running f)
    (hpc : t.pc = update s.pc f pc) (hcb : t.cb_ = s.cb_) (hworker : t.worker = s.worker)
    (hspawned : t.spawned = s.spawned) (htimers : t.timers = s.timers)
    (hprim : t.primitive = s.primitive) (hiff : ∀ q, pc.InSection q ↔ (s.pc f).InSection q) :
    Standing t := by
  refine h.go ho hw hpc hcb hworker (by rw [hspawned, htimers]; exact fun _ => id)
    (by rw [hprim]; exact fun _ _ => id) (fun q => .inl (by rw [State.data, hprim]; rfl))
    fun q => ?_
  rw [hprim]
  exact .stay rfl (hiff q)

/-- The fiber makes a step at primitive `p`. -/
theorem Standing.goAt (h : Standing s) (ho : Owned s moving) (hw : s.worker w = .running f)
    {x : Primitive} (hpc : t.pc = update s.pc f pc) (hcb : t.cb_ = s.cb_)
    (hworker : t.worker = s.worker) (hspawned : t.spawned = s.spawned)
    (htimers : t.timers = s.timers) (hprim : t.primitive = update s.primitive p x)
    (hwait : ∀ g ∈ x.waiters, g ∈ (s.primitive p).waiters)
    (hdata : x.data = s.data p ∨ (s.pc f).InSection p)
    (hturn : Exclusion.Turns (s.primitive p).spin_ x.spin_ ((s.pc f).InSection p) (pc.InSection p))
    (hother : ∀ q, q ≠ p → (pc.InSection q ↔ (s.pc f).InSection q)) : Standing t := by
  have hself : t.primitive p = x := by rw [hprim, Function.update_self]
  have hof : ∀ q, q ≠ p → t.primitive q = s.primitive q := fun q hq => by
    rw [hprim, Function.update_of_ne hq]
  refine h.go ho hw hpc hcb hworker (by rw [hspawned, htimers]; exact fun _ => id) ?_ ?_ ?_
  · intro q g hg
    by_cases hq : q = p
    · subst hq
      exact hwait g (hself ▸ hg)
    · rwa [hof q hq] at hg
  · intro q
    by_cases hq : q = p
    · subst hq
      rw [State.data, hself]
      exact hdata
    · exact .inl (by rw [State.data, hof q hq]; rfl)
  · intro q
    by_cases hq : q = p
    · subst hq
      rw [hself]
      exact hturn
    · rw [hof q hq]
      exact .stay rfl (hother q hq)

/-- `Suspend(cb)`, by the fiber that worker `w` executes. -/
theorem Standing.suspend (h : Standing s) (ho : Owned s moving) (hw : s.worker w = .running f)
    {cb : Callback m} (hpc : t.pc = update s.pc f pc) (hcb : t.cb_ = update s.cb_ f (some cb))
    (hworker : t.worker = update s.worker w (.suspended f)) (hspawned : t.spawned = s.spawned)
    (htimers : t.timers = s.timers)
    (hwait : ∀ q, (t.primitive q).waiters = (s.primitive q).waiters)
    (hspin : ∀ q, (t.primitive q).spin_ = (s.primitive q).spin_)
    (hdata : ∀ q, t.data q = s.data q ∨ (s.pc f).InSection q) (hfits : cb.Fits t.data pc)
    (hiff : ∀ q, cb.InSection q ↔ (s.pc f).InSection q) : Standing t := by
  have hcbSelf : t.cb_ f = some cb := by rw [hcb, Function.update_self]
  have hpcSelf : t.pc f = pc := by rw [hpc, Function.update_self]
  refine h.move ho _ (f := f) (by rw [hw]; exact mem_holds_running f) ?_ hpc hcb hworker ?_ ?_ ?_ ?_
    (.inr ?_) ?_
  · intro g hg
    rw [hw] at hg
    cases hg
    rfl
  · rw [hspawned, htimers]
    exact fun _ => .inl
  · intro q g hg
    rw [hwait q] at hg
    exact .inl hg
  · rw [hw]
    exact hdata
  · intro c hc
    rw [hcbSelf] at hc
    cases hc
    rwa [hpcSelf]
  · cases cb with
    | park q role =>
      obtain ⟨c, hc, -⟩ := hfits
      rw [hc]
      trivial
    | _ =>
      rw [show pc = .user from hfits]
      trivial
  · intro q
    rw [hspin q, hw]
    refine .stay rfl ?_
    simp only [Worker.InSection, hcbSelf, Option.some.injEq, exists_eq_left', hiff q]

end Standing

/-- The spin lock is neither a waiter nor data. -/
theorem update_spin (s : State n m) (p : Fin m) (b : Bool) (q : Fin m) :
    (update s.primitive p { s.primitive p with spin_ := b } q).waiters = (s.primitive q).waiters ∧
      (update s.primitive p { s.primitive p with spin_ := b } q).data = (s.primitive q).data := by
  by_cases hq : q = p
  · subst hq
    rw [Function.update_self]
    exact ⟨rfl, rfl⟩
  · rw [Function.update_of_ne hq]
    exact ⟨rfl, rfl⟩

/-- A call that parks has not changed what it looked at, nor would it if it came again. -/
theorem enter_park {data data' : Data} {c : Call} {role : Option Role}
    (h : data.enter c = some (data', .park role)) : data' = data := by
  revert h
  fun_cases Data.enter data c <;> intro h <;>
    simp only [Option.some.injEq, Prod.mk.injEq, reduceCtorEq, and_false] at h
  case case1 =>
    obtain ⟨rfl, h⟩ := h
    split at h
    · rename_i hlocked
      rw [hlocked]
    · cases h
  case case5 => split at h <;> cases h.2
  all_goals exact h.1.symm

section Steps

variable {s s' : State n m} {a : Action n m} {w : Fin n} {f : ℕ} {p : Fin m} {c : Call}
  {data : Data} {role : Option Role}

/-- A parking callback links its fiber in. -/
theorem Standing.link (h : Standing s) {node : ℕ → Option ℕ}
    (hw : s.worker w = .callback f (.park p role)) :
    Standing (({ s with node }.setPrimitive p ((s.primitive p).push f role)).setWorker w
      (.unlock p)) := by
  have hfits := h.worker w
  rw [hw] at hfits
  obtain ⟨c, hc, -⟩ := hfits
  have hself : update s.primitive p ((s.primitive p).push f role) p = (s.primitive p).push f role :=
    Function.update_self _ _ _
  have hof : ∀ q, q ≠ p → update s.primitive p ((s.primitive p).push f role) q = s.primitive q :=
    fun q hq => Function.update_of_ne hq _ _
  refine h.stay (.unlock p) (w := w) rfl rfl rfl (fun _ => .inl) (fun q g hg => ?_)
    (fun q => ?_) trivial (fun g hg => ?_) fun q => .stay ?_ ?_
  · by_cases hq : q = p
    · subst hq
      change g ∈ (update s.primitive q _ q).waiters at hg
      rw [hself] at hg
      obtain hg | hg := List.mem_append.mp hg
      · exact .inl hg
      · obtain rfl := List.mem_singleton.mp hg
        exact .inr ⟨c, hc⟩
    · change g ∈ (update s.primitive p _ q).waiters at hg
      rw [hof q hq] at hg
      exact .inl hg
  · by_cases hq : q = p
    · subst hq
      rw [hw]
      exact .inr rfl
    · exact .inl (congrArg Primitive.data (hof q hq))
  · rw [hw] at hg
    cases hg
  · change (update s.primitive p _ q).spin_ = _
    by_cases hq : q = p
    · subst hq
      rw [hself]
      rfl
    · rw [hof q hq]
  · rw [hw]
    exact Iff.rfl

/-- The body of a call suspends its fiber. -/
theorem Standing.park (h : Standing s) (ho : Owned s 0) (hw : s.worker w = .running f)
    (hpc : s.pc f = .body p c)
    (henter : (s.primitive p).data.enter c = some (data, .park role)) :
    Standing ((s.setPrimitive p { s.primitive p with data }).suspend w f (.park p role)
      (.relock p c)) := by
  have hself : ∀ q, update s.primitive p { s.primitive p with data } q = s.primitive q := by
    intro q
    by_cases hq : q = p
    · subst hq
      rw [Function.update_self, enter_park henter]
    · rw [Function.update_of_ne hq]
  have hdata : ∀ q, (update s.primitive p { s.primitive p with data } q).data =
      (s.primitive q).data := fun q => by rw [hself q]
  refine h.suspend ho hw rfl rfl rfl rfl rfl (fun q => by
      change (update s.primitive p _ q).waiters = _
      rw [hself q]) (fun q => by
      change (update s.primitive p _ q).spin_ = _
      rw [hself q]) (fun q => .inl (hdata q)) ⟨c, rfl, ?_⟩ fun q => by
      rw [hpc]
      exact Iff.rfl
  change (update s.primitive p _ p).data.enter c = some ((update s.primitive p _ p).data, _)
  rw [hdata p, henter, enter_park henter]

theorem standing_of_moves (h : Standing s) (ho : Owned s 0) (hm : Moves a s s') : Standing s' := by
  cases hm with
  | spawn =>
    refine h.newFiber ho _ fun g hg => ?_
    exact (Multiset.mem_add.mp hg).imp_left Multiset.mem_singleton.mp
  | bags htimers hspawned =>
    exact ⟨h.lock, h.rests, fun f hf => h.out f
      (hf.imp (Multiset.mem_of_le hspawned) (Multiset.mem_of_le htimers)), h.worker, h.waiters⟩
  | @run w f _ _ hidle hrest =>
    refine h.stay (.running f) (w := w) rfl rfl rfl (fun _ => .inl) (fun _ _ => .inl)
      (fun _ => .inl rfl) trivial (fun g hg => ?_) fun q => .stay rfl ?_
    · rw [hidle] at hg
      cases hg
    · rw [hidle]
      refine iff_of_false (fun hin => ?_) id
      have hrests := h.rests f hrest
      change (s.pc f).InSection q at hin
      cases hpc : s.pc f <;> rw [hpc] at hin hrests <;> trivial
  | @go w f hw hpc =>
    have hnew := h.newFiber ho s.spawned fun _ => .inr
    have hne : f ≠ s.size := by
      rintro rfl
      exact ho.not_held (ho.fresh _ le_rfl) w (by rw [hw]; exact mem_holds_running _)
    refine Standing.goOn (s := s.newFiber) hnew ho.newFiber hw rfl rfl rfl rfl rfl rfl fun q => ?_
    change _ ↔ (update s.pc s.size .user f).InSection q
    rw [Function.update_of_ne hne, hpc]
    exact Iff.rfl
  | @rest w f cb timer hw hpc hcb =>
    refine h.suspend ho hw rfl rfl rfl rfl rfl (fun _ => rfl) (fun _ => rfl) (fun _ => .inl rfl)
      ?_ fun q => ?_
    · obtain rfl | rfl := hcb <;> rfl
    · rw [hpc]
      obtain rfl | rfl := hcb <;> exact Iff.rfl
  | call hw hpc =>
    exact h.goOn ho hw rfl rfl rfl rfl rfl rfl fun q => by rw [hpc]; exact Iff.rfl
  | finish hw hpc =>
    refine h.change hw rfl rfl rfl rfl rfl rfl hpc (fun g hg => ?_) fun q => ?_
    · cases hg
      rw [hpc]
      trivial
    · simp only [Worker.InSection, hpc, Pc.InSection]
  | delete hw =>
    exact h.change hw rfl rfl rfl rfl rfl rfl trivial (fun g hg => by cases hg) fun _ => Iff.rfl
  | @enter w f cb hw hcb =>
    have hfits := h.worker w
    rw [hw] at hfits
    refine h.change hw rfl rfl rfl rfl rfl rfl (hfits cb hcb) (fun g hg => by cases hg) fun q => ?_
    simp only [Worker.InSection, hcb, Option.some.injEq, exists_eq_left']
  | yielded hw =>
    exact h.change hw rfl rfl rfl rfl rfl rfl trivial (fun g hg => by cases hg) fun _ => Iff.rfl
  | @slept w f timer hw =>
    have hfits := h.worker w
    rw [hw] at hfits
    exact h.change hw rfl rfl rfl rfl rfl rfl hfits (fun g hg => by cases hg) fun _ => Iff.rfl
  | parked hw => exact h.link hw
  | submitted hw =>
    exact h.change hw rfl rfl rfl rfl rfl rfl trivial (fun g hg => by cases hg) fun _ => Iff.rfl
  | @set w f hw =>
    have hfits := h.worker w
    rw [hw] at hfits
    refine h.stay .idle rfl rfl rfl (fun g hg => ?_) (fun _ _ => .inl)
      (fun _ => .inl rfl) trivial (fun g hg => ?_) fun q => .stay rfl (by rw [hw]; exact Iff.rfl)
    · obtain hg | hg := hg
      · exact .inl (.inl hg)
      · obtain hg | hg := Multiset.mem_add.mp hg
        · rw [Multiset.mem_singleton.mp hg]
          exact .inr hfits
        · exact .inl (.inr hg)
    · rw [hw] at hg
      cases hg
  | @release w p hw =>
    refine h.stay .idle rfl rfl rfl (fun _ => .inl)
      (fun q g hg => .inl ((update_spin s p false q).1 ▸ hg))
      (fun q => .inl (update_spin s p false q).2) trivial (fun g hg => ?_) fun q => ?_
    · rw [hw] at hg
      cases hg
    · rw [hw]
      change Exclusion.Turns _ (update s.primitive p _ q).spin_ _ _
      by_cases hq : q = p
      · subst hq
        rw [Function.update_self]
        exact .leave rfl rfl id
      · rw [Function.update_of_ne hq]
        exact .stay rfl (iff_of_false id fun he => hq he.symm)
  | passOn hw hpc =>
    exact h.goOn ho hw rfl rfl rfl rfl rfl rfl fun q => by rw [hpc]; exact Iff.rfl
  | @lock w f p c hw hpc hspin =>
    refine h.goAt ho hw rfl rfl rfl rfl rfl rfl (fun _ => id) (.inl rfl)
      (.enter hspin rfl rfl) fun q hq => ?_
    rw [hpc]
    exact iff_of_false (fun he => hq he.symm) id
  | @relock w f p c hw hpc hspin =>
    refine h.goAt ho hw rfl rfl rfl rfl rfl rfl (fun _ => id) (.inl rfl)
      (.enter hspin rfl ?_) fun q hq => ?_
    · split <;> rfl
    · rw [hpc]
      refine iff_of_false (fun he => hq ?_) id
      split at he <;> exact he.symm
  | @leave w f p c data ha hw hpc henter =>
    refine h.goAt ho hw rfl rfl rfl rfl rfl rfl (fun _ => id) (.inr (by rw [hpc]; rfl))
      (.stay rfl (by rw [hpc]; exact Iff.rfl)) fun q _ => by rw [hpc]; exact Iff.rfl
  | park hw hpc henter => exact h.park ho hw hpc henter
  | @wakeNobody w f p c data hw hpc henter hnil =>
    refine h.goAt ho hw rfl rfl rfl rfl rfl rfl (fun _ => id) (.inr (by rw [hpc]; rfl))
      (.stay rfl (by rw [hpc]; exact Iff.rfl)) fun q _ => by rw [hpc]; exact Iff.rfl
  | @wakeAll w f p c data hw hpc henter =>
    refine h.goAt ho hw rfl rfl rfl rfl rfl rfl (fun _ => id) (.inr (by rw [hpc]; rfl))
      (.stay rfl (by rw [hpc]; exact Iff.rfl)) fun q _ => by rw [hpc]; exact Iff.rfl
  | @pop w f x p c data verdict rest node hw hpc henter hverdict hwait =>
    refine h.goAt ho hw rfl rfl rfl rfl rfl rfl (fun g hg => ?_) (.inr (by rw [hpc]; rfl))
      (.stay rfl (by rw [hpc]; exact Iff.rfl)) fun q _ => by rw [hpc]; exact Iff.rfl
    rw [hwait]
    exact List.mem_cons_of_mem _ hg
  | wokenAll hw hpc hnil =>
    exact h.goOn ho hw rfl rfl rfl rfl rfl rfl fun q => by rw [hpc]; exact Iff.rfl
  | @popAll w f x p rest node hw hpc hwait =>
    refine h.goAt ho hw rfl rfl rfl rfl rfl rfl (fun g hg => ?_) (.inr (by rw [hpc]; rfl))
      (.stay rfl (by rw [hpc]; exact Iff.rfl)) fun q _ => by rw [hpc]; exact Iff.rfl
    rw [hwait]
    exact List.mem_cons_of_mem _ hg
  | @unlock w f p hw hpc =>
    refine h.goAt ho hw rfl rfl rfl rfl rfl rfl (fun _ => id) (.inl rfl)
      (.leave (by rw [hpc]; rfl) rfl id) fun q hq => ?_
    rw [hpc]
    exact iff_of_false id fun he => hq he.symm

theorem standing_of_reachable {C : Action n m → State n m → Prop}
    (hs : (machine n m).ReachableVia C s) : Standing s := by
  refine hs.invariant_of (B := fun s => Owned s 0) (I := Standing)
    (fun h => owned_of_reachable h.reachable) (fun s hinit => ?_)
    fun a s s' ho _ h _ hst => standing_of_moves h ho (moves_of_step ho hst)
  obtain ⟨data, -, rfl⟩ := hinit
  refine ⟨fun p => ⟨fun _ _ => id, fun _ _ h => h.elim, fun h => by cases h⟩, fun _ _ => trivial,
    fun f hf => ?_, fun _ => trivial, fun p f hf => by cases hf⟩
  exact hf.elim (fun h => absurd h (Multiset.notMem_zero f))
    fun h => absurd h (Multiset.notMem_zero f)

end Steps

end Exe.Fiber.Core
