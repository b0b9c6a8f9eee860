/-
Why a fiber is parked.

The operations of a primitive look at its data under the spin lock, and what they find there
decides whether the fiber parks. Here it is shown that a parked fiber goes on having a
reason: made now, its call would park it again. There are two exceptions, and each is a
wake-up on its way. An `Unlock` frees the mutex and wakes only the front waiter, so behind a
free mutex there may be others while some fiber is between its wake-up and the test of
`Lock`. And the `Done` that brings the count to zero wakes the waiters one by one, with the
spin lock in its hands.

# Conventions

* `Add` may wrap `count_` to zero while somebody waits, and a channel of capacity zero
  parks receivers behind its senders. Neither is considered (`NoWrap`, `Data.Sound`).
-/
import Exe.FiberSections

set_option autoImplicit false

namespace Exe.Fiber.Core

open Function (update)
open BufferedChannel (States Role)

variable {n m : ℕ}

/-! ## The reasons -/

/-- What keeps the fibers waiting that made this call. -/
def Data.HoldsBack : Data → Call → Prop
  | .mutex is_locked_, .Lock => is_locked_ = true
  | .waitGroup count_, .Wait => count_ ≠ 0
  | .buffered capacity size state_, .Send => size = capacity ∧ state_ = .Senders
  | .buffered _ size state_, .Receive => size = 0 ∧ state_ = .Receivers
  | .rendezvous state_, .Send => state_ = .Senders
  | .rendezvous state_, .Receive => state_ = .Receivers
  | _, _ => False

/-- A channel that can hold nothing takes receivers in behind its senders. -/
def Data.Sound : Data → Prop
  | .buffered capacity _ _ => 0 < capacity
  | _ => True

/-- The call would park if it was made now. -/
theorem Data.HoldsBack.parks {data : Data} {c : Call} (h : data.HoldsBack c) :
    ∃ role, data.enter c = some (data, .park role) := by
  revert h
  fun_cases Data.HoldsBack data c <;> intro h
  case case1 => exact ⟨none, by rw [h]; rfl⟩
  case case2 => exact ⟨none, by simp only [enter, if_pos h]⟩
  case case3 => exact ⟨some .sender, by obtain ⟨rfl, rfl⟩ := h; simp only [enter, if_true]⟩
  case case4 => exact ⟨some .receiver, by obtain ⟨rfl, rfl⟩ := h; simp only [enter, if_true]⟩
  case case5 => exact ⟨some .sender, by rw [h]; rfl⟩
  case case6 => exact ⟨some .receiver, by rw [h]; rfl⟩
  case case7 => exact h.elim

/-- The step is no `Add` that carries `count_` past its range. -/
def noWrap (a : Action n m) (s : State n m) : Bool :=
  match a with
  | .work w =>
    match s.worker w with
    | .running f =>
      match s.pc f with
      | .body p (.Add count) =>
        match (s.primitive p).data with
        | .waitGroup count_ => decide (count_ + count < sizeMod)
        | _ => true
      | _ => true
    | _ => true
  | _ => true

def NoWrap (a : Action n m) (s : State n m) : Prop := noWrap a s = true

instance (a : Action n m) (s : State n m) : Decidable (NoWrap a s) :=
  inferInstanceAs (Decidable (noWrap a s = true))

theorem NoWrap.lt {s : State n m} {w : Fin n} {f : ℕ} {p : Fin m} {count count_ : ℕ}
    (h : NoWrap (.work w) s) (hw : s.worker w = .running f) (hpc : s.pc f = .body p (.Add count))
    (hdata : (s.primitive p).data = .waitGroup count_) : count_ + count < sizeMod := by
  simpa only [NoWrap, noWrap, hw, hpc, hdata, decide_eq_true_eq] using h

theorem Data.Sound.enter {data data' : Data} {c : Call} {verdict : Verdict}
    (h : data.enter c = some (data', verdict)) : data'.Sound ↔ data.Sound := by
  revert h
  fun_cases Data.enter data c <;> intro h <;>
    simp only [Option.some.injEq, Prod.mk.injEq, reduceCtorEq] at h
  all_goals
    obtain ⟨rfl, -⟩ := h
    simp only [Data.Sound]

theorem Data.Sound.setState {data : Data} {st : States} :
    (data.setState st).Sound ↔ data.Sound := by
  cases data <;> exact Iff.rfl

/-- A call that returns leaves the others without what they wait for. -/
theorem Data.HoldsBack.leave {data data' : Data} {c c' : Call} (hc : data.HoldsBack c)
    (h : data.enter c' = some (data', .leave))
    (hadd : ∀ count count_, c' = .Add count → data = .waitGroup count_ →
      count_ + count < sizeMod) : data'.HoldsBack c := by
  revert hc h hadd
  fun_cases Data.enter data c' <;> intro hc h hadd <;>
    simp only [Option.some.injEq, Prod.mk.injEq, reduceCtorEq, and_false, and_true] at h
  case case1 =>
    obtain ⟨rfl, -⟩ := h
    cases c <;> first | exact hc.elim | rfl
  case case2 =>
    obtain rfl := h
    cases c <;> first | exact hc.elim | rfl
  case case4 count_ count =>
    obtain rfl := h
    have hlt := hadd count count_ rfl rfl
    cases c with
    | Wait =>
      change (count_ + count) % sizeMod ≠ 0
      rw [Nat.mod_eq_of_lt hlt]
      have hne : count_ ≠ 0 := hc
      omega
    | _ => exact hc.elim
  case case5 =>
    obtain ⟨rfl, h⟩ := h
    split at h
    · cases h
    · rename_i hne
      cases c with
      | Wait => exact hne
      | _ => exact hc.elim
  case case6 =>
    obtain ⟨rfl, -⟩ := h
    exact hc
  case case9 capacity size state_ hsize hno =>
    obtain rfl := h
    cases c with
    | Send => exact absurd hc.1 hsize
    | Receive => exact absurd hc.2 (hno)
    | _ => exact hc.elim
  case case12 capacity size state_ hsize hno =>
    obtain rfl := h
    cases c with
    | Send => exact absurd hc.2 (hno)
    | Receive => exact absurd hc.1 hsize
    | _ => exact hc.elim

/-- The data of a primitive after a fiber has been linked in. -/
def Data.pushed (data : Data) : Option Role → Data
  | some role => data.setState role.states
  | none => data

/-- A fiber that parks sets the state of a channel to its own side. -/
theorem Data.HoldsBack.of_park {data : Data} {c : Call} {role : Option Role}
    (h : data.enter c = some (data, .park role)) : (data.pushed role).HoldsBack c := by
  revert h
  fun_cases Data.enter data c <;> intro h <;>
    simp only [Option.some.injEq, Prod.mk.injEq, reduceCtorEq, and_false, Verdict.park.injEq,
      true_and] at h
  case case1 =>
    obtain ⟨he, hv⟩ := h
    split at hv
    · cases hv
      exact ‹_›
    · cases hv
  case case5 => split at h <;> cases h.2
  case case6 =>
    split at h
    · cases h
      exact ‹_›
    · cases h
  case case8 =>
    subst h
    exact ⟨rfl, rfl⟩
  case case10 =>
    subst h
    exact ⟨rfl, rfl⟩
  all_goals
    subst h
    rfl

/-- Those who wait already are on the same side. -/
theorem Data.HoldsBack.push {data : Data} {c c' : Call} {role : Option Role}
    (hsound : data.Sound) (hc : data.HoldsBack c)
    (h : data.enter c' = some (data, .park role)) : (data.pushed role).HoldsBack c := by
  revert hc hsound h
  fun_cases Data.enter data c' <;> intro hsound hc h <;>
    simp only [Option.some.injEq, Prod.mk.injEq, reduceCtorEq, and_false, Verdict.park.injEq,
      true_and] at h
  case case1 =>
    obtain ⟨he, hv⟩ := h
    split at hv <;> cases hv
    exact hc
  case case5 => split at h <;> cases h.2
  case case6 =>
    split at h <;> cases h
    exact hc
  case case8 size state_ hno =>
    subst h
    cases c with
    | Send => exact ⟨rfl, rfl⟩
    | Receive => exact absurd hc.2 hno
    | _ => exact hc.elim
  case case10 capacity state_ =>
    subst h
    cases c with
    | Send =>
      -- the channel would be full and empty
      have hpos : 0 < capacity := hsound
      have hfull : 0 = capacity := hc.1
      omega
    | Receive => exact ⟨rfl, rfl⟩
    | _ => exact hc.elim
  case case14 state_ hno =>
    subst h
    cases c with
    | Send => rfl
    | Receive => exact absurd hc hno
    | _ => exact hc.elim
  case case16 state_ hno =>
    subst h
    cases c with
    | Send => exact absurd hc hno
    | Receive => rfl
    | _ => exact hc.elim

/-- A channel that serves its front waiter looks the same afterwards. -/
theorem enter_serve_eq {data data' : Data} {c : Call} (h : data.enter c = some (data', .serve)) :
    data' = data ∧ c ≠ .Lock := by
  revert h
  fun_cases Data.enter data c <;> intro h <;>
    simp only [Option.some.injEq, Prod.mk.injEq, reduceCtorEq, and_false, and_true] at h
  case case1 => split at h <;> cases h.2
  case case5 => split at h <;> cases h.2
  case case6 => split at h <;> cases h.2
  all_goals exact ⟨h.symm, by decide⟩

/-- `f` has been woken at the mutex `p`, or has only just come, and has its test of `Lock`
before it. -/
structure Contends (s : State n m) (p : Fin m) (f : ℕ) : Prop where
  live : s.live f = true
  away : f ∉ (s.primitive p).waiters
  pc : s.pc f = .relock p .Lock ∨ s.pc f = .body p .Lock

def Pc.WakesAll (p : Fin m) : Pc m → Prop
  | .submit _ next => next.WakesAll p
  | .wakeAll q => q = p
  | _ => False

/-- A fiber is about to wake everybody at `p`. -/
def WakesAll (s : State n m) (p : Fin m) : Prop :=
  ∃ w f, s.worker w = .running f ∧ (s.pc f).WakesAll p

/-- Why a fiber that has made the call `c` at `p` is still parked. -/
inductive Reason (s : State n m) (p : Fin m) (c : Call) : Prop
  | data (h : (s.data p).HoldsBack c)
  | contender {f : ℕ} (hc : c = .Lock) (hf : Contends s p f)
  | wakesAll (hc : c = .Wait) (h : WakesAll s p)

def Reasons (s : State n m) : Prop :=
  ∀ p, (s.data p).Sound → ∀ f ∈ (s.primitive p).waiters, ∀ c, s.pc f = .relock p c → Reason s p c

section Reasons

variable {s t : State n m} {moving : Multiset ℕ} {w : Fin n} {f g : ℕ} {p : Fin m} {c : Call}
  {pc : Pc m}

theorem Pc.WakesAll.inSection (h : pc.WakesAll p) : pc.InSection p := by
  induction pc with
  | submit g next ih => exact ih h
  | wakeAll q => exact h
  | _ => exact h.elim

/-- A section at `p` that does not wake everybody keeps off those that do. -/
theorem Standing.not_wakesAll (h : Standing s) {x : Worker m} (hw : s.worker w = x)
    (hin : x.InSection s.pc s.cb_ p) (hnot : ∀ f, x = .running f → ¬(s.pc f).WakesAll p) :
    ¬WakesAll s p := by
  rintro ⟨v, f, hv, hf⟩
  have hvw : v = w := by
    refine (h.lock p).one v w ?_ ?_
    · rw [hv]
      exact hf.inSection
    · rw [hw]
      exact hin
  rw [hvw, hw] at hv
  exact hnot f hv hf

theorem Reason.keep (h : Reason s p c) (hdata : t.data p = s.data p)
    (hcontend : ∀ f, Contends s p f → Contends t p f) (hwakes : WakesAll s p → WakesAll t p) :
    Reason t p c := by
  cases h with
  | data h => exact .data (by rwa [hdata])
  | contender hc hf => exact .contender hc (hcontend _ hf)
  | wakesAll hc h => exact .wakesAll hc (hwakes h)

/-- Nobody is linked or unlinked, and nothing is written. -/
theorem Reasons.keep (h : Reasons s)
    (hwait : ∀ q, (t.primitive q).waiters = (s.primitive q).waiters) (hdata : t.data = s.data)
    (hpc : ∀ q, ∀ g ∈ (s.primitive q).waiters, t.pc g = s.pc g)
    (hcontend : ∀ q g, Contends s q g → Contends t q g)
    (hwakes : ∀ q, WakesAll s q → WakesAll t q ∨ (s.primitive q).waiters = []) : Reasons t := by
  intro q hsound g hg c hc
  rw [hwait q] at hg
  rw [hdata] at hsound
  rw [hpc q g hg] at hc
  refine (h q hsound g hg c hc).keep (congrFun hdata q) (hcontend q) fun hw => ?_
  refine (hwakes q hw).resolve_right fun hnil => ?_
  rw [hnil] at hg
  cases hg

/-- The workers do something that is no fiber's step. -/
theorem Reasons.stay (h : Reasons s) (hpc : t.pc = s.pc)
    (hwait : ∀ q, (t.primitive q).waiters = (s.primitive q).waiters) (hdata : t.data = s.data)
    (hlive : ∀ g, s.live g = true → t.live g = true ∨ s.pc g = .user)
    (hrun : ∀ v g, s.worker v = .running g → t.worker v = .running g ∨ s.pc g = .user) :
    Reasons t := by
  refine h.keep hwait hdata (fun _ g _ => by rw [hpc]) (fun q g hg => ?_) fun q => ?_
  · refine ⟨(hlive g hg.live).resolve_right fun hu => ?_, by rw [hwait q]; exact hg.away,
      by rw [hpc]; exact hg.pc⟩
    obtain hpc | hpc := hg.pc <;> rw [hu] at hpc <;> cases hpc
  · rintro ⟨v, g, hv, hg⟩
    refine .inl ⟨v, g, (hrun v g hv).resolve_right fun hu => ?_, by rwa [hpc]⟩
    rw [hu] at hg
    exact hg

/-- The fiber on `w` makes a step that writes nothing at a primitive. -/
theorem Reasons.go (h : Reasons s) (ho : Owned s moving) (hw : s.worker w = .running f)
    (hpc : t.pc = update s.pc f pc)
    (hwait : ∀ q, (t.primitive q).waiters = (s.primitive q).waiters) (hdata : t.data = s.data)
    (hlive : ∀ g, s.live g = true → t.live g = true)
    (hrun : ∀ v, v ≠ w → t.worker v = s.worker v)
    (hcontend : ∀ q, s.pc f = .relock q .Lock ∨ s.pc f = .body q .Lock →
      pc = .relock q .Lock ∨ pc = .body q .Lock)
    (hwakes : ∀ q, (s.pc f).WakesAll q → t.worker w = .running f ∧ pc.WakesAll q ∨
      (s.primitive q).waiters = []) : Reasons t := by
  have hself : t.pc f = pc := by rw [hpc, Function.update_self]
  have hof : ∀ g, g ≠ f → t.pc g = s.pc g := fun g hg => by rw [hpc, Function.update_of_ne hg]
  have honly := ho.only (w := w) (f := f) (by rw [hw]; exact mem_holds_running f)
  refine h.keep hwait hdata (fun q g hg => hof g ?_) (fun q g hg => ?_) fun q => ?_
  · rintro rfl
    exact honly.waiters q hg
  · refine ⟨hlive g hg.live, by rw [hwait q]; exact hg.away, ?_⟩
    by_cases hgf : g = f
    · subst hgf
      rw [hself]
      exact hcontend q hg.pc
    · rw [hof g hgf]
      exact hg.pc
  · rintro ⟨v, g, hv, hg⟩
    by_cases hvw : v = w
    · subst hvw
      rw [hw] at hv
      cases hv
      exact (hwakes q hg).imp_left fun ⟨hrun', hpc'⟩ => ⟨v, f, hrun', by rwa [hself]⟩
    · have hgf : g ≠ f := by
        rintro rfl
        exact ho.only_runner hw v hvw hv
      exact .inl ⟨v, g, by rw [hrun v hvw, hv], by rwa [hof g hgf]⟩

/-- The fiber on `w` makes a step at `p`, and writes there. -/
theorem Reasons.goAt (h : Reasons s) (ho : Owned s moving) (hw : s.worker w = .running f)
    {x : Primitive} (hpc : t.pc = update s.pc f pc) (hprim : t.primitive = update s.primitive p x)
    (hlive : t.live = s.live) (hworker : t.worker = s.worker)
    (hwait : ∀ g ∈ x.waiters, g ∈ (s.primitive p).waiters)
    (hcontend : ∀ q, q ≠ p → s.pc f ≠ .relock q .Lock ∧ s.pc f ≠ .body q .Lock)
    (hwakes : ∀ q, q ≠ p → ¬(s.pc f).WakesAll q)
    (hself : x.data.Sound → ∀ g ∈ x.waiters, ∀ c, s.pc g = .relock p c → Reason t p c) :
    Reasons t := by
  have hof : ∀ g, g ≠ f → t.pc g = s.pc g := fun g hg => by rw [hpc, Function.update_of_ne hg]
  have honly := ho.only (w := w) (f := f) (by rw [hw]; exact mem_holds_running f)
  intro q hsound g hg c hc
  by_cases hq : q = p
  · subst hq
    have hx : t.primitive q = x := by rw [hprim, Function.update_self]
    rw [hx] at hg
    rw [State.data, hx] at hsound
    refine hself hsound g hg c ?_
    rw [← hc, hof g]
    rintro rfl
    exact honly.waiters q (hwait g hg)
  · have hx : t.primitive q = s.primitive q := by rw [hprim, Function.update_of_ne hq]
    have hdata : t.data q = s.data q := by rw [State.data, hx]; rfl
    rw [hx] at hg
    rw [hdata] at hsound
    have hgf : g ≠ f := by
      rintro rfl
      exact honly.waiters q hg
    rw [hof g hgf] at hc
    refine (h q hsound g hg c hc).keep hdata (fun y hy => ?_) fun hy => ?_
    · have hyf : y ≠ f := by
        rintro rfl
        exact hy.pc.elim (hcontend q hq).1 (hcontend q hq).2
      exact ⟨by rw [hlive]; exact hy.live, by rw [hx]; exact hy.away,
        by rw [hof y hyf]; exact hy.pc⟩
    · obtain ⟨v, y, hv, hy⟩ := hy
      have hyf : y ≠ f := by
        rintro rfl
        exact hwakes q hq hy
      exact ⟨v, y, by rw [hworker, hv], by rwa [hof y hyf]⟩

theorem Reason.of_data {x : Primitive} (hprim : t.primitive = update s.primitive p x)
    (h : x.data.HoldsBack c) : Reason t p c := by
  refine .data ?_
  rw [State.data, hprim, Function.update_self]
  exact h

/-- Another contender stays one. -/
theorem Contends.other {x : Primitive} (hg : Contends s p g) (hgf : g ≠ f)
    (hpc : t.pc = update s.pc f pc) (hlive : t.live = s.live)
    (hprim : t.primitive = update s.primitive p x)
    (hwait : ∀ g ∈ x.waiters, g ∈ (s.primitive p).waiters) : Contends t p g := by
  refine ⟨by rw [hlive]; exact hg.live, fun hin => hg.away ?_, ?_⟩
  · rw [hprim, Function.update_self] at hin
    exact hwait g hin
  · rw [hpc, Function.update_of_ne hgf]
    exact hg.pc

theorem wakesAll_of (hw : t.worker w = .running f) (hpc : t.pc = update s.pc f pc)
    (h : pc.WakesAll p) : WakesAll t p :=
  ⟨w, f, hw, by rwa [hpc, Function.update_self]⟩

/-- A waiter lives, and waits once. -/
theorem Owned.parked (h : Owned s moving) (hg : g ∈ (s.primitive p).waiters) :
    s.live g = true ∧ (s.primitive p).waiters.Nodup := by
  constructor
  · have hpos := parked_pos hg
    have hcount := h.count g
    rw [State.places_eq] at hcount
    cases hlive : s.live g with
    | true => rfl
    | false =>
      rw [hlive, Bool.toNat_false] at hcount
      omega
  · refine List.nodup_iff_count_le_one.mpr fun y => ?_
    have hle : (s.primitive p).waiters.count y ≤ s.parked y :=
      Finset.single_le_sum (f := fun p => (s.primitive p).waiters.count y)
        (fun _ _ => Nat.zero_le _) (Finset.mem_univ p)
    have hone := h.places_le y
    omega

/-- Who waits at a primitive, while a fiber is in its section and does not wake everybody. -/
theorem Reasons.inside (h : Reasons s) (hst : Standing s) {x : Worker m}
    (hw : s.worker w = x) (hin : x.InSection s.pc s.cb_ p)
    (hnot : ∀ f, x = .running f → ¬(s.pc f).WakesAll p) (hsound : (s.data p).Sound)
    (hg : g ∈ (s.primitive p).waiters) (hc : s.pc g = .relock p c) :
    (s.data p).HoldsBack c ∨ c = .Lock ∧ ∃ f, Contends s p f := by
  cases h p hsound g hg c hc with
  | data h => exact .inl h
  | contender hc hf => exact .inr ⟨hc, _, hf⟩
  | wakesAll hc h => exact absurd h (hst.not_wakesAll hw hin hnot)

/-- The fiber on `w` makes the step that is the body of its section at `p`. -/
theorem Reasons.body (h : Reasons s) (hst : Standing s) (ho : Owned s moving)
    (hw : s.worker w = .running f) {c₀ : Call} (hbody : s.pc f = .body p c₀) {x : Primitive}
    (hpc : t.pc = update s.pc f pc) (hprim : t.primitive = update s.primitive p x)
    (hlive : t.live = s.live) (hworker : t.worker = s.worker)
    (hwait : ∀ g ∈ x.waiters, g ∈ (s.primitive p).waiters)
    (hsound : x.waiters ≠ [] → x.data.Sound → (s.data p).Sound)
    (hself : (s.data p).Sound → ∀ g ∈ x.waiters, ∀ c, s.pc g = .relock p c →
      (s.data p).HoldsBack c ∨ c = .Lock ∧ (∃ y, Contends s p y) → Reason t p c) : Reasons t := by
  refine h.goAt ho hw hpc hprim hlive hworker hwait (fun q hq => ?_) (fun q _ => ?_)
    fun hx g hg c hc => ?_
  · rw [hbody]
    refine ⟨by simp, fun he => hq ?_⟩
    cases he
    rfl
  · rw [hbody]
    exact id
  · have hsound' := hsound (List.ne_nil_of_mem hg) hx
    refine hself hsound' g hg c hc (h.inside hst hw ?_ (fun f' hf' => ?_) hsound' (hwait g hg) hc)
    · simp only [Worker.InSection, hbody, Pc.InSection]
    · cases hf'
      rw [hbody]
      exact id

theorem Reasons.newFiber (h : Reasons s) (ho : Owned s moving) : Reasons s.newFiber := by
  have hlive : s.live s.size = false := ho.fresh _ le_rfl
  have hof : ∀ g, g ≠ s.size → s.newFiber.pc g = s.pc g := fun g hg => Function.update_of_ne hg _ _
  refine h.keep (fun _ => rfl) rfl (fun q g hg => hof g ?_) (fun q g hg => ?_) fun q => ?_
  · rintro rfl
    have hcount := ho.count s.size
    rw [hlive, Bool.toNat_false, State.places_eq] at hcount
    have hpos := parked_pos hg
    omega
  · have hgs : g ≠ s.size := by
      rintro rfl
      rw [hg.live] at hlive
      cases hlive
    exact ⟨(Function.update_of_ne hgs _ _).trans hg.live, hg.away, by rw [hof g hgs]; exact hg.pc⟩
  · rintro ⟨v, g, hv, hg⟩
    have hgs : g ≠ s.size := by
      rintro rfl
      exact ho.not_held hlive v (by rw [hv]; exact mem_holds_running _)
    exact .inl ⟨v, g, hv, by rwa [hof g hgs]⟩

end Reasons

/-- A `Lock` that returns holds back the others. -/
theorem enter_lock {data data' : Data} (h : data.enter .Lock = some (data', .leave)) :
    data'.HoldsBack .Lock := by
  cases data with
  | mutex is_locked_ =>
    obtain ⟨rfl, -⟩ := Prod.mk.inj (Option.some.inj h)
    rfl
  | _ => cases h

/-- Only a mutex wakes one, and who waits for it has called `Lock`. -/
theorem enter_wakeOne {data data' : Data} {c : Call} (h : data.enter c = some (data', .wakeOne)) :
    c ≠ .Lock ∧ ∀ d, data.HoldsBack d → d = .Lock := by
  revert h
  fun_cases Data.enter data c <;> intro h <;>
    simp only [Option.some.injEq, Prod.mk.injEq, reduceCtorEq, and_false, and_true] at h
  case case1 => split at h <;> cases h.2
  case case3 => exact ⟨by decide, fun d hd => by cases d <;> first | rfl | exact hd.elim⟩
  case case5 => split at h <;> cases h.2
  case case6 => split at h <;> cases h.2

/-- Only a wait group wakes everybody, and who waits for it has called `Wait`. -/
theorem enter_wakeAll {data data' : Data} {c : Call} (h : data.enter c = some (data', .wakeAll)) :
    c ≠ .Lock ∧ ∀ d, data.HoldsBack d → d = .Wait := by
  revert h
  fun_cases Data.enter data c <;> intro h <;>
    simp only [Option.some.injEq, Prod.mk.injEq, reduceCtorEq, and_false] at h
  case case1 => split at h <;> cases h.2
  case case5 => exact ⟨by decide, fun d hd => by cases d <;> first | rfl | exact hd.elim⟩
  case case6 => split at h <;> cases h.2

/-- The state of a channel changes when its last waiter has been popped. -/
theorem popped_data (x : Primitive) (rest : List ℕ) (hrest : rest ≠ []) :
    (x.popped rest).data = x.data := by
  cases rest with
  | nil => exact absurd rfl hrest
  | cons y rest => rfl

/-- At neither a test of `Lock` nor the waking of everybody. -/
def Pc.Aside (pc : Pc m) : Prop :=
  ∀ q, ¬(pc = .relock q .Lock ∨ pc = .body q .Lock) ∧ ¬pc.WakesAll q

theorem aside_user : (.user : Pc m).Aside := fun _ => ⟨by simp, id⟩

theorem aside_lock (p : Fin m) (c : Call) : (.lock p c : Pc m).Aside := fun _ => ⟨by simp, id⟩

theorem aside_unlock (p : Fin m) : (.unlock p : Pc m).Aside := fun _ => ⟨by simp, id⟩

section Cases

variable {s t : State n m} {w : Fin n} {f : ℕ} {p : Fin m} {c : Call} {data : Data} {pc : Pc m}

/-- A worker that executes no fiber goes on. -/
theorem running_update {x : Worker m} (next : Worker m) (hw : s.worker w = x)
    (hx : ∀ g, x ≠ .running g)
    (v : Fin n) (g : ℕ) (hv : s.worker v = .running g) :
    update s.worker w next v = .running g ∨ s.pc g = .user := by
  have hvw : v ≠ w := by
    rintro rfl
    exact hx g (hw ▸ hv)
  exact .inl ((Function.update_of_ne hvw _ _).trans hv)

/-- The fiber on `w`, of which nobody's reason speaks, goes on. -/
theorem Reasons.aside {moving : Multiset ℕ} (h : Reasons s) (ho : Owned s moving)
    (hw : s.worker w = .running f) (haside : (s.pc f).Aside) (hpc : t.pc = update s.pc f pc)
    (hwait : ∀ q, (t.primitive q).waiters = (s.primitive q).waiters) (hdata : t.data = s.data)
    (hlive : t.live = s.live) (hrun : ∀ v, v ≠ w → t.worker v = s.worker v) : Reasons t :=
  h.go ho hw hpc hwait hdata (fun g hg => by rw [hlive, hg]) hrun
    (fun q hq => absurd hq (haside q).1) fun q hq => absurd hq (haside q).2

/-- A body that is not that of `Lock` is no contender's. -/
theorem Contends.ne (hg : Contends s p f) {g : ℕ} (hpc : s.pc g = .body p c) (hc : c ≠ .Lock) :
    f ≠ g := by
  rintro rfl
  obtain hf | hf := hg.pc <;> rw [hpc] at hf <;> cases hf
  exact hc rfl

/-- A parking callback links its fiber in. -/
theorem Reasons.link (h : Reasons s) (hst : Standing s) {role : Option Role}
    {node : ℕ → Option ℕ} (hw : s.worker w = .callback f (.park p role)) :
    Reasons (({ s with node }.setPrimitive p ((s.primitive p).push f role)).setWorker w
      (.unlock p)) := by
  obtain ⟨c₀, hc₀, henter⟩ : (Callback.park p role).Fits s.data (s.pc f) := by
    have hfits := hst.worker w
    rwa [hw] at hfits
  have hin : (Worker.callback f (.park p role)).InSection s.pc s.cb_ p := rfl
  have hrun' := running_update (.unlock p) hw fun g he => by cases he
  intro q hsound g hg c hc
  by_cases hq : q = p
  · subst hq
    simp only [State.setWorker, State.setPrimitive, Function.update_self] at hg
    simp only [State.data, State.setWorker, State.setPrimitive, Function.update_self] at hsound
    have hsound' : (s.data q).Sound := by
      cases role with
      | none => exact hsound
      | some role => exact Data.Sound.setState.mp hsound
    obtain hg | hg := List.mem_append.mp hg
    · obtain hb | ⟨rfl, y, hy⟩ := h.inside hst hw hin (fun g he => by cases he) hsound' hg hc
      · exact .of_data rfl (Data.HoldsBack.push hsound' hb henter)
      · by_cases hyf : y = f
        · subst hyf
          have hLock : c₀ = .Lock := by
            obtain hy | hy := hy.pc <;> rw [hc₀] at hy <;> cases hy
            rfl
          exact .of_data rfl (Data.HoldsBack.of_park (hLock ▸ henter))
        · refine .contender rfl (f := y) ⟨hy.live, fun hmem => ?_, hy.pc⟩
          simp only [State.setWorker, State.setPrimitive, Function.update_self] at hmem
          obtain hmem | hmem := List.mem_append.mp hmem
          · exact hy.away hmem
          · exact hyf (List.mem_singleton.mp hmem)
    · obtain rfl := List.mem_singleton.mp hg
      have hcc : c = c₀ := by
        have he : s.pc g = .relock q c := hc
        rw [hc₀] at he
        cases he
        rfl
      exact .of_data rfl (hcc ▸ Data.HoldsBack.of_park henter)
  · have hx : update s.primitive p ((s.primitive p).push f role) q = s.primitive q :=
      Function.update_of_ne hq _ _
    simp only [State.setWorker, State.setPrimitive, hx] at hg
    simp only [State.data, State.setWorker, State.setPrimitive, hx] at hsound
    refine (h q hsound g hg c hc).keep (congrArg Primitive.data hx) (fun y hy => ?_) ?_
    · refine ⟨hy.live, fun hmem => hy.away ?_, hy.pc⟩
      simp only [State.setWorker, State.setPrimitive, hx] at hmem
      exact hmem
    · rintro ⟨v, y, hv, hy⟩
      refine ⟨v, y, (hrun' v y hv).resolve_right fun hu => ?_, hy⟩
      rw [hu] at hy
      exact hy

/-- The body of a call returns. -/
theorem Reasons.leave (h : Reasons s) (hst : Standing s) (ho : Owned s 0)
    (hno : NoWrap (.work w) s) (hw : s.worker w = .running f) (hpc : s.pc f = .body p c)
    (henter : (s.primitive p).data.enter c = some (data, .leave)) :
    Reasons ((s.setPrimitive p { s.primitive p with data }).setPc f (.unlock p)) := by
  refine h.body hst ho hw hpc rfl rfl rfl rfl (fun _ => id)
    (fun _ => (Data.Sound.enter henter).mp) fun _ g hg d hd hreason => ?_
  obtain hb | ⟨rfl, y, hy⟩ := hreason
  · exact .of_data rfl (hb.leave henter fun count count_ hc hdata => hno.lt hw (hc ▸ hpc) hdata)
  · by_cases hyf : y = f
    · subst hyf
      -- it was its test that it had before it
      obtain rfl : c = .Lock := by
        obtain hy | hy := hy.pc <;> rw [hpc] at hy <;> cases hy
        rfl
      exact .of_data rfl (enter_lock henter)
    · exact .contender rfl (hy.other hyf rfl rfl rfl fun _ => id)

/-- The body of a call pops the front waiter. -/
theorem Reasons.pop (h : Reasons s) (hst : Standing s) (ho : Owned s 0) {x : ℕ}
    {verdict : Verdict} {rest : List ℕ} {node : ℕ → Option ℕ}
    (hw : s.worker w = .running f) (hpc : s.pc f = .body p c)
    (henter : (s.primitive p).data.enter c = some (data, verdict))
    (hverdict : verdict = .wakeOne ∨ verdict = .serve)
    (hwait : (s.primitive p).waiters = x :: rest) :
    Reasons (({ s with node }.setPrimitive p
      ({ s.primitive p with data }.popped rest)).setPc f (.submit x (.unlock p))) := by
  have hmem : ∀ g ∈ rest, g ∈ (s.primitive p).waiters := fun g hg => by
    rw [hwait]
    exact List.mem_cons_of_mem _ hg
  have hdata := popped_data { s.primitive p with data } rest
  refine h.body hst ho hw hpc rfl rfl rfl rfl hmem (fun hrest hsound => ?_)
    fun hsound g hg d hd hreason => ?_
  · rw [hdata hrest] at hsound
    exact (Data.Sound.enter henter).mp hsound
  have hg' : g ∈ rest := hg
  obtain rfl | rfl := hverdict
  · -- the front waiter of a mutex has its test before it
    obtain ⟨-, hlocks⟩ := enter_wakeOne henter
    have hx : x ∈ (s.primitive p).waiters := by
      rw [hwait]
      exact List.mem_cons_self
    have hxf : x ≠ f := by
      rintro rfl
      exact (ho.only (w := w) (by rw [hw]; exact mem_holds_running x)).waiters p hx
    obtain ⟨dx, hdx⟩ := hst.waiters p x hx
    have hxLock : dx = .Lock := by
      have hin : (Worker.running f).InSection s.pc s.cb_ p := by
        simp only [Worker.InSection, hpc, Pc.InSection]
      refine (h.inside hst hw hin (fun f' hf' => ?_) hsound hx hdx).elim (hlocks dx) (·.1)
      cases hf'
      rw [hpc]
      exact id
    have hdLock : d = .Lock := hreason.elim (hlocks d) (·.1)
    obtain ⟨hlive, hnd⟩ := ho.parked hx
    rw [hwait, List.nodup_cons] at hnd
    refine .contender hdLock (f := x) ⟨hlive, fun hin => hnd.1 ?_, .inl ?_⟩
    · simp only [State.setPc, State.setPrimitive, Function.update_self] at hin
      exact hin
    · rw [← hxLock, ← hdx]
      exact Function.update_of_ne hxf _ _
  · obtain ⟨rfl, hcLock⟩ := enter_serve_eq henter
    obtain hb | ⟨rfl, y, hy⟩ := hreason
    · exact .of_data rfl ((hdata (List.ne_nil_of_mem hg')).symm ▸ hb)
    · exact .contender rfl (hy.other (hy.ne hpc hcLock) rfl rfl rfl hmem)

/-- One more waiter of all is popped. -/
theorem Reasons.popAll (h : Reasons s) (ho : Owned s 0) {x : ℕ} {rest : List ℕ}
    {node : ℕ → Option ℕ} (hw : s.worker w = .running f) (hpc : s.pc f = .wakeAll p)
    (hwait : (s.primitive p).waiters = x :: rest) :
    Reasons (({ s with node }.setPrimitive p ((s.primitive p).popped rest)).setPc f
      (.submit x (.wakeAll p))) := by
  have hmem : ∀ g ∈ rest, g ∈ (s.primitive p).waiters := fun g hg => by
    rw [hwait]
    exact List.mem_cons_of_mem _ hg
  refine h.goAt ho hw rfl rfl rfl rfl hmem (fun q _ => ?_) (fun q hq hwk => ?_)
    fun hsound g hg d hd => ?_
  · rw [hpc]
    exact ⟨by simp, by simp⟩
  · rw [hpc] at hwk
    exact hq hwk.symm
  · have hg' : g ∈ rest := hg
    have hdata := popped_data (s.primitive p) _ (List.ne_nil_of_mem hg')
    rw [hdata] at hsound
    cases h p hsound g (hmem g hg) d hd with
    | data hb => exact .of_data rfl (hdata.symm ▸ hb)
    | @contender y hd hy =>
      have hyf : y ≠ f := by
        rintro rfl
        obtain hy | hy := hy.pc <;> rw [hpc] at hy <;> cases hy
      exact .contender hd (hy.other hyf rfl rfl rfl hmem)
    | wakesAll hd _ => exact .wakesAll hd (wakesAll_of hw rfl rfl)

end Cases

section Steps

variable {s s' : State n m} {a : Action n m}

theorem reasons_of_moves (h : Reasons s) (hst : Standing s) (ho : Owned s 0) (hno : NoWrap a s)
    (hm : Moves a s s') : Reasons s' := by
  cases hm with
  | spawn =>
    exact (h.newFiber ho).stay rfl (fun _ => rfl) rfl (fun _ => .inl) fun _ _ => .inl
  | bags htimers hspawned =>
    exact h.stay rfl (fun _ => rfl) rfl (fun _ => .inl) fun _ _ => .inl
  | run hidle hrest =>
    exact h.stay rfl (fun _ => rfl) rfl (fun _ => .inl)
      (running_update _ hidle fun g he => by cases he)
  | @go w f hw hpc =>
    have hne : f ≠ s.size := by
      rintro rfl
      exact ho.not_held (ho.fresh _ le_rfl) w (by rw [hw]; exact mem_holds_running _)
    have hpc' : s.newFiber.pc f = .user := (Function.update_of_ne hne _ _).trans hpc
    exact Reasons.aside (s := s.newFiber) (h.newFiber ho) ho.newFiber hw (hpc' ▸ aside_user) rfl
      (fun _ => rfl) rfl rfl fun _ _ => rfl
  | rest hw hpc hcb =>
    exact h.aside ho hw (hpc ▸ aside_user) rfl (fun _ => rfl) rfl rfl
      fun v hv => Function.update_of_ne hv _ _
  | call hw hpc =>
    exact h.aside ho hw (hpc ▸ aside_user) rfl (fun _ => rfl) rfl rfl fun _ _ => rfl
  | @finish w f hw hpc =>
    refine h.stay rfl (fun _ => rfl) rfl (fun _ => .inl) fun v g hv => ?_
    by_cases hvw : v = w
    · subst hvw
      rw [hw] at hv
      cases hv
      exact .inr hpc
    · exact .inl ((Function.update_of_ne hvw _ _).trans hv)
  | @delete w f hw =>
    have hpc := hst.worker w
    rw [hw] at hpc
    refine h.stay rfl (fun _ => rfl) rfl (fun g hg => ?_)
      (running_update _ hw fun g he => by cases he)
    by_cases hgf : g = f
    · subst hgf
      exact .inr hpc
    · exact .inl ((Function.update_of_ne hgf _ _).trans hg)
  | enter hw hcb =>
    exact h.stay rfl (fun _ => rfl) rfl (fun _ => .inl)
      (running_update _ hw fun g he => by cases he)
  | yielded hw =>
    exact h.stay rfl (fun _ => rfl) rfl (fun _ => .inl)
      (running_update _ hw fun g he => by cases he)
  | slept hw =>
    exact h.stay rfl (fun _ => rfl) rfl (fun _ => .inl)
      (running_update _ hw fun g he => by cases he)
  | parked hw => exact h.link hst hw
  | submitted hw =>
    exact h.stay rfl (fun _ => rfl) rfl (fun _ => .inl)
      (running_update _ hw fun g he => by cases he)
  | set hw =>
    exact h.stay rfl (fun _ => rfl) rfl (fun _ => .inl)
      (running_update _ hw fun g he => by cases he)
  | @release w p hw =>
    exact h.stay rfl (fun q => (update_spin s p false q).1)
      (funext fun q => (update_spin s p false q).2) (fun _ => .inl)
      (running_update _ hw fun g he => by cases he)
  | @passOn w f g next tasks hw hpc =>
    refine h.go ho hw rfl (fun _ => rfl) rfl (fun _ => id) (fun _ _ => rfl) (fun q hq => ?_)
      fun q hq => ?_
    · rw [hpc] at hq
      obtain hq | hq := hq <;> cases hq
    · rw [hpc] at hq
      exact .inl ⟨hw, hq⟩
  | @lock w f p c hw hpc hfree =>
    exact h.aside ho hw (hpc ▸ aside_lock p c) rfl (fun q => (update_spin s p true q).1)
      (funext fun q => (update_spin s p true q).2) rfl fun _ _ => rfl
  | @relock w f p c hw hpc hfree =>
    refine h.go ho hw rfl (fun q => (update_spin s p true q).1)
      (funext fun q => (update_spin s p true q).2) (fun _ => id) (fun _ _ => rfl)
      (fun q hq => ?_) fun q hq => ?_
    · -- back from `Suspend`, `Lock` makes its test once more
      rw [hpc] at hq
      obtain hq | hq := hq
      · cases hq
        exact .inr (if_pos rfl)
      · cases hq
    · rw [hpc] at hq
      exact hq.elim
  | leave ha hw hpc henter => exact h.leave hst ho (ha ▸ hno) hw hpc henter
  | @park w f p c data role hw hpc henter =>
    have hprim : update s.primitive p { s.primitive p with data } = s.primitive := by
      rw [enter_park henter, Function.update_eq_self]
    refine h.go ho hw rfl (fun q => ?_) (funext fun q => ?_) (fun _ => id)
      (fun v hv => Function.update_of_ne hv _ _) (fun q hq => ?_) fun q hq => ?_
    · exact congrArg (fun x => (x q).waiters) hprim
    · exact congrArg (fun x => (x q).data) hprim
    · rw [hpc] at hq
      obtain hq | hq := hq <;> cases hq
      exact .inl rfl
    · rw [hpc] at hq
      exact hq.elim
  | @wakeNobody w f p c data hw hpc henter hnil =>
    refine h.body hst ho hw hpc rfl rfl rfl rfl (fun _ => id)
      (fun _ => (Data.Sound.enter henter).mp) fun _ g hg => ?_
    rw [hnil] at hg
    cases hg
  | @wakeAll w f p c data hw hpc henter =>
    obtain ⟨hcLock, hwaits⟩ := enter_wakeAll henter
    refine h.body hst ho hw hpc rfl rfl rfl rfl (fun _ => id)
      (fun _ => (Data.Sound.enter henter).mp) fun _ g hg d hd hreason => ?_
    obtain hb | ⟨rfl, y, hy⟩ := hreason
    · exact .wakesAll (hwaits d hb) (wakesAll_of hw rfl rfl)
    · exact .contender rfl (hy.other (hy.ne hpc hcLock) rfl rfl rfl fun _ => id)
  | pop hw hpc henter hverdict hwait => exact h.pop hst ho hw hpc henter hverdict hwait
  | @wokenAll w f p hw hpc hnil =>
    refine h.go ho hw rfl (fun _ => rfl) rfl (fun _ => id) (fun _ _ => rfl) (fun q hq => ?_)
      fun q hq => ?_
    · rw [hpc] at hq
      obtain hq | hq := hq <;> cases hq
    · rw [hpc] at hq
      cases hq
      exact .inr hnil
  | popAll hw hpc hwait => exact h.popAll ho hw hpc hwait
  | @unlock w f p hw hpc =>
    exact h.aside ho hw (hpc ▸ aside_unlock p) rfl (fun q => (update_spin s p false q).1)
      (funext fun q => (update_spin s p false q).2) rfl fun _ _ => rfl

theorem reasons_of_reachable (hs : (machine n m).ReachableVia NoWrap s) : Reasons s := by
  refine hs.invariant_of (B := fun s => Owned s 0 ∧ Standing s) (I := Reasons)
    (fun h => ⟨owned_of_reachable h.reachable, standing_of_reachable h⟩) (fun s hinit => ?_)
    fun a s s' hB _ h hno hst => reasons_of_moves h hB.2 hB.1 hno (moves_of_step hB.1 hst)
  obtain ⟨data, -, rfl⟩ := hinit
  intro p _ f hf
  cases hf

/-- When nothing is queued and no worker is busy, there is no wake-up on its way. -/
theorem Reason.of_idle {p : Fin m} {c : Call} (h : Reason s p c) (hst : Standing s)
    (ho : Owned s 0) (htasks : s.tasks = 0) (hidle : ∀ w, s.worker w = .idle) :
    (s.data p).HoldsBack c := by
  cases h with
  | data h => exact h
  | @contender f hc hf =>
    exfalso
    have hrests := hst.rests f fun w => by rw [hidle w]; simp
    have hpc : s.pc f = .relock p .Lock := by
      refine hf.pc.resolve_right fun hbody => ?_
      rw [hbody] at hrests
      exact hrests
    -- a contender would have to be parked elsewhere, or to be in user code
    have hcount := ho.count f
    rw [State.places_eq, hf.live, Bool.toNat_true, Multiset.count_zero, htasks] at hcount
    have hworkers : s.byWorkers f = 0 := Finset.sum_eq_zero fun w _ => by
      rw [hidle w]
      rfl
    have hout : f ∉ s.spawned ∧ f ∉ s.timers := by
      constructor <;> intro hmem
      · rw [hst.out f (.inl hmem)] at hpc
        cases hpc
      · rw [hst.out f (.inr hmem)] at hpc
        cases hpc
    have hparked : s.parked f = 0 := by
      refine Finset.sum_eq_zero fun q _ => List.count_eq_zero.mpr fun hmem => ?_
      obtain ⟨d, hd⟩ := hst.waiters q f hmem
      rw [hpc] at hd
      cases hd
      exact hf.away hmem
    rw [hworkers, hparked, Multiset.count_eq_zero.mpr hout.1, Multiset.count_eq_zero.mpr hout.2]
      at hcount
    simp only [Multiset.count_zero] at hcount
    omega
  | wakesAll hc h =>
    obtain ⟨w, f, hw, -⟩ := h
    rw [hidle w] at hw
    cases hw

end Steps

/-- **A parked fiber has a reason.** One section at a time is inside a primitive. A fiber that is
parked there made a call that would park it again, if it made it now; or the mutex has been
given up since, and another fiber that was woken has its test of `Lock` before it; or the
count of the wait group has come down to zero, and the fiber that brought it there is waking
everybody, with the spin lock in its hands. -/
theorem parked_for_a_reason {s : State n m} (hs : (machine n m).ReachableVia NoWrap s) :
    (∀ p, Exclusion (s.primitive p).spin_ fun w => (s.worker w).InSection s.pc s.cb_ p) ∧
    ∀ p, (s.data p).Sound → ∀ f ∈ (s.primitive p).waiters, ∃ c, s.pc f = .relock p c ∧
      ((∃ role, (s.data p).enter c = some (s.data p, .park role)) ∨
        c = .Lock ∧ (∃ g, s.live g = true ∧ g ∉ (s.primitive p).waiters ∧
          (s.pc g = .relock p .Lock ∨ s.pc g = .body p .Lock)) ∨
        c = .Wait ∧ (s.primitive p).spin_ = true ∧
          ∃ w g, s.worker w = .running g ∧ (s.pc g).WakesAll p) := by
  have hst := standing_of_reachable hs
  refine ⟨hst.lock, fun p hsound f hf => ?_⟩
  obtain ⟨c, hc⟩ := hst.waiters p f hf
  refine ⟨c, hc, ?_⟩
  cases reasons_of_reachable hs p hsound f hf c hc with
  | data h => exact .inl h.parks
  | @contender g hc hg => exact .inr (.inl ⟨hc, g, hg.live, hg.away, hg.pc⟩)
  | wakesAll hc h =>
    obtain ⟨w, g, hw, hg⟩ := h
    refine .inr (.inr ⟨hc, (hst.lock p).held_of (t := w) ?_, w, g, hw, hg⟩)
    rw [hw]
    exact hg.inSection

/-- Two fibers are parked behind the one that holds the mutex, and it calls `Unlock`: it wakes
one of them, and the other stays parked behind a free mutex. -/
theorem parked_for_a_reason_barging : ∃ s : State 2 1, (machine 2 1).ReachableVia NoWrap s ∧
    (s.primitive 0).data = .mutex false ∧ (s.primitive 0).waiters = [2] ∧
    ∃ g, g ∉ (s.primitive 0).waiters ∧ (s.pc g = .relock 0 .Lock ∨ s.pc g = .body 0 .Lock) := by
  obtain ⟨s, hs, hp⟩ := Machine.ReachableVia.exec_any (M := machine 2 1) (C := NoWrap)
    (s := .new fun _ => .mutex false)
    (.init ⟨fun _ => .mutex false, (fun _ => rfl), rfl⟩)
    ([.spawn, .submit 0, .run 0 (.fiber 0), .user 0 (.call 0 .Lock), .work 0, .work 0, .work 0] ++
      [.spawn, .submit 1, .run 1 (.fiber 1), .user 1 (.call 0 .Lock)] ++
      List.replicate 5 (.work 1) ++
      [.spawn, .submit 2, .run 1 (.fiber 2), .user 1 (.call 0 .Lock)] ++
      List.replicate 5 (.work 1) ++ [.user 0 (.call 0 .Unlock), .work 0, .work 0])
    (fun s => decide ((s.primitive 0).data = .mutex false ∧ (s.primitive 0).waiters = [2] ∧
      s.pc 2 = .relock 0 .Lock)) (by decide +kernel)
  obtain ⟨hdata, hwait, hpc⟩ := of_decide_eq_true hp
  have hsound : (s.data 0).Sound := by
    rw [State.data, hdata]
    trivial
  obtain ⟨c, hc, hreason⟩ := (parked_for_a_reason hs).2 0 hsound 2
    (by rw [hwait]; exact List.mem_singleton_self 2)
  rw [hpc] at hc
  cases hc
  obtain ⟨role, hpark⟩ | ⟨-, g, -, hg⟩ | ⟨hc, -⟩ := hreason
  · rw [State.data, hdata] at hpark
    cases hpark
  · exact ⟨s, hs, hdata, hwait, g, hg⟩
  · cases hc

end Exe.Fiber.Core
