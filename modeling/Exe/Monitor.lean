/-
A monitor: an object whose operations run one at a time and may wait.

An operation is a section of the object, done at once. A section may notify one of the waiting
threads or all of them, and it ends with an answer or by waiting. A thread that waits is woken
by a notification or without a reason, and then goes on with another section.

`spec` says what each section does to the data: the first one of a call, or the one after a
wait. This is what a mutex and a condition variable are for; how they do it is not said here.

Nothing here is about this repository.
-/
import Exe.Refinement
import Mathlib.Data.Fintype.Basic
import Mathlib.Data.Finset.Basic

set_option autoImplicit false

namespace Exe.Monitor

open Function (update)

variable {δ ι ω ρ : Type*} {n : ℕ}

/-! ## The model -/

/-- Whom a section notifies. -/
inductive Notify
  | nobody
  | one
  | all
  deriving DecidableEq

/-- What a section ends with: it waits, with what it still has to do, or it answers. -/
inductive Next (ω ρ : Type*)
  | wait (w : ω)
  | ret (r : ρ)
  deriving DecidableEq

structure Outcome (ω ρ : Type*) where
  notify : Notify
  next : Next ω ρ
  deriving DecidableEq

inductive Pc (ι ω ρ : Type*)
  | idle
  | pending (op : ι)
  | asleep (w : ω)
  | woken (w : ω)
  | done (r : ρ)
  deriving DecidableEq

namespace Pc

/-- The section a thread has yet to run. -/
def entering : Pc ι ω ρ → Option (ι ⊕ ω)
  | pending op => some (.inl op)
  | woken w => some (.inr w)
  | _ => none

def isAsleep : Pc ι ω ρ → Bool
  | asleep _ => true
  | _ => false

/-- Inside a wait: asleep, or awake and not on again yet. -/
def isWaiting : Pc ι ω ρ → Bool
  | asleep _ => true
  | woken _ => true
  | _ => false

/-- What a notification makes of a thread. -/
def wake : Pc ι ω ρ → Pc ι ω ρ
  | asleep w => woken w
  | pc => pc

end Pc

/-- Where the end of its section leaves a thread. -/
def Next.pc : Next ω ρ → Pc ι ω ρ
  | .wait w => .asleep w
  | .ret r => .done r

structure State (n : ℕ) (δ ι ω ρ : Type*) where
  data : δ
  pc : Fin n → Pc ι ω ρ

/-- `choice` is the thread that a notification of one wakes, and there is none only if nobody is
asleep. -/
inductive Action (n : ℕ) (ι : Type*)
  | call (t : Fin n) (op : ι)
  | run (t : Fin n) (choice : Option (Fin n))
  | spurious (t : Fin n)
  | ret (t : Fin n)

def notified (pc : Fin n → Pc ι ω ρ) (choice : Option (Fin n)) :
    Notify → Option (Fin n → Pc ι ω ρ)
  | .nobody => if choice = none then some pc else none
  | .one =>
    match choice with
    | some u => if (pc u).isAsleep then some (update pc u (pc u).wake) else none
    | none => if ∀ u, (pc u).isAsleep = false then some pc else none
  | .all => if choice = none then some fun u => (pc u).wake else none

def step (spec : ι ⊕ ω → δ → δ × Outcome ω ρ) (a : Action n ι) (q : State n δ ι ω ρ) :
    Option (State n δ ι ω ρ) :=
  match a with
  | .call t op =>
    match q.pc t with
    | .idle => some { q with pc := update q.pc t (.pending op) }
    | _ => none
  | .run t choice =>
    match (q.pc t).entering with
    | some e =>
      let (d, out) := spec e q.data
      match notified q.pc choice out.notify with
      | some pc => some { data := d, pc := update pc t out.next.pc }
      | none => none
    | none => none
  | .spurious t =>
    if (q.pc t).isAsleep then some { q with pc := update q.pc t (q.pc t).wake } else none
  | .ret t =>
    match q.pc t with
    | .done _ => some { q with pc := update q.pc t .idle }
    | _ => none

def machine (n : ℕ) (spec : ι ⊕ ω → δ → δ × Outcome ω ρ) (d : δ) :
    Machine (State n δ ι ω ρ) (Action n ι) where
  init q := q = ⟨d, fun _ => .idle⟩
  step := step spec

/-- What is seen from outside. -/
inductive Event (n : ℕ) (ι ρ : Type*)
  | call (t : Fin n) (op : ι)
  | ret (t : Fin n) (r : ρ)
  deriving DecidableEq

def vis (t : Transition (State n δ ι ω ρ) (Action n ι)) : Option (Event n ι ρ) :=
  match t.act with
  | .call i op => some (.call i op)
  | .ret i =>
    match t.pre.pc i with
    | .done r => some (.ret i r)
    | _ => none
  | _ => none

/-- A section begins only where `P` holds of it and the data. -/
def Requires (P : ι ⊕ ω → δ → Prop) (a : Action n ι) (q : State n δ ι ω ρ) : Prop :=
  match a with
  | .run t _ => ∀ e, (q.pc t).entering = some e → P e q.data
  | _ => True

/-! ## Sections and wakeups -/

variable {spec : ι ⊕ ω → δ → δ × Outcome ω ρ} {d : δ} {q : State n δ ι ω ρ} {t : Fin n}

theorem Pc.isWaiting_wake (pc : Pc ι ω ρ) : pc.wake.isWaiting = pc.isWaiting := by
  cases pc with
  | _ => rfl

theorem Pc.isAsleep_wake (pc : Pc ι ω ρ) : pc.wake.isAsleep = false := by
  cases pc with
  | _ => rfl

theorem Pc.wake_of_not_asleep {pc : Pc ι ω ρ} (h : pc.isAsleep = false) : pc.wake = pc := by
  cases pc with
  | asleep w => cases h
  | _ => rfl

theorem notified_nobody (pc : Fin n → Pc ι ω ρ) : notified pc none .nobody = some pc := by
  rw [notified, if_pos rfl]

/-- Whoever a notification moves was asleep and is woken, and a notification of all leaves nobody
asleep. -/
theorem notified_spec {pc pc' : Fin n → Pc ι ω ρ} {choice : Option (Fin n)} {m : Notify}
    (h : notified pc choice m = some pc') (u : Fin n) :
    (pc' u = pc u ∨ pc' u = (pc u).wake) ∧ (m = .all → pc' u = (pc u).wake) ∧
      (m = .nobody → pc' u = pc u) := by
  cases m with
  | nobody =>
    simp only [notified, Option.ite_none_right_eq_some, Option.some.injEq] at h
    obtain ⟨-, rfl⟩ := h
    exact ⟨.inl rfl, (fun h => by cases h), fun _ => rfl⟩
  | all =>
    simp only [notified, Option.ite_none_right_eq_some, Option.some.injEq] at h
    obtain ⟨-, rfl⟩ := h
    exact ⟨.inr rfl, (fun _ => rfl), fun h => by cases h⟩
  | one =>
    refine ⟨?_, (fun h => by cases h), fun h => by cases h⟩
    cases choice with
    | none =>
      simp only [notified, Option.ite_none_right_eq_some, Option.some.injEq] at h
      obtain ⟨-, rfl⟩ := h
      exact .inl rfl
    | some v =>
      simp only [notified, Option.ite_none_right_eq_some, Option.some.injEq] at h
      obtain ⟨-, rfl⟩ := h
      by_cases hu : u = v
      · subst hu
        exact .inr (Function.update_self _ _ _)
      · exact .inl (Function.update_of_ne hu _ _)

/-- What a step does. -/
inductive Moves (spec : ι ⊕ ω → δ → δ × Outcome ω ρ) (q : State n δ ι ω ρ) :
    Action n ι → State n δ ι ω ρ → Prop
  | call {t : Fin n} {op : ι} (hpc : q.pc t = .idle) :
    Moves spec q (.call t op) { q with pc := update q.pc t (.pending op) }
  | run {t : Fin n} {choice : Option (Fin n)} {e : ι ⊕ ω} {pc : Fin n → Pc ι ω ρ}
      (he : (q.pc t).entering = some e)
      (hnotified : notified q.pc choice (spec e q.data).2.notify = some pc) :
    Moves spec q (.run t choice) ⟨(spec e q.data).1, update pc t (spec e q.data).2.next.pc⟩
  | spurious {t : Fin n} {w : ω} (hpc : q.pc t = .asleep w) :
    Moves spec q (.spurious t) { q with pc := update q.pc t (.woken w) }
  | ret {t : Fin n} {r : ρ} (hpc : q.pc t = .done r) :
    Moves spec q (.ret t) { q with pc := update q.pc t .idle }

theorem moves_of_step {a : Action n ι} {q' : State n δ ι ω ρ}
    (hst : (machine n spec d).step a q = some q') : Moves spec q a q' := by
  simp only [machine, step] at hst
  cases a with
  | call t op =>
    dsimp only at hst
    split at hst
    · rename_i hpc
      obtain rfl := Option.some.inj hst
      exact .call hpc
    · cases hst
  | run t choice =>
    dsimp only at hst
    split at hst
    · rename_i e he
      split at hst
      · rename_i pc hnotified
        obtain rfl := Option.some.inj hst
        exact .run he hnotified
      · cases hst
    · cases hst
  | spurious t =>
    dsimp only at hst
    simp only [Option.ite_none_right_eq_some, Option.some.injEq] at hst
    obtain ⟨hasleep, rfl⟩ := hst
    cases hpc : q.pc t with
    | asleep w => exact .spurious hpc
    | _ =>
      rw [hpc] at hasleep
      cases hasleep
  | ret t =>
    dsimp only at hst
    split at hst
    · rename_i r hpc
      obtain rfl := Option.some.inj hst
      exact .ret hpc
    · cases hst

theorem step_run {e : ι ⊕ ω} {d' : δ} {out : Outcome ω ρ} {choice : Option (Fin n)}
    {pc : Fin n → Pc ι ω ρ} (he : (q.pc t).entering = some e) (hspec : spec e q.data = (d', out))
    (hnotified : notified q.pc choice out.notify = some pc) :
    (machine n spec d).step (.run t choice) q = some ⟨d', update pc t out.next.pc⟩ := by
  simp only [machine, step, he, hspec, hnotified]

variable (spec d) in
/-- Any of the sleepers may wake up without a reason, one after the other. -/
theorem exists_spurious (P : ι ⊕ ω → δ → Prop) (q : State n δ ι ω ρ) (W : Finset (Fin n)) :
    ∃ l, (machine n spec d).Steps q l
        { q with pc := fun u => if u ∈ W then (q.pc u).wake else q.pc u } ∧
      (∀ x ∈ l, Requires P x.act x.pre) ∧ Machine.trace vis l = [] := by
  induction W using Finset.induction_on with
  | empty => exact ⟨[], by simpa using Machine.Steps.nil, by simp, rfl⟩
  | insert t W ht ih =>
    obtain ⟨l, hl, hP, htrace⟩ := ih
    by_cases hasleep : (q.pc t).isAsleep = true
    · refine ⟨_, hl.cons (.spurious t) ?_, fun x hx => ?_, ?_⟩
      · simp only [machine, step, if_neg ht, hasleep, if_true, Option.some.injEq]
        congr 1
        funext u
        by_cases hu : u = t
        · subst hu
          simp
        · simp [hu]
      · obtain rfl | hx := List.mem_cons.mp hx
        · trivial
        · exact hP x hx
      · rw [Machine.trace_cons, htrace]
        rfl
    · refine ⟨l, ?_, hP, htrace⟩
      convert hl using 3
      rename_i u
      by_cases hu : u = t
      · subst hu
        rw [if_pos (Finset.mem_insert_self _ _), if_neg ht,
          Pc.wake_of_not_asleep (by simpa using hasleep)]
      · simp [hu]

end Exe.Monitor
