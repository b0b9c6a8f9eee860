/-
Classes guarded by a mutex and a `CondVar`, and that they are monitors.

A method of such a class locks the mutex, makes the accesses of its section, notifies whom it
has to, and then unlocks and returns, or waits and goes on with another section. The machine
below runs any number of threads, each access to the data, to the counter of the condition
variable and to its futex a step of its own.

All notifications come from inside the mutex here, and that is what makes `CondVar` a condition
variable: who sleeps when `WakeOne` comes has an epoch that has passed, so no wakeup is
absorbed by a newcomer. As long as the counter does not wrap, `covers` turns every run into
one of the monitor, in which a section is one step and a notification wakes a waiter that stays
awake.

# Conventions

* The mutex is held by one thread or free, as in the model of `CondVar`.
* The guard of a method locks at its beginning and unlocks at its end.
-/
import Exe.CondVar
import Exe.Exclusion
import Exe.Monitor
import Exe.Sections

set_option autoImplicit false

namespace Exe.Primitives.Guarded

open Function (update)
open Monitor (Notify Next Outcome Event)

variable {δ ι κ ω ρ : Type*} {n : ℕ}

/-! ## The model -/

/-- The code of the methods. A section is the first one of a call or one after a wait, and its
end says whom it notifies and what comes then. -/
abbrev Code (δ ι κ ω ρ : Type*) := Sections δ (ι ⊕ ω) κ (Outcome ω ρ)

inductive Pc (ι κ ω ρ : Type*)
  | idle
  | lock (op : ι)
  | inside (k : κ)
  | notify (all : Bool) (next : Next ω ρ)
  | notifying (all : Bool) (next : Next ω ρ)
  | wait (w : ω)
  | waiting (w : ω)
  | unlock (r : ρ)
  | done (r : ρ)

namespace Pc

/-- Inside `Wait` of the condition variable. -/
def isWaiting : Pc ι κ ω ρ → Bool
  | .waiting _ => true
  | _ => false

/-- Past the method, with its answer. -/
def isDone : Pc ι κ ω ρ → Bool
  | .done _ => true
  | _ => false

/-- What comes after the section and its notification. -/
def next : Next ω ρ → Pc ι κ ω ρ
  | .wait w => .wait w
  | .ret r => .unlock r

def outcome (out : Outcome ω ρ) : Pc ι κ ω ρ :=
  match out.notify with
  | .nobody => next out.next
  | .one => .notify false out.next
  | .all => .notify true out.next

end Pc

structure State (n : ℕ) (δ ι κ ω ρ : Type*) where
  cond : CondVar.State n
  data : δ
  pc : Fin n → Pc ι κ ω ρ

inductive Action (n : ℕ) (ι : Type*)
  | call (t : Fin n) (op : ι)
  | access (t : Fin n)
  | cond (a : CondVar.Action n)
  | ret (t : Fin n)

/-- Whose step it is. -/
def thread : CondVar.Action n → Fin n
  | .lock t | .unlock t | .read t | .release t | .test t | .wait t | .spurious t | .relock t
  | .notify t _ | .bump t | .wakeOne t _ | .wakeAll t => t

/-- Where a step of the mutex or the condition variable brings a method, if the method makes
it. -/
def follow (c : Code δ ι κ ω ρ) (a : CondVar.Action n) (pc : Pc ι κ ω ρ) :
    Option (Pc ι κ ω ρ) :=
  match a, pc with
  | .lock _, .lock op => some (.inside (c.enter (.inl op)))
  | .notify _ all, .notify all' next => if all = all' then some (.notifying all' next) else none
  | .bump _, .notifying all next => some (.notifying all next)
  | .wakeOne _ _, .notifying _ next => some (.next next)
  | .wakeAll _, .notifying _ next => some (.next next)
  | .read _, .wait w => some (.waiting w)
  | .release _, .waiting w => some (.waiting w)
  | .test _, .waiting w => some (.waiting w)
  | .wait _, .waiting w => some (.waiting w)
  | .spurious _, .waiting w => some (.waiting w)
  | .relock _, .waiting w => some (.inside (c.enter (.inr w)))
  | .unlock _, .unlock r => some (.done r)
  | _, _ => none

def step (c : Code δ ι κ ω ρ) (a : Action n ι) (s : State n δ ι κ ω ρ) :
    Option (State n δ ι κ ω ρ) :=
  match a with
  | .call t op =>
    match s.pc t with
    | .idle => some { s with pc := update s.pc t (.lock op) }
    | _ => none
  | .access t =>
    match s.pc t with
    | .inside k =>
      match c.access k s.data with
      | (d, .inl k') => some { s with data := d, pc := update s.pc t (.inside k') }
      | (d, .inr out) => some { s with data := d, pc := update s.pc t (.outcome out) }
    | _ => none
  | .cond a =>
    match CondVar.step a s.cond, follow c a (s.pc (thread a)) with
    | some cond, some pc => some { s with cond := cond, pc := update s.pc (thread a) pc }
    | _, _ => none
  | .ret t =>
    match s.pc t with
    | .done _ => some { s with pc := update s.pc t .idle }
    | _ => none

def machine (n : ℕ) (c : Code δ ι κ ω ρ) (d : δ) :
    Machine (State n δ ι κ ω ρ) (Action n ι) where
  init s := s = ⟨.new n, d, fun _ => .idle⟩
  step := step c

def vis (t : Transition (State n δ ι κ ω ρ) (Action n ι)) : Option (Event n ι ρ) :=
  match t.act with
  | .call i op => some (.call i op)
  | .ret i =>
    match t.pre.pc i with
    | .done r => some (.ret i r)
    | _ => none
  | _ => none

/-- The counter does not wrap. -/
def NoWrap (a : Action n ι) (s : State n δ ι κ ω ρ) : Prop :=
  match a with
  | .cond a => CondVar.NoWrap a s.cond
  | _ => True

/-- The section that begins with this step, the mutex just taken. -/
def entering (a : Action n ι) (s : State n δ ι κ ω ρ) : Option (ι ⊕ ω) :=
  match a with
  | .cond (.lock t) =>
    match s.pc t with
    | .lock op => some (.inl op)
    | _ => none
  | .cond (.relock t) =>
    match s.pc t with
    | .waiting w => some (.inr w)
    | _ => none
  | _ => none

/-- The counter does not wrap, and a section begins only where `P` holds of it and the data. -/
def Meets (P : ι ⊕ ω → δ → Prop) (a : Action n ι) (s : State n δ ι κ ω ρ) : Prop :=
  NoWrap a s ∧ ∀ e ∈ entering a s, P e s.data

instance (a : Action n ι) (s : State n δ ι κ ω ρ) : Decidable (NoWrap a s) :=
  match a with
  | .cond a => inferInstanceAs (Decidable (CondVar.NoWrap a s.cond))
  | .call _ _ | .access _ | .ret _ => .isTrue trivial

instance (P : ι ⊕ ω → δ → Prop) [∀ e d, Decidable (P e d)] (a : Action n ι)
    (s : State n δ ι κ ω ρ) : Decidable (Meets P a s) :=
  inferInstanceAs (Decidable (_ ∧ _))

/-! ## Where a thread is, in both machines -/

/-- The section is under way, so the data may be ahead of the monitor's. -/
def Pc.Inside : Pc ι κ ω ρ → Prop
  | .inside _ => True
  | .notify _ _ => True
  | .notifying _ _ => True
  | _ => False

/-- The mutex is this thread's. -/
def Pc.Holds (cp : CondVar.Pc n) : Pc ι κ ω ρ → Prop
  | .idle => False
  | .lock _ => False
  | .waiting _ => ∃ o, cp = .unlock o
  | .done _ => False
  | _ => True

/-- In its wait loop, and awake. -/
def isLooping : CondVar.Pc n → Bool
  | .test _ => true
  | .wait _ => true
  | _ => false

/-- Between `fetch_add` and the futex operation. -/
def isWaking : CondVar.Pc n → Bool
  | .wake _ _ => true
  | _ => false

def mode : Bool → Notify
  | false => .one
  | true => .all

/-- Where a method is, where it is in `CondVar`, and where it is in the monitor, whose data `d`
are what they were when the section under way began. A waiter is awake in the monitor from the
moment at which its epoch has passed and it does not sleep in the futex. -/
inductive At (c : Code δ ι κ ω ρ) (spec : ι ⊕ ω → δ → δ × Outcome ω ρ) (P : ι ⊕ ω → δ → Prop)
    (atom : ℕ) (data d : δ) : Pc ι κ ω ρ → CondVar.Pc n → Monitor.Pc ι ω ρ → Prop
  | idle : At c spec P atom data d .idle .outside .idle
  | lock {op : ι} : At c spec P atom data d (.lock op) .outside (.pending op)
  | inside {k : κ} {e : ι ⊕ ω} {pq : Monitor.Pc ι ω ρ} (he : pq.entering = some e) (hP : P e d)
      (hends : c.Ends k data (spec e d)) : At c spec P atom data d (.inside k) .outside pq
  | notify {e : ι ⊕ ω} {pq : Monitor.Pc ι ω ρ} {all : Bool} {next : Next ω ρ}
      (he : pq.entering = some e) (hP : P e d) (hspec : spec e d = (data, ⟨mode all, next⟩)) :
      At c spec P atom data d (.notify all next) .outside pq
  | bump {e : ι ⊕ ω} {pq : Monitor.Pc ι ω ρ} {all : Bool} {next : Next ω ρ}
      {w : CondVar.Waiters n} (he : pq.entering = some e) (hP : P e d)
      (hspec : spec e d = (data, ⟨mode all, next⟩)) :
      At c spec P atom data d (.notifying all next) (.bump all w) pq
  | wake {e : ι ⊕ ω} {pq : Monitor.Pc ι ω ρ} {all : Bool} {next : Next ω ρ}
      {w : CondVar.Waiters n} (he : pq.entering = some e) (hP : P e d)
      (hspec : spec e d = (data, ⟨mode all, next⟩)) :
      At c spec P atom data d (.notifying all next) (.wake all w) pq
  | wait {w : ω} : At c spec P atom data d (.wait w) .outside (.asleep w)
  | release {w : ω} {o : UInt64} (ho : o.toNat = atom) :
      At c spec P atom data d (.waiting w) (.unlock o) (.asleep w)
  | test {w : ω} {o : UInt64} (ho : o.toNat = atom) :
      At c spec P atom data d (.waiting w) (.test o) (.asleep w)
  | testPassed {w : ω} {o : UInt64} (ho : o.toNat < atom) :
      At c spec P atom data d (.waiting w) (.test o) (.woken w)
  | sleep {w : ω} {o : UInt64} (ho : o.toNat = atom) :
      At c spec P atom data d (.waiting w) (.wait o) (.asleep w)
  | sleepPassed {w : ω} {o : UInt64} (ho : o.toNat < atom) :
      At c spec P atom data d (.waiting w) (.wait o) (.woken w)
  | asleep {w : ω} {o : UInt64} (ho : o.toNat ≤ atom) :
      At c spec P atom data d (.waiting w) (.asleep o) (.asleep w)
  | relock {w : ω} : At c spec P atom data d (.waiting w) .relock (.woken w)
  | unlock {r : ρ} : At c spec P atom data d (.unlock r) .outside (.done r)
  | done {r : ρ} : At c spec P atom data d (.done r) .outside (.done r)

section At

variable {c : Code δ ι κ ω ρ} {spec : ι ⊕ ω → δ → δ × Outcome ω ρ} {P : ι ⊕ ω → δ → Prop}
  {atom : ℕ} {data d data' d' : δ} {pc : Pc ι κ ω ρ} {cp : CondVar.Pc n} {pq : Monitor.Pc ι ω ρ}

theorem Pc.Inside.holds (h : pc.Inside) : pc.Holds cp := by
  cases pc with
  | inside k => trivial
  | notify all next => trivial
  | notifying all next => trivial
  | _ => cases h

/-- Outside of a section nothing depends on the data. -/
theorem At.outside (h : At c spec P atom data d pc cp pq) (hout : ¬pc.Inside) :
    At c spec P atom data' d' pc cp pq := by
  cases h with
  | inside | notify | bump | wake => exact absurd trivial hout
  | idle => exact .idle
  | lock => exact .lock
  | wait => exact .wait
  | release ho => exact .release ho
  | test ho => exact .test ho
  | testPassed ho => exact .testPassed ho
  | sleep ho => exact .sleep ho
  | sleepPassed ho => exact .sleepPassed ho
  | asleep ho => exact .asleep ho
  | relock => exact .relock
  | unlock => exact .unlock
  | done => exact .done

/-- An epoch that is held is not ahead of the counter. -/
theorem At.behind (h : At c spec P atom data d pc cp pq) {o : UInt64}
    (ho : cp.my_order? = some o) : o.toNat ≤ atom := by
  cases h with
  | release hle | test hle | sleep hle =>
    obtain rfl := Option.some.inj ho
    exact hle.le
  | testPassed hlt | sleepPassed hlt =>
    obtain rfl := Option.some.inj ho
    exact hlt.le
  | asleep hle =>
    obtain rfl := Option.some.inj ho
    exact hle
  | _ => cases ho

/-- A thread that is asleep in the monitor sleeps in the futex, unless it still holds the mutex
or its epoch is the present one. -/
theorem At.asleep_of_passed (h : At c spec P atom data d pc cp pq) (hout : ¬pc.Holds cp)
    (hpassed : ∀ o, cp.my_order? = some o → o.toNat < atom) :
    pq.isAsleep = true ↔ cp.isAsleep = true := by
  cases h with
  | inside | notify | bump | wake | wait | unlock => exact absurd trivial hout
  | release => exact absurd ⟨_, rfl⟩ hout
  | test ho | sleep ho => exact absurd ho (hpassed _ rfl).ne
  | asleep => exact iff_of_true rfl rfl
  | _ => exact iff_of_false Bool.false_ne_true Bool.false_ne_true

/-- Somebody is woken, and its epoch has passed. -/
theorem At.woken (h : At c spec P atom data d pc cp pq) (hout : ¬pc.Holds cp)
    (hpassed : ∀ o, cp.my_order? = some o → o.toNat < atom) :
    At c spec P atom data d pc cp.woken pq.wake := by
  cases h with
  | inside | notify | bump | wake | wait | unlock => exact absurd trivial hout
  | release => exact absurd ⟨_, rfl⟩ hout
  | test ho | sleep ho => exact absurd ho (hpassed _ rfl).ne
  | asleep => exact .testPassed (hpassed _ rfl)
  | idle => exact .idle
  | lock => exact .lock
  | testPassed ho => exact .testPassed ho
  | sleepPassed ho => exact .sleepPassed ho
  | relock => exact .relock
  | done => exact .done

/-- The counter goes up, and whoever is in its wait loop awake has been passed. -/
theorem At.bumped (h : At c spec P atom data d pc cp pq) (hout : ∀ o, cp ≠ .unlock o) :
    At c spec P (atom + 1) data d pc cp (if isLooping cp then pq.wake else pq) := by
  cases h with
  | idle => exact .idle
  | lock => exact .lock
  | inside he hP hends => exact .inside he hP hends
  | notify he hP hspec => exact .notify he hP hspec
  | bump he hP hspec => exact .bump he hP hspec
  | wake he hP hspec => exact .wake he hP hspec
  | wait => exact .wait
  | release => exact absurd rfl (hout _)
  | test ho => exact .testPassed (by omega)
  | testPassed ho => exact .testPassed (by omega)
  | sleep ho => exact .sleepPassed (by omega)
  | sleepPassed ho => exact .sleepPassed (by omega)
  | asleep ho => exact .asleep (by omega)
  | relock => exact .relock
  | unlock => exact .unlock
  | done => exact .done

end At

/-! ## The two machines side by side -/

/-- The mutex says who may be in a section; while nobody is, the data are the same; and while a
wakeup is under way every epoch that is held has passed. -/
structure Refines (c : Code δ ι κ ω ρ) (spec : ι ⊕ ω → δ → δ × Outcome ω ρ)
    (P : ι ⊕ ω → δ → Prop) (s : State n δ ι κ ω ρ) (q : Monitor.State n δ ι ω ρ) : Prop where
  lock : Owned s.cond.mutex fun t => (s.pc t).Holds (s.cond.pc t)
  free : (∀ t, ¬(s.pc t).Inside) → q.data = s.data
  passed : ∀ t u o, isWaking (s.cond.pc t) = true → (s.cond.pc u).my_order? = some o →
    o.toNat < s.cond.atom_.toNat
  pc : ∀ t, At c spec P s.cond.atom_.toNat s.data q.data (s.pc t) (s.cond.pc t) (q.pc t)

section Refines

variable {c : Code δ ι κ ω ρ} {spec : ι ⊕ ω → δ → δ × Outcome ω ρ} {P : ι ⊕ ω → δ → Prop}
  {s : State n δ ι κ ω ρ} {q : Monitor.State n δ ι ω ρ} {t : Fin n}

theorem Refines.holds_of_waking (h : Refines c spec P s q) (ht : isWaking (s.cond.pc t) = true) :
    (s.pc t).Holds (s.cond.pc t) := by
  have hat := h.pc t
  generalize s.pc t = pc, s.cond.pc t = cp, q.pc t = pq at hat ht
  cases hat with
  | wake => trivial
  | _ => cases ht

/-- What the step of a thread may do to the data of the two machines: nothing, or the thread is
in its section, and when it leaves it they are the same. -/
inductive Data (inside inside' : Prop) (data d data' d' : δ) : Prop
  | same (hdata : data' = data) (hd : d' = d) (hin : inside → inside')
  | within (hin : inside) (hend : inside' ∨ d' = data')

/-- Thread `t` goes on, in both machines, and the counter and the other threads stay where they
are. -/
theorem Refines.move (h : Refines c spec P s q) {cond : CondVar.State n} {data d : δ}
    {pc : Pc ι κ ω ρ} {pq : Monitor.Pc ι ω ρ} (hatom : cond.atom_ = s.cond.atom_)
    (hother : ∀ u, u ≠ t → cond.pc u = s.cond.pc u)
    (hturn : Owned.Turns t s.cond.mutex cond.mutex ((s.pc t).Holds (s.cond.pc t))
      (pc.Holds (cond.pc t)))
    (hdata : Data (s.pc t).Inside pc.Inside s.data q.data data d)
    (hwaking : isWaking (cond.pc t) = true → isWaking (s.cond.pc t) = true)
    (horder : ∀ o, (cond.pc t).my_order? = some o → (s.cond.pc t).my_order? = some o ∨
      (s.pc t).Holds (s.cond.pc t) ∧ isWaking (s.cond.pc t) = false)
    (hpc : At c spec P s.cond.atom_.toNat data d pc (cond.pc t) pq) :
    Refines c spec P ⟨cond, data, update s.pc t pc⟩ ⟨d, update q.pc t pq⟩ := by
  have hof : ∀ u, u ≠ t → update s.pc t pc u = s.pc u := fun u hu => Function.update_of_ne hu _ _
  have hwas : ∀ u, isWaking (cond.pc u) = true → isWaking (s.cond.pc u) = true := by
    intro u hu
    by_cases hut : u = t
    · subst hut
      exact hwaking hu
    · rwa [hother u hut] at hu
  refine ⟨h.lock.turn (t := t) ?_ fun u hu => ?_, fun hout => ?_, fun u v o hu ho => ?_,
    fun u => ?_⟩
  · change Owned.Turns _ _ _ _ ((update s.pc t pc t).Holds _)
    rw [Function.update_self]
    exact hturn
  · change (update s.pc t pc u).Holds (cond.pc u) ↔ _
    rw [hof u hu, hother u hu]
  · change d = data
    have hpcout : ¬pc.Inside := by
      have hself : ¬(update s.pc t pc t).Inside := hout t
      rwa [Function.update_self] at hself
    cases hdata with
    | same hdata hd hin =>
      rw [hdata, hd]
      refine h.free fun u hu => ?_
      by_cases hut : u = t
      · subst hut
        exact hpcout (hin hu)
      · refine hout u ?_
        change (update s.pc t pc u).Inside
        rwa [hof u hut]
    | within _ hend => exact hend.resolve_left hpcout
  · change o.toNat < cond.atom_.toNat
    rw [hatom]
    have hu' := hwas u hu
    by_cases hvt : v = t
    · subst hvt
      obtain ho' | ⟨hholds, hnot⟩ := horder o ho
      · exact h.passed u v o hu' ho'
      · -- whoever wakes the others up holds the mutex
        obtain rfl := h.lock.one (h.holds_of_waking hu') hholds
        rw [hu'] at hnot
        cases hnot
    · change (cond.pc v).my_order? = some o at ho
      rw [hother v hvt] at ho
      exact h.passed u v o hu' ho
  · change At c spec P cond.atom_.toNat data d (update s.pc t pc u) (cond.pc u) (update q.pc t pq u)
    rw [hatom]
    by_cases hu : u = t
    · subst hu
      rw [Function.update_self, Function.update_self]
      exact hpc
    · rw [hof u hu, Function.update_of_ne hu, hother u hu]
      cases hdata with
      | same hdata hd _ =>
        rw [hdata, hd]
        exact h.pc u
      | within hin _ =>
        exact (h.pc u).outside fun hu' => hu (h.lock.one hu'.holds hin.holds)

/-- The counter goes up. Who is awake in its wait loop will leave it, and in the monitor wakes
up without a reason. -/
theorem Refines.bump (h : Refines c spec P s q) {all : Bool} {next : Next ω ρ}
    {w : CondVar.Waiters n} (hpc : s.pc t = .notifying all next)
    (hcp : s.cond.pc t = .bump all w) {cond : CondVar.State n}
    (hatom : cond.atom_.toNat = s.cond.atom_.toNat + 1) (hmutex : cond.mutex = s.cond.mutex)
    (hcond : cond.pc = update s.cond.pc t (.wake all w)) {W : Finset (Fin n)}
    (hW : ∀ u, u ∈ W ↔ isLooping (s.cond.pc u) = true) :
    Refines c spec P { s with cond := cond }
      { q with pc := fun u => if u ∈ W then (q.pc u).wake else q.pc u } := by
  have hholds : (s.pc t).Holds (s.cond.pc t) := by
    rw [hpc]
    trivial
  have hself : cond.pc t = .wake all w := by rw [hcond, Function.update_self]
  have hother : ∀ u, u ≠ t → cond.pc u = s.cond.pc u := fun u hu => by
    rw [hcond, Function.update_of_ne hu]
  -- nobody else holds the mutex
  have hunlock : ∀ u o, s.cond.pc u ≠ .unlock o := by
    intro u o hu
    have hat := h.pc u
    have hu' : (s.pc u).Holds (s.cond.pc u) := by
      rw [hu] at hat ⊢
      cases hpcu : s.pc u with
      | waiting w => exact ⟨o, rfl⟩
      | _ =>
        rw [hpcu] at hat
        cases hat
    obtain rfl := h.lock.one hu' hholds
    rw [hcp] at hu
    cases hu
  refine ⟨?_, h.free, fun u v o hu ho => ?_, fun u => ?_⟩
  · change Owned cond.mutex fun u => (s.pc u).Holds (cond.pc u)
    rw [hmutex]
    refine h.lock.keep fun u => ?_
    by_cases hu : u = t
    · subst hu
      rw [hpc]
      exact Iff.rfl
    · rw [hother u hu]
  · change o.toNat < cond.atom_.toNat
    rw [hatom]
    by_cases hvt : v = t
    · subst hvt
      change (cond.pc v).my_order? = some o at ho
      rw [hself] at ho
      cases ho
    · change (cond.pc v).my_order? = some o at ho
      rw [hother v hvt] at ho
      exact Nat.lt_succ_of_le ((h.pc v).behind ho)
  · change At c spec P cond.atom_.toNat s.data q.data (s.pc u) (cond.pc u)
      (if u ∈ W then (q.pc u).wake else q.pc u)
    have hbumped := (h.pc u).bumped (hunlock u)
    rw [hatom]
    by_cases hu : u = t
    · subst hu
      rw [hcp, hpc] at hbumped
      rw [hself, hpc, if_neg (by rw [hW u, hcp]; exact Bool.false_ne_true)]
      cases hbumped with
      | bump he hP hspec => exact .wake he hP hspec
    · rw [hother u hu]
      simp only [hW u]
      exact hbumped

/-- `WakeOne` and `WakeAll`: whoever sleeps there is passed, so in the monitor the section is
done and the same threads are woken. -/
theorem Refines.wake (h : Refines c spec P s q) {all : Bool} {next : Next ω ρ}
    {w : CondVar.Waiters n} (hpc : s.pc t = .notifying all next)
    (hcp : s.cond.pc t = .wake all w) {cond : CondVar.State n} (hatom : cond.atom_ = s.cond.atom_)
    (hmutex : cond.mutex = s.cond.mutex) (hself : cond.pc t = .outside)
    {pq : Fin n → Monitor.Pc ι ω ρ}
    (hother : ∀ u, u ≠ t → cond.pc u = s.cond.pc u ∧ pq u = q.pc u ∨
      cond.pc u = (s.cond.pc u).woken ∧ pq u = (q.pc u).wake) :
    Refines c spec P { s with cond := cond, pc := update s.pc t (.next next) }
      ⟨s.data, update pq t next.pc⟩ := by
  have hwaking : isWaking (s.cond.pc t) = true := by
    rw [hcp]
    rfl
  have hholds := h.holds_of_waking hwaking
  have hpassed : ∀ u o, (s.cond.pc u).my_order? = some o → o.toNat < s.cond.atom_.toNat :=
    fun u o => h.passed t u o hwaking
  have hof : ∀ u, u ≠ t → update s.pc t (Pc.next next) u = s.pc u :=
    fun u hu => Function.update_of_ne hu _ _
  have hout : ∀ u, u ≠ t → ¬(s.pc u).Holds (s.cond.pc u) :=
    fun u hu hu' => hu (h.lock.one hu' hholds)
  have hwoken : ∀ cp : CondVar.Pc n, isWaking cp.woken = isWaking cp ∧
      cp.woken.my_order? = cp.my_order? ∧ ((∃ o, cp.woken = .unlock o) ↔ ∃ o, cp = .unlock o) := by
    intro cp
    cases cp with
    | asleep o => exact ⟨rfl, rfl, iff_of_false (fun ⟨_, h⟩ => by cases h) fun ⟨_, h⟩ => by cases h⟩
    | _ => exact ⟨rfl, rfl, Iff.rfl⟩
  have hnext : (Pc.next next : Pc ι κ ω ρ).Holds (cond.pc t) := by
    cases next with
    | wait w => trivial
    | ret r => trivial
  refine ⟨?_, fun _ => rfl, fun u v o hu _ => ?_, fun u => ?_⟩
  · change Owned cond.mutex fun u => (update s.pc t (Pc.next next) u).Holds (cond.pc u)
    rw [hmutex]
    refine h.lock.keep fun u => ?_
    by_cases hu : u = t
    · subst hu
      rw [Function.update_self]
      exact iff_of_true hnext hholds
    · rw [hof u hu]
      obtain ⟨hcond, -⟩ | ⟨hcond, -⟩ := hother u hu
      · rw [hcond]
      · rw [hcond]
        cases s.pc u with
        | waiting w => exact (hwoken _).2.2
        | _ => exact Iff.rfl
  · -- nobody else is about to wake anybody
    exfalso
    change isWaking (cond.pc u) = true at hu
    by_cases hut : u = t
    · subst hut
      rw [hself] at hu
      cases hu
    · refine hout u hut (h.holds_of_waking ?_)
      obtain ⟨hcond, -⟩ | ⟨hcond, -⟩ := hother u hut
      · rwa [hcond] at hu
      · rwa [hcond, (hwoken _).1] at hu
  · change At c spec P cond.atom_.toNat s.data s.data (update s.pc t (Pc.next next) u) (cond.pc u)
      (update pq t next.pc u)
    rw [hatom]
    by_cases hu : u = t
    · subst hu
      rw [Function.update_self, Function.update_self, hself]
      cases next with
      | wait w => exact .wait
      | ret r => exact .unlock
    · have hnotin : ¬(s.pc u).Inside := fun hin => hout u hu hin.holds
      rw [hof u hu, Function.update_of_ne hu]
      obtain ⟨hcond, hq⟩ | ⟨hcond, hq⟩ := hother u hu
      · rw [hcond, hq]
        exact (h.pc u).outside hnotin
      · rw [hcond, hq]
        exact ((h.pc u).outside hnotin).woken (hout u hu) (hpassed u)

/-- Thread `t` goes on, and in the monitor nothing happens. -/
theorem Refines.silent (h : Refines c spec P s q) {cond : CondVar.State n} {data : δ}
    {pc : Pc ι κ ω ρ} (hatom : cond.atom_ = s.cond.atom_)
    (hother : ∀ u, u ≠ t → cond.pc u = s.cond.pc u)
    (hturn : Owned.Turns t s.cond.mutex cond.mutex ((s.pc t).Holds (s.cond.pc t))
      (pc.Holds (cond.pc t)))
    (hdata : Data (s.pc t).Inside pc.Inside s.data q.data data q.data)
    (hwaking : isWaking (cond.pc t) = true → isWaking (s.cond.pc t) = true)
    (horder : ∀ o, (cond.pc t).my_order? = some o → (s.cond.pc t).my_order? = some o ∨
      (s.pc t).Holds (s.cond.pc t) ∧ isWaking (s.cond.pc t) = false)
    (hpc : At c spec P s.cond.atom_.toNat data q.data pc (cond.pc t) (q.pc t)) :
    Refines c spec P ⟨cond, data, update s.pc t pc⟩ q := by
  have hq : (⟨q.data, update q.pc t (q.pc t)⟩ : Monitor.State n δ ι ω ρ) = q := by
    rw [Function.update_eq_self]
  have hnew := h.move hatom hother hturn hdata hwaking horder hpc
  rwa [hq] at hnew

/-- With the mutex free nobody is in a section. -/
theorem Refines.data_eq (h : Refines c spec P s q) (hfree : s.cond.mutex = none) :
    q.data = s.data := by
  exact h.free fun t hin => h.lock.free hfree hin.holds

/-- Whoever gets the mutex begins a section. -/
theorem Refines.acquire (h : Refines c spec P s q) (himpl : c.Implements spec) {e : ι ⊕ ω}
    (hfree : s.cond.mutex = none) (he : (q.pc t).entering = some e) (hP : P e s.data)
    {cond : CondVar.State n} (hatom : cond.atom_ = s.cond.atom_) (hmutex : cond.mutex = some t)
    (hself : cond.pc t = .outside) (hother : ∀ u, u ≠ t → cond.pc u = s.cond.pc u) :
    Refines c spec P { s with cond := cond, pc := update s.pc t (.inside (c.enter e)) } q := by
  refine h.silent hatom hother (.enter hfree hmutex trivial) (.same rfl rfl fun _ => trivial)
    ?_ ?_ ?_
  · intro hwaking
    rw [hself] at hwaking
    cases hwaking
  · intro o ho
    rw [hself] at ho
    cases ho
  · rw [hself]
    have hdata := h.data_eq hfree
    refine .inside he (by rwa [hdata]) ?_
    rw [hdata]
    exact himpl e s.data

end Refines

/-! ## Step by step -/

section Step

variable {c : Code δ ι κ ω ρ} {spec : ι ⊕ ω → δ → δ × Outcome ω ρ} {P : ι ⊕ ω → δ → Prop}
  {d₀ : δ} {s s' : State n δ ι κ ω ρ} {q : Monitor.State n δ ι ω ρ} {t : Fin n}

theorem step_cond {a : CondVar.Action n} (ht : thread a = t)
    (hst : step c (.cond a) s = some s') :
    ∃ cond pc, CondVar.step a s.cond = some cond ∧ follow c a (s.pc t) = some pc ∧
      s' = { s with cond := cond, pc := update s.pc t pc } := by
  subst ht
  simp only [step] at hst
  split at hst
  · rename_i cond pc hcond hpc
    exact ⟨cond, pc, hcond, hpc, (Option.some.inj hst).symm⟩
  · cases hst

/-- What a step of `CondVar` is for the monitor. -/
def Matched (spec : ι ⊕ ω → δ → δ × Outcome ω ρ) (P : ι ⊕ ω → δ → Prop) (d₀ : δ)
    (c : Code δ ι κ ω ρ) (s' : State n δ ι κ ω ρ) (q : Monitor.State n δ ι ω ρ) : Prop :=
  ∃ l q', (Monitor.machine n spec d₀).Steps q l q' ∧ (∀ x ∈ l, Monitor.Requires P x.act x.pre) ∧
    Machine.trace Monitor.vis l = [] ∧ Refines c spec P s' q'

theorem Refines.matched (h : Refines c spec P s' q) : Matched spec P d₀ c s' q :=
  ⟨[], q, .nil, fun _ hx => absurd hx List.not_mem_nil, rfl, h⟩

/-- One step of the monitor, which is not seen. -/
theorem Refines.matched_one {q' : Monitor.State n δ ι ω ρ} {a : Monitor.Action n ι}
    (hst : (Monitor.machine n spec d₀).step a q = some q') (hreq : Monitor.Requires P a q)
    (hvis : Monitor.vis ⟨q, a, q'⟩ = none) (h : Refines c spec P s' q') :
    Matched spec P d₀ c s' q := by
  refine ⟨_, q', .one hst, List.forall_mem_singleton.mpr hreq, ?_, h⟩
  rw [Machine.trace_cons, hvis]
  rfl

/-- A step of a thread inside `Wait`, but for those that take the mutex or give it back. -/
theorem Refines.loop (h : Refines c spec P s q) {w : ω} {p : CondVar.Pc n}
    (hpc : s.pc t = .waiting w) (hwas : ∀ o, s.cond.pc t ≠ .unlock o)
    (hcp : ∀ o, p ≠ .unlock o) (hwaking : isWaking p = false)
    (horder : ∀ o, p.my_order? = some o → (s.cond.pc t).my_order? = some o)
    {cond : CondVar.State n} (hatom : cond.atom_ = s.cond.atom_)
    (hmutex : cond.mutex = s.cond.mutex) (hcond : cond.pc = update s.cond.pc t p)
    {pq : Monitor.Pc ι ω ρ}
    (hat : At c spec P s.cond.atom_.toNat s.data q.data (.waiting w) p pq) :
    Refines c spec P { s with cond := cond, pc := update s.pc t (.waiting w) }
      { q with pc := update q.pc t pq } := by
  have hself : cond.pc t = p := by rw [hcond, Function.update_self]
  refine h.move hatom (fun u hu => by rw [hcond, Function.update_of_ne hu]) (.stay hmutex ?_)
    (.same rfl rfl fun hin => ?_) ?_ ?_ ?_
  · rw [hself, hpc]
    exact iff_of_false (fun ⟨o, ho⟩ => hcp o ho) fun ⟨o, ho⟩ => hwas o ho
  · rw [hpc] at hin
    cases hin
  · rw [hself, hwaking]
    exact fun h => by cases h
  · rw [hself]
    exact fun o ho => .inl (horder o ho)
  · rw [hself]
    exact hat

/-- The same, where in the monitor nothing happens. -/
theorem Refines.loop_silent (h : Refines c spec P s q) {w : ω} {p : CondVar.Pc n}
    (hpc : s.pc t = .waiting w) (hwas : ∀ o, s.cond.pc t ≠ .unlock o)
    (hcp : ∀ o, p ≠ .unlock o) (hwaking : isWaking p = false)
    (horder : ∀ o, p.my_order? = some o → (s.cond.pc t).my_order? = some o)
    {cond : CondVar.State n} (hatom : cond.atom_ = s.cond.atom_)
    (hmutex : cond.mutex = s.cond.mutex) (hcond : cond.pc = update s.cond.pc t p)
    (hat : At c spec P s.cond.atom_.toNat s.data q.data (.waiting w) p (q.pc t)) :
    Matched spec P d₀ c { s with cond := cond, pc := update s.pc t (.waiting w) } q := by
  have hnew := h.loop hpc hwas hcp hwaking horder hatom hmutex hcond hat
  rw [Function.update_eq_self] at hnew
  exact hnew.matched

theorem follow_loop {a : CondVar.Action n} {pc pc' : Pc ι κ ω ρ}
    (ha : a = .release t ∨ a = .test t ∨ a = .wait t ∨ a = .spurious t)
    (hf : follow c a pc = some pc') : ∃ w, pc = .waiting w ∧ pc' = .waiting w := by
  cases pc with
  | waiting w =>
    refine ⟨w, rfl, ?_⟩
    obtain rfl | rfl | rfl | rfl := ha <;> exact (Option.some.inj hf).symm
  | _ => obtain rfl | rfl | rfl | rfl := ha <;> cases hf

theorem matched_test (h : Refines c spec P s q) (hst : step c (.cond (.test t)) s = some s') :
    Matched spec P d₀ c s' q := by
  obtain ⟨cond, pc, hcond, hf, rfl⟩ := step_cond (t := t) rfl hst
  obtain ⟨w, hpc, rfl⟩ := follow_loop (.inr (.inl rfl)) hf
  have hat := h.pc t
  simp only [CondVar.step] at hcond
  split at hcond
  · rename_i o hcp
    obtain rfl := Option.some.inj hcond
    rw [hpc, hcp] at hat
    have hwas : ∀ o, s.cond.pc t ≠ .unlock o := by simp [hcp]
    unfold CondVar.test
    split
    · -- the epoch has not passed, so the monitor's thread is asleep
      rename_i hwait
      refine h.loop_silent (p := .wait o) hpc hwas (by simp) rfl (fun o' ho => ?_) rfl rfl rfl ?_
      · rw [hcp]
        exact ho
      · rw [CondVar.mustWait, decide_eq_true_eq, UInt64.le_iff_toNat_le,
          UInt32.toNat_toUInt64] at hwait
        generalize hpq : q.pc t = pq at hat ⊢
        cases hat with
        | test ho => exact .sleep ho
        | testPassed ho => omega
    · rename_i hpassed
      refine h.loop_silent (p := .relock) hpc hwas (by simp) rfl (fun o' ho => by cases ho)
        rfl rfl rfl ?_
      · rw [CondVar.mustWait, decide_eq_true_eq, UInt64.le_iff_toNat_le,
          UInt32.toNat_toUInt64] at hpassed
        generalize hpq : q.pc t = pq at hat ⊢
        cases hat with
        | test ho => omega
        | testPassed ho => exact .relock
  · cases hcond

theorem matched_wait (h : Refines c spec P s q) (hst : step c (.cond (.wait t)) s = some s') :
    Matched spec P d₀ c s' q := by
  obtain ⟨cond, pc, hcond, hf, rfl⟩ := step_cond (t := t) rfl hst
  obtain ⟨w, hpc, rfl⟩ := follow_loop (.inr (.inr (.inl rfl))) hf
  have hat := h.pc t
  simp only [CondVar.step] at hcond
  split at hcond
  · rename_i o hcp
    obtain rfl := Option.some.inj hcond
    rw [hpc, hcp] at hat
    have hwas : ∀ o, s.cond.pc t ≠ .unlock o := by simp [hcp]
    unfold CondVar.futexWait
    split
    · rename_i heq
      refine h.loop_silent (p := .asleep o) hpc hwas (by simp) rfl (fun o' ho => ?_) rfl rfl
        rfl ?_
      · rw [hcp]
        exact ho
      · -- an epoch that has passed is not the value of the counter
        have hmod : s.cond.atom_.toNat = o.toNat % 2 ^ 32 := by
          rw [heq, UInt64.toNat_toUInt32]
        have hlt := s.cond.atom_.toNat_lt
        generalize hpq : q.pc t = pq at hat ⊢
        cases hat with
        | sleep ho => exact .asleep ho.le
        | sleepPassed ho =>
          rw [Nat.mod_eq_of_lt (by omega)] at hmod
          omega
    · refine h.loop_silent (p := .test o) hpc hwas (by simp) rfl (fun o' ho => ?_) rfl rfl rfl ?_
      · rw [hcp]
        exact ho
      · generalize hpq : q.pc t = pq at hat ⊢
        cases hat with
        | sleep ho => exact .test ho
        | sleepPassed ho => exact .testPassed ho
  · cases hcond

theorem matched_spurious (h : Refines c spec P s q)
    (hst : step c (.cond (.spurious t)) s = some s') : Matched spec P d₀ c s' q := by
  obtain ⟨cond, pc, hcond, hf, rfl⟩ := step_cond (t := t) rfl hst
  obtain ⟨w, hpc, rfl⟩ := follow_loop (.inr (.inr (.inr rfl))) hf
  have hat := h.pc t
  simp only [CondVar.step] at hcond
  split at hcond
  · rename_i o hcp
    obtain rfl := Option.some.inj hcond
    rw [hpc, hcp] at hat
    have hwas : ∀ o, s.cond.pc t ≠ .unlock o := by simp [hcp]
    have horder : ∀ o', (CondVar.Pc.test o : CondVar.Pc n).my_order? = some o' →
        (s.cond.pc t).my_order? = some o' := by
      intro o' ho
      rw [hcp]
      exact ho
    generalize hpq : q.pc t = pq at hat
    cases hat with
    | asleep hle =>
      obtain hlt | heq := hle.lt_or_eq
      · have hst' : (Monitor.machine n spec d₀).step (.spurious t) q =
            some { q with pc := update q.pc t (.woken w) } := by
          simp [Monitor.machine, Monitor.step, hpq, Monitor.Pc.isAsleep, Monitor.Pc.wake]
        refine Refines.matched_one hst' trivial rfl ?_
        refine h.loop (p := .test o) hpc hwas (by simp) rfl horder ?_ ?_ ?_ (.testPassed hlt)
        · rfl
        · rfl
        · rfl
      · refine h.loop_silent (p := .test o) hpc hwas (by simp) rfl horder rfl rfl rfl ?_
        rw [hpq]
        exact .test heq
  · cases hcond

/-- A step that is not seen in the monitor, in which `t` may take the mutex or give it back. -/
theorem Refines.turns (h : Refines c spec P s q) {p : CondVar.Pc n} {pc : Pc ι κ ω ρ}
    {cond : CondVar.State n} (hatom : cond.atom_ = s.cond.atom_)
    (hcond : cond.pc = update s.cond.pc t p)
    (hturn : Owned.Turns t s.cond.mutex cond.mutex ((s.pc t).Holds (s.cond.pc t)) (pc.Holds p))
    (hin : (s.pc t).Inside → pc.Inside) (hwaking : isWaking p = false)
    (horder : ∀ o, p.my_order? = some o → (s.cond.pc t).my_order? = some o ∨
      (s.pc t).Holds (s.cond.pc t) ∧ isWaking (s.cond.pc t) = false)
    (hat : At c spec P s.cond.atom_.toNat s.data q.data pc p (q.pc t)) :
    Matched spec P d₀ c { s with cond := cond, pc := update s.pc t pc } q := by
  have hself : cond.pc t = p := by rw [hcond, Function.update_self]
  rw [← hself] at hturn hwaking horder hat
  refine Refines.matched ?_
  refine h.silent hatom (fun u hu => by rw [hcond, Function.update_of_ne hu]) hturn
    (.same rfl rfl hin) (fun hnew => ?_) horder hat
  rw [hwaking] at hnew
  cases hnew

theorem matched_release (h : Refines c spec P s q)
    (hst : step c (.cond (.release t)) s = some s') : Matched spec P d₀ c s' q := by
  obtain ⟨cond, pc, hcond, hf, rfl⟩ := step_cond (t := t) rfl hst
  obtain ⟨w, hpc, rfl⟩ := follow_loop (.inl rfl) hf
  have hat := h.pc t
  simp only [CondVar.step] at hcond
  split at hcond
  · rename_i o hcp
    obtain rfl := Option.some.inj hcond
    rw [hpc, hcp] at hat
    refine h.turns (p := .test o) rfl rfl (.leave ?_ rfl ?_) (by rw [hpc]; exact id) rfl
      (fun o' ho => .inl (by rw [hcp]; exact ho)) ?_
    · rw [hpc, hcp]
      exact ⟨o, rfl⟩
    · rintro ⟨o', ho⟩
      cases ho
    · generalize q.pc t = pq at hat ⊢
      cases hat with
      | release ho => exact .test ho
  · cases hcond

theorem matched_read (h : Refines c spec P s q) (hst : step c (.cond (.read t)) s = some s') :
    Matched spec P d₀ c s' q := by
  obtain ⟨cond, pc, hcond, hf, rfl⟩ := step_cond (t := t) rfl hst
  have hat := h.pc t
  simp only [CondVar.step] at hcond
  split at hcond
  · rename_i hcp
    simp only [Option.ite_none_right_eq_some, Option.some.injEq] at hcond
    obtain ⟨-, rfl⟩ := hcond
    cases hpc : s.pc t with
    | wait w =>
      rw [hpc] at hf
      obtain rfl := Option.some.inj hf
      rw [hpc, hcp] at hat
      refine h.turns (p := .unlock s.cond.atom_.toUInt64) rfl rfl (.stay rfl ?_)
        (by rw [hpc]; exact id) rfl (fun o' _ => .inr ⟨?_, ?_⟩) ?_
      · rw [hpc]
        exact iff_of_true ⟨_, rfl⟩ trivial
      · rw [hpc]
        trivial
      · rw [hcp]
        rfl
      · generalize q.pc t = pq at hat ⊢
        cases hat with
        | wait => exact .release (UInt32.toNat_toUInt64 _)
    | _ =>
      rw [hpc] at hf
      cases hf
  · cases hcond

theorem matched_unlock (h : Refines c spec P s q)
    (hst : step c (.cond (.unlock t)) s = some s') : Matched spec P d₀ c s' q := by
  obtain ⟨cond, pc, hcond, hf, rfl⟩ := step_cond (t := t) rfl hst
  have hat := h.pc t
  simp only [CondVar.step] at hcond
  split at hcond
  · rename_i hcp
    simp only [Option.ite_none_right_eq_some, Option.some.injEq] at hcond
    obtain ⟨-, rfl⟩ := hcond
    cases hpc : s.pc t with
    | unlock r =>
      rw [hpc] at hf
      obtain rfl := Option.some.inj hf
      rw [hpc, hcp] at hat
      refine h.turns (p := .outside) rfl (by rw [← hcp, Function.update_eq_self])
        (.leave ?_ rfl id) (by rw [hpc]; exact id) rfl (fun o' ho => by cases ho) ?_
      · rw [hpc]
        trivial
      · generalize q.pc t = pq at hat ⊢
        cases hat with
        | unlock => exact .done
    | _ =>
      rw [hpc] at hf
      cases hf
  · cases hcond

theorem matched_notify {all : Bool} (h : Refines c spec P s q)
    (hst : step c (.cond (.notify t all)) s = some s') : Matched spec P d₀ c s' q := by
  obtain ⟨cond, pc, hcond, hf, rfl⟩ := step_cond (t := t) rfl hst
  have hat := h.pc t
  simp only [CondVar.step] at hcond
  split at hcond
  · rename_i hcp
    obtain rfl := Option.some.inj hcond
    cases hpc : s.pc t with
    | notify all' next =>
      rw [hpc] at hf
      simp only [follow, Option.ite_none_right_eq_some, Option.some.injEq] at hf
      obtain ⟨rfl, rfl⟩ := hf
      rw [hpc, hcp] at hat
      refine h.turns (p := .bump all s.cond.waiters) rfl rfl (.stay rfl ?_)
        (fun _ => trivial) rfl (fun o' ho => by cases ho) ?_
      · rw [hpc]
        exact iff_of_true trivial trivial
      · generalize q.pc t = pq at hat ⊢
        cases hat with
        | notify he hP hspec => exact .bump he hP hspec
    | _ =>
      rw [hpc] at hf
      cases hf
  · cases hcond

theorem matched_lock (himpl : c.Implements spec) (h : Refines c spec P s q)
    (hmeets : Meets P (.cond (.lock t)) s) (hst : step c (.cond (.lock t)) s = some s') :
    Matched spec P d₀ c s' q := by
  obtain ⟨cond, pc, hcond, hf, rfl⟩ := step_cond (t := t) rfl hst
  have hat := h.pc t
  simp only [CondVar.step] at hcond
  split at hcond
  · rename_i hcp hfree
    obtain rfl := Option.some.inj hcond
    cases hpc : s.pc t with
    | lock op =>
      rw [hpc] at hf
      obtain rfl := Option.some.inj hf
      rw [hpc, hcp] at hat
      refine Refines.matched ?_
      have hP : P (.inl op) s.data := hmeets.2 (.inl op) (by rw [entering, hpc]; rfl)
      refine h.acquire himpl hfree ?_ hP rfl rfl hcp fun _ _ => rfl
      generalize q.pc t = pq at hat
      cases hat with
      | lock => rfl
    | _ =>
      rw [hpc] at hf
      cases hf
  · cases hcond

theorem matched_relock (himpl : c.Implements spec) (h : Refines c spec P s q)
    (hmeets : Meets P (.cond (.relock t)) s) (hst : step c (.cond (.relock t)) s = some s') :
    Matched spec P d₀ c s' q := by
  obtain ⟨cond, pc, hcond, hf, rfl⟩ := step_cond (t := t) rfl hst
  have hat := h.pc t
  simp only [CondVar.step] at hcond
  split at hcond
  · rename_i hcp hfree
    obtain rfl := Option.some.inj hcond
    cases hpc : s.pc t with
    | waiting w =>
      rw [hpc] at hf
      obtain rfl := Option.some.inj hf
      rw [hpc, hcp] at hat
      refine Refines.matched ?_
      have hP : P (.inr w) s.data := hmeets.2 (.inr w) (by rw [entering, hpc]; rfl)
      refine h.acquire himpl hfree ?_ hP rfl rfl (Function.update_self _ _ _)
        fun u hu => Function.update_of_ne hu _ _
      generalize q.pc t = pq at hat
      cases hat with
      | relock => rfl
    | _ =>
      rw [hpc] at hf
      cases hf
  · cases hcond

theorem matched_bump (h : Refines c spec P s q) (hst : step c (.cond (.bump t)) s = some s')
    (hwrap : CondVar.NoWrap (.bump t) s.cond) : Matched spec P d₀ c s' q := by
  obtain ⟨cond, pc, hcond, hf, rfl⟩ := step_cond (t := t) rfl hst
  simp only [CondVar.step] at hcond
  split at hcond
  · rename_i all w hcp
    obtain rfl := Option.some.inj hcond
    cases hpc : s.pc t with
    | notifying all' next =>
      have hat := h.pc t
      rw [hpc, hcp] at hat
      obtain rfl : all' = all := by
        generalize q.pc t = pq at hat
        cases hat with
        | bump => rfl
      rw [hpc] at hf
      obtain rfl := Option.some.inj hf
      have hlt : s.cond.atom_.toNat + 1 < 2 ^ 32 := hwrap rfl
      obtain ⟨l, hl, hP, htrace⟩ := Monitor.exists_spurious spec d₀ P q
        (Finset.univ.filter fun u => isLooping (s.cond.pc u) = true)
      refine ⟨l, _, hl, hP, htrace, ?_⟩
      rw [← hpc, Function.update_eq_self]
      refine h.bump hpc hcp ?_ ?_ ?_ fun u => ?_
      · rw [UInt32.toNat_add]
        exact Nat.mod_eq_of_lt hlt
      · rfl
      · rfl
      · rw [Finset.mem_filter]
        exact and_iff_right (Finset.mem_univ u)
    | _ =>
      rw [hpc] at hf
      cases hf
  · cases hcond

/-- The futex operation of a notification is where its section takes effect. -/
theorem matched_wake (h : Refines c spec P s q) {all : Bool} {w : CondVar.Waiters n}
    (hcp : s.cond.pc t = .wake all w) {pc : Pc ι κ ω ρ}
    (hf : ∀ next, s.pc t = .notifying all next → some (Pc.next next) = some pc)
    (choice : Option (Fin n)) (pq : Fin n → Monitor.Pc ι ω ρ) {cond : CondVar.State n}
    (hatom : cond.atom_ = s.cond.atom_) (hmutex : cond.mutex = s.cond.mutex)
    (hself : cond.pc t = .outside)
    (hnotified : (∀ u, (q.pc u).isAsleep = true ↔ (s.cond.pc u).isAsleep = true) →
      Monitor.notified q.pc choice (mode all) = some pq)
    (hother : ∀ u, u ≠ t → cond.pc u = s.cond.pc u ∧ pq u = q.pc u ∨
      cond.pc u = (s.cond.pc u).woken ∧ pq u = (q.pc u).wake) :
    Matched spec P d₀ c { s with cond := cond, pc := update s.pc t pc } q := by
  have hat := h.pc t
  have hwaking : isWaking (s.cond.pc t) = true := by
    rw [hcp]
    rfl
  have hholds := h.holds_of_waking hwaking
  rw [hcp] at hat
  generalize hpc : s.pc t = pc₀, hpq : q.pc t = pt at hat
  cases hat with
  | @wake e _ _ next _ he hP hspec =>
    obtain rfl := Option.some.inj (hf next hpc)
    refine Refines.matched_one (a := Monitor.Action.run t choice)
      (Monitor.step_run (by rw [hpq]; exact he) hspec (hnotified fun u => ?_))
      (fun e' he' => ?_) rfl (h.wake hpc hcp hatom hmutex hself hother)
    swap
    · rw [hpq, he] at he'
      exact Option.some.inj he' ▸ hP
    by_cases hu : u = t
    · subst hu
      rw [hpq, hcp]
      refine iff_of_false (fun hasleep => ?_) Bool.false_ne_true
      cases pt with
      | asleep w => cases he
      | _ => cases hasleep
    · exact (h.pc u).asleep_of_passed (fun hu' => hu (h.lock.one hu' hholds))
        fun o => h.passed t u o hwaking

theorem matched_wakeOne {u : Option (Fin n)} (h : Refines c spec P s q)
    (hst : step c (.cond (.wakeOne t u)) s = some s') : Matched spec P d₀ c s' q := by
  obtain ⟨cond, pc, hcond, hf, rfl⟩ := step_cond (t := t) rfl hst
  simp only [CondVar.step] at hcond
  split at hcond
  · rename_i w hcp
    have hfollow : ∀ next, s.pc t = .notifying false next → some (Pc.next next) = some pc := by
      intro next hpc
      rwa [hpc] at hf
    cases u with
    | none =>
      simp only [CondVar.wakeOne, Option.ite_none_right_eq_some, Option.some.injEq] at hcond
      obtain ⟨hno, rfl⟩ := hcond
      refine matched_wake h hcp hfollow none q.pc ?_ ?_ ?_ (fun hasleep => ?_) fun v hv => ?_
      · rfl
      · rfl
      · exact Function.update_self _ _ _
      · rw [mode, Monitor.notified, if_pos]
        intro v
        exact Bool.eq_false_iff.mpr fun hv => Bool.eq_false_iff.mp (hno v) ((hasleep v).mp hv)
      · exact .inl ⟨Function.update_of_ne hv _ _, rfl⟩
    | some u =>
      simp only [CondVar.wakeOne, Option.ite_none_right_eq_some, Option.some.injEq] at hcond
      obtain ⟨hu, rfl⟩ := hcond
      have hut : t ≠ u := by
        rintro rfl
        rw [hcp] at hu
        cases hu
      refine matched_wake h hcp hfollow (some u) (update q.pc u (q.pc u).wake) ?_ ?_ ?_
        (fun hasleep => ?_) fun v hv => ?_
      · rfl
      · rfl
      · exact (Function.update_of_ne hut _ _).trans (Function.update_self _ _ _)
      · rw [mode, Monitor.notified, if_pos ((hasleep u).mpr hu)]
      · by_cases hvu : v = u
        · subst hvu
          exact .inr ⟨Function.update_self _ _ _, Function.update_self _ _ _⟩
        · exact .inl ⟨(Function.update_of_ne hvu _ _).trans (Function.update_of_ne hv _ _),
            Function.update_of_ne hvu _ _⟩
  · cases hcond

theorem matched_wakeAll (h : Refines c spec P s q)
    (hst : step c (.cond (.wakeAll t)) s = some s') : Matched spec P d₀ c s' q := by
  obtain ⟨cond, pc, hcond, hf, rfl⟩ := step_cond (t := t) rfl hst
  simp only [CondVar.step] at hcond
  split at hcond
  · rename_i w hcp
    obtain rfl := Option.some.inj hcond
    refine matched_wake h hcp (fun next hpc => ?_) none _ ?_ ?_ ?_ (fun _ => rfl) fun v hv => ?_
    · rwa [hpc] at hf
    · rfl
    · rfl
    · exact if_pos rfl
    · exact .inr ⟨if_neg hv, rfl⟩
  · cases hcond

theorem matched_cond (himpl : c.Implements spec) (h : Refines c spec P s q)
    {a : CondVar.Action n} (hmeets : Meets P (.cond a) s) (hst : step c (.cond a) s = some s') :
    Matched spec P d₀ c s' q := by
  cases a with
  | lock t => exact matched_lock himpl h hmeets hst
  | unlock t => exact matched_unlock h hst
  | read t => exact matched_read h hst
  | release t => exact matched_release h hst
  | test t => exact matched_test h hst
  | wait t => exact matched_wait h hst
  | spurious t => exact matched_spurious h hst
  | relock t => exact matched_relock himpl h hmeets hst
  | notify t all => exact matched_notify h hst
  | bump t => exact matched_bump h hst hmeets.1
  | wakeOne t u => exact matched_wakeOne h hst
  | wakeAll t => exact matched_wakeAll h hst

/-- A step of `t` in its own code: the condition variable stays as it is. -/
theorem Refines.own (h : Refines c spec P s q) {data d : δ} {pc : Pc ι κ ω ρ}
    {pq : Monitor.Pc ι ω ρ} (hout : s.cond.pc t = .outside)
    (hholds : pc.Holds (.outside : CondVar.Pc n) ↔ (s.pc t).Holds (.outside : CondVar.Pc n))
    (hdata : Data (s.pc t).Inside pc.Inside s.data q.data data d)
    (hat : At c spec P s.cond.atom_.toNat data d pc (.outside : CondVar.Pc n) pq) :
    Refines c spec P { s with data := data, pc := update s.pc t pc } ⟨d, update q.pc t pq⟩ := by
  refine h.move rfl (fun _ _ => rfl) (.stay rfl ?_) hdata id (fun o ho => .inl ho) ?_
  · rw [hout]
    exact hholds
  · rw [hout]
    exact hat

theorem matched_access (h : Refines c spec P s q) (hst : step c (.access t) s = some s') :
    Matched spec P d₀ c s' q := by
  have hat := h.pc t
  simp only [step] at hst
  split at hst
  · rename_i k hpc
    have hin : (s.pc t).Inside := by
      rw [hpc]
      trivial
    rw [hpc] at hat
    generalize hcp : s.cond.pc t = cp, hpq : q.pc t = pq at hat
    cases hat with
    | @inside _ e _ he hP hends =>
      have hstay : ∀ {data : δ} {pc : Pc ι κ ω ρ}, pc.Inside →
          At c spec P s.cond.atom_.toNat data q.data pc (.outside : CondVar.Pc n) (q.pc t) →
          Matched spec P d₀ c { s with data := data, pc := update s.pc t pc } q := by
        intro data pc hpcin hat
        have hnew := h.own hcp (iff_of_true hpcin.holds hin.holds) (.within hin (.inl hpcin)) hat
        rw [Function.update_eq_self] at hnew
        exact hnew.matched
      split at hst
      · rename_i d k' hacc
        obtain rfl := Option.some.inj hst
        refine hstay trivial ?_
        rw [hpq]
        exact .inside he hP (hends.of_go hacc)
      · rename_i d out hacc
        obtain rfl := Option.some.inj hst
        have hspec := hends.of_stop hacc
        obtain ⟨notify, next⟩ := out
        cases notify with
        | nobody =>
          refine Refines.matched_one (a := Monitor.Action.run t none)
            (Monitor.step_run (by rw [hpq]; exact he) hspec (Monitor.notified_nobody q.pc))
            (fun e' he' => ?_) rfl
            (h.own hcp (iff_of_true ?_ hin.holds) (.within hin (.inr rfl)) ?_)
          · rw [hpq, he] at he'
            exact Option.some.inj he' ▸ hP
          · cases next with
            | wait w => trivial
            | ret r => trivial
          · cases next with
            | wait w => exact .wait
            | ret r => exact .unlock
        | one =>
          refine hstay trivial ?_
          rw [hpq]
          exact .notify he hP hspec
        | all =>
          refine hstay trivial ?_
          rw [hpq]
          exact .notify he hP hspec
  · cases hst

end Step

/-! ## Every interleaving is that of a monitor -/

variable {c : Code δ ι κ ω ρ} {spec : ι ⊕ ω → δ → δ × Outcome ω ρ} {P : ι ⊕ ω → δ → Prop}

/-- **A class guarded by a mutex and a `CondVar` is a monitor.** -/
theorem covers (himpl : c.Implements spec) (d : δ) :
    Machine.Covers (machine n c d) (Monitor.machine n spec d) (Meets P) (Monitor.Requires P)
      vis Monitor.vis (Refines c spec P) := by
  constructor
  · rintro s rfl
    exact ⟨_, rfl, (fun _ => iff_of_false (fun h => by cases h) id), fun _ => rfl,
      (fun _ _ _ h => by cases h), fun _ => .idle⟩
  · intro a s s' q h hmeets hst
    cases a with
    | access t => exact matched_access h hst
    | cond a => exact matched_cond himpl h hmeets hst
    | call t op =>
      have hat := h.pc t
      simp only [machine, step] at hst
      split at hst
      · rename_i hpc
        obtain rfl := Option.some.inj hst
        rw [hpc] at hat
        generalize hcp : s.cond.pc t = cp, hpq : q.pc t = pq at hat
        cases hat with
        | idle =>
          refine ⟨_, { q with pc := update q.pc t (.pending op) },
            .one (a := Monitor.Action.call t op) ?_, List.forall_mem_singleton.mpr trivial, rfl,
            h.own hcp ?_ (.same rfl rfl ?_) .lock⟩
          · simp only [Monitor.machine, Monitor.step, hpq]
          · rw [hpc]
            exact Iff.rfl
          · rw [hpc]
            exact id
      · cases hst
    | ret t =>
      have hat := h.pc t
      simp only [machine, step] at hst
      split at hst
      · rename_i r hpc
        obtain rfl := Option.some.inj hst
        rw [hpc] at hat
        generalize hcp : s.cond.pc t = cp, hpq : q.pc t = pq at hat
        cases hat with
        | done =>
          refine ⟨_, { q with pc := update q.pc t .idle }, .one (a := Monitor.Action.ret t) ?_,
            List.forall_mem_singleton.mpr trivial, ?_, h.own hcp ?_ (.same rfl rfl ?_) .idle⟩
          · simp only [Monitor.machine, Monitor.step, hpq]
          · rw [Machine.trace_cons]
            simp only [Monitor.vis, vis, hpq, hpc]
            rfl
          · rw [hpc]
            exact Iff.rfl
          · rw [hpc]
            exact id
      · cases hst

/-- With the mutex free, whoever is in `Wait` waits in the monitor. -/
theorem Refines.isWaiting {s : State n δ ι κ ω ρ} {q : Monitor.State n δ ι ω ρ}
    (h : Refines c spec P s q) (hfree : s.cond.mutex = none) (t : Fin n) :
    (q.pc t).isWaiting = (s.pc t).isWaiting := by
  have hat := h.pc t
  have hholds : ¬(s.pc t).Holds (s.cond.pc t) := h.lock.free hfree
  generalize s.pc t = pc, s.cond.pc t = cp, q.pc t = pq at hat hholds ⊢
  cases hat with
  | inside | notify | bump | wake | wait | unlock => exact absurd trivial hholds
  | _ => rfl

/-- Who sleeps in the futex sleeps in the monitor: whoever was notified is awake. -/
theorem Refines.asleep {s : State n δ ι κ ω ρ} {q : Monitor.State n δ ι ω ρ} {t : Fin n}
    (h : Refines c spec P s q) (ht : (s.cond.pc t).isAsleep = true) :
    ∃ w, s.pc t = .waiting w ∧ q.pc t = .asleep w := by
  have hat := h.pc t
  generalize s.pc t = pc, s.cond.pc t = cp, q.pc t = pq at hat ht ⊢
  cases hat with
  | asleep => exact ⟨_, rfl, rfl⟩
  | _ => cases ht

/-! ## Somebody can always go on -/

/-- A step of a thread that is in a method, not a return of the futex without a reason. -/
def Action.isOwn : Action n ι → Bool
  | .access _ => true
  | .cond (.spurious _) => false
  | .cond _ => true
  | _ => false

/-- Thread `t` is in no method, or sleeps in the futex. -/
def State.Rests (s : State n δ ι κ ω ρ) (t : Fin n) : Prop :=
  s.pc t = .idle ∨ (s.pc t).isDone = true ∨ (s.cond.pc t).isAsleep = true

section Progress

variable {s : State n δ ι κ ω ρ} {q : Monitor.State n δ ι ω ρ} {t : Fin n}

theorem goes_cond {a : CondVar.Action n} {pc : Pc ι κ ω ρ}
    (hown : (Action.cond a : Action n ι).isOwn = true) (hpc : s.pc (thread a) = pc)
    (hf : (follow c a pc).isSome = true) (hcond : (CondVar.step a s.cond).isSome = true) :
    ∃ a s', a.isOwn = true ∧ step c a s = some s' := by
  obtain ⟨cond, hcond⟩ := Option.isSome_iff_exists.mp hcond
  obtain ⟨pc', hf⟩ := Option.isSome_iff_exists.mp hf
  exact ⟨.cond a, { s with cond := cond, pc := update s.pc (thread a) pc' }, hown, by
    simp only [step, hcond, hpc, hf]⟩

/-- Whoever holds the mutex can make his next step. -/
theorem Refines.holder_goes_on (h : Refines c spec P s q) (ht : s.cond.mutex = some t) :
    ∃ a s', a.isOwn = true ∧ step c a s = some s' := by
  have hholds : (s.pc t).Holds (s.cond.pc t) := (h.lock t).mp ht
  have hat := h.pc t
  generalize hpc : s.pc t = pc, hcp : s.cond.pc t = cp, hpq : q.pc t = pq at hat
  rw [hpc, hcp] at hholds
  cases hat with
  | @inside k _ _ _ _ _ =>
    rcases hacc : c.access k s.data with ⟨d, k' | out⟩
    · exact ⟨.access t, { s with data := d, pc := update s.pc t (.inside k') }, rfl, by
        simp only [step, hpc, hacc]⟩
    · exact ⟨.access t, { s with data := d, pc := update s.pc t (.outcome out) }, rfl, by
        simp only [step, hpc, hacc]⟩
  | @notify _ _ all next _ _ _ =>
    exact goes_cond (a := .notify t all) rfl hpc
      (by simp only [follow, if_true, Option.isSome_some])
      (by simp only [CondVar.step, hcp, Option.isSome_some])
  | bump =>
    exact goes_cond (a := .bump t) rfl hpc rfl
      (by simp only [CondVar.step, hcp, Option.isSome_some])
  | @wake _ _ all next w _ _ _ =>
    cases all with
    | true =>
      exact goes_cond (a := .wakeAll t) rfl hpc rfl
        (by simp only [CondVar.step, hcp, Option.isSome_some])
    | false =>
      by_cases hsleeper : ∃ u, (s.cond.pc u).isAsleep = true
      · obtain ⟨u, hu⟩ := hsleeper
        exact goes_cond (a := .wakeOne t (some u)) rfl hpc rfl
          (by simp only [CondVar.step, hcp, CondVar.wakeOne, if_pos hu, Option.isSome_some])
      · have hno : ∀ u, (s.cond.pc u).isAsleep = false :=
          fun u => Bool.eq_false_iff.mpr fun hu => hsleeper ⟨u, hu⟩
        exact goes_cond (a := .wakeOne t none) rfl hpc rfl
          (by simp only [CondVar.step, hcp, CondVar.wakeOne, if_pos hno, Option.isSome_some])
  | wait =>
    exact goes_cond (a := .read t) rfl hpc rfl
      (by simp only [CondVar.step, hcp, if_pos ht, Option.isSome_some])
  | release =>
    exact goes_cond (a := .release t) rfl hpc rfl
      (by simp only [CondVar.step, hcp, Option.isSome_some])
  | unlock =>
    exact goes_cond (a := .unlock t) rfl hpc rfl
      (by simp only [CondVar.step, hcp, if_pos ht, Option.isSome_some])
  | test | testPassed | sleep | sleepPassed | asleep | relock =>
    obtain ⟨o, ho⟩ := hholds
    cases ho
  | idle | lock | done => exact hholds.elim

/-- Unless all threads rest, one of them can make its next step. -/
theorem Refines.goes_on (h : Refines c spec P s q) (ht : ¬s.Rests t) :
    ∃ a s', a.isOwn = true ∧ step c a s = some s' := by
  cases hmutex : s.cond.mutex with
  | some u => exact h.holder_goes_on hmutex
  | none =>
    have hholds : ¬(s.pc t).Holds (s.cond.pc t) := h.lock.free hmutex
    have hat := h.pc t
    generalize hpc : s.pc t = pc, hcp : s.cond.pc t = cp, hpq : q.pc t = pq at hat hholds
    cases hat with
    | idle => exact absurd (.inl hpc) ht
    | done => exact absurd (.inr (.inl (by rw [hpc]; rfl))) ht
    | asleep => exact absurd (.inr (.inr (by rw [hcp]; rfl))) ht
    | lock =>
      exact goes_cond (a := .lock t) rfl hpc rfl
        (by simp only [CondVar.step, hcp, hmutex, Option.isSome_some])
    | test | testPassed =>
      exact goes_cond (a := .test t) rfl hpc rfl
        (by simp only [CondVar.step, hcp, Option.isSome_some])
    | sleep | sleepPassed =>
      exact goes_cond (a := .wait t) rfl hpc rfl
        (by simp only [CondVar.step, hcp, Option.isSome_some])
    | relock =>
      exact goes_cond (a := .relock t) rfl hpc rfl
        (by simp only [CondVar.step, hcp, hmutex, Option.isSome_some])
    | release => exact absurd ⟨_, rfl⟩ hholds
    | inside | notify | bump | wake | wait | unlock => exact absurd trivial hholds

/-- With all threads at rest the mutex is free. -/
theorem Refines.free_of_rest (h : Refines c spec P s q) (hrest : ∀ t, s.Rests t) :
    s.cond.mutex = none := by
  cases hmutex : s.cond.mutex with
  | none => rfl
  | some t =>
    have hholds : (s.pc t).Holds (s.cond.pc t) := (h.lock t).mp hmutex
    obtain hpc | hdone | hasleep := hrest t
    · rw [hpc] at hholds
      exact hholds.elim
    · cases hpc : s.pc t with
      | done r =>
        rw [hpc] at hholds
        exact hholds.elim
      | _ =>
        rw [hpc] at hdone
        cases hdone
    · obtain ⟨w, hpc, -⟩ := h.asleep hasleep
      rw [hpc] at hholds
      obtain ⟨o, ho⟩ := hholds
      rw [ho] at hasleep
      cases hasleep

end Progress

end Exe.Primitives.Guarded
