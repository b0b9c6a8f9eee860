/-
`thread::SpinLock`, and why a section under it may be taken as one step.

The machine below runs the accesses of any number of threads in any order, those of the lock
and those of the sections. Its specification is the same object with the operations done at
once: a call begins, takes effect at some moment, and returns.

What the sections do, each run by itself to its end, `covers` carries to every interleaving:
calls, answers and their order in time are those of the atomic object. So whoever proves
something of the atomic object, as the modules about the runtime and the primitives do, has
proved it of the spin-locked one.
-/
import Exe.Exclusion
import Exe.Refinement
import Exe.Sections

set_option autoImplicit false

namespace Exe.Thread

open Function (update)

variable {δ ι κ ρ : Type*} {n : ℕ}

/-! ## The lock, access by access -/

/-- What is seen from outside. A `TryLock` that fails answers `none`. -/
inductive Event (n : ℕ) (ι ρ : Type*)
  | call (t : Fin n) (op : ι)
  | ret (t : Fin n) (op : ι) (r : Option ρ)
  deriving DecidableEq

namespace SpinLock

inductive Pc (ι κ ρ : Type*)
  | idle
  | tryLock (op : ι)
  | exchange (op : ι)
  | load (op : ι)
  | inside (op : ι) (k : κ)
  | unlock (op : ι) (r : ρ)
  | done (op : ι) (r : Option ρ)

structure State (n : ℕ) (δ ι κ ρ : Type*) where
  locked_ : ℕ
  data : δ
  pc : Fin n → Pc ι κ ρ

/-- A section begins with `TryLock` (`try_lock`) or with `Lock`. -/
inductive Action (n : ℕ) (ι : Type*)
  | call (t : Fin n) (op : ι) (try_lock : Bool)
  | step (t : Fin n)
  | ret (t : Fin n)

def State.setPc (s : State n δ ι κ ρ) (t : Fin n) (pc : Pc ι κ ρ) : State n δ ι κ ρ :=
  { s with pc := update s.pc t pc }

/-- One access of thread `t`. `spin_wait()` between two loads touches no memory. -/
def access (c : Sections δ ι κ ρ) (t : Fin n) (s : State n δ ι κ ρ) :
    Option (State n δ ι κ ρ) :=
  match s.pc t with
  | .tryLock op =>
    some ({ s with locked_ := 1 }.setPc t
      (if s.locked_ = 0 then .inside op (c.enter op) else .done op none))
  | .exchange op =>
    some ({ s with locked_ := 1 }.setPc t
      (if s.locked_ = 1 then .load op else .inside op (c.enter op)))
  | .load op => some (s.setPc t (if s.locked_ = 1 then .load op else .exchange op))
  | .inside op k =>
    match c.access k s.data with
    | (d, .inl k') => some ({ s with data := d }.setPc t (.inside op k'))
    | (d, .inr r) => some ({ s with data := d }.setPc t (.unlock op r))
  | .unlock op r => some ({ s with locked_ := 0 }.setPc t (.done op (some r)))
  | _ => none

def step (c : Sections δ ι κ ρ) (a : Action n ι) (s : State n δ ι κ ρ) :
    Option (State n δ ι κ ρ) :=
  match a with
  | .call t op try_lock =>
    match s.pc t with
    | .idle => some (s.setPc t (if try_lock then .tryLock op else .exchange op))
    | _ => none
  | .step t => access c t s
  | .ret t =>
    match s.pc t with
    | .done _ _ => some (s.setPc t .idle)
    | _ => none

def machine (n : ℕ) (c : Sections δ ι κ ρ) (d : δ) : Machine (State n δ ι κ ρ) (Action n ι) where
  init s := s = ⟨0, d, fun _ => .idle⟩
  step := step c

def vis (t : Transition (State n δ ι κ ρ) (Action n ι)) : Option (Event n ι ρ) :=
  match t.act with
  | .call i op _ => some (.call i op)
  | .step _ => none
  | .ret i =>
    match t.pre.pc i with
    | .done op r => some (.ret i op r)
    | _ => none

end SpinLock

/-! ## The atomic object -/

namespace Atomic

inductive Pc (ι ρ : Type*)
  | idle
  | pending (op : ι) (try_lock : Bool)
  | done (op : ι) (r : Option ρ)

structure State (n : ℕ) (δ ι ρ : Type*) where
  data : δ
  pc : Fin n → Pc ι ρ

inductive Action (n : ℕ) (ι : Type*)
  | call (t : Fin n) (op : ι) (try_lock : Bool)
  | perform (t : Fin n)
  | refuse (t : Fin n)
  | ret (t : Fin n)

def Pc.isPending : Pc ι ρ → Bool
  | .pending _ _ => true
  | _ => false

def State.setPc (s : State n δ ι ρ) (t : Fin n) (pc : Pc ι ρ) : State n δ ι ρ :=
  { s with pc := update s.pc t pc }

/-- A pending operation takes effect at once. One that only tries may be refused, while another
one is pending. -/
def step (spec : ι → δ → δ × ρ) (a : Action n ι) (s : State n δ ι ρ) : Option (State n δ ι ρ) :=
  match a with
  | .call t op try_lock =>
    match s.pc t with
    | .idle => some (s.setPc t (.pending op try_lock))
    | _ => none
  | .perform t =>
    match s.pc t with
    | .pending op _ =>
      let (d, r) := spec op s.data
      some ({ s with data := d }.setPc t (.done op (some r)))
    | _ => none
  | .refuse t =>
    match s.pc t with
    | .pending op true =>
      if ∃ u, u ≠ t ∧ (s.pc u).isPending = true then some (s.setPc t (.done op none)) else none
    | _ => none
  | .ret t =>
    match s.pc t with
    | .done _ _ => some (s.setPc t .idle)
    | _ => none

def machine (n : ℕ) (spec : ι → δ → δ × ρ) (d : δ) : Machine (State n δ ι ρ) (Action n ι) where
  init s := s = ⟨d, fun _ => .idle⟩
  step := step spec

def vis (t : Transition (State n δ ι ρ) (Action n ι)) : Option (Event n ι ρ) :=
  match t.act with
  | .call i op _ => some (.call i op)
  | .perform _ => none
  | .refuse _ => none
  | .ret i =>
    match t.pre.pc i with
    | .done op r => some (.ret i op r)
    | _ => none

end Atomic

/-! ## Every interleaving is that of an atomic object -/

namespace SpinLock

/-- Between the exchange that takes the lock and the store that gives it back. -/
def Pc.Inside : Pc ι κ ρ → Prop
  | .inside _ _ => True
  | .unlock _ _ => True
  | _ => False

/-- How far a call is, and how far it is for the atomic object, whose data `d` is still what it
was when the section under way began. -/
def Pc.Matches (c : Sections δ ι κ ρ) (spec : ι → δ → δ × ρ) (data d : δ) :
    Pc ι κ ρ → Atomic.Pc ι ρ → Prop
  | .idle, pq => pq = .idle
  | .tryLock op, pq => pq = .pending op true
  | .exchange op, pq => pq = .pending op false
  | .load op, pq => pq = .pending op false
  | .inside op k, pq => (∃ b, pq = .pending op b) ∧ c.Ends k data (spec op d)
  | .unlock op r, pq => (∃ b, pq = .pending op b) ∧ spec op d = (data, r)
  | .done op r, pq => pq = .done op r

variable {c : Sections δ ι κ ρ} {spec : ι → δ → δ × ρ}

/-- Outside of a section nothing depends on the data. -/
theorem Pc.Matches.outside {data data' d d' : δ} {pc : Pc ι κ ρ} {pq : Atomic.Pc ι ρ}
    (h : pc.Matches c spec data d pq) (hout : ¬pc.Inside) : pc.Matches c spec data' d' pq := by
  cases pc with
  | inside op k => exact absurd trivial hout
  | unlock op r => exact absurd trivial hout
  | _ => exact h

theorem Pc.Matches.isPending {data d : δ} {pc : Pc ι κ ρ} {pq : Atomic.Pc ι ρ}
    (h : pc.Matches c spec data d pq) (hin : pc.Inside) : pq.isPending = true := by
  cases pc with
  | inside op k =>
    obtain ⟨⟨b, rfl⟩, -⟩ := h
    rfl
  | unlock op r =>
    obtain ⟨⟨b, rfl⟩, -⟩ := h
    rfl
  | _ => cases hin

/-- The word tells whether somebody is inside, and while nobody is the data are the same. -/
structure Refines (c : Sections δ ι κ ρ) (spec : ι → δ → δ × ρ) (s : State n δ ι κ ρ)
    (q : Atomic.State n δ ι ρ) : Prop where
  lock : Exclusion (decide (s.locked_ = 1)) fun t => (s.pc t).Inside
  word : s.locked_ = 0 ∨ s.locked_ = 1
  free : s.locked_ = 0 → q.data = s.data
  pc : ∀ t, (s.pc t).Matches c spec s.data q.data (q.pc t)

variable {s : State n δ ι κ ρ} {q : Atomic.State n δ ι ρ} {t : Fin n}

/-- Thread `t` goes on, in both. Only a thread that is inside touches the data. -/
theorem Refines.turn (h : Refines c spec s q) {l : ℕ} {data d : δ} {pc : Pc ι κ ρ}
    {pq : Atomic.Pc ι ρ} (hword : l = 0 ∨ l = 1)
    (hturn : Exclusion.Turns (decide (s.locked_ = 1)) (decide (l = 1)) (s.pc t).Inside pc.Inside)
    (hdata : (data = s.data ∧ d = q.data) ∨ (s.pc t).Inside) (hfree : l = 0 → d = data)
    (hpc : pc.Matches c spec data d pq) :
    Refines c spec ({ locked_ := l, data := data, pc := s.pc : State n δ ι κ ρ }.setPc t pc)
      ({ data := d, pc := q.pc : Atomic.State n δ ι ρ }.setPc t pq) := by
  have hof : ∀ u, u ≠ t → update s.pc t pc u = s.pc u := fun u hu => Function.update_of_ne hu _ _
  refine ⟨h.lock.turn (t := t) ?_ fun u hu => ?_, hword, hfree, fun u => ?_⟩
  · change Exclusion.Turns _ _ _ (update s.pc t pc t).Inside
    rw [Function.update_self]
    exact hturn
  · change (update s.pc t pc u).Inside ↔ _
    rw [hof u hu]
  · change (update s.pc t pc u).Matches c spec data d (update q.pc t pq u)
    by_cases hu : u = t
    · subst hu
      rw [Function.update_self, Function.update_self]
      exact hpc
    · rw [hof u hu, Function.update_of_ne hu]
      obtain ⟨rfl, rfl⟩ | hin := hdata
      · exact h.pc u
      · exact (h.pc u).outside fun hu' => hu (h.lock.one u t hu' hin)

/-- Thread `t` goes on, and the atomic object does nothing. -/
theorem Refines.silent (h : Refines c spec s q) {l : ℕ} {data : δ} {pc : Pc ι κ ρ}
    (hword : l = 0 ∨ l = 1)
    (hturn : Exclusion.Turns (decide (s.locked_ = 1)) (decide (l = 1)) (s.pc t).Inside pc.Inside)
    (hdata : data = s.data ∨ (s.pc t).Inside) (hfree : l = 0 → q.data = data)
    (hpc : pc.Matches c spec data q.data (q.pc t)) :
    Refines c spec ({ locked_ := l, data := data, pc := s.pc : State n δ ι κ ρ }.setPc t pc) q := by
  have hq : ({ data := q.data, pc := q.pc : Atomic.State n δ ι ρ }.setPc t (q.pc t)) = q := by
    rw [Atomic.State.setPc, Function.update_eq_self]
  have hnew := h.turn (d := q.data) (t := t) hword hturn (hdata.imp_left fun he => ⟨he, rfl⟩)
    hfree hpc
  rwa [hq] at hnew

theorem Refines.setPc (h : Refines c spec s q) {pc : Pc ι κ ρ} {pq : Atomic.Pc ι ρ}
    (hfrom : ¬(s.pc t).Inside) (hto : ¬pc.Inside)
    (hpc : pc.Matches c spec s.data q.data pq) :
    Refines c spec (s.setPc t pc) (q.setPc t pq) :=
  h.turn h.word (.stay rfl (iff_of_false hto hfrom)) (.inl ⟨rfl, rfl⟩) h.free hpc

/-- The exchange of a thread that is let in. -/
theorem Refines.acquire (h : Refines c spec s q) (himpl : c.Implements spec) {op : ι} {b : Bool}
    (hfree : s.locked_ = 0) (hq : q.pc t = .pending op b) :
    Refines c spec ({ s with locked_ := 1 }.setPc t (.inside op (c.enter op))) q := by
  refine h.silent (.inr rfl) (.enter ?_ rfl trivial) (.inl rfl) (fun h => by cases h) ?_
  · rw [hfree]
    rfl
  · refine ⟨⟨b, hq⟩, ?_⟩
    rw [h.free hfree]
    exact himpl op s.data

/-- An exchange that finds the word at 1 leaves it there. -/
theorem exchange_held (s : State n δ ι κ ρ) (hheld : s.locked_ = 1) :
    { s with locked_ := 1 } = s := by
  cases s
  cases hheld
  rfl

theorem Refines.access (h : Refines c spec s q) (himpl : c.Implements spec)
    {s' : State n δ ι κ ρ} (hst : SpinLock.access c t s = some s') :
    Refines c spec s' q ∨ ∃ b q', Atomic.step spec b q = some q' ∧
      Atomic.vis ⟨q, b, q'⟩ = none ∧ Refines c spec s' q' := by
  have hpc := h.pc t
  unfold SpinLock.access at hst
  cases hat : s.pc t with
  | idle => simp [hat] at hst
  | done op r => simp [hat] at hst
  | tryLock op =>
    rw [hat] at hpc hst
    obtain rfl := Option.some.inj hst
    have hout : ¬(s.pc t).Inside := by
      rw [hat]
      exact id
    obtain hfree | hheld := h.word
    · rw [if_pos hfree]
      exact .inl (h.acquire himpl hfree hpc)
    · -- somebody else is inside, and so pending
      rw [if_neg (by omega), exchange_held s hheld]
      obtain ⟨u, hu⟩ := h.lock.someone (decide_eq_true hheld)
      have hother : ∃ u, u ≠ t ∧ (q.pc u).isPending = true := by
        refine ⟨u, fun he => hout (he ▸ hu), (h.pc u).isPending hu⟩
      refine .inr ⟨.refuse t, q.setPc t (.done op none), ?_, rfl, h.setPc hout id rfl⟩
      simp only [Atomic.step, show q.pc t = .pending op true from hpc, if_pos hother]
  | exchange op =>
    rw [hat] at hpc hst
    obtain rfl := Option.some.inj hst
    obtain hfree | hheld := h.word
    · rw [if_neg (by omega)]
      exact .inl (h.acquire himpl hfree hpc)
    · rw [if_pos hheld, exchange_held s hheld]
      exact .inl (h.silent h.word (.stay rfl (by rw [hat]; exact Iff.rfl)) (.inl rfl) h.free hpc)
  | load op =>
    rw [hat] at hpc hst
    obtain rfl := Option.some.inj hst
    refine .inl (h.silent h.word (.stay rfl ?_) (.inl rfl) h.free ?_)
    · rw [hat]
      split <;> exact Iff.rfl
    · split <;> exact hpc
  | inside op k =>
    rw [hat] at hpc hst
    obtain ⟨hq, hends⟩ := hpc
    have hin : (s.pc t).Inside := by
      rw [hat]
      trivial
    have hheld := h.lock.held_of (t := t) hin
    have hnot : s.locked_ = 0 → q.data = (c.access k s.data).1 := fun h0 => by
      rw [h0] at hheld
      cases hheld
    dsimp only at hst
    split at hst <;> obtain rfl := Option.some.inj hst
    · rename_i d k' hacc
      exact .inl (h.silent h.word (.stay rfl (iff_of_true trivial hin)) (.inr hin)
        (by rwa [hacc] at hnot) ⟨hq, hends.of_go hacc⟩)
    · rename_i d r hacc
      exact .inl (h.silent h.word (.stay rfl (iff_of_true trivial hin)) (.inr hin)
        (by rwa [hacc] at hnot) ⟨hq, hends.of_stop hacc⟩)
  | unlock op r =>
    rw [hat] at hpc hst
    obtain ⟨⟨b, hq⟩, hspec⟩ := hpc
    obtain rfl := Option.some.inj hst
    have hin : (s.pc t).Inside := by
      rw [hat]
      trivial
    refine .inr ⟨.perform t, _, ?_, rfl, h.turn (d := s.data) (.inl rfl) (.leave hin rfl id)
      (.inr hin) (fun _ => rfl) (show (Pc.done op (some r)).Matches c spec s.data s.data
        (.done op (some r)) from rfl)⟩
    simp only [Atomic.step, hq, hspec]

/-- **Sections under a spin lock are atomic.** -/
theorem covers (himpl : c.Implements spec) (d : δ) :
    Machine.Covers (machine n c d) (Atomic.machine n spec d) (fun _ _ => True) (fun _ _ => True)
      vis Atomic.vis (Refines c spec) := by
  constructor
  · rintro s rfl
    exact ⟨_, rfl, ⟨fun _ _ => id, fun t u ht => ht.elim, fun h => by cases h⟩, .inl rfl,
      fun _ => rfl, fun t => rfl⟩
  · intro a s s' q h _ hst
    cases a with
    | step t =>
      obtain h' | ⟨b, q', hst', hvis, h'⟩ := h.access himpl hst
      · exact ⟨[], q, .nil, fun _ _ => trivial, rfl, h'⟩
      · refine ⟨_, q', .one (M := Atomic.machine n spec d) hst', fun _ _ => trivial, ?_, h'⟩
        rw [Machine.trace_cons, hvis]
        rfl
    | call t op try_lock =>
      have hpc := h.pc t
      simp only [machine, step] at hst
      split at hst
      · rename_i hat
        rw [hat] at hpc
        obtain rfl := Option.some.inj hst
        have hst' : Atomic.step spec (.call t op try_lock) q =
            some (q.setPc t (.pending op try_lock)) := by
          simp only [Atomic.step, show q.pc t = .idle from hpc]
        refine ⟨_, _, .one (M := Atomic.machine n spec d) (a := .call t op try_lock) hst',
          fun _ _ => trivial, rfl, h.setPc (by rw [hat]; exact id) (by split <;> exact id) ?_⟩
        cases try_lock <;> rfl
      · cases hst
    | ret t =>
      have hpc := h.pc t
      simp only [machine, step] at hst
      split at hst
      · rename_i op r hat
        rw [hat] at hpc
        have hq : q.pc t = .done op r := hpc
        obtain rfl := Option.some.inj hst
        have hst' : Atomic.step spec (.ret t) q = some (q.setPc t .idle) := by
          simp only [Atomic.step, hq]
        refine ⟨_, _, .one (M := Atomic.machine n spec d) (a := .ret t) hst', fun _ _ => trivial,
          ?_, h.setPc (by rw [hat]; exact id) id rfl⟩
        rw [Machine.trace_cons]
        simp only [Atomic.vis, vis, hat, hq]
        rfl
      · cases hst

/-! ## Every call can be brought to its end -/

section Progress

variable {c : Sections δ ι κ ρ} {spec : ι → δ → δ × ρ} {e : δ} {s : State n δ ι κ ρ} {t : Fin n}
  {op : ι}

/-- Only accesses are scheduled: nobody calls and nobody returns. -/
def Accesses (as : List (Action n ι)) : Prop := ∀ a ∈ as, ∃ t, a = .step t

theorem refines_of_reachable (himpl : c.Implements spec)
    (hs : (machine n c e).Reachable s) : ∃ q, Refines c spec s q := by
  obtain ⟨q, -, hq⟩ := (covers himpl e).reachable hs
  exact ⟨q, hq⟩

/-- Whoever is inside gets out by his own accesses. -/
theorem exec_inside {k : κ} {d : δ} {x : δ × ρ} (hends : c.Ends k d x) (hd : s.data = d)
    (hpc : s.pc t = .inside op k) : ∃ as, Accesses as ∧ (machine n c e).exec as s =
      some ({ s with locked_ := 0, data := x.1 }.setPc t (.done op (some x.2))) := by
  induction hends generalizing s with
  | @stop k d d' r h =>
    subst hd
    refine ⟨[.step t, .step t], ?_, ?_⟩
    · intro a ha
      exact ⟨t, by simpa using ha⟩
    · simp only [Machine.exec_cons, Machine.exec_nil, machine, step, SpinLock.access, hpc, h,
        Option.bind_some, State.setPc, Function.update_self, Function.update_idem]
  | @go k k' d d' x h _ ih =>
    subst hd
    obtain ⟨as, has, hexec⟩ := ih (s := { s with data := d' }.setPc t (.inside op k')) rfl
      (Function.update_self _ _ _)
    refine ⟨.step t :: as, ?_, ?_⟩
    · intro a ha
      obtain rfl | ha := List.mem_cons.mp ha
      · exact ⟨t, rfl⟩
      · exact has a ha
    · have hstep : (machine n c e).step (.step t) s =
          some ({ s with data := d' }.setPc t (.inside op k')) := by
        simp only [machine, step, SpinLock.access, hpc, h]
      rw [Machine.exec_cons, hstep, Option.bind_some, hexec]
      simp only [State.setPc, Function.update_idem]

/-- So the lock can always be freed, and nobody outside of it notices. -/
theorem exec_free (himpl : c.Implements spec) (hs : (machine n c e).Reachable s)
    (hout : ¬(s.pc t).Inside) : ∃ as s', Accesses as ∧ (machine n c e).exec as s = some s' ∧
      s'.locked_ = 0 ∧ s'.pc t = s.pc t := by
  obtain ⟨q, hq⟩ := refines_of_reachable himpl hs
  obtain hfree | hheld := hq.word
  · exact ⟨[], s, fun a ha => absurd ha List.not_mem_nil, rfl, hfree, rfl⟩
  obtain ⟨u, hu⟩ := hq.lock.someone (decide_eq_true hheld)
  have hut : t ≠ u := by
    rintro rfl
    exact hout hu
  have hpc := hq.pc u
  cases hat : s.pc u with
  | inside op k =>
    rw [hat] at hpc
    obtain ⟨as, has, hexec⟩ := exec_inside (e := e) hpc.2 rfl hat
    exact ⟨as, _, has, hexec, rfl, Function.update_of_ne hut _ _⟩
  | unlock op r =>
    refine ⟨[.step u], { s with locked_ := 0 }.setPc u (.done op (some r)), ?_, ?_, rfl,
      Function.update_of_ne hut _ _⟩
    · intro a ha
      exact ⟨u, List.mem_singleton.mp ha⟩
    · simp only [Machine.exec_cons, Machine.exec_nil, machine, step, SpinLock.access, hat,
        Option.bind_some]
  | _ =>
    rw [hat] at hu
    cases hu

theorem Accesses.append {as bs : List (Action n ι)} (ha : Accesses as) (hb : Accesses bs) :
    Accesses (as ++ bs) := by
  intro a h
  obtain h | h := List.mem_append.mp h
  · exact ha a h
  · exact hb a h

theorem Accesses.cons {as : List (Action n ι)} (ha : Accesses as) : Accesses (.step t :: as) := by
  intro a h
  obtain rfl | h := List.mem_cons.mp h
  · exact ⟨t, rfl⟩
  · exact ha a h

/-- With the lock free, a thread that has yet to take it goes through. -/
theorem exec_acquire (himpl : c.Implements spec) (hfree : s.locked_ = 0)
    (hpc : s.pc t = .tryLock op ∨ s.pc t = .exchange op ∨ s.pc t = .load op) :
    ∃ as s' r, Accesses as ∧ (machine n c e).exec as s = some s' ∧ s'.pc t = .done op r := by
  have hin : ∀ s : State n δ ι κ ρ, s.locked_ = 0 →
      s.pc t = .tryLock op ∨ s.pc t = .exchange op →
      ∃ as s' r, Accesses as ∧ (machine n c e).exec as s = some s' ∧ s'.pc t = .done op r := by
    intro s hfree hpc
    obtain ⟨as, has, hexec⟩ := exec_inside (e := e) (t := t)
      (s := { s with locked_ := 1 }.setPc t (.inside op (c.enter op))) (himpl op s.data) rfl
      (Function.update_self _ _ _)
    have hdone := Function.update_self t (Pc.done op (some (spec op s.data).2) : Pc ι κ ρ) s.pc
    refine ⟨.step t :: as, { s with locked_ := 0, data := (spec op s.data).1 }.setPc t
      (.done op (some (spec op s.data).2)), _, has.cons, ?_, hdone⟩
    simp only [State.setPc, Function.update_idem] at hexec ⊢
    rw [Machine.exec_cons, ← hexec]
    obtain hpc | hpc := hpc <;>
      simp only [machine, step, SpinLock.access, hpc, hfree, Option.bind_some, if_true,
        zero_ne_one, if_false, State.setPc]
  obtain hpc | hpc | hpc := hpc
  · exact hin s hfree (.inl hpc)
  · exact hin s hfree (.inr hpc)
  · obtain ⟨as, s', r, has, hexec, hdone⟩ := hin (s.setPc t (.exchange op)) hfree
      (.inr (Function.update_self _ _ _))
    refine ⟨.step t :: as, s', r, has.cons, ?_, hdone⟩
    rw [Machine.exec_cons, ← hexec]
    simp only [machine, step, SpinLock.access, hpc, hfree, Option.bind_some, zero_ne_one, if_false]

/-- **No deadlock.** From every state that is reached, the calls under way can be brought to
their end, whichever of them is asked for, by accesses alone. -/
theorem returns (himpl : c.Implements spec) (hs : (machine n c e).Reachable s) (t : Fin n)
    (hpc : s.pc t ≠ .idle) :
    ∃ as s' op r, Accesses as ∧ (machine n c e).exec as s = some s' ∧ s'.pc t = .done op r := by
  obtain ⟨q, hq⟩ := refines_of_reachable himpl hs
  have hwait : ∀ op, s.pc t = .tryLock op ∨ s.pc t = .exchange op ∨ s.pc t = .load op →
      ∃ as s' op r, Accesses as ∧ (machine n c e).exec as s = some s' ∧ s'.pc t = .done op r := by
    intro op hat
    have hout : ¬(s.pc t).Inside := by
      obtain hat | hat | hat := hat <;> rw [hat] <;> exact id
    obtain ⟨as, s₁, has, hexec, hfree, hsame⟩ := exec_free himpl hs hout
    obtain ⟨bs, s', r, hbs, hexec', hdone⟩ :=
      exec_acquire (e := e) himpl hfree (by rwa [hsame])
    refine ⟨as ++ bs, s', op, r, has.append hbs, ?_, hdone⟩
    rw [Machine.exec_append, hexec, Option.bind_some, hexec']
  have hat := hq.pc t
  cases hpc' : s.pc t with
  | idle => exact absurd hpc' hpc
  | tryLock op => exact hwait op (.inl hpc')
  | exchange op => exact hwait op (.inr (.inl hpc'))
  | load op => exact hwait op (.inr (.inr hpc'))
  | inside op k =>
    rw [hpc'] at hat
    obtain ⟨as, has, hexec⟩ := exec_inside (e := e) hat.2 rfl hpc'
    exact ⟨as, _, op, _, has, hexec, Function.update_self _ _ _⟩
  | unlock op r =>
    refine ⟨[.step t], { s with locked_ := 0 }.setPc t (.done op (some r)), op, some r,
      Accesses.cons fun a ha => absurd ha List.not_mem_nil, ?_, Function.update_self _ _ _⟩
    simp only [Machine.exec_cons, Machine.exec_nil, machine, step, SpinLock.access, hpc',
      Option.bind_some]
  | done op r => exact ⟨[], s, op, r, fun a ha => absurd ha List.not_mem_nil, rfl, hpc'⟩

end Progress

end SpinLock

end Exe.Thread
