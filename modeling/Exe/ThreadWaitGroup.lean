/-
`thread::WaitGroup`, over the repository's own condition variable.

`Done` notifies whenever somebody is counted in `waiting_`, not only when the count reaches
zero, and `Wait` looks again each time it is woken. So nobody leaves `Wait` but at zero, and
whoever is asleep waits for a count that is not zero.

The sections are proved to do at once what `spec` says, and the rest is about the monitor with
these sections; `Guarded.covers` says that the class with its mutex and `CondVar` is that
monitor.

# Conventions

* The counts are `size_t`s and wrap.
* The threads are fewer than `2 ^ 64`, and a caller of `Add` does not make the count wrap.
-/
import Exe.FiniteSums
import Exe.Guarded

set_option autoImplicit false

namespace Exe.Thread.WaitGroup

open Function (update)
open Primitives
open Monitor (Outcome)

variable {n : ℕ}

/-! ## The code -/

structure Data where
  waiting_ : UInt64
  count_ : UInt64
  deriving DecidableEq

inductive Op
  | Add (count : UInt64)
  | Done
  | Wait
  deriving DecidableEq

/-- What a section has left to do. -/
inductive Section
  | add (count : UInt64)
  | decrement
  | notify
  | enter
  | test
  | leave

def code : Guarded.Code Data Op Section Unit Unit where
  enter
    | .inl (.Add count) => .add count
    | .inl .Done => .decrement
    | .inl .Wait => .enter
    | .inr () => .test
  access
    | .add count, d => ({ d with count_ := d.count_ + count }, .inr ⟨.nobody, .ret ()⟩)
    | .decrement, d => ({ d with count_ := d.count_ - 1 }, .inl .notify)
    | .notify, d => (d, .inr ⟨if 0 < d.waiting_ then .all else .nobody, .ret ()⟩)
    | .enter, d => ({ d with waiting_ := d.waiting_ + 1 }, .inl .test)
    | .test, d => (d, if d.count_ ≠ 0 then .inr ⟨.nobody, .wait ()⟩ else .inl .leave)
    | .leave, d => ({ d with waiting_ := d.waiting_ - 1 }, .inr ⟨.nobody, .ret ()⟩)

def machine (n : ℕ) := Guarded.machine n code ⟨0, 0⟩

/-! ## The sections, each at once -/

def wait (d : Data) : Data × Outcome Unit Unit :=
  if d.count_ ≠ 0 then (d, ⟨.nobody, .wait ()⟩)
  else ({ d with waiting_ := d.waiting_ - 1 }, ⟨.nobody, .ret ()⟩)

def spec : Op ⊕ Unit → Data → Data × Outcome Unit Unit
  | .inl (.Add count), d => ({ d with count_ := d.count_ + count }, ⟨.nobody, .ret ()⟩)
  | .inl .Done, d =>
    ({ d with count_ := d.count_ - 1 }, ⟨if 0 < d.waiting_ then .all else .nobody, .ret ()⟩)
  | .inl .Wait, d => wait { d with waiting_ := d.waiting_ + 1 }
  | .inr (), d => wait d

def atomic (n : ℕ) := Monitor.machine n spec ⟨0, 0⟩

theorem ends_test (d : Data) : code.Ends .test d (wait d) := by
  by_cases hzero : d.count_ = 0
  · have hwait : wait d = ({ d with waiting_ := d.waiting_ - 1 }, ⟨.nobody, .ret ()⟩) :=
      if_neg (not_not.mpr hzero)
    rw [hwait]
    have hgo : code.access .test d = (d, .inl .leave) := by
      simp only [code, hzero, ne_eq, not_true_eq_false, if_false]
    exact .go hgo (.stop rfl)
  · have hwait : wait d = (d, ⟨.nobody, .wait ()⟩) := if_pos hzero
    rw [hwait]
    refine .stop ?_
    simp only [code, ne_eq, hzero, not_false_eq_true, if_true]

theorem implements_spec : code.Implements spec := by
  intro e d
  match e with
  | .inl (.Add count) => exact .stop rfl
  | .inl .Done => exact .go rfl (.stop rfl)
  | .inl .Wait => exact .go rfl (ends_test _)
  | .inr () => exact ends_test d

/-! ## What was added and what is done -/

/-- Nobody makes the count wrap, neither by `Add` nor by `Done`. -/
def Fits : Op ⊕ Unit → Data → Prop
  | .inl (.Add count), d => d.count_.toNat + count.toNat < 2 ^ 64
  | .inl .Done, d => d.count_ ≠ 0
  | _, _ => True

/-- A step of the monitor. -/
abbrev Step (n : ℕ) := Transition (Monitor.State n Data Op Unit Unit) (Monitor.Action n Op)

/-- The operation whose first section the transition is. -/
def begins (x : Step n) : Option Op :=
  match x.act with
  | .run t _ =>
    match x.pre.pc t with
    | .pending op => some op
    | _ => none
  | _ => none

/-- `Wait` is over. -/
def Leaves (x : Step n) : Prop :=
  ∃ t choice, x.act = .run t choice ∧ x.post.pc t = .done () ∧
    ((x.pre.pc t).entering = some (.inl .Wait) ∨ (x.pre.pc t).entering = some (.inr ()))

def Op.amount : Op → ℕ
  | .Add count => count.toNat
  | _ => 0

def added (h : List (Step n)) : ℕ := ((h.filterMap begins).map Op.amount).sum

def finished (h : List (Step n)) : ℕ := (h.filterMap begins).count .Done

/-! ## The invariant -/

/-- `waiting_` counts who is inside `Wait`, and nobody is asleep there with the count at zero. -/
structure Inv (q : Monitor.State n Data Op Unit Unit) : Prop where
  waiting : q.data.waiting_.toNat = countWhere Monitor.Pc.isWaiting q.pc
  asleep : ∀ t, (q.pc t).isAsleep = true → q.data.count_ ≠ 0

section Inv

variable {q q' : Monitor.State n Data Op Unit Unit} {t : Fin n} {e : Op ⊕ Unit}
  {choice : Option (Fin n)} {pc : Fin n → Monitor.Pc Op Unit Unit}

/-- Thread `t` has run a section that ended with `next`, and has woken some of the others. -/
theorem Inv.turn (h : Inv q) {m : Monitor.Notify}
    (hnotified : Monitor.notified q.pc choice m = some pc) {d : Data}
    {next : Monitor.Pc Op Unit Unit}
    (hwaiting : d.waiting_.toNat + (q.pc t).isWaiting.toNat =
      q.data.waiting_.toNat + next.isWaiting.toNat)
    (hself : next.isAsleep = true → d.count_ ≠ 0)
    (hother : ∀ u, (pc u).isAsleep = true → d.count_ ≠ 0) : Inv ⟨d, update pc t next⟩ := by
  have hsame : ∀ u, (pc u).isWaiting = (q.pc u).isWaiting := by
    intro u
    obtain hu | hu := (Monitor.notified_spec hnotified u).1
    · rw [hu]
    · rw [hu, Monitor.Pc.isWaiting_wake]
  have hcount : countWhere Monitor.Pc.isWaiting pc = countWhere Monitor.Pc.isWaiting q.pc :=
    countWhere_congr hsame
  have hupdate := countWhere_update_add Monitor.Pc.isWaiting pc t next
  rw [hsame t, hcount, ← h.waiting] at hupdate
  refine ⟨?_, fun u hu => ?_⟩
  · change d.waiting_.toNat = countWhere _ (update pc t next)
    omega
  · change (update pc t next u).isAsleep = true at hu
    by_cases hut : u = t
    · subst hut
      rw [Function.update_self] at hu
      exact hself hu
    · rw [Function.update_of_ne hut] at hu
      exact hother u hu

/-- Nobody falls asleep when others are notified. -/
theorem asleep_of_notified {m : Monitor.Notify}
    (hnotified : Monitor.notified q.pc choice m = some pc) {u : Fin n}
    (hu : (pc u).isAsleep = true) : (q.pc u).isAsleep = true := by
  obtain hsame | hwoken := (Monitor.notified_spec hnotified u).1
  · rwa [hsame] at hu
  · rw [hwoken, Monitor.Pc.isAsleep_wake] at hu
    cases hu

/-- The loop of `Wait`, with the caller counted. -/
theorem Inv.wait (h : Inv q) {d : Data} (hcount : d.count_ = q.data.count_)
    (hwaiting : d.waiting_.toNat + (q.pc t).isWaiting.toNat = q.data.waiting_.toNat + 1)
    (hnotified : Monitor.notified q.pc choice (wait d).2.notify = some pc) :
    Inv ⟨(wait d).1, update pc t (wait d).2.next.pc⟩ := by
  by_cases hzero : d.count_ = 0
  · have hwait : WaitGroup.wait d = ({ d with waiting_ := d.waiting_ - 1 }, ⟨.nobody, .ret ()⟩) :=
      if_neg (not_not.mpr hzero)
    rw [hwait] at hnotified ⊢
    refine h.turn hnotified ?_ (fun hasleep => by cases hasleep) fun u hu => ?_
    · have hle : (q.pc t).isWaiting.toNat ≤ q.data.waiting_.toNat := by
        rw [h.waiting]
        cases hw : (q.pc t).isWaiting with
        | false => exact Nat.zero_le _
        | true => exact countWhere_pos.mpr ⟨t, hw⟩
      have hone : (1 : UInt64) ≤ d.waiting_ := by
        rw [UInt64.le_iff_toNat_le]
        change 1 ≤ d.waiting_.toNat
        omega
      change (d.waiting_ - 1).toNat + _ = _ + 0
      rw [UInt64.toNat_sub_of_le _ _ hone]
      change d.waiting_.toNat - 1 + _ = _
      omega
    · change d.count_ ≠ 0
      rw [hcount]
      exact h.asleep u (asleep_of_notified hnotified hu)
  · have hwait : WaitGroup.wait d = (d, ⟨.nobody, .wait ()⟩) := if_pos hzero
    rw [hwait] at hnotified ⊢
    exact h.turn hnotified hwaiting (fun _ => hzero) fun _ _ => hzero

theorem Inv.run (h : Inv q) (hn : n < 2 ^ 64) (he : (q.pc t).entering = some e)
    (hfits : Fits e q.data)
    (hnotified : Monitor.notified q.pc choice (spec e q.data).2.notify = some pc) :
    Inv ⟨(spec e q.data).1, update pc t (spec e q.data).2.next.pc⟩ := by
  have hkeep : ∀ {next : Monitor.Pc Op Unit Unit} {d : Data}, (q.pc t).isWaiting = false →
      next.isWaiting = false → d.waiting_ = q.data.waiting_ →
      d.waiting_.toNat + (q.pc t).isWaiting.toNat =
        q.data.waiting_.toNat + next.isWaiting.toNat := by
    intro next d hpc hnext hwaiting
    rw [hpc, hnext, hwaiting]
  match e with
  | .inl op =>
    have hpc : q.pc t = .pending op := by
      cases hpc : q.pc t with
      | pending op' =>
        rw [hpc] at he
        cases he
        rfl
      | _ =>
        rw [hpc] at he
        cases he
    have hout : (q.pc t).isWaiting = false := by
      rw [hpc]
      rfl
    cases op with
    | Add count =>
      refine h.turn hnotified (hkeep hout rfl rfl) (fun hasleep => by cases hasleep)
        fun u hu => ?_
      have hne := h.asleep u (asleep_of_notified hnotified hu)
      have hlt : q.data.count_.toNat + count.toNat < 2 ^ 64 := hfits
      change q.data.count_ + count ≠ 0
      rw [← UInt64.pos_iff_ne_zero, UInt64.lt_iff_toNat_lt] at hne ⊢
      rw [UInt64.toNat_add, Nat.mod_eq_of_lt hlt]
      omega
    | Done =>
      refine h.turn hnotified (hkeep hout rfl rfl) (fun hasleep => by cases hasleep)
        fun u hu => ?_
      -- whoever was asleep was counted, so everybody was notified
      have hasleep := asleep_of_notified hnotified hu
      have hcounted : 0 < q.data.waiting_ := by
        rw [UInt64.lt_iff_toNat_lt]
        change 0 < q.data.waiting_.toNat
        rw [h.waiting]
        refine countWhere_pos.mpr ⟨u, ?_⟩
        cases hpcu : q.pc u with
        | asleep w => rfl
        | _ =>
          rw [hpcu] at hasleep
          cases hasleep
      have hall : (spec (.inl .Done) q.data).2.notify = .all := if_pos hcounted
      rw [(Monitor.notified_spec hnotified u).2.1 hall, Monitor.Pc.isAsleep_wake] at hu
      cases hu
    | Wait =>
      refine h.wait rfl ?_ hnotified
      have hlt : q.data.waiting_.toNat + 1 < 2 ^ 64 := by
        have hle := countWhere_update_add Monitor.Pc.isWaiting q.pc t (.asleep ())
        have hcard := countWhere_le Monitor.Pc.isWaiting (update q.pc t (.asleep ()))
        rw [hout, ← h.waiting] at hle
        rw [Fintype.card_fin] at hcard
        change _ + 0 = _ + 1 at hle
        omega
      rw [hout]
      change (q.data.waiting_ + 1).toNat + 0 = _
      rw [UInt64.toNat_add]
      exact Nat.mod_eq_of_lt hlt
  | .inr () =>
    have hwaits : (q.pc t).isWaiting = true := by
      cases hpc : q.pc t with
      | woken w => rfl
      | _ =>
        rw [hpc] at he
        cases he
    refine h.wait rfl ?_ hnotified
    rw [hwaits]
    rfl

theorem Inv.step (h : Inv q) (hn : n < 2 ^ 64) {a : Monitor.Action n Op}
    (hreq : Monitor.Requires Fits a q) (hst : (atomic n).step a q = some q') : Inv q' := by
  cases Monitor.moves_of_step hst with
  | @call t op hpc =>
    refine h.turn (Monitor.notified_nobody q.pc) ?_ (fun hasleep => by cases hasleep) h.asleep
    rw [hpc]
    rfl
  | run he hnotified => exact h.run hn he (hreq _ he) hnotified
  | @spurious t w hpc =>
    refine h.turn (Monitor.notified_nobody q.pc) ?_ (fun hasleep => by cases hasleep) h.asleep
    rw [hpc]
    rfl
  | @ret t r hpc =>
    refine h.turn (Monitor.notified_nobody q.pc) ?_ (fun hasleep => by cases hasleep) h.asleep
    rw [hpc]
    rfl

theorem inv_of_reachableVia (hn : n < 2 ^ 64)
    (hq : (atomic n).ReachableVia (Monitor.Requires Fits) q) : Inv q := by
  refine hq.invariant (fun q hinit => ?_) fun a q q' h hreq hst => Inv.step h hn hreq hst
  obtain rfl := hinit
  refine ⟨?_, fun t ht => by cases ht⟩
  change 0 = ∑ t : Fin n, 0
  exact Finset.sum_const_zero.symm

end Inv

/-! ## The count, over a run -/

section Balance

variable {q : Monitor.State n Data Op Unit Unit} {h : List (Step n)} {x : Step n}

theorem added_cons_of_none (hx : begins x = none) : added (x :: h) = added h := by
  rw [added, List.filterMap_cons_none hx, added]

theorem added_cons_of_some {op : Op} (hx : begins x = some op) :
    added (x :: h) = op.amount + added h := by
  rw [added, List.filterMap_cons_some hx, List.map_cons, List.sum_cons, added]

theorem finished_cons_of_none (hx : begins x = none) : finished (x :: h) = finished h := by
  rw [finished, List.filterMap_cons_none hx, finished]

theorem finished_cons_of_some {op : Op} (hx : begins x = some op) :
    finished (x :: h) = finished h + if op = .Done then 1 else 0 := by
  rw [finished, List.filterMap_cons_some hx, List.count_cons, finished]
  simp only [beq_iff_eq]

/-- The count is what was added less what is done. -/
theorem balance (hr : (atomic n).Run h q) (hreq : ∀ x ∈ h, Monitor.Requires Fits x.act x.pre) :
    q.data.count_.toNat + finished h = added h := by
  induction hr with
  | init hinit =>
    obtain rfl := hinit
    rfl
  | @step h q q' a _ hst ih =>
    have hbefore := ih fun x hx => hreq x (List.mem_cons_of_mem _ hx)
    have hfits := hreq _ List.mem_cons_self
    cases Monitor.moves_of_step hst with
    | call hpc =>
      rw [added_cons_of_none rfl, finished_cons_of_none rfl]
      exact hbefore
    | spurious hpc =>
      rw [added_cons_of_none rfl, finished_cons_of_none rfl]
      exact hbefore
    | ret hpc =>
      rw [added_cons_of_none rfl, finished_cons_of_none rfl]
      exact hbefore
    | @run t choice e pc he hnotified =>
      have hcount_wait : ∀ d : Data, (wait d).1.count_ = d.count_ := by
        intro d
        unfold wait
        split <;> rfl
      have hfit := hfits e he
      cases hpc : q.pc t with
      | pending op =>
        rw [hpc] at he
        obtain rfl := Option.some.inj he
        have hbegins : begins (⟨q, .run t choice, ⟨(spec (.inl op) q.data).1,
            update pc t (spec (.inl op) q.data).2.next.pc⟩⟩ : Step n) = some op := by
          simp only [begins, hpc]
        rw [added_cons_of_some hbegins, finished_cons_of_some hbegins]
        cases op with
        | Add count =>
          have hlt : q.data.count_.toNat + count.toNat < 2 ^ 64 := hfit
          change (q.data.count_ + count).toNat + (_ + 0) = count.toNat + _
          rw [UInt64.toNat_add, Nat.mod_eq_of_lt hlt]
          omega
        | Done =>
          have hpos : 0 < q.data.count_.toNat :=
            UInt64.lt_iff_toNat_lt.mp (UInt64.pos_iff_ne_zero.mpr hfit)
          have hone : (1 : UInt64) ≤ q.data.count_ := by
            rw [UInt64.le_iff_toNat_le]
            exact hpos
          change (q.data.count_ - 1).toNat + (_ + 1) = 0 + _
          rw [UInt64.toNat_sub_of_le _ _ hone]
          change q.data.count_.toNat - 1 + _ = _
          omega
        | Wait =>
          change (wait _).1.count_.toNat + (_ + 0) = 0 + _
          rw [hcount_wait, Nat.zero_add]
          exact hbefore
      | woken w =>
        rw [hpc] at he
        obtain rfl := Option.some.inj he
        have hbegins : begins (⟨q, .run t choice, ⟨(spec (.inr w) q.data).1,
            update pc t (spec (.inr w) q.data).2.next.pc⟩⟩ : Step n) = none := by
          simp only [begins, hpc]
        rw [added_cons_of_none hbegins, finished_cons_of_none hbegins]
        change (wait _).1.count_.toNat + _ = _
        rw [hcount_wait]
        exact hbefore
      | _ =>
        rw [hpc] at he
        cases he

/-- Whoever leaves `Wait` does so with the count at zero. -/
theorem count_of_leaves (hst : (atomic n).step x.act x.pre = some x.post) (hx : Leaves x) :
    x.pre.data.count_ = 0 := by
  obtain ⟨t, choice, hact, hdone, hentry⟩ := hx
  obtain ⟨pre, act, post⟩ := x
  obtain rfl : act = .run t choice := hact
  change (atomic n).step (.run t choice) pre = some post at hst
  have hwait : ∀ d : Data, (wait d).2.next = .ret () → d.count_ = 0 := by
    intro d hret
    by_contra hzero
    have hstay : wait d = (d, ⟨.nobody, .wait ()⟩) := if_pos hzero
    rw [hstay] at hret
    cases hret
  cases Monitor.moves_of_step hst with
  | @run _ _ e pc he hnotified =>
    change update pc t (spec e pre.data).2.next.pc t = .done () at hdone
    change (pre.pc t).entering = _ ∨ (pre.pc t).entering = _ at hentry
    rw [Function.update_self] at hdone
    have hret : (spec e pre.data).2.next = .ret () := by
      generalize (spec e pre.data).2.next = next at hdone ⊢
      cases next with
      | wait w => cases hdone
      | ret r => rfl
    obtain hwaits | hwaits := hentry
    · obtain rfl := Option.some.inj (he.symm.trans hwaits)
      exact hwait { pre.data with waiting_ := pre.data.waiting_ + 1 } hret
    · obtain rfl := Option.some.inj (he.symm.trans hwaits)
      exact hwait pre.data hret

end Balance

/-! ## The class with its mutex and its condition variable -/

instance : ∀ (e : Op ⊕ Unit) (d : Data), Decidable (Fits e d)
  | .inl (.Add _), _ => inferInstanceAs (Decidable (_ < _))
  | .inl .Done, _ => inferInstanceAs (Decidable (_ ≠ _))
  | .inl .Wait, _ => .isTrue trivial
  | .inr _, _ => .isTrue trivial

/-- **`Wait` returns at zero, and nobody sleeps there at zero.** The calls and returns are those of
sections done at once, in which each `Wait` is left at a moment when all that was added is done;
with the mutex free `waiting_` counts who is in `Wait`, and whoever sleeps in the futex waits for
a count that is not zero; and unless all threads rest, with the mutex free, one can go on. -/
theorem wait_returns_at_zero (hn : n < 2 ^ 64)
    {h : List (Transition (Guarded.State n Data Op Section Unit Unit) (Guarded.Action n Op))}
    {s : Guarded.State n Data Op Section Unit Unit} (hr : (machine n).Run h s)
    (hC : ∀ x ∈ h, Guarded.Meets Fits x.act x.pre) :
    (∃ h' q, (atomic n).Run h' q ∧
      Machine.trace Monitor.vis h' = Machine.trace Guarded.vis h ∧
      (∀ l x k, h' = l ++ x :: k → Leaves x → added k = finished k) ∧
      (s.cond.mutex = none → s.data.count_.toNat + finished h' = added h')) ∧
    (s.cond.mutex = none →
      s.data.waiting_.toNat = countWhere Guarded.Pc.isWaiting s.pc ∧
      ∀ t, (s.cond.pc t).isAsleep = true → s.data.count_ ≠ 0) ∧
    ((∀ t, s.Rests t) ∧ s.cond.mutex = none ∨
      ∃ a s', a.isOwn = true ∧ (machine n).step a s = some s') := by
  obtain ⟨h', q, hr', hreq, htrace, hq⟩ :=
    (Guarded.covers implements_spec ⟨0, 0⟩).trace hr hC
  have hinv := inv_of_reachableVia hn (hr'.reachableVia hreq)
  refine ⟨⟨h', q, hr', htrace, ?_, fun hfree => ?_⟩, fun hfree => ⟨?_, fun t ht => ?_⟩, ?_⟩
  · rintro l x k rfl hx
    obtain ⟨hk, hst⟩ := hr'.split
    have hzero := count_of_leaves hst hx
    have hbalance := balance hk fun y hy =>
      hreq y (List.mem_append_right _ (List.mem_cons_of_mem _ hy))
    rw [hzero] at hbalance
    exact hbalance.symm.trans (Nat.zero_add _)
  · rw [← hq.data_eq hfree]
    exact balance hr' hreq
  · rw [← hq.data_eq hfree, hinv.waiting]
    exact Finset.sum_congr rfl fun t _ => by rw [hq.isWaiting hfree t]
  · rw [← hq.data_eq hfree]
    obtain ⟨w, -, hasleep⟩ := hq.asleep ht
    refine hinv.asleep t ?_
    rw [hasleep]
    rfl
  · by_cases hrest : ∀ t, s.Rests t
    · exact .inl ⟨hrest, hq.free_of_rest hrest⟩
    · obtain ⟨t, ht⟩ := not_forall.mp hrest
      exact .inr (hq.goes_on ht)

/-- Thread 1 waits, thread 0 is done, and thread 1 comes back. -/
theorem wait_returns_at_zero_done : ∃ h s, (machine 2).Run h s ∧ (s.pc 1).isDone = true ∧
    ∃ h' q, (atomic 2).Run h' q ∧
      Machine.trace Monitor.vis h' = Machine.trace Guarded.vis h ∧
      s.data.count_.toNat + finished h' = added h' := by
  obtain ⟨h, s, hr, hC, hp⟩ := Machine.Run.execVia_any (M := machine 2) (C := Guarded.Meets Fits)
    (.init rfl) (fun t ht => absurd ht List.not_mem_nil)
    [.call 0 (.Add 1), .cond (.lock 0), .access 0, .cond (.unlock 0), .ret 0,
      .call 1 .Wait, .cond (.lock 1), .access 1, .access 1, .cond (.read 1), .cond (.release 1),
      .cond (.test 1), .cond (.wait 1),
      .call 0 .Done, .cond (.lock 0), .access 0, .access 0, .cond (.notify 0 true),
      .cond (.bump 0), .cond (.wakeAll 0), .cond (.unlock 0),
      .cond (.test 1), .cond (.relock 1), .access 1, .access 1, .cond (.unlock 1)]
    (fun s => decide (s.cond.mutex = none) && (s.pc 1).isDone)
    (by decide +kernel)
  obtain ⟨hfree, hdone⟩ := (Bool.and_eq_true _ _).mp hp
  obtain ⟨⟨h', q, hr', htrace, -, hbalance⟩, -, -⟩ := wait_returns_at_zero (by omega) hr hC
  exact ⟨h, s, hr, hdone, h', q, hr', htrace, hbalance (of_decide_eq_true hfree)⟩

end Exe.Thread.WaitGroup
