/-
The reference counts are exact.

`counter_` of a state is the number of variables and cells that refer to it and
of the references held by operations in progress (`Pc.refs`). A count that has
reached zero stays there, and the thread that took the last reference retires the
state: from then on until it is destroyed it is in exactly one place, in the hands
of that thread, in its `retired_` list, or in its `Gc`.
-/
import Exe.AtomicSharedPtrSteps
import Mathlib.Algebra.Order.BigOperators.Group.Finset

set_option autoImplicit false
set_option linter.unusedSectionVars false

namespace Exe.Gc

open Function (update)

section Books

variable {θ ν κ A : Type*} [Fintype θ] [Fintype ν] [Fintype κ] [DecidableEq θ] [DecidableEq ν]
  [DecidableEq κ] [DecidableEq A]

/-! ## The books -/

/-- The references to `ss`. -/
def State.refs (s : State θ ν κ A) (ss : A) : ℕ :=
  varRefs s.var ss + cellRefs s.cell ss + ∑ t, (s.pc t).refs ss

/-- The places `ss` is retired in, or about to be. -/
def State.garbage (s : State θ ν κ A) (ss : A) : ℕ :=
  ∑ t, (s.pc t).pending ss + ∑ t, (s.pc t).held ss + ∑ t, (s.retired_ t).count ss

/-- The counts are exact, and what has no references left is retired once. -/
structure Books (s : State θ ν κ A) : Prop where
  count : ∀ ss, s.counter_ ss = s.refs ss
  dead : ∀ ss, s.live ss = false → s.counter_ ss = 0
  made : ∀ ss, s.live ss = true → s.made ss ≠ 0
  garbage : ∀ ss, s.garbage ss = if s.live ss = true ∧ s.counter_ ss = 0 then 1 else 0
  retires : ∀ ss, s.retires ss + ∑ t, (s.pc t).pending ss =
    if s.made ss ≠ 0 ∧ s.counter_ ss = 0 then 1 else 0

/-- A sum over the threads, one of which moves. -/
theorem sum_pc_update (f : Pc θ ν κ A → ℕ) (pc : θ → Pc θ ν κ A) (t : θ) (pc' : Pc θ ν κ A) :
    ∑ u, f (update pc t pc' u) + f (pc t) = ∑ u, f (pc u) + f pc' := by
  have h := sum_add_of_eq_off (f := fun u => f (pc u)) (g := fun u => f (update pc t pc' u)) t
    fun u hu => by rw [Function.update_of_ne hu]
  rw [Function.update_self] at h
  exact h

/-- A thread's own entry is part of the sum. -/
theorem le_sum_pc (f : Pc θ ν κ A → ℕ) (pc : θ → Pc θ ν κ A) (t : θ) :
    f (pc t) ≤ ∑ u, f (pc u) :=
  Finset.single_le_sum (f := fun u => f (pc u)) (fun _ _ => Nat.zero_le _) (Finset.mem_univ t)

theorem pointsTo_some (ss p : A) : pointsTo (some ss) p = if ss = p then 1 else 0 := by
  simp [pointsTo]

/-- A variable's reference is counted. -/
theorem Books.counter_ne_zero {s : State θ ν κ A} (h : Books s) {v : ν} {ss : A}
    (hv : s.var v = some ss) : s.counter_ ss ≠ 0 := by
  have hone : pointsTo (s.var v) ss = 1 := by rw [hv, pointsTo_some, if_pos rfl]
  have hle : pointsTo (s.var v) ss ≤ varRefs s.var ss :=
    Finset.single_le_sum (f := fun w => pointsTo (s.var w) ss) (fun _ _ => Nat.zero_le _)
      (Finset.mem_univ v)
  have hcount := h.count ss
  unfold State.refs at hcount
  omega

/-- What a cell holds is counted. -/
theorem Books.counter_ne_zero_of_cell {s : State θ ν κ A} (h : Books s) {c : κ} {ss : A}
    (hc : s.cell c = some ss) : s.counter_ ss ≠ 0 := by
  have hone : pointsTo (s.cell c) ss = 1 := by rw [hc, pointsTo_some, if_pos rfl]
  have hle : pointsTo (s.cell c) ss ≤ cellRefs s.cell ss :=
    Finset.single_le_sum (f := fun c => pointsTo (s.cell c) ss) (fun _ _ => Nat.zero_le _)
      (Finset.mem_univ c)
  have hcount := h.count ss
  unfold State.refs at hcount
  omega

/-- A state with references left is live. -/
theorem Books.live_of_counter {s : State θ ν κ A} (h : Books s) {ss : A}
    (hc : s.counter_ ss ≠ 0) : s.live ss = true := by
  by_contra hl
  exact hc (h.dead ss (Bool.eq_false_iff.mpr hl))

/-- Whatever is retired is live and has no references left. -/
theorem Books.of_garbage {s : State θ ν κ A} (h : Books s) {ss : A} (hg : s.garbage ss ≠ 0) :
    s.live ss = true ∧ s.counter_ ss = 0 := by
  have hgar := h.garbage ss
  by_contra hc
  rw [if_neg hc] at hgar
  exact hg hgar

/-! ## One step -/

/-- The garbage of all threads, when one of them moves. -/
theorem garbage_update {s s' : State θ ν κ A} {t : θ} {pc' : Pc θ ν κ A} {l : List A} (ss : A)
    (hpc : s'.pc = update s.pc t pc') (hret : s'.retired_ = update s.retired_ t l) :
    s'.garbage ss + ((s.pc t).pending ss + (s.pc t).held ss + (s.retired_ t).count ss) =
      s.garbage ss + (pc'.pending ss + pc'.held ss + l.count ss) := by
  have hpend := sum_pc_update (Pc.pending ss) s.pc t pc'
  have hheld := sum_pc_update (Pc.held ss) s.pc t pc'
  have hlist := sum_add_of_eq_off (f := fun u => (s.retired_ u).count ss)
    (g := fun u => (update s.retired_ t l u).count ss) t
    fun u hu => by rw [Function.update_of_ne hu]
  rw [Function.update_self] at hlist
  unfold State.garbage
  rw [hpc, hret]
  omega

/-- The counters are left alone: references change hands, and so does garbage. -/
theorem Books.of_move {s s' : State θ ν κ A} {t : θ} {pc' : Pc θ ν κ A} {l : List A} (h : Books s)
    (hpc : s'.pc = update s.pc t pc') (hret : s'.retired_ = update s.retired_ t l)
    (hcounter : s'.counter_ = s.counter_) (hlive : s'.live = s.live) (hmade : s'.made = s.made)
    (hrefs : ∀ ss, varRefs s'.var ss + cellRefs s'.cell ss + pc'.refs ss =
      varRefs s.var ss + cellRefs s.cell ss + (s.pc t).refs ss)
    (hgarbage : ∀ ss, pc'.pending ss + pc'.held ss + l.count ss =
      (s.pc t).pending ss + (s.pc t).held ss + (s.retired_ t).count ss)
    (hretires : ∀ ss, s'.retires ss + pc'.pending ss = s.retires ss + (s.pc t).pending ss) :
    Books s' := by
  refine ⟨fun ss => ?_, fun ss hl => ?_, fun ss hl => ?_, fun ss => ?_, fun ss => ?_⟩
  · have hsum := sum_pc_update (Pc.refs ss) s.pc t pc'
    have hloc := hrefs ss
    have hcount := h.count ss
    rw [← hpc] at hsum
    rw [hcounter]
    unfold State.refs at hcount ⊢
    omega
  · rw [hcounter]
    rw [hlive] at hl
    exact h.dead ss hl
  · rw [hmade]
    rw [hlive] at hl
    exact h.made ss hl
  · have hsum := garbage_update ss hpc hret
    have hloc := hgarbage ss
    have hgar := h.garbage ss
    rw [hlive, hcounter, ← hgar]
    omega
  · have hsum := sum_pc_update (Pc.pending ss) s.pc t pc'
    have hloc := hretires ss
    have hret := h.retires ss
    rw [← hpc] at hsum
    rw [hmade, hcounter, ← hret]
    omega

/-- `AddRef`, or `TryAddRef` from a count that is not zero. -/
theorem Books.addRef {s s' : State θ ν κ A} {t : θ} {pc' : Pc θ ν κ A} {ss : A} (h : Books s)
    (hss : s.counter_ ss ≠ 0) (hpc : s'.pc = update s.pc t pc') (hret : s'.retired_ = s.retired_)
    (hcounter : s'.counter_ = update s.counter_ ss (s.counter_ ss + 1)) (hlive : s'.live = s.live)
    (hmade : s'.made = s.made) (hretires : s'.retires = s.retires)
    (hrefs : ∀ p, varRefs s'.var p + cellRefs s'.cell p + pc'.refs p =
      varRefs s.var p + cellRefs s.cell p + (s.pc t).refs p + pointsTo (some ss) p)
    (hpending : ∀ p, pc'.pending p = (s.pc t).pending p)
    (hheld : ∀ p, pc'.held p = (s.pc t).held p) : Books s' := by
  -- no count is zero that was not, and none has become so
  have hzero : ∀ p, s'.counter_ p = 0 ↔ s.counter_ p = 0 := by
    intro p
    rw [hcounter]
    by_cases hp : p = ss
    · subst hp
      rw [Function.update_self]
      omega
    · rw [Function.update_of_ne hp]
  have hret' : s'.retired_ = update s.retired_ t (s.retired_ t) := by
    rw [hret, Function.update_eq_self]
  refine ⟨fun p => ?_, fun p hl => ?_, fun p hl => ?_, fun p => ?_, fun p => ?_⟩
  · have hsum := sum_pc_update (Pc.refs p) s.pc t pc'
    have hloc := hrefs p
    have hcount := h.count p
    rw [pointsTo_some] at hloc
    rw [← hpc] at hsum
    rw [hcounter]
    unfold State.refs at hcount ⊢
    by_cases hp : p = ss
    · subst hp
      rw [if_pos rfl] at hloc
      rw [Function.update_self]
      omega
    · rw [if_neg (Ne.symm hp)] at hloc
      rw [Function.update_of_ne hp]
      omega
  · rw [hzero]
    rw [hlive] at hl
    exact h.dead p hl
  · rw [hmade]
    rw [hlive] at hl
    exact h.made p hl
  · have hsum := garbage_update p hpc hret'
    rw [hpending, hheld] at hsum
    simp only [hlive, hzero]
    rw [← h.garbage p]
    omega
  · have hsum := sum_pc_update (Pc.pending p) s.pc t pc'
    rw [hpending, ← hpc] at hsum
    simp only [hmade, hzero, hretires]
    rw [← h.retires p]
    omega

/-- `Unlink`: the last reference leaves the state to be retired. -/
theorem Books.unlink {s s' : State θ ν κ A} {t : θ} {pc' : Pc θ ν κ A} {ss : A} (h : Books s)
    (hpc : s'.pc = update s.pc t pc') (hret : s'.retired_ = s.retired_)
    (hcounter : s'.counter_ = update s.counter_ ss (s.counter_ ss - 1)) (hlive : s'.live = s.live)
    (hmade : s'.made = s.made) (hretires : s'.retires = s.retires) (hvar : s'.var = s.var)
    (hcell : s'.cell = s.cell) (hrefs : ∀ p, (s.pc t).refs p = pc'.refs p + pointsTo (some ss) p)
    (hpending : ∀ p, pc'.pending p =
      (s.pc t).pending p + if s.counter_ ss = 1 then pointsTo (some ss) p else 0)
    (hheld : ∀ p, pc'.held p = (s.pc t).held p) : Books s' := by
  have hret' : s'.retired_ = update s.retired_ t (s.retired_ t) := by
    rw [hret, Function.update_eq_self]
  have hsums : ∀ p, ∑ u, (s'.pc u).refs p + pointsTo (some ss) p = ∑ u, (s.pc u).refs p := by
    intro p
    have hsum := sum_pc_update (Pc.refs p) s.pc t pc'
    have hloc := hrefs p
    rw [← hpc] at hsum
    omega
  -- the thread holds the reference it takes back
  have hpos : s.counter_ ss ≠ 0 := by
    have hsum := hsums ss
    have hcount := h.count ss
    rw [pointsTo_some, if_pos rfl] at hsum
    unfold State.refs at hcount
    omega
  have hls := h.live_of_counter hpos
  have hms := h.made ss hls
  refine ⟨fun p => ?_, fun p hl => ?_, fun p hl => ?_, fun p => ?_, fun p => ?_⟩
  · have hsum := hsums p
    have hcount := h.count p
    rw [pointsTo_some] at hsum
    rw [hcounter]
    unfold State.refs at hcount ⊢
    rw [hvar, hcell]
    by_cases hp : p = ss
    · subst hp
      rw [if_pos rfl] at hsum
      rw [Function.update_self]
      omega
    · rw [if_neg (Ne.symm hp)] at hsum
      rw [Function.update_of_ne hp]
      omega
  · rw [hlive] at hl
    have hne : p ≠ ss := by
      rintro rfl
      rw [hls] at hl
      cases hl
    rw [hcounter, Function.update_of_ne hne]
    exact h.dead p hl
  · rw [hmade]
    rw [hlive] at hl
    exact h.made p hl
  · have hsum := garbage_update p hpc hret'
    have hloc := hpending p
    have hgar := h.garbage p
    rw [hheld] at hsum
    rw [pointsTo_some] at hloc
    rw [hlive, hcounter]
    by_cases hp : p = ss
    · subst hp
      rw [Function.update_self]
      rw [if_neg fun hc => hpos hc.2] at hgar
      rw [if_pos rfl] at hloc
      by_cases hone : s.counter_ p = 1
      · rw [if_pos hone] at hloc
        rw [if_pos ⟨hls, by omega⟩]
        omega
      · rw [if_neg hone] at hloc
        rw [if_neg fun hc => by omega]
        omega
    · rw [Function.update_of_ne hp, ← hgar]
      rw [if_neg (Ne.symm hp), ite_self] at hloc
      omega
  · have hsum := sum_pc_update (Pc.pending p) s.pc t pc'
    have hloc := hpending p
    have hr := h.retires p
    rw [← hpc] at hsum
    rw [pointsTo_some] at hloc
    rw [hmade, hcounter, hretires]
    by_cases hp : p = ss
    · subst hp
      rw [Function.update_self]
      rw [if_neg fun hc => hpos hc.2] at hr
      rw [if_pos rfl] at hloc
      by_cases hone : s.counter_ p = 1
      · rw [if_pos hone] at hloc
        rw [if_pos ⟨hms, by omega⟩]
        omega
      · rw [if_neg hone] at hloc
        rw [if_neg fun hc => by omega]
        omega
    · rw [Function.update_of_ne hp, ← hr]
      rw [if_neg (Ne.symm hp), ite_self] at hloc
      omega

/-- `MakeShared` at an address where no state lives: nothing refers to it, and it
is in nobody's list. -/
theorem Books.make {s s' : State θ ν κ A} {dst : ν} {ss : A} (h : Books s)
    (hdead : s.live ss = false) (hdst : s.var dst = none) (hpc : s'.pc = s.pc)
    (hret : s'.retired_ = s.retired_) (hcounter : s'.counter_ = update s.counter_ ss 1)
    (hlive : s'.live = update s.live ss true) (hmade : s'.made = update s.made ss (s.made ss + 1))
    (hretires : s'.retires = update s.retires ss 0) (hvar : s'.var = update s.var dst (some ss))
    (hcell : s'.cell = s.cell) : Books s' := by
  have hgarbage : ∀ p, s'.garbage p = s.garbage p := by
    intro p
    unfold State.garbage
    rw [hpc, hret]
  have hzero := h.dead ss hdead
  -- what is garbage is live
  have hnone : s.garbage ss = 0 := by
    rw [h.garbage, if_neg]
    rintro ⟨hl, -⟩
    rw [hdead] at hl
    cases hl
  refine ⟨fun p => ?_, fun p hl => ?_, fun p hl => ?_, fun p => ?_, fun p => ?_⟩
  · have hupd := varRefs_update s.var dst (some ss) p
    have hcount := h.count p
    rw [hdst, pointsTo_none, pointsTo_some] at hupd
    rw [hcounter]
    unfold State.refs at hcount ⊢
    rw [hvar, hcell, hpc]
    by_cases hp : p = ss
    · subst hp
      rw [if_pos rfl] at hupd
      rw [Function.update_self]
      omega
    · rw [if_neg (Ne.symm hp)] at hupd
      rw [Function.update_of_ne hp]
      omega
  · by_cases hp : p = ss
    · subst hp
      rw [hlive, Function.update_self] at hl
      cases hl
    · rw [hlive, Function.update_of_ne hp] at hl
      rw [hcounter, Function.update_of_ne hp]
      exact h.dead p hl
  · by_cases hp : p = ss
    · subst hp
      rw [hmade, Function.update_self]
      omega
    · rw [hlive, Function.update_of_ne hp] at hl
      rw [hmade, Function.update_of_ne hp]
      exact h.made p hl
  · rw [hgarbage, hlive, hcounter]
    by_cases hp : p = ss
    · subst hp
      rw [hnone, Function.update_self, Function.update_self, if_neg fun hc => by omega]
    · rw [Function.update_of_ne hp, Function.update_of_ne hp]
      exact h.garbage p
  · rw [hpc, hretires, hmade, hcounter]
    by_cases hp : p = ss
    · subst hp
      rw [Function.update_self, Function.update_self, Function.update_self,
        if_neg fun hc => by omega]
      unfold State.garbage at hnone
      omega
    · rw [Function.update_of_ne hp, Function.update_of_ne hp, Function.update_of_ne hp]
      exact h.retires p

/-- `Destroy` of an object that `Gc` has taken out of the list. -/
theorem Books.destroy {s s' : State θ ν κ A} {t : θ} {obj : A} {kept : List A}
    {k : AfterUnlink ν κ A} (h : Books s) (hpc : s.pc t = .destroy obj kept k)
    (hpc' : s'.pc = update s.pc t (.collect kept k)) (hret : s'.retired_ = s.retired_)
    (hcounter : s'.counter_ = s.counter_) (hlive : s'.live = update s.live obj false)
    (hmade : s'.made = s.made) (hretires : s'.retires = s.retires) (hvar : s'.var = s.var)
    (hcell : s'.cell = s.cell) : Books s' := by
  have hret' : s'.retired_ = update s.retired_ t (s.retired_ t) := by
    rw [hret, Function.update_eq_self]
  have hgarbage : ∀ p, s'.garbage p + pointsTo (some obj) p = s.garbage p := by
    intro p
    have hsum := garbage_update p hpc' hret'
    rw [hpc] at hsum
    simp only [Pc.pending, Pc.held] at hsum
    omega
  -- what `Gc` has taken out of the list is garbage: live, with the count at zero
  have hobj : s.live obj = true ∧ s.counter_ obj = 0 := by
    refine h.of_garbage fun hg => ?_
    have hsum := hgarbage obj
    rw [hg, pointsTo_some, if_pos rfl] at hsum
    omega
  refine ⟨fun p => ?_, fun p hl => ?_, fun p hl => ?_, fun p => ?_, fun p => ?_⟩
  · have hsum := sum_pc_update (Pc.refs p) s.pc t (.collect kept k)
    have hcount := h.count p
    rw [← hpc', hpc] at hsum
    change _ + k.refs p = _ + k.refs p at hsum
    rw [hcounter]
    unfold State.refs at hcount ⊢
    rw [hvar, hcell]
    omega
  · rw [hcounter]
    by_cases hp : p = obj
    · subst hp
      exact hobj.2
    · rw [hlive, Function.update_of_ne hp] at hl
      exact h.dead p hl
  · rw [hmade]
    by_cases hp : p = obj
    · subst hp
      exact h.made p hobj.1
    · rw [hlive, Function.update_of_ne hp] at hl
      exact h.made p hl
  · have hsum := hgarbage p
    have hgar := h.garbage p
    rw [pointsTo_some] at hsum
    rw [hlive, hcounter]
    by_cases hp : p = obj
    · subst hp
      rw [if_pos rfl] at hsum
      rw [if_pos hobj] at hgar
      rw [Function.update_self, if_neg fun hc => by cases hc.1]
      omega
    · rw [if_neg (Ne.symm hp)] at hsum
      rw [Function.update_of_ne hp, ← hgar]
      omega
  · have hsum := sum_pc_update (Pc.pending p) s.pc t (.collect kept k)
    rw [← hpc', hpc] at hsum
    change _ + 0 = _ + 0 at hsum
    rw [hmade, hcounter, hretires, ← h.retires p]
    omega

theorem Books.effect {s s' : State θ ν κ A} {t : θ} (h : Books s) (hs : Effect s t s') :
    Books s' := by
  have hself : s.retired_ = update s.retired_ t (s.retired_ t) :=
    (Function.update_eq_self t s.retired_).symm
  cases hs with
  | shift var' cell' turn keeps refs =>
    refine h.of_move rfl hself rfl rfl rfl refs (fun ss => ?_) fun ss => ?_
    · rw [keeps.pending, keeps.held]
    · rw [keeps.pending]
      rfl
  | @addRef ss var' pc' hss turn keeps refs =>
    -- a reference is copied from a variable, or the count was read and is not zero
    have hne : s.counter_ ss ≠ 0 := by
      rcases hss with ⟨v, hv⟩ | ⟨-, hne⟩
      · exact h.counter_ne_zero hv
      · exact hne
    refine h.addRef hne rfl rfl rfl rfl rfl rfl (fun p => ?_) keeps.pending keeps.held
    have hloc := refs p
    change varRefs var' p + cellRefs s.cell p + _ = _
    omega
  | unlink turn refs pending held =>
    exact h.unlink rfl rfl rfl rfl rfl rfl rfl rfl refs pending held
  | make hlive hdst hfree hpc => exact h.make hlive hdst rfl rfl rfl rfl rfl rfl rfl rfl
  | touch hss turn keeps refs =>
    refine h.of_move rfl hself rfl rfl rfl (fun ss => ?_) (fun ss => ?_) fun ss => ?_
    · rw [refs]
      rfl
    · rw [keeps.pending, keeps.held]
    · rw [keeps.pending]
      rfl
  | protect hpc turn hprot refs pending held =>
    refine h.of_move rfl hself rfl rfl rfl (fun ss => ?_) (fun ss => ?_) fun ss => ?_
    · rw [refs]
      rfl
    · rw [pending, held, hpc]
      rfl
    · rw [pending, hpc]
      rfl
  | set hpc =>
    exact h.of_move rfl hself rfl rfl rfl (fun ss => by rw [hpc]; rfl) (fun ss => by rw [hpc]; rfl)
      fun ss => by rw [hpc]; rfl
  | reset turn keeps refs =>
    refine h.of_move rfl hself rfl rfl rfl (fun ss => ?_) (fun ss => ?_) fun ss => ?_
    · rw [refs]
      rfl
    · rw [keeps.pending, keeps.held]
    · rw [keeps.pending]
      rfl
  | registerHead hpc =>
    exact h.of_move rfl hself rfl rfl rfl (fun ss => by rw [hpc]; rfl) (fun ss => by rw [hpc]; rfl)
      fun ss => by rw [hpc]; rfl
  | registerNext hpc =>
    exact h.of_move rfl hself rfl rfl rfl (fun ss => by rw [hpc]; rfl) (fun ss => by rw [hpc]; rfl)
      fun ss => by rw [hpc]; rfl
  | registerRetry hpc =>
    exact h.of_move rfl hself rfl rfl rfl (fun ss => by rw [hpc]; rfl) (fun ss => by rw [hpc]; rfl)
      fun ss => by rw [hpc]; rfl
  | @registerLink k hpc =>
    refine h.of_move rfl hself rfl rfl rfl (fun ss => ?_) (fun ss => ?_) fun ss => ?_
    · rw [hpc, resume_refs]
      rfl
    · rw [hpc]
      cases k <;> rfl
    · rw [hpc]
      cases k <;> rfl
  -- from now on it is in the list and no longer about to be put there
  | @retire p k hpc =>
    refine h.of_move rfl rfl rfl rfl rfl (fun ss => by rw [hpc]; rfl) (fun ss => ?_) fun ss => ?_
    · rw [hpc, List.count_append, List.count_singleton]
      simp only [Pc.pending, Pc.held, pointsTo_some, beq_iff_eq, List.count_nil]
      omega
    · rw [hpc]
      simp only [Pc.pending, pointsTo_some, State.setPc]
      by_cases hp : ss = p
      · subst hp
        rw [Function.update_self, if_pos rfl]
      · rw [Function.update_of_ne hp, if_neg (Ne.symm hp)]
  | collectNone hpc hret =>
    refine h.of_move rfl rfl rfl rfl rfl (fun ss => by rw [hpc]; rfl) (fun ss => ?_)
      fun ss => by rw [hpc]; rfl
    rw [hpc, hret]
    simp only [Pc.pending, Pc.held, List.count_nil]
    omega
  -- `Gc` takes it out of the list and holds it
  | collectSome hpc hret =>
    refine h.of_move rfl rfl rfl rfl rfl (fun ss => by rw [hpc]; rfl) (fun ss => ?_)
      fun ss => by rw [hpc]; rfl
    rw [hpc, hret, List.count_cons]
    simp only [Pc.pending, Pc.held, pointsTo_some, beq_iff_eq]
    omega
  | scan hpc =>
    exact h.of_move rfl hself rfl rfl rfl (fun ss => by rw [hpc]; rfl) (fun ss => by rw [hpc]; rfl)
      fun ss => by rw [hpc]; rfl
  | keep hpc =>
    refine h.of_move rfl hself rfl rfl rfl (fun ss => by rw [hpc]; rfl) (fun ss => ?_)
      fun ss => by rw [hpc]; rfl
    rw [hpc]
    simp only [Pc.pending, Pc.held, pointsTo_some, List.count_append, List.count_singleton,
      beq_iff_eq]
    omega
  | clear hpc =>
    exact h.of_move rfl hself rfl rfl rfl (fun ss => by rw [hpc]; rfl) (fun ss => by rw [hpc]; rfl)
      fun ss => by rw [hpc]; rfl
  | destroy hpc => exact h.destroy hpc rfl rfl rfl rfl rfl rfl rfl rfl

theorem books_of_reachable {C : Action θ ν κ A → State θ ν κ A → Prop} {s : State θ ν κ A}
    (hs : (machine θ ν κ A).ReachableVia C s) : Books s := by
  refine hs.invariant_of (I := Books) (fun h => vars_of_reachable h) (fun s hinit => ?_)
    fun a s s' hv _ h _ hst => h.effect (step_cases hv hst)
  subst hinit
  refine ⟨fun ss => ?_, fun _ _ => rfl, fun ss hl => (by cases hl), fun ss => ?_, fun ss => ?_⟩
  · simp [State.init, State.refs, varRefs, cellRefs, Pc.refs]
  · simp [State.init, State.garbage, Pc.pending, Pc.held]
  · simp [State.init, Pc.pending]

/-! ## The counts in a run -/

/-- What is about to be retired is live: nobody but the thread has it. -/
theorem Books.pending_eq_zero {s : State θ ν κ A} (h : Books s) {ss : A}
    (hdead : s.live ss = false) : ∑ t, (s.pc t).pending ss = 0 := by
  have hgar := h.garbage ss
  rw [if_neg fun hc => by rw [hdead] at hc; cases hc.1] at hgar
  unfold State.garbage at hgar
  omega

/-- A thread that is about to take back a reference holds one. -/
theorem Books.unlink_ne_zero {s : State θ ν κ A} (h : Books s) {t : θ} {ss : A}
    {k : AfterUnlink ν κ A} (hpc : s.pc t = .unlink ss k) : s.counter_ ss ≠ 0 := by
  have hle := le_sum_pc (Pc.refs ss) s.pc t
  have hown : (s.pc t).refs ss = 1 + k.refs ss := by
    rw [hpc]
    simp [Pc.refs, pointsTo_some]
  have hcount := h.count ss
  unfold State.refs at hcount
  omega

/-- No step takes a count away from zero, unless it constructs a new state at the
address. -/
theorem Books.counter_zero {s s' : State θ ν κ A} {t : θ} (h : Books s) (hs : Effect s t s')
    {ss : A} (hmade : s'.made ss = s.made ss) (hzero : s.counter_ ss = 0) :
    s'.counter_ ss = 0 := by
  cases hs with
  -- nobody adds a reference to a state that nobody refers to
  | @addRef p var' pc' hp turn keeps refs =>
    have hne : s.counter_ p ≠ 0 := by
      rcases hp with ⟨v, hv⟩ | ⟨-, hne⟩
      · exact h.counter_ne_zero hv
      · exact hne
    have hss : ss ≠ p := by
      rintro rfl
      exact hne hzero
    exact (Function.update_of_ne hss _ _).trans hzero
  | @unlink p pc' turn refs =>
    change update s.counter_ p (s.counter_ p - 1) ss = 0
    by_cases hss : ss = p
    · subst hss
      rw [Function.update_self]
      omega
    · rw [Function.update_of_ne hss]
      exact hzero
  -- at `p` a new state is made, and `ss` is not it
  | @make dst p hlive hdst hfree hpc =>
    have hss : ss ≠ p := by
      rintro rfl
      change update s.made ss (s.made ss + 1) ss = s.made ss at hmade
      rw [Function.update_self] at hmade
      omega
    exact (Function.update_of_ne hss _ _).trans hzero
  | _ => exact hzero

/-- **The reference counts are exact.** In every state a run reaches, `counter_`
is the number of variables and cells that refer to the state and of the references
held by operations in progress. So `Unlink` never takes one from zero, a count
stays at zero until the address is used again, and a state is retired once, by the
thread that took its last reference, and not destroyed before. -/
theorem counts_exact {s : State θ ν κ A} (hs : (machine θ ν κ A).Reachable s) :
    (∀ ss, s.counter_ ss =
      ∑ v, pointsTo (s.var v) ss + ∑ c, pointsTo (s.cell c) ss + ∑ t, (s.pc t).refs ss) ∧
    (∀ t ss k, s.pc t = .unlink ss k → s.counter_ ss ≠ 0) ∧
    (∀ a s' ss, (machine θ ν κ A).step a s = some s' → s'.made ss = s.made ss →
      s.counter_ ss = 0 → s'.counter_ ss = 0) ∧
    (∀ ss, s.made ss ≠ 0 →
      s.retires ss + ∑ t, (s.pc t).pending ss = if s.counter_ ss = 0 then 1 else 0) ∧
    ∀ ss, s.made ss ≠ 0 → s.live ss = false → s.retires ss = 1 := by
  have h := books_of_reachable hs
  have hretires : ∀ ss, s.made ss ≠ 0 →
      s.retires ss + ∑ t, (s.pc t).pending ss = if s.counter_ ss = 0 then 1 else 0 := by
    intro ss hmade
    rw [h.retires ss]
    simp only [ne_eq, hmade, not_false_eq_true, true_and]
  refine ⟨h.count, fun t ss k hpc => h.unlink_ne_zero hpc, fun a s' ss hst hmade hzero => ?_,
    hretires, fun ss hmade hdead => ?_⟩
  · exact h.counter_zero (step_cases (vars_of_reachable hs) hst) hmade hzero
  · have hret := hretires ss hmade
    rw [if_pos (h.dead ss hdead), h.pending_eq_zero hdead] at hret
    exact hret

end Books

/-- One thread makes a state and stores it; the other begins a `Load` and has it
protected when the first stores null. -/
def storeDuringLoad : List (Action (Fin 2) (Fin 2) (Fin 1) ℕ) :=
  [.call 1 (.makeShared 1 7), .call 1 (.store 1 0)] ++ List.replicate 5 (.step 1 false) ++
    [.call 0 (.load 0 0)] ++ List.replicate 6 (.step 0 false) ++
    [.call 1 (.store 1 0), .step 1 false]

/-- The one reference left is the one `Store` has detached. -/
theorem counts_exact_detached : ∃ s, (machine (Fin 2) (Fin 2) (Fin 1) ℕ).Reachable s ∧
    (∀ v, s.var v = none) ∧ (∀ c, s.cell c = none) ∧ s.counter_ 7 = 1 ∧
    ∑ t, (s.pc t).refs 7 = 1 := by
  obtain ⟨s, hs, hp⟩ := Machine.Reachable.exec_any (M := machine (Fin 2) (Fin 2) (Fin 1) ℕ)
    (.init rfl) storeDuringLoad
    (fun s => decide ((∀ v, s.var v = none) ∧ (∀ c, s.cell c = none) ∧ s.counter_ 7 = 1))
    (by decide)
  obtain ⟨hvar, hcell, hone⟩ := of_decide_eq_true hp
  have hcount := (counts_exact hs).1 7
  simp only [hvar, hcell, hone, pointsTo_none, Finset.sum_const_zero] at hcount
  exact ⟨s, hs, hvar, hcell, hone, by omega⟩

end Exe.Gc
