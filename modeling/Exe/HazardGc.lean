/-
`gc::hazard::Mutator::Gc`, by itself and with itself.

Destroying an object runs destructors, and these may retire what the object owned:
`Retire` puts it into the list that `Gc` is working on and calls `Gc` again. Every call
has a `kept` list of its own, which it appends when the list has run out; the objects in
it are popped once more by the call it was made from. In the end each object of the
ownership forest that is retired at all is destroyed if it is unprotected, and is back in
the list if it is protected.

# Conventions

* The hazard slots do not change during the call.
* What an object owns is the trees below it, in the order in which its destructor retires
  them.
* The recursion is on a bound for the nested calls and rounds of the loop; any bound above
  the number of objects in the list gives the same result.
* `destroyed` is history: the addresses of the destroyed objects, in order.
-/
import Mathlib.Algebra.BigOperators.Group.Multiset.Basic
import Mathlib.Data.Fintype.Basic
import Mathlib.Logic.Function.Basic

set_option autoImplicit false

namespace Exe.Hazard

open Function (update)

/-! ## The model -/

/-- A managed object: its address, and what its destructor retires. -/
inductive Object (α : Type*)
  | mk (addr : α) (owned : List (Object α))

namespace Object

variable {α : Type*}

def addr : Object α → α
  | mk addr _ => addr

def owned : Object α → List (Object α)
  | mk _ owned => owned

end Object

/-- `kNumHazardPtrsPerThread`. -/
def kNumHazardPtrsPerThread : ℕ := 2

/-- The list of mutators behind `head_`, and their hazard slots. -/
structure Collector (θ α : Type*) where
  mutators : List θ
  nodup : mutators.Nodup
  hazard_ptrs_ : θ → Fin kNumHazardPtrsPerThread → Option α

structure State (θ α : Type*) where
  retired_ : θ → List (Object α)
  current_mutator : θ
  destroyed : List α

variable {θ α : Type*} [DecidableEq θ] [DecidableEq α]

/-- `IsProtected`: one pass over the slots, as the list does not change. -/
def Collector.IsProtected (C : Collector θ α) (addr : α) : Bool :=
  C.mutators.any fun m => decide (∃ i, C.hazard_ptrs_ m i = some addr)

/-- Some hazard slot holds the address. -/
def Collector.Protects (C : Collector θ α) (addr : α) : Prop :=
  ∃ m ∈ C.mutators, ∃ i, C.hazard_ptrs_ m i = some addr

instance (C : Collector θ α) (addr : α) : Decidable (C.Protects addr) :=
  inferInstanceAs (Decidable (∃ m ∈ C.mutators, ∃ i, C.hazard_ptrs_ m i = some addr))

omit [DecidableEq θ] in
theorem isProtected_iff {C : Collector θ α} {addr : α} :
    C.IsProtected addr = true ↔ C.Protects addr := by
  rw [Collector.IsProtected, List.any_eq_true]
  exact exists_congr fun m => and_congr_right fun _ => decide_eq_true_iff

/-- `retired_.PushBack(obj)` of the current mutator. -/
def State.pushBack (s : State θ α) (obj : Object α) : State θ α :=
  { s with
    retired_ := update s.retired_ s.current_mutator (s.retired_ s.current_mutator ++ [obj]) }

/-- The loop of `Gc` on the mutator `m`, with what it has kept. Destroying an object
retires what it owns, one by one, and each `Retire` runs `Gc` on the current mutator. -/
def GcWithin (C : Collector θ α) : ℕ → θ → List (Object α) → State θ α → Option (State θ α)
  | 0, _, _, _ => none
  | bound + 1, m, kept, s =>
    match s.retired_ m with
    -- the list has run out: `retired_.Append(kept)`
    | [] => some { s with retired_ := update s.retired_ m (s.retired_ m ++ kept) }
    | obj :: rest =>
      let s := { s with retired_ := update s.retired_ m rest }
      if C.IsProtected obj.addr then GcWithin C bound m (kept ++ [obj]) s
      else
        let s := { s with destroyed := s.destroyed ++ [obj.addr] }
        -- `Retire` works on the current mutator, with a `kept` of its own
        let retire (s : State θ α) (o : Object α) :=
          GcWithin C bound s.current_mutator [] (s.pushBack o)
        (obj.owned.foldlM retire s).bind (GcWithin C bound m kept)

/-- `Retire`, where a `Gc` goes at most `bound` deep. -/
def RetireWithin (C : Collector θ α) (bound : ℕ) (s : State θ α) (obj : Object α) :
    Option (State θ α) :=
  GcWithin C bound s.current_mutator [] (s.pushBack obj)

/-! ## The forest -/

mutual
/-- The number of objects in a tree. -/
def Object.size : Object α → ℕ
  | .mk _ owned => sizes owned + 1

def sizes : List (Object α) → ℕ
  | [] => 0
  | o :: l => o.size + sizes l
end

mutual
/-- Every address in a tree. -/
def Object.addrs : Object α → Multiset α
  | .mk addr owned => {addr} + addrsOf owned

def addrsOf : List (Object α) → Multiset α
  | [] => 0
  | o :: l => o.addrs + addrsOf l
end

mutual
/-- The objects that are retired when the root of the tree is: what an unprotected object
owns is retired after it. -/
def Collector.retiredBy (C : Collector θ α) : Object α → Multiset (Object α)
  | .mk addr owned =>
    {.mk addr owned} + if C.Protects addr then 0 else C.retiredByAll owned

def Collector.retiredByAll (C : Collector θ α) : List (Object α) → Multiset (Object α)
  | [] => 0
  | o :: l => C.retiredBy o + C.retiredByAll l
end

/-- `Gc` on the current mutator, with a bound that is enough. -/
def Gc (C : Collector θ α) (s : State θ α) : Option (State θ α) :=
  GcWithin C (sizes (s.retired_ s.current_mutator) + 1) s.current_mutator [] s

/-- The first loop of `~Collector`. -/
def Collector.collect (C : Collector θ α) : List θ → State θ α → Option (State θ α)
  | [], s => some s
  | cur :: rest, s => (Gc C { s with current_mutator := cur }).bind (Collector.collect C rest)

/-- `~Collector`, up to the deletion of the mutators. -/
def Collector.destructor (C : Collector θ α) (s : State θ α) : Option (State θ α) :=
  C.collect C.mutators s

/-! ## What goes and what stays -/

/-- The retired objects of the lists that are protected. -/
def Collector.stays (C : Collector θ α) (l : List (Object α)) : Multiset (Object α) :=
  (C.retiredByAll l).filter fun o => C.Protects o.addr

/-- The addresses of those that are not. -/
def Collector.goes (C : Collector θ α) (l : List (Object α)) : Multiset α :=
  ((C.retiredByAll l).filter fun o => ¬C.Protects o.addr).map Object.addr

section Forest

variable (C : Collector θ α)

omit [DecidableEq θ] in
theorem retiredByAll_append (l l' : List (Object α)) :
    C.retiredByAll (l ++ l') = C.retiredByAll l + C.retiredByAll l' := by
  induction l with
  | nil => rw [List.nil_append, Collector.retiredByAll, zero_add]
  | cons o l ih =>
    rw [List.cons_append, Collector.retiredByAll, Collector.retiredByAll, ih, add_assoc]

omit [DecidableEq θ] in
theorem stays_append (l l' : List (Object α)) : C.stays (l ++ l') = C.stays l + C.stays l' := by
  rw [Collector.stays, retiredByAll_append, Multiset.filter_add, Collector.stays, Collector.stays]

omit [DecidableEq θ] in
theorem goes_append (l l' : List (Object α)) : C.goes (l ++ l') = C.goes l + C.goes l' := by
  rw [Collector.goes, retiredByAll_append, Multiset.filter_add, Multiset.map_add, Collector.goes,
    Collector.goes]

omit [DecidableEq α] in
theorem sizes_append (l l' : List (Object α)) : sizes (l ++ l') = sizes l + sizes l' := by
  induction l with
  | nil => rw [List.nil_append, sizes, Nat.zero_add]
  | cons o l ih => rw [List.cons_append, sizes, sizes, ih, Nat.add_assoc]

omit [DecidableEq α] in
theorem size_eq (o : Object α) : o.size = sizes o.owned + 1 := by
  cases o with
  | mk addr owned => rw [Object.size, Object.owned]

variable {C}

omit [DecidableEq θ] in
/-- A protected object stays, and retires nothing. -/
theorem retiredBy_of_protected {o : Object α} (h : C.Protects o.addr) :
    C.retiredBy o = {o} := by
  cases o with
  | mk addr owned =>
    rw [Object.addr] at h
    rw [Collector.retiredBy, if_pos h, add_zero]

omit [DecidableEq θ] in
theorem retiredBy_of_unprotected {o : Object α} (h : ¬C.Protects o.addr) :
    C.retiredBy o = {o} + C.retiredByAll o.owned := by
  cases o with
  | mk addr owned =>
    rw [Object.addr] at h
    rw [Collector.retiredBy, if_neg h, Object.owned]

omit [DecidableEq θ] in
theorem stays_cons_of_protected {o : Object α} (h : C.Protects o.addr)
    (l : List (Object α)) : C.stays (o :: l) = {o} + C.stays l := by
  rw [Collector.stays, Collector.retiredByAll, retiredBy_of_protected h, Multiset.filter_add,
    Multiset.filter_singleton, if_pos h, Collector.stays]

omit [DecidableEq θ] in
theorem goes_cons_of_protected {o : Object α} (h : C.Protects o.addr)
    (l : List (Object α)) : C.goes (o :: l) = C.goes l := by
  rw [Collector.goes, Collector.retiredByAll, retiredBy_of_protected h, Multiset.filter_add,
    Multiset.filter_singleton, if_neg (not_not.mpr h), Multiset.map_add]
  exact zero_add _

omit [DecidableEq θ] in
theorem stays_cons_of_unprotected {o : Object α} (h : ¬C.Protects o.addr)
    (l : List (Object α)) : C.stays (o :: l) = C.stays (l ++ o.owned) := by
  rw [Collector.stays, Collector.retiredByAll, retiredBy_of_unprotected h, Multiset.filter_add,
    Multiset.filter_add, Multiset.filter_singleton, if_neg h, stays_append, Collector.stays,
    Collector.stays, add_comm (Multiset.filter _ (C.retiredByAll l))]
  exact congrArg (· + _) (zero_add _)

omit [DecidableEq θ] in
theorem goes_cons_of_unprotected {o : Object α} (h : ¬C.Protects o.addr)
    (l : List (Object α)) : C.goes (o :: l) = {o.addr} + C.goes (l ++ o.owned) := by
  rw [Collector.goes, Collector.retiredByAll, retiredBy_of_unprotected h, Multiset.filter_add,
    Multiset.filter_add, Multiset.filter_singleton, if_pos h, goes_append, Collector.goes,
    Collector.goes, Multiset.map_add, Multiset.map_add, Multiset.map_singleton, add_assoc,
    add_comm (Multiset.map _ (Multiset.filter _ (C.retiredByAll l)))]

omit [DecidableEq θ] in
/-- A list of protected objects is what stays of it. -/
theorem stays_of_protected {l : List (Object α)}
    (h : ∀ o ∈ l, C.Protects o.addr) : C.stays l = l ∧ C.goes l = 0 := by
  induction l with
  | nil => exact ⟨rfl, rfl⟩
  | cons o l ih =>
    obtain ⟨hstays, hgoes⟩ := ih fun o' ho' => h o' (List.mem_cons_of_mem _ ho')
    have ho := h o List.mem_cons_self
    rw [stays_cons_of_protected ho, goes_cons_of_protected ho, hstays, hgoes]
    exact ⟨rfl, rfl⟩

end Forest

/-! ## One call of `Gc` -/

/-- From the list `l` the list `L` is left, and the objects at `D` are destroyed. -/
structure Outcome (C : Collector θ α) (l L : List (Object α)) (D : List α) : Prop where
  stays : C.stays l = C.stays L
  goes : C.goes l = (D : Multiset α) + C.goes L
  sizes : sizes L ≤ sizes l

/-- The state after a call that leaves `L` in the list of `m` and destroys `D`. -/
def State.after (s : State θ α) (m : θ) (L : List (Object α)) (D : List α) : State θ α :=
  { s with retired_ := update s.retired_ m L, destroyed := s.destroyed ++ D }

/-- What a `Gc` with the bound `n` does to a list with fewer objects: it returns, with the
protected objects behind what it had kept. -/
def GcSpec (C : Collector θ α) (n : ℕ) : Prop :=
  ∀ (m : θ) (kept : List (Object α)) (s : State θ α), s.current_mutator = m →
    sizes (s.retired_ m) < n → ∃ L D, GcWithin C n m kept s = some (s.after m (kept ++ L) D) ∧
      Outcome C (s.retired_ m) L D ∧ ∀ o ∈ L, C.Protects o.addr

section Spec

variable {C : Collector θ α}

omit [DecidableEq θ] in
theorem Outcome.refl (l : List (Object α)) : Outcome C l l [] :=
  ⟨rfl, (zero_add _).symm, Nat.le_refl _⟩

omit [DecidableEq θ] in
theorem Outcome.trans {l l' l'' : List (Object α)} {D D' : List α} (h : Outcome C l l' D)
    (h' : Outcome C l' l'' D') : Outcome C l l'' (D ++ D') := by
  refine ⟨h.stays.trans h'.stays, ?_, h'.sizes.trans h.sizes⟩
  rw [h.goes, h'.goes, ← add_assoc, Multiset.coe_add]

omit [DecidableEq θ] in
theorem Outcome.append {l L : List (Object α)} {D : List α} (h : Outcome C l L D)
    (r : List (Object α)) : Outcome C (l ++ r) (L ++ r) D := by
  refine ⟨?_, ?_, ?_⟩
  · rw [stays_append, stays_append, h.stays]
  · rw [goes_append, goes_append, h.goes, add_assoc]
  · rw [sizes_append, sizes_append]
    exact Nat.add_le_add_right h.sizes _

omit [DecidableEq α] in
theorem after_after (s : State θ α) (m : θ) (L L' : List (Object α)) (D D' : List α) :
    (s.after m L D).after m L' D' = s.after m L' (D ++ D') := by
  simp only [State.after, Function.update_idem, List.append_assoc]

omit [DecidableEq α] in
theorem after_self (s : State θ α) (m : θ) : s.after m (s.retired_ m) [] = s := by
  simp only [State.after, Function.update_eq_self, List.append_nil]

omit [DecidableEq α] in
@[simp] theorem after_retired (s : State θ α) (m : θ) (L : List (Object α)) (D : List α) :
    (s.after m L D).retired_ m = L :=
  Function.update_self _ _ _

omit [DecidableEq α] in
theorem pushBack_eq {s : State θ α} {m : θ} (hcur : s.current_mutator = m) (o : Object α) :
    s.pushBack o = s.after m (s.retired_ m ++ [o]) [] := by
  simp only [State.pushBack, State.after, hcur, List.append_nil]

/-- What the destructor of an object does, as far as it retires `owned`. The induction is
on what is left to retire; every `Retire` works off the whole list. -/
theorem retire_spec {n : ℕ} (hgc : GcSpec C n) {m : θ} (owned : List (Object α)) :
    ∀ s : State θ α, s.current_mutator = m → sizes (s.retired_ m) + sizes owned < n →
      ∃ L D, owned.foldlM (RetireWithin C n) s = some (s.after m L D) ∧
        Outcome C (s.retired_ m ++ owned) L D := by
  induction owned with
  | nil =>
    intro s _ _
    refine ⟨s.retired_ m, [], ?_, ?_⟩
    · rw [after_self]
      rfl
    · rw [List.append_nil]
      exact Outcome.refl _
  | cons o owned ih =>
    intro s hcur hlt
    rw [sizes] at hlt
    -- the object goes to the end of the list, and `Gc` works off all of it
    have hsize : sizes (s.retired_ m ++ [o]) = sizes (s.retired_ m) + o.size := by
      rw [sizes_append, sizes, sizes, Nat.add_zero]
    have hpush := pushBack_eq hcur o
    obtain ⟨L₁, D₁, hstep, hout, -⟩ := hgc m [] (s.pushBack o) hcur (by
      rw [hpush, after_retired, hsize]
      omega)
    rw [hpush, after_retired] at hout
    have hretire : RetireWithin C n s o = some (s.after m L₁ D₁) := by
      rw [RetireWithin, hcur, hstep, hpush, after_after, List.nil_append, List.nil_append]
    -- the list has not grown, so the bound is enough for the objects left
    have hle := hout.sizes
    obtain ⟨L, D, hrest, hout'⟩ := ih (s.after m L₁ D₁) hcur (by
      rw [after_retired]
      omega)
    rw [after_retired] at hout'
    refine ⟨L, D₁ ++ D, ?_, ?_⟩
    · rw [List.foldlM_cons, hretire]
      show List.foldlM (RetireWithin C n) (s.after m L₁ D₁) owned = _
      rw [hrest, after_after]
    · have happ := hout.append owned
      rw [List.append_assoc, List.singleton_append] at happ
      exact happ.trans hout'

/-- The induction over the bound: what is destroyed makes room for what it retires. -/
theorem gcWithin_spec (n : ℕ) : GcSpec C n := by
  induction n with
  | zero => exact fun _ _ _ _ hlt => absurd hlt (Nat.not_lt_zero _)
  | succ n ih =>
    intro m kept s hcur hlt
    cases hl : s.retired_ m with
    | nil =>
      refine ⟨[], [], ?_, Outcome.refl _, fun o ho => by cases ho⟩
      simp only [GcWithin, hl, State.after, List.nil_append, List.append_nil]
    | cons o rest =>
      rw [hl, sizes] at hlt
      have hsize := size_eq o
      by_cases hp : C.Protects o.addr
      -- a protected object is kept, and the loop goes on with the rest
      · obtain ⟨L, D, hrest, hout, hall⟩ := ih m (kept ++ [o]) (s.after m rest []) hcur (by
          rw [after_retired]
          omega)
        rw [after_retired] at hout
        refine ⟨o :: L, D, ?_, ⟨?_, ?_, ?_⟩, List.forall_mem_cons.mpr ⟨hp, hall⟩⟩
        · have hgc : GcWithin C (n + 1) m kept s =
              GcWithin C n m (kept ++ [o]) (s.after m rest []) := by
            simp only [GcWithin, hl, isProtected_iff.mpr hp, if_true, State.after, List.append_nil]
          rw [hgc, hrest, after_after, List.append_assoc, List.nil_append]
          rfl
        · rw [stays_cons_of_protected hp, stays_cons_of_protected hp, hout.stays]
        · rw [goes_cons_of_protected hp, goes_cons_of_protected hp, hout.goes]
        · rw [sizes, sizes]
          exact Nat.add_le_add_left hout.sizes _
      · -- the object is destroyed, and retires what it owns into the list
        obtain ⟨L₁, D₁, hretire, hout⟩ := retire_spec ih o.owned (s.after m rest [o.addr]) hcur (by
          rw [after_retired]
          omega)
        rw [after_retired] at hout
        have hle := hout.sizes
        rw [sizes_append] at hle
        -- then the loop goes on, with what the destructor has left
        obtain ⟨L, D, hloop, hout', hall⟩ := ih m kept
          ((s.after m rest [o.addr]).after m L₁ D₁) hcur (by
            rw [after_retired]
            omega)
        rw [after_retired] at hout'
        have hboth := hout.trans hout'
        refine ⟨L, o.addr :: (D₁ ++ D), ?_, ⟨?_, ?_, ?_⟩, hall⟩
        · have hgc : GcWithin C (n + 1) m kept s =
              (o.owned.foldlM (RetireWithin C n) (s.after m rest [o.addr])).bind
                (GcWithin C n m kept) := by
            simp only [GcWithin, hl, mt isProtected_iff.mp hp, State.after]
            rfl
          rw [hgc, hretire]
          show GcWithin C n m kept _ = _
          rw [hloop, after_after, after_after]
          rfl
        · rw [stays_cons_of_unprotected hp, hboth.stays]
        · rw [goes_cons_of_unprotected hp, hboth.goes, ← Multiset.cons_coe,
            ← Multiset.singleton_add, add_assoc]
        · rw [sizes]
          have hsizes := hboth.sizes
          rw [sizes_append] at hsizes
          omega

/-- A `Gc` that returns within a bound does the same within a larger one. -/
theorem gcWithin_succ : ∀ (n : ℕ) (m : θ) (kept : List (Object α)) (s s' : State θ α),
    GcWithin C n m kept s = some s' → GcWithin C (n + 1) m kept s = some s' := by
  intro n
  induction n with
  | zero =>
    intro m kept s s' h
    cases h
  | succ n ih =>
    -- the bound of the nested calls grows as well
    have hfold : ∀ (owned : List (Object α)) (s s' : State θ α),
        owned.foldlM (RetireWithin C n) s = some s' →
        owned.foldlM (RetireWithin C (n + 1)) s = some s' := by
      intro owned
      induction owned with
      | nil => exact fun s s' h => h
      | cons o owned ihowned =>
        intro s s' h
        rw [List.foldlM_cons] at h ⊢
        obtain ⟨s₁, h₁, h₂⟩ := Option.bind_eq_some_iff.mp h
        have h₁' : RetireWithin C (n + 1) s o = some s₁ := ih _ _ _ _ h₁
        rw [h₁']
        exact ihowned s₁ s' h₂
    intro m kept s s' h
    rw [GcWithin] at h ⊢
    split at h
    · exact h
    · rename_i o rest _
      dsimp only at h ⊢
      split at h
      · rename_i hp
        rw [if_pos hp]
        exact ih _ _ _ _ h
      · rename_i hp
        obtain ⟨s₁, h₁, h₂⟩ := Option.bind_eq_some_iff.mp h
        rw [if_neg hp, Option.bind_eq_some_iff]
        exact ⟨s₁, hfold _ _ _ h₁, ih _ _ _ _ h₂⟩

theorem gcWithin_mono {n k : ℕ} {m : θ} {kept : List (Object α)} {s s' : State θ α}
    (h : GcWithin C n m kept s = some s') (hnk : n ≤ k) : GcWithin C k m kept s = some s' := by
  induction hnk with
  | refl => exact h
  | step _ ih => exact gcWithin_succ _ _ _ _ _ ih

/-- The outermost `Gc`. -/
theorem gc_spec (s : State θ α) : ∃ L D,
    (∀ bound, sizes (s.retired_ s.current_mutator) < bound →
      GcWithin C bound s.current_mutator [] s = some (s.after s.current_mutator L D)) ∧
    (L : Multiset (Object α)) = C.stays (s.retired_ s.current_mutator) ∧
    (D : Multiset α) = C.goes (s.retired_ s.current_mutator) ∧
    ∀ o ∈ L, C.Protects o.addr := by
  obtain ⟨L, D, hgc, hout, hall⟩ := gcWithin_spec (C := C)
    (sizes (s.retired_ s.current_mutator) + 1) s.current_mutator [] s rfl (Nat.lt_succ_self _)
  obtain ⟨hstays, hgoes⟩ := stays_of_protected hall
  refine ⟨L, D, fun bound hlt => gcWithin_mono hgc hlt, ?_, ?_, hall⟩
  · rw [hout.stays, hstays]
  · rw [hout.goes, hgoes, add_zero]

/-! ## The destructor of the collector -/

omit [DecidableEq θ] [DecidableEq α] in
theorem not_protects_of_null (hnull : ∀ m i, C.hazard_ptrs_ m i = none) (addr : α) :
    ¬C.Protects addr := by
  rintro ⟨m, -, i, hslot⟩
  rw [hnull] at hslot
  cases hslot

omit [DecidableEq θ] in
mutual
theorem retiredBy_addrs (h : ∀ a, ¬C.Protects a) :
    ∀ o : Object α, (C.retiredBy o).map Object.addr = o.addrs
  | .mk addr owned => by
    rw [Collector.retiredBy, if_neg (h addr), Multiset.map_add,
      Multiset.map_singleton, retiredByAll_addrs h owned, Object.addr, Object.addrs]

theorem retiredByAll_addrs (h : ∀ a, ¬C.Protects a) :
    ∀ l : List (Object α), (C.retiredByAll l).map Object.addr = addrsOf l
  | [] => by
    rw [Collector.retiredByAll, Multiset.map_zero, addrsOf]
  | o :: l => by
    rw [Collector.retiredByAll, Multiset.map_add, retiredBy_addrs h o, retiredByAll_addrs h l,
      addrsOf]
end

/-- With nothing protected, `Gc` destroys every object of the forest and leaves nothing. -/
theorem gc_of_null (hnull : ∀ m i, C.hazard_ptrs_ m i = none) (s : State θ α) : ∃ D,
    Gc C s = some (s.after s.current_mutator [] D) ∧
    (D : Multiset α) = addrsOf (s.retired_ s.current_mutator) := by
  have hno := not_protects_of_null hnull
  obtain ⟨L, D, hgc, -, hgoes, hall⟩ := gc_spec (C := C) s
  -- what is left is protected, so nothing is
  have hnil : L = [] := by
    exact List.eq_nil_iff_forall_not_mem.mpr fun o ho => hno o.addr (hall o ho)
  subst hnil
  refine ⟨D, hgc _ (Nat.lt_succ_self _), ?_⟩
  rw [hgoes, Collector.goes, Multiset.filter_eq_self.mpr fun o _ => hno o.addr,
    retiredByAll_addrs hno]

/-- The loop of `~Collector` over the rest of the list. -/
theorem collect_of_null (hnull : ∀ m i, C.hazard_ptrs_ m i = none) (rest : List θ)
    (hnodup : rest.Nodup) : ∀ s : State θ α, ∃ s', C.collect rest s = some s' ∧
      (∀ m ∈ rest, s'.retired_ m = []) ∧ (∀ m, m ∉ rest → s'.retired_ m = s.retired_ m) ∧
      (s'.destroyed : Multiset α) =
        (s.destroyed : Multiset α) + (rest.map fun m => addrsOf (s.retired_ m)).sum := by
  induction rest with
  | nil =>
    intro s
    exact ⟨s, rfl, (fun m hm => by cases hm), (fun _ _ => rfl), (add_zero _).symm⟩
  | cons cur rest ih =>
    intro s
    rw [List.nodup_cons] at hnodup
    obtain ⟨D, hgc, hD⟩ := gc_of_null hnull { s with current_mutator := cur }
    obtain ⟨s', hrest, hnil, hframe, hdestroyed⟩ := ih hnodup.2
      (State.after { s with current_mutator := cur } cur [] D)
    -- the `Gc` on `cur` does not touch the other lists
    have hother : ∀ m, m ≠ cur →
        (State.after { s with current_mutator := cur } cur [] D).retired_ m = s.retired_ m :=
      fun m hm => Function.update_of_ne hm _ _
    refine ⟨s', ?_, fun m hm => ?_, fun m hm => ?_, ?_⟩
    · rw [Collector.collect, hgc]
      exact hrest
    -- `cur` does not occur again, so its list stays empty
    · rcases List.mem_cons.mp hm with rfl | hm
      · rw [hframe m hnodup.1, after_retired]
      · exact hnil m hm
    · rw [List.mem_cons, not_or] at hm
      rw [hframe m hm.2, hother m hm.1]
    · have hsum : (rest.map fun m => addrsOf
          ((State.after { s with current_mutator := cur } cur [] D).retired_ m)) =
          rest.map fun m => addrsOf (s.retired_ m) := by
        refine List.map_congr_left fun m hm => ?_
        rw [hother m fun heq => hnodup.1 (heq ▸ hm)]
      rw [hdestroyed, hsum, List.map_cons, List.sum_cons, State.after, ← Multiset.coe_add, hD,
        add_assoc]

end Spec

/-- **`Gc` conserves retired objects.** Whatever the list and the hazard slots, and however
the destructors retire into the list, the outermost `Gc` returns. Of the objects that were
or became retired it has destroyed each unprotected one once, and the list holds each
protected one once. With all slots null, `~Collector` leaves every list empty and has
destroyed every object below it once. -/
theorem gc_conserves (C : Collector θ α) (s : State θ α) :
    (∃ L D, (∀ bound, sizes (s.retired_ s.current_mutator) < bound →
        GcWithin C bound s.current_mutator [] s = some (s.after s.current_mutator L D)) ∧
      (D : Multiset α) = ((C.retiredByAll (s.retired_ s.current_mutator)).filter
        fun o => ¬C.Protects o.addr).map Object.addr ∧
      (L : Multiset (Object α)) = (C.retiredByAll (s.retired_ s.current_mutator)).filter
        fun o => C.Protects o.addr) ∧
    ((∀ m i, C.hazard_ptrs_ m i = none) → ∃ s', C.destructor s = some s' ∧
      (∀ m ∈ C.mutators, s'.retired_ m = []) ∧
      (s'.destroyed : Multiset α) = (s.destroyed : Multiset α) +
        (C.mutators.map fun m => addrsOf (s.retired_ m)).sum) := by
  constructor
  · obtain ⟨L, D, hgc, hstays, hgoes, -⟩ := gc_spec (C := C) s
    exact ⟨L, D, hgc, hgoes, hstays⟩
  · intro hnull
    obtain ⟨s', hs, hnil, -, hdestroyed⟩ := collect_of_null hnull C.mutators C.nodup s
    exact ⟨s', hs, hnil, hdestroyed⟩

/-- The first object owns the two others, and the one at 1 is protected. -/
def exampleCollector : Collector ℕ ℕ where
  mutators := [0]
  nodup := List.nodup_singleton 0
  hazard_ptrs_ _ i := if i.val = 0 then some 1 else none

def exampleRetired : State ℕ ℕ where
  retired_ _ := [.mk 0 [.mk 1 [.mk 3 []], .mk 2 []]]
  current_mutator := 0
  destroyed := []

theorem gc_conserves_protected : ∃ L D,
    Gc exampleCollector exampleRetired = some (exampleRetired.after 0 L D) ∧
    (D : Multiset ℕ) = {0, 2} ∧ (L : Multiset (Object ℕ)) = {.mk 1 [.mk 3 []]} := by
  obtain ⟨⟨L, D, hgc, hgoes, hstays⟩, -⟩ := gc_conserves exampleCollector exampleRetired
  exact ⟨L, D, hgc _ (Nat.lt_succ_self _), hgoes.trans rfl, hstays.trans rfl⟩

end Exe.Hazard
