/-
The slots of `Both` and `BothOk`: which of them have been constructed when the state the two
callbacks share is released.

`ManualStorage` has no flag of its own, and its destructor destroys a value. So when both
callbacks have run, each of the slots has to have been emplaced, once. The run tells: the
`Emplace` of a slot is a step of it. A callback that has been called is about to store, is
about to arrive, or has arrived (`Emplacing.calls`); who has been called with a value stores
it, and the error branch of `BothOk` stores nothing.
-/
import Exe.FutureNodes

set_option autoImplicit false

namespace Exe.Future

open Function (update)

universe u v

variable {V : Type u} {ρ : Type v}

/-! ## What a run has done at a node -/

/-- The instruction a step runs. -/
def stepped (t : Transition (State V ρ) (Action V ρ)) : Option (Instr V ρ) :=
  match t.act with
  | .start _ => none
  | .step i _ => t.pre.threads[i]?.bind List.head?

def Instr.isCall (n : ℕ) (side : Side) : Instr V ρ → Bool
  | .call n' s _ => n' = n ∧ s = side
  | _ => false

/-- A call with an error. -/
def Instr.isErrorCall (n : ℕ) (side : Side) : Instr V ρ → Bool
  | .call n' s v => n' = n ∧ s = side ∧ v.hasValue = false
  | _ => false

def Instr.isStore (n : ℕ) (side : Side) : Instr V ρ → Bool
  | .store n' s _ => n' = n ∧ s = side
  | _ => false

def Instr.isArrive (n : ℕ) (side : Side) : Instr V ρ → Bool
  | .arrive n' s _ => n' = n ∧ s = side
  | _ => false

def Instr.isRead (n : ℕ) : Instr V ρ → Bool
  | .setTuple n' => n' = n
  | _ => false

/-- How often a run has run an instruction with `p`. -/
def executed (p : Instr V ρ → Bool) (tr : List (Transition (State V ρ) (Action V ρ))) : ℕ :=
  tr.countP fun t => (stepped t).any p

/-- How many instructions with `p` are still to be run. -/
def waiting (p : Instr V ρ → Bool) (is : Multiset (Instr V ρ)) : ℕ := is.countP fun i => p i = true

abbrev calls (n : ℕ) (side : Side) (tr : List (Transition (State V ρ) (Action V ρ))) : ℕ :=
  executed (Instr.isCall n side) tr

abbrev errorCalls (n : ℕ) (side : Side) (tr : List (Transition (State V ρ) (Action V ρ))) : ℕ :=
  executed (Instr.isErrorCall n side) tr

/-- How often the slot of a side has been emplaced. -/
abbrev emplaced (n : ℕ) (side : Side) (tr : List (Transition (State V ρ) (Action V ρ))) : ℕ :=
  executed (Instr.isStore n side) tr

/-- Both callbacks of the node have run. -/
structure Released (n : ℕ) (tr : List (Transition (State V ρ) (Action V ρ)))
    (s : State V ρ) : Prop where
  called : ∀ side, 0 < calls n side tr
  done : ∀ i ∈ s.instrs, i.node ≠ some n

/-- Whenever the tuple was read, both slots had been emplaced before. -/
def ReadsEmplaced (n : ℕ) : List (Transition (State V ρ) (Action V ρ)) → Prop
  | [] => True
  | t :: tr => ReadsEmplaced n tr ∧
      ((stepped t).any (Instr.isRead n) = true → ∀ side, 0 < emplaced n side tr)

/-! ## The callbacks of a side, along a run -/

/-- Where the callback of a side is. -/
structure Emplacing (n : ℕ) (side : Side) (tr : List (Transition (State V ρ) (Action V ρ)))
    (h : Heap V ρ) (is : Multiset (Instr V ρ)) : Prop where
  called : calls n side tr = waiting (Instr.isStore n side) is +
    waiting (Instr.isArrive n side) is + (h.nodes n).arrived side
  stored : emplaced n side tr + waiting (Instr.isStore n side) is ≤ calls n side tr
  both : (h.nodes n).op = .both →
    emplaced n side tr + waiting (Instr.isStore n side) is = calls n side tr
  bothOk : (h.nodes n).op = .bothOk →
    emplaced n side tr + waiting (Instr.isStore n side) is + errorCalls n side tr = calls n side tr
  slot : (h.nodes n).slot side ≠ none → 0 < emplaced n side tr

section Steps

variable {n : ℕ} {side : Side} {tr : List (Transition (State V ρ) (Action V ρ))}
  {t : Transition (State V ρ) (Action V ρ)} {h : Heap V ρ} {out : Out V ρ} {i : Instr V ρ}
  {O : Multiset (Instr V ρ)}

theorem executed_cons (p : Instr V ρ → Bool) (ht : stepped t = some i) :
    executed p (t :: tr) = executed p tr + (p i).toNat := by
  rw [executed, List.countP_cons, ht, executed, Option.any_some]
  cases p i <;> rfl

theorem isCall_of_isErrorCall (hi : i.isErrorCall n side = true) : i.isCall n side = true := by
  cases i with
  | call n' s v =>
    simp only [Instr.isErrorCall, Instr.isCall, decide_eq_true_eq] at hi ⊢
    exact ⟨hi.1, hi.2.1⟩
  | _ => cases hi

theorem errorCalls_le (n : ℕ) (side : Side) (tr : List (Transition (State V ρ) (Action V ρ))) :
    errorCalls n side tr ≤ calls n side tr := by
  refine List.countP_mono_left fun t _ ht => ?_
  obtain ⟨i, hi, herr⟩ := (Option.any_eq_true _ _).mp ht
  exact (Option.any_eq_true _ _).mpr ⟨i, hi, isCall_of_isErrorCall herr⟩

theorem waiting_add (p : Instr V ρ → Bool) (is is' : Multiset (Instr V ρ)) :
    waiting p (is + is') = waiting p is + waiting p is' :=
  Multiset.countP_add _ _ _

@[simp] theorem waiting_zero (p : Instr V ρ → Bool) : waiting p 0 = 0 := rfl

theorem waiting_singleton (p : Instr V ρ → Bool) (i : Instr V ρ) :
    waiting p {i} = (p i).toNat := by
  rw [waiting, ← Multiset.cons_zero, Multiset.countP_cons, Multiset.countP_zero]
  cases p i <;> rfl

/-- Nothing of the kind is waiting. -/
theorem waiting_eq_zero {p : Instr V ρ → Bool} {is : Multiset (Instr V ρ)}
    (h : ∀ i ∈ is, p i = false) : waiting p is = 0 := by
  refine Multiset.countP_eq_zero.mpr fun i hi => ?_
  rw [h i hi]
  exact Bool.false_ne_true

/-- What a step has to do for the callback of a side to be where it is. -/
theorem Emplacing.move {h' : Heap V ρ} {new : Multiset (Instr V ρ)}
    (he : Emplacing n side tr h ({i} + O)) (ht : stepped t = some i)
    (hop : (h'.nodes n).op = (h.nodes n).op ∨ calls n side tr = 0 ∧ i.isCall n side = false)
    (hcalled : (i.isCall n side).toNat + (i.isStore n side).toNat + (i.isArrive n side).toNat +
        (h.nodes n).arrived side = waiting (Instr.isStore n side) new +
      waiting (Instr.isArrive n side) new + (h'.nodes n).arrived side)
    (hstored : waiting (Instr.isStore n side) new ≤ (i.isCall n side).toNat)
    (hboth : (h.nodes n).op = .both →
      waiting (Instr.isStore n side) new = (i.isCall n side).toNat)
    (hbothOk : (h.nodes n).op = .bothOk →
      waiting (Instr.isStore n side) new + (i.isErrorCall n side).toNat =
        (i.isCall n side).toNat)
    (hslot : (h'.nodes n).slot side ≠ none →
      (h.nodes n).slot side ≠ none ∨ i.isStore n side = true) :
    Emplacing n side (t :: tr) h' (new + O) := by
  obtain ⟨hcalls, hle, hbefore, hbeforeOk, hwritten⟩ := he
  simp only [waiting_add, waiting_singleton] at hcalls hle hbefore hbeforeOk
  have hcall : calls n side (t :: tr) = calls n side tr + _ := executed_cons _ ht
  have hstore : emplaced n side (t :: tr) = emplaced n side tr + _ := executed_cons _ ht
  have herror : errorCalls n side (t :: tr) = errorCalls n side tr + _ := executed_cons _ ht
  have herrors := errorCalls_le n side tr
  -- a node that is new has had no calls
  have hzero : calls n side tr = 0 ∧ i.isCall n side = false → ∀ x,
      emplaced n side tr + (i.isStore n side).toNat + (waiting (Instr.isStore n side) new +
        waiting (Instr.isStore n side) O) + x = calls n side tr + (i.isCall n side).toNat ↔
      x = 0 := by
    rintro ⟨hz, hno⟩ x
    rw [hno, Bool.toNat_false] at hstored
    rw [hno, Bool.toNat_false]
    omega
  refine ⟨?_, ?_, fun hb => ?_, fun hb => ?_, fun hs => ?_⟩
  · rw [hcall, waiting_add, waiting_add]
    omega
  · rw [hcall, hstore, waiting_add]
    omega
  · rw [hcall, hstore, waiting_add]
    obtain hop | hop := hop
    · have hnew := hboth (hop ▸ hb)
      have hold := hbefore (hop ▸ hb)
      omega
    · exact (hzero hop 0).mpr rfl
  · rw [hcall, hstore, herror, waiting_add]
    obtain hop | hop := hop
    · have hnew := hbothOk (hop ▸ hb)
      have hold := hbeforeOk (hop ▸ hb)
      omega
    · refine (hzero hop _).mpr ?_
      have hnone : i.isErrorCall n side = false := by
        by_contra herr
        rw [Bool.not_eq_false] at herr
        have hcalled := isCall_of_isErrorCall herr
        rw [hop.2] at hcalled
        cases hcalled
      rw [hnone, Bool.toNat_false]
      omega
  · rw [hstore]
    obtain hs | hs := hslot hs
    · have hpos := hwritten hs
      omega
    · rw [hs, Bool.toNat_true]
      omega

/-- An instruction that is no part of a callback of the node. -/
theorem no_part_of_node (hi : i.node ≠ some n) : i.isCall n side = false ∧
    i.isErrorCall n side = false ∧ i.isStore n side = false ∧ i.isArrive n side = false := by
  cases i with
  | call n' s v | store n' s v | arrive n' s v =>
    have hn : n' ≠ n := fun he => hi (congrArg some he)
    simp [Instr.isCall, Instr.isErrorCall, Instr.isStore, Instr.isArrive, hn]
  | _ => exact ⟨rfl, rfl, rfl, rfl⟩

/-- A step that is no part of a callback of the node. -/
theorem Emplacing.frame {h' : Heap V ρ} {new : Multiset (Instr V ρ)}
    (he : Emplacing n side tr h ({i} + O)) (ht : stepped t = some i) (hi : i.node ≠ some n)
    (hnew : ∀ j ∈ new, j.node ≠ some n ∨ ∃ s v, j = .call n s v)
    (hop : (h'.nodes n).op = (h.nodes n).op ∨ calls n side tr = 0)
    (harrived : (h'.nodes n).arrived side = (h.nodes n).arrived side)
    (hslot : (h'.nodes n).slot side ≠ none → (h.nodes n).slot side ≠ none) :
    Emplacing n side (t :: tr) h' (new + O) := by
  have hno := @no_part_of_node _ _ n side i hi
  have hzero : waiting (Instr.isStore n side) new = 0 ∧
      waiting (Instr.isArrive n side) new = 0 := by
    refine ⟨waiting_eq_zero fun j hj => ?_, waiting_eq_zero fun j hj => ?_⟩
    · obtain hj | ⟨s, v, rfl⟩ := hnew j hj
      · exact (no_part_of_node hj).2.2.1
      · rfl
    · obtain hj | ⟨s, v, rfl⟩ := hnew j hj
      · exact (no_part_of_node hj).2.2.2
      · rfl
  obtain ⟨hcall, herror, hstore, harrive⟩ := hno
  refine he.move ht (hop.imp id fun hz => ⟨hz, hcall⟩) ?_ ?_ (fun _ => ?_) (fun _ => ?_)
    fun hs => .inl (hslot hs)
  · rw [hcall, hstore, harrive, hzero.1, hzero.2, harrived]
    rfl
  · omega
  · rw [hzero.1, hcall]
    rfl
  · rw [hzero.1, hcall, herror]
    rfl

theorem arrived_eq_zero {m : Multiset Res} (hl : Ledger h m) (hn : h.nodeCount ≤ n) :
    (h.nodes n).arrived side = 0 := by
  have hnil : (h.nodes n).arrivals = [] := by
    by_contra hne
    have hlt := hl.lt_nodeCount_of_arrivals hne
    omega
  rw [ProtectedPromise.arrived, hnil]
  rfl

/-- A node that is to be made has had no calls. -/
theorem Emplacing.calls_eq_zero {m : Multiset Res} {is : Multiset (Instr V ρ)}
    (he : Emplacing n side tr h is) (hl : Ledger h m) (his : holdings is ≤ m)
    (hn : h.nodeCount ≤ n) : calls n side tr = 0 := by
  have hno : ∀ j ∈ is, ∀ r, r = .side n side ∨ r = .arriving n side → r ∉ j.res := by
    intro j hj r hr hmem
    have hmem : r ∈ m := Multiset.mem_of_le ((res_le_holdings hj).trans his) hmem
    have hlt : n < h.nodeCount := by
      refine hl.lt_nodeCount (s := side) ?_
      obtain rfl | rfl := hr
      · exact .inl hmem
      · exact .inr hmem
    omega
  have hstores : waiting (Instr.isStore n side) is = 0 := by
    refine waiting_eq_zero fun j hj => ?_
    have hres := hno j hj _ (.inl rfl)
    cases j with
    | store n' s v =>
      rw [Instr.isStore, decide_eq_false_iff_not]
      rintro ⟨rfl, rfl⟩
      exact hres (by simp [Instr.res])
    | _ => rfl
  have harrives : waiting (Instr.isArrive n side) is = 0 := by
    refine waiting_eq_zero fun j hj => ?_
    have hres := hno j hj _ (.inr rfl)
    cases j with
    | arrive n' s v =>
      rw [Instr.isArrive, decide_eq_false_iff_not]
      rintro ⟨rfl, rfl⟩
      exact hres (by simp [Instr.res])
    | _ => rfl
  have hcalls := he.called
  rw [hstores, harrives, arrived_eq_zero hl hn] at hcalls
  exact hcalls

theorem Emplacing.plain (hl : Ledger h (i.res + holdings O)) (he : Emplacing n side tr h ({i} + O))
    (ht : stepped t = some i) (hi : i.node = none) (hout : PlainOut i h out) :
    Emplacing n side (t :: tr) out.heap (out.instrs + O) := by
  have hnode : i.node ≠ some n := by
    rw [hi]
    exact Option.some_ne_none n ∘ Eq.symm
  have hnew : ∀ j ∈ out.instrs, j.node ≠ some n ∨ ∃ s v, j = .call n s v := by
    intro j hj
    have hplain := hout.2 j ((Multiset.mem_add.mp hj).imp Multiset.mem_coe.mp Multiset.mem_coe.mp)
    obtain hnone | ⟨n', s, v, rfl⟩ := hplain
    · rw [hnone]
      exact .inl (Option.some_ne_none n ∘ Eq.symm)
    · by_cases hn : n' = n
      · exact .inr ⟨s, v, by rw [hn]⟩
      · exact .inl fun he => hn (Option.some.inj he)
  obtain ⟨hnodes, -⟩ | ⟨op, cs, hnodes, -⟩ := hout.1
  · refine he.frame ht hnode hnew (.inl ?_) ?_ ?_ <;> rw [hnodes]
    exact id
  · by_cases hn : n = h.nodeCount
    · have hzero : calls n side tr = 0 := by
        refine he.calls_eq_zero hl ?_ hn.ge
        rw [holdings_add, holdings_singleton]
      have hnone : out.heap.nodes n = ⟨op, some cs, fun _ => none, 0, cs, []⟩ := by
        rw [hnodes, hn, Function.update_self]
      refine he.frame ht hnode hnew (.inr hzero) ?_ ?_
      · rw [hnone, arrived_eq_zero hl hn.ge]
        rfl
      · rw [hnone]
        exact fun hs => absurd rfl hs
    · have hsame : out.heap.nodes n = h.nodes n := by rw [hnodes, Function.update_of_ne hn]
      refine he.frame ht hnode hnew (.inl ?_) ?_ ?_ <;> rw [hsame]
      exact id

/-- A part of a callback changes its own node at most, and goes on with parts of the
callback. -/
theorem exec_node {n' : ℕ} {code : Expr V ρ} (hi : i.node = some n')
    (hstep : exec code h i = some out) : (∀ n, n ≠ n' → out.heap.nodes n = h.nodes n) ∧
      ∀ j ∈ out.instrs, j.node = some n' ∨ j.node = none := by
  have hne : ∀ (node : ProtectedPromise V) n, n ≠ n' → (h.setNode n' node).nodes n = h.nodes n :=
    fun node n hn => Function.update_of_ne hn _ _
  cases i with
  | call n s v =>
    obtain rfl := Option.some.inj hi
    obtain rfl := Option.some.inj hstep
    simp only [callStep]
    split <;> (try split) <;> refine ⟨fun n' hn => ?_, by simp [Instr.node]⟩ <;>
      first | rfl | exact hne _ _ hn
  | store n s v =>
    obtain rfl := Option.some.inj hi
    obtain rfl := Option.some.inj hstep
    exact ⟨hne _, by simp [Instr.node]⟩
  | arrive n s v =>
    obtain rfl := Option.some.inj hi
    obtain rfl := Option.some.inj hstep
    have hnext : ∀ (h' : Heap V ρ) (p : Prop) [Decidable p] (i : Instr V ρ), i.node = some n →
        ∀ j ∈ Out.instrs ⟨h', if p then [i] else [], []⟩, j.node = some n ∨ j.node = none := by
      intro h' p _ i hi j hj
      by_cases hp : p <;> simp [Out.instrs, hp] at hj
      rw [hj]
      exact .inl hi
    simp only [arriveStep]
    split
    · exact ⟨hne _, hnext _ _ _ rfl⟩
    · exact ⟨hne _, hnext _ _ _ rfl⟩
    · split <;> exact ⟨hne _, hnext _ _ _ rfl⟩
    · exact ⟨hne _, hnext _ _ _ rfl⟩
  | setTuple n =>
    obtain rfl := Option.some.inj hi
    obtain rfl := Option.some.inj hstep
    simp only [setTupleStep]
    split
    · exact ⟨hne _, by simp [Instr.node]⟩
    · exact ⟨fun _ _ => rfl, by simp⟩
  | setNode n v =>
    obtain rfl := Option.some.inj hi
    obtain rfl := Option.some.inj hstep
    simp only [setNodeStep]
    split
    · exact ⟨hne _, by simp [Instr.node]⟩
    · exact ⟨fun _ _ => rfl, by simp⟩
  | fail n =>
    obtain rfl := Option.some.inj hi
    obtain rfl := Option.some.inj hstep
    exact ⟨hne _, by simp⟩
  | _ => cases hi

/-- A step at another node. -/
theorem Emplacing.other {n' : ℕ} {h' : Heap V ρ} {new : Multiset (Instr V ρ)}
    (he : Emplacing n side tr h ({i} + O)) (ht : stepped t = some i) (hn : n ≠ n')
    (hi : i.node = some n') (hsame : h'.nodes n = h.nodes n)
    (hnew : ∀ j ∈ new, j.node = some n' ∨ j.node = none) :
    Emplacing n side (t :: tr) h' (new + O) := by
  refine he.frame ht ?_ (fun j hj => .inl ?_) (.inl ?_) ?_ ?_ <;> try rw [hsame]
  · rw [hi]
    exact fun he => hn (Option.some.inj he).symm
  · obtain hj | hj := hnew j hj <;> rw [hj]
    · exact fun he => hn (Option.some.inj he).symm
    · exact Option.some_ne_none n ∘ Eq.symm
  · exact id

theorem arrived_append (node : ProtectedPromise V) (state : ℕ) (s : Side) (v : Val V) :
    ProtectedPromise.arrived { node with state, arrivals := node.arrivals ++ [(s, v)] } side =
      node.arrived side + (decide (s = side)).toNat := by
  rw [ProtectedPromise.arrived, ProtectedPromise.arrived, List.map_append, List.count_append]
  by_cases hs : s = side <;> simp [hs]

/-- Nothing of the kind comes out of a list of one. -/
theorem waiting_list (p : Instr V ρ → Bool) (j : Instr V ρ) :
    waiting p (Out.instrs ⟨h, [j], []⟩) = (p j).toNat := by
  rw [Out.instrs, Multiset.coe_nil, add_zero, Multiset.coe_singleton, waiting_singleton]

theorem Emplacing.callStep {s : Side} {v : Val V} (he : Emplacing n side tr h ({.call n s v} + O))
    (ht : stepped t = some (.call n s v)) : Emplacing n side (t :: tr)
      (callStep (ρ := ρ) h n s v).heap ((callStep (ρ := ρ) h n s v).instrs + O) := by
  have hne : ∀ {a b : Concur} {P : Prop}, (h.nodes n).op = a → (h.nodes n).op = b → a ≠ b → P :=
    fun ha hb hab => absurd (ha.symm.trans hb) hab
  unfold Future.callStep
  cases hop : (h.nodes n).op with
  | both =>
    refine he.move ht (.inl rfl) ?_ ?_ (fun _ => ?_) (fun hb => hne hop hb (by decide)) .inl <;>
      simp [waiting_singleton, Instr.isCall, Instr.isStore, Instr.isArrive]
  | first =>
    refine he.move ht (.inl rfl) ?_ ?_ (fun hb => hne hop hb (by decide))
      (fun hb => hne hop hb (by decide)) .inl <;>
      simp [waiting_singleton, Instr.isCall, Instr.isStore, Instr.isArrive]
  | firstOk =>
    refine he.move ht (.inl rfl) ?_ ?_ (fun hb => hne hop hb (by decide))
      (fun hb => hne hop hb (by decide)) .inl <;>
      simp [waiting_singleton, Instr.isCall, Instr.isStore, Instr.isArrive]
  | bothOk =>
    dsimp only
    split
    · rename_i hv
      refine he.move ht (.inl rfl) ?_ ?_ (fun hb => hne hop hb (by decide)) (fun _ => ?_) .inl <;>
        simp [waiting_singleton, Instr.isCall, Instr.isErrorCall, Instr.isStore, Instr.isArrive, hv]
    · -- the error branch: it has arrived, and has stored nothing
      rename_i hv
      have hnone : ∀ p : Instr V ρ → Bool, p (.setNode n v) = false → p (.fail n) = false →
          ∀ h' : Heap V ρ, waiting p (Out.instrs ⟨h', [.setNode n v, .fail n], []⟩) = 0 := by
        intro p hset hfail h'
        refine waiting_eq_zero fun j hj => ?_
        obtain rfl | rfl : j = .setNode n v ∨ j = .fail n := by simpa [Out.instrs] using hj
        · exact hset
        · exact hfail
      have harrived : _ = (h.nodes n).arrived side + (decide (s = side)).toNat :=
        arrived_append (h.nodes n) (h.nodes n).state s v
      refine he.move ht (.inl ?_) ?_ ?_ (fun hb => hne hop hb (by decide)) (fun _ => ?_)
        fun hs => .inl ?_
      · simp only [nodes_setNode]
      · rw [hnone _ rfl rfl, hnone _ rfl rfl]
        simp only [nodes_setNode, harrived]
        simp [Instr.isCall, Instr.isStore, Instr.isArrive, Nat.add_comm]
      · rw [hnone _ rfl rfl]
        exact Nat.zero_le _
      · rw [hnone _ rfl rfl]
        simp [Instr.isCall, Instr.isErrorCall, hv]
      · simpa only [nodes_setNode] using hs

theorem Emplacing.storeStep {s : Side} {v : Val V}
    (he : Emplacing n side tr h ({.store n s v} + O)) (ht : stepped t = some (.store n s v)) :
    Emplacing n side (t :: tr)
      (h.setNode n { h.nodes n with slot := update (h.nodes n).slot s (some v) })
      (Out.instrs ⟨h, [.arrive n s v], []⟩ + O) := by
  refine he.move ht (.inl ?_) ?_ ?_ (fun _ => ?_) (fun _ => ?_) fun hs => ?_
  · rw [nodes_setNode]
  · rw [nodes_setNode, ProtectedPromise.arrived]
    simp [waiting_singleton, Instr.isCall, Instr.isStore, Instr.isArrive, ProtectedPromise.arrived]
  · simp [waiting_singleton, Instr.isStore]
  · simp [waiting_singleton, Instr.isCall, Instr.isStore]
  · simp [waiting_singleton, Instr.isCall, Instr.isErrorCall, Instr.isStore]
  · by_cases hside : side = s
    · exact .inr (by simp [Instr.isStore, hside])
    · rw [nodes_setNode] at hs
      dsimp only at hs
      rw [Function.update_of_ne hside] at hs
      exact .inl hs

theorem Emplacing.arriveStep {s : Side} {v : Val V}
    (he : Emplacing n side tr h ({.arrive n s v} + O)) (ht : stepped t = some (.arrive n s v)) :
    Emplacing n side (t :: tr) (arriveStep (ρ := ρ) h n s v).heap
      ((arriveStep (ρ := ρ) h n s v).instrs + O) := by
  -- the arrival, with the instruction that follows it if `p`
  have hgo : ∀ (w : Val V) (state : ℕ) (p : Prop) [Decidable p] (j : Instr V ρ),
      j = .setTuple n ∨ j = .setNode n v → Emplacing n side (t :: tr)
        (h.setNode n { h.nodes n with state, arrivals := (h.nodes n).arrivals ++ [(s, w)] })
        (Out.instrs ⟨h, if p then [j] else [], []⟩ + O) := by
    intro w state p _ j hj
    have hzero : ∀ q : Instr V ρ → Bool, q j = false →
        waiting q (Out.instrs ⟨h, if p then [j] else [], []⟩) = 0 := by
      intro q hq
      split
      · rw [waiting_list, hq]
        rfl
      · rfl
    have hstore : Instr.isStore n side j = false := by obtain rfl | rfl := hj <;> rfl
    have harrive : Instr.isArrive n side j = false := by obtain rfl | rfl := hj <;> rfl
    refine he.move ht (.inl ?_) ?_ ?_ (fun _ => ?_) (fun _ => ?_) fun hs => .inl ?_
    · rw [nodes_setNode]
    · rw [hzero _ hstore, hzero _ harrive, nodes_setNode, arrived_append]
      simp [Instr.isCall, Instr.isStore, Instr.isArrive, Nat.add_comm]
    · rw [hzero _ hstore]
      exact Nat.zero_le _
    · rw [hzero _ hstore]
      rfl
    · rw [hzero _ hstore]
      rfl
    · rwa [nodes_setNode] at hs
  unfold Future.arriveStep
  dsimp only
  split
  · exact hgo v _ _ _ (.inl rfl)
  · exact hgo v _ _ _ (.inr rfl)
  · split <;> exact hgo v _ _ _ (.inr rfl)
  · exact hgo (.ok v) _ _ _ (.inl rfl)

/-- The promise is set, or `state` is: nobody has stored or arrived. -/
theorem Emplacing.last {h' : Heap V ρ} {new : Multiset (Instr V ρ)}
    (he : Emplacing n side tr h ({i} + O)) (ht : stepped t = some i)
    (hi : i = .setTuple n ∨ (∃ v, i = .setNode n v) ∨ i = .fail n)
    (hop : (h'.nodes n).op = (h.nodes n).op)
    (harrivals : (h'.nodes n).arrivals = (h.nodes n).arrivals)
    (hslot : (h'.nodes n).slot = (h.nodes n).slot) (hnew : ∀ j ∈ new, j.node = none) :
    Emplacing n side (t :: tr) h' (new + O) := by
  have hzero : waiting (Instr.isStore n side) new = 0 ∧
      waiting (Instr.isArrive n side) new = 0 := by
    refine ⟨waiting_eq_zero fun j hj => ?_, waiting_eq_zero fun j hj => ?_⟩ <;>
      have hj := hnew j hj <;> cases j <;> first | rfl | cases hj
  refine he.move ht (.inl hop) ?_ ?_ (fun _ => ?_) (fun _ => ?_) fun hs => .inl (hslot ▸ hs)
  · have harrived : (h'.nodes n).arrived side = (h.nodes n).arrived side := by
      rw [ProtectedPromise.arrived, harrivals, ProtectedPromise.arrived]
    rw [hzero.1, hzero.2, harrived]
    obtain rfl | ⟨v, rfl⟩ | rfl := hi <;> rfl
  · rw [hzero.1]
    exact Nat.zero_le _
  · rw [hzero.1]
    obtain rfl | ⟨v, rfl⟩ | rfl := hi <;> rfl
  · rw [hzero.1]
    obtain rfl | ⟨v, rfl⟩ | rfl := hi <;> rfl

theorem Emplacing.exec {code : Expr V ρ} (hl : Ledger h (i.res + holdings O))
    (he : Emplacing n side tr h ({i} + O)) (ht : stepped t = some i)
    (hstep : exec code h i = some out) : Emplacing n side (t :: tr) out.heap (out.instrs + O) := by
  cases hi : i.node with
  | none => exact he.plain hl ht hi (exec_plain hi hstep)
  | some n' =>
    -- what a callback goes on with is a part of it, or is none
    have hnode := exec_node hi hstep
    by_cases hn : n = n'
    · subst hn
      cases i with
      | call n s v =>
        obtain rfl := Option.some.inj hi
        obtain rfl := Option.some.inj hstep
        exact he.callStep ht
      | store n s v =>
        obtain rfl := Option.some.inj hi
        obtain rfl := Option.some.inj hstep
        exact he.storeStep ht
      | arrive n s v =>
        obtain rfl := Option.some.inj hi
        obtain rfl := Option.some.inj hstep
        exact he.arriveStep ht
      | setTuple n =>
        obtain rfl := Option.some.inj hi
        obtain rfl := Option.some.inj hstep
        simp only [setTupleStep]
        split
        · refine he.last ht (.inl rfl) ?_ ?_ ?_ ?_ <;> simp [nodes_setNode, Instr.node]
        · refine he.last ht (.inl rfl) rfl rfl rfl ?_
          simp
      | setNode n v =>
        obtain rfl := Option.some.inj hi
        obtain rfl := Option.some.inj hstep
        simp only [setNodeStep]
        split
        · refine he.last ht (.inr (.inl ⟨v, rfl⟩)) ?_ ?_ ?_ ?_ <;> simp [nodes_setNode, Instr.node]
        · refine he.last ht (.inr (.inl ⟨v, rfl⟩)) rfl rfl rfl ?_
          simp
      | fail n =>
        obtain rfl := Option.some.inj hi
        obtain rfl := Option.some.inj hstep
        refine he.last ht (.inr (.inr rfl)) ?_ ?_ ?_ ?_
        all_goals simp [nodes_setNode]
      | _ => cases hi
    · exact he.other ht hn hi (hnode.1 n hn) hnode.2

end Steps

/-! ## Every run -/

section Runs

variable {tr : List (Transition (State V ρ) (Action V ρ))} {s : State V ρ}

theorem stepped_step {s s' : State V ρ} {t : ℕ} {code : Expr V ρ} {i : Instr V ρ}
    {rest : List (Instr V ρ)} (ht : s.threads[t]? = some (i :: rest)) :
    stepped ⟨s, .step t code, s'⟩ = some i := by
  change (s.threads[t]?).bind List.head? = some i
  rw [ht]
  rfl

theorem executed_start (p : Instr V ρ → Bool) {s s' : State V ρ} {e : Expr V ρ} :
    executed p (⟨s, .start e, s'⟩ :: tr) = executed p tr := by
  rw [executed, List.countP_cons]
  rfl

theorem emplacing_of_run (hr : (machine V ρ).Run tr s) (n : ℕ) (side : Side) :
    Emplacing n side tr s.heap s.instrs := by
  refine hr.invariant (I := fun tr s => Emplacing n side tr s.heap s.instrs) (fun s hinit => ?_)
    fun tr a s s' hs he hstep => ?_
  · obtain rfl := hinit
    exact ⟨rfl, Nat.le_refl 0, fun _ => rfl, fun _ => rfl, fun hs => absurd rfl hs⟩
  · have hl := ledger_of_reachable hs
    obtain ⟨e, rfl, hheap, hnew⟩ | ⟨t, code, i, rest, out, rfl, ht, hout, hheap, O, hold, hnew⟩ :=
      step_cases hstep
    · obtain ⟨hcalled, hstored, hboth, hbothOk, hslot⟩ := he
      have hwait : ∀ p : Instr V ρ → Bool, p (.eval e (.consume (.root s.heap.roots.length))) =
          false → waiting p s'.instrs = waiting p s.instrs := by
        intro p hp
        rw [hnew, waiting_add, waiting_singleton, hp, Bool.toNat_false, Nat.zero_add]
      have hstores := hwait (Instr.isStore n side) rfl
      have harrives := hwait (Instr.isArrive n side) rfl
      refine ⟨?_, ?_, fun hb => ?_, fun hb => ?_, fun hs => ?_⟩
      · rw [calls, executed_start, hstores, harrives, hheap]
        exact hcalled
      · rw [calls, emplaced, executed_start, executed_start, hstores]
        exact hstored
      · rw [calls, emplaced, executed_start, executed_start, hstores]
        exact hboth (by rwa [hheap] at hb)
      · rw [calls, emplaced, errorCalls, executed_start, executed_start, executed_start, hstores]
        exact hbothOk (by rwa [hheap] at hb)
      · rw [emplaced, executed_start]
        exact hslot (by rwa [hheap] at hs)
    · rw [hold] at hl he
      rw [holdings_add, holdings_singleton] at hl
      rw [hheap, hnew]
      exact he.exec hl (stepped_step ht) hout

/-- The tuple is read when both slots have been emplaced. -/
theorem readsEmplaced_of_run (hr : (machine V ρ).Run tr s) (n : ℕ) : ReadsEmplaced n tr := by
  induction hr with
  | init => trivial
  | @step tr s s' a hr hstep ih =>
    refine ⟨ih, fun hread side => ?_⟩
    obtain ⟨i, hi, hp⟩ := (Option.any_eq_true _ _).mp hread
    obtain ⟨e, rfl, -, -⟩ | ⟨t, code, i', rest, out, rfl, ht, hout, -, O, hold, -⟩ :=
      step_cases hstep
    · cases hi
    · obtain rfl : i = i' := Option.some.inj (hi.symm.trans (stepped_step ht))
      cases i with
      | setTuple n' =>
        obtain rfl : n' = n := by simpa [Instr.isRead] using hp
        have hslots := slots_of_reachable hr.reachable
        obtain ⟨x, v, w, hv, hw, -⟩ := hslots.instr (.setTuple n') (by rw [hold]; simp) n' rfl
        refine (emplacing_of_run hr n' side).slot ?_
        obtain rfl | rfl := Side.eq_or_eq_other x side
        · rw [hv]
          exact Option.some_ne_none v
        · rw [hw]
          exact Option.some_ne_none w
      | _ => cases hp

/-- When both callbacks have run, each of them has been called once, and has stored its value
unless it was called with an error. -/
theorem emplaced_of_released (hr : (machine V ρ).Run tr s) {n : ℕ} (hreleased : Released n tr s)
    (side : Side) : calls n side tr = 1 ∧
      ((s.heap.nodes n).op = .both → emplaced n side tr = 1) ∧
      ((s.heap.nodes n).op = .bothOk → emplaced n side tr + errorCalls n side tr = 1) := by
  have he := emplacing_of_run hr n side
  have hle := (ledger_of_reachable hr.reachable).side_le n side
  have hpos := hreleased.called side
  have hstores : waiting (Instr.isStore n side) s.instrs = 0 := by
    refine waiting_eq_zero fun j hj => ?_
    have hdone := hreleased.done j hj
    cases j with
    | store n' x v =>
      have hn : n' ≠ n := fun he => hdone (congrArg some he)
      simp [Instr.isStore, hn]
    | _ => rfl
  have harrives : waiting (Instr.isArrive n side) s.instrs = 0 := by
    refine waiting_eq_zero fun j hj => ?_
    have hdone := hreleased.done j hj
    cases j with
    | arrive n' x v =>
      have hn : n' ≠ n := fun he => hdone (congrArg some he)
      simp [Instr.isArrive, hn]
    | _ => rfl
  have hcalled := he.called
  have hone : calls n side tr = 1 := by omega
  refine ⟨hone, fun hop => ?_, fun hop => ?_⟩
  · have hboth := he.both hop
    omega
  · have hbothOk := he.bothOk hop
    omega

/-- **Each slot is emplaced once before the state is released, unless a callback of `BothOk`
has been called with an error.** No slot is read before, in any case. -/
theorem slots_emplaced_iff (hr : (machine V ρ).Run tr s) (n : ℕ)
    (hslots : (s.heap.nodes n).op.hasSlots = true) (hreleased : Released n tr s) :
    ((∀ side, emplaced n side tr = 1) ∧ ReadsEmplaced n tr) ↔
      (s.heap.nodes n).op = .both ∨ ∀ side, errorCalls n side tr = 0 := by
  constructor
  · rintro ⟨hone, -⟩
    cases hop : (s.heap.nodes n).op with
    | both => exact .inl rfl
    | bothOk =>
      refine .inr fun side => ?_
      have hsum := (emplaced_of_released hr hreleased side).2.2 hop
      have hside := hone side
      omega
    | _ =>
      rw [hop] at hslots
      cases hslots
  · intro hcases
    refine ⟨fun side => ?_, readsEmplaced_of_run hr n⟩
    obtain ⟨-, hboth, hbothOk⟩ := emplaced_of_released hr hreleased side
    cases hop : (s.heap.nodes n).op with
    | both => exact hboth hop
    | bothOk =>
      obtain hop' | hnone := hcases
      · rw [hop] at hop'
        cases hop'
      · have hsum := hbothOk hop
        rw [hnone side] at hsum
        omega
    | _ =>
      rw [hop] at hslots
      cases hslots

end Runs

/-! ## A leaf of `BothOk` fails -/

section Leaves

/-- `BothOk` of two leaves; the first one is set with the value of `c₁` in `a` steps, then the
second one with that of `c₂` in `b` steps. -/
def twoLeaves (c₁ c₂ : Expr ℕ Unit) (a b : ℕ) : List (Action ℕ Unit) :=
  .start (.concur .bothOk .contract .contract) ::
    (List.replicate 12 (.step 0 .contract) ++ List.replicate a (.step 1 c₁) ++
      List.replicate b (.step 2 c₂))

theorem run_nil : (machine ℕ Unit).Run [] ⟨.empty, []⟩ := .init rfl

theorem released_of_idle {tr : List (Transition (State ℕ Unit) (Action ℕ Unit))}
    {s : State ℕ Unit} {n : ℕ} (hfirst : 0 < calls n .first tr) (hsecond : 0 < calls n .second tr)
    (hidle : s.threads.all List.isEmpty = true) : Released n tr s := by
  refine ⟨fun side => ?_, fun i hi => ?_⟩
  · cases side
    · exact hfirst
    · exact hsecond
  · rw [instrs_of_idle hidle] at hi
    cases hi

/-- The first leaf fails, the second one does not: the slot of the first one has not been
emplaced when the state is released. -/
theorem failed_leaf_not_emplaced : ∃ tr s, (machine ℕ Unit).Run tr s ∧
    (s.heap.nodes 0).op = .bothOk ∧ Released 0 tr s ∧ emplaced 0 .first tr = 0 ∧
      emplaced 0 .second tr = 1 := by
  obtain ⟨tr, s, hr, hp⟩ := run_nil.record_any
    (twoLeaves (.value (.err (.plain 1))) (.value (.ok (.plain 2))) 14 10)
    (fun tr s => decide ((s.heap.nodes 0).op = .bothOk ∧ 0 < calls 0 .first tr ∧
      0 < calls 0 .second tr ∧ s.threads.all List.isEmpty = true ∧ emplaced 0 .first tr = 0 ∧
      emplaced 0 .second tr = 1)) (by decide +kernel)
  obtain ⟨hop, hfirst, hsecond, hidle, hemplaced⟩ := of_decide_eq_true hp
  exact ⟨tr, s, hr, hop, released_of_idle hfirst hsecond hidle, hemplaced⟩

/-- Two leaves that succeed. -/
theorem two_leaves_emplaced : ∃ tr s, (machine ℕ Unit).Run tr s ∧ Released 0 tr s ∧
    (((∀ side, emplaced 0 side tr = 1) ∧ ReadsEmplaced 0 tr) ↔
      (s.heap.nodes 0).op = .both ∨ ∀ side, errorCalls 0 side tr = 0) := by
  obtain ⟨tr, s, hr, hp⟩ := run_nil.record_any
    (twoLeaves (.value (.ok (.plain 1))) (.value (.ok (.plain 2))) 10 15)
    (fun tr s => decide ((s.heap.nodes 0).op = .bothOk ∧ 0 < calls 0 .first tr ∧
      0 < calls 0 .second tr ∧ s.threads.all List.isEmpty = true)) (by decide +kernel)
  obtain ⟨hop, hfirst, hsecond, hidle⟩ := of_decide_eq_true hp
  have hreleased := released_of_idle hfirst hsecond hidle
  exact ⟨tr, s, hr, hreleased, slots_emplaced_iff hr 0 (by rw [hop]; rfl) hreleased⟩

end Leaves

end Exe.Future
