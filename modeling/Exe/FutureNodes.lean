/-
What the callbacks of a concurrent combinator decide.

A node is the state two callbacks share. `Concur.outcome` says what its promise is to be set
with, from the callbacks that have made their atomic access, in this order; once it is
determined it does not change. The words of the code follow the arrivals (`Concur.Word`),
and the slots are written before they are read (`Slots`), in every run.

Who finds the outcome determined sets the promise, and nobody else does (`Settled`), as
long as no callback of `BothOk` gets an error after the other one got one (`Safe`): that
branch of the code does not look at `state`.
-/
import Exe.FutureLedger

set_option autoImplicit false

namespace Exe.Future

open Function (update)

universe u v

variable {V : Type u} {ρ : Type v}

/-! ## The outcome -/

/-- The tuple, from the value of a side and that of the other one. -/
def Side.tuple : Side → Val V → Val V → Val V
  | .first, v, w => .pair v w
  | .second, v, w => .pair w v

/-- What the promise is set with once these callbacks have arrived, in this order. -/
def Concur.outcome : Concur → List (Side × Val V) → Option (Val V)
  | .both, (s, v) :: (_, w) :: _ => some (s.tuple v w)
  | .first, (_, v) :: _ => some v
  | .firstOk, [(_, v)] => if v.hasValue then some v else none
  | .firstOk, (_, v) :: (_, w) :: _ => if v.hasValue then some v else some w
  | .bothOk, [(_, v)] => if v.hasValue then none else some v
  | .bothOk, (s, v) :: (_, w) :: _ =>
    if v.hasValue then if w.hasValue then some (.ok (s.tuple v.value w.value)) else some w
    else some v
  | _, _ => none

/-- Once determined, the outcome does not change. -/
theorem outcome_append {op : Concur} {l : List (Side × Val V)} {v : Val V}
    (h : op.outcome l = some v) (l' : List (Side × Val V)) : op.outcome (l ++ l') = some v := by
  match op, l, l' with
  | .both, _ :: _ :: _, _ => exact h
  | .first, _ :: _, _ => exact h
  | .firstOk, [_], [] => exact h
  | .firstOk, [a], _ :: _ =>
    simp only [Concur.outcome] at h
    split at h
    · rename_i hv
      simp only [List.singleton_append, Concur.outcome, if_pos hv]
      exact h
    · cases h
  | .firstOk, _ :: _ :: _, _ => exact h
  | .bothOk, [_], [] => exact h
  | .bothOk, [a], _ :: _ =>
    simp only [Concur.outcome] at h
    split at h
    · cases h
    · rename_i hv
      simp only [List.singleton_append, Concur.outcome, if_neg hv]
      exact h
  | .bothOk, _ :: _ :: _, _ => exact h
  | .both, [], _ => cases h
  | .both, [_], _ => cases h
  | .first, [], _ => cases h
  | .firstOk, [], _ => cases h
  | .bothOk, [], _ => cases h

/-- When both callbacks have arrived, the outcome is determined. -/
theorem outcome_isSome (op : Concur) (a b : Side × Val V) (l : List (Side × Val V)) :
    (op.outcome (a :: b :: l)).isSome = true := by
  cases op <;> simp only [Concur.outcome] <;> (try split) <;> (try split) <;> rfl

/-- The word of the code while somebody is still to arrive. -/
def Concur.Word : Concur → ℕ → List (Side × Val V) → Prop
  | .both, x, [] => x = 0
  | .both, x, [(s, _)] => x = s.bit
  | .first, x, [] => x = 0
  | .first, x, [_] => x = satisfied
  | .firstOk, x, [] => x = 0
  | .firstOk, x, [(_, v)] => x = if v.hasValue then satisfied else reportError
  | .bothOk, x, [] => x = 0
  | .bothOk, x, [(s, v)] => if v.hasValue then x = s.bit else x = 0 ∨ x = failBit
  | _, _, _ => True

/-! ## Who has arrived -/

section Arrivals

variable {h : Heap V ρ} {m : Multiset Res} {n : ℕ} {s : Side}

theorem Side.eq_or_eq_other (s t : Side) : t = s ∨ t = s.other := by
  cases s <;> cases t <;> decide

theorem Side.other_ne (s : Side) : s.other ≠ s := by
  cases s <;> decide

@[simp] theorem Side.other_other (s : Side) : s.other.other = s := by
  cases s <;> rfl

theorem Ledger.side_le (hl : Ledger h m) (n : ℕ) (s : Side) :
    m.count (.side n s) + m.count (.arriving n s) + h.stored (.side n s) + (h.nodes n).arrived s ≤
      1 := by
  have hbalance := hl.balance (.side n s)
  rw [count_carried_side, Heap.spent] at hbalance
  have hissued := Ledger.issued_le h (.side n s)
  omega

/-- When a callback arrives, the other one has arrived before, or nobody has. -/
theorem Ledger.arrivals_of_mem (hl : Ledger h m) (hs : .side n s ∈ m ∨ .arriving n s ∈ m) :
    (h.nodes n).arrivals = [] ∨ ∃ v, (h.nodes n).arrivals = [(s.other, v)] := by
  have hle := hl.side_le n s
  have hle' := hl.side_le n s.other
  have hpos : 0 < m.count (.side n s) + m.count (.arriving n s) := by
    obtain hs | hs := hs <;> have hpos := Multiset.count_pos.mpr hs <;> omega
  have hnone : (h.nodes n).arrived s = 0 := by omega
  have hone : (h.nodes n).arrived s.other ≤ 1 := by omega
  rw [ProtectedPromise.arrived] at hnone hone
  have hside : ∀ a ∈ (h.nodes n).arrivals, a.1 = s.other := by
    intro a ha
    refine (Side.eq_or_eq_other s a.1).resolve_left fun he => ?_
    exact List.count_eq_zero.mp hnone (he ▸ List.mem_map_of_mem ha)
  rcases hlist : (h.nodes n).arrivals with _ | ⟨⟨t, v⟩, _ | ⟨b, l⟩⟩
  · exact .inl rfl
  · rw [hlist] at hside
    have ht : t = s.other := hside (t, v) List.mem_cons_self
    exact .inr ⟨v, by rw [ht]⟩
  · rw [hlist] at hside hone
    have ht : t = s.other := hside (t, v) List.mem_cons_self
    have hb := hside b (List.mem_cons_of_mem _ List.mem_cons_self)
    simp only [List.map_cons, ht, hb, List.count_cons_self] at hone
    omega

/-- A callback arrives once. -/
theorem Ledger.not_arrived (hl : Ledger h m) (hs : .side n s ∈ m ∨ .arriving n s ∈ m) (v : Val V) :
    (s, v) ∉ (h.nodes n).arrivals := by
  obtain hnil | ⟨w, hone⟩ := hl.arrivals_of_mem hs
  · rw [hnil]
    exact List.not_mem_nil
  · rw [hone]
    intro hmem
    have he := List.mem_singleton.mp hmem
    exact s.other_ne (congrArg Prod.fst he).symm

end Arrivals

/-! ## What the other instructions do to the nodes -/

/-- The node a callback of which an instruction is a part of. -/
def Instr.node : Instr V ρ → Option ℕ
  | .call n _ _ => some n
  | .store n _ _ => some n
  | .arrive n _ _ => some n
  | .setTuple n => some n
  | .setNode n _ => some n
  | .fail n => some n
  | _ => none

/-- The call of a concurrent combinator. -/
def Instr.Calls (op : Concur) : Instr V ρ → Prop
  | .ret _ (.concurSnd op' _ _) => op' = op
  | _ => False

/-- No node has changed, but the call of a concurrent combinator makes a new one. -/
inductive NodesKept (i : Instr V ρ) (h h' : Heap V ρ) : Prop
  | same (hnodes : h'.nodes = h.nodes) (hcount : h'.nodeCount = h.nodeCount)
  | shared (op : Concur) (cs : ℕ)
      (hnodes : h'.nodes = update h.nodes h.nodeCount ⟨op, some cs, fun _ => none, 0, cs, []⟩)
      (hcount : h'.nodeCount = h.nodeCount + 1) (hcalls : i.Calls op)

/-- A callback of a node is called at most. -/
def Instr.IsPlain (i : Instr V ρ) : Prop := i.node = none ∨ ∃ n s v, i = .call n s v

section Plain

variable {h : Heap V ρ} {out : Out V ρ}

theorem submit_plain {rt : Runtime ρ} {i j : Instr V ρ} (hi : i.node = none)
    (hj : j ∈ (submit h rt i).now ∨ j ∈ (submit h rt i).later) : j.IsPlain := by
  cases rt with
  | inline =>
    obtain hj | hj := hj
    · rw [List.mem_singleton.mp hj]
      exact .inl hi
    · cases hj
  | executor r =>
    obtain hj | hj := hj
    · cases hj
    · rw [List.mem_singleton.mp hj]
      exact .inl hi

/-- What the rest of the machine knows of a step that is no part of a callback of a node. -/
def PlainOut (i : Instr V ρ) (h : Heap V ρ) (out : Out V ρ) : Prop :=
  NodesKept i h out.heap ∧ ∀ j, j ∈ out.now ∨ j ∈ out.later → j.IsPlain

theorem PlainOut.submit {rt : Runtime ρ} {i j : Instr V ρ} (hj : j.node = none) :
    PlainOut i h (submit h rt j) :=
  ⟨.same (by rw [submit_heap]) (by rw [submit_heap]), fun _ => submit_plain hj⟩

/-- The instructions of a list, none of which is part of a callback. -/
theorem PlainOut.of_lists {i : Instr V ρ} {h' : Heap V ρ} {now later : List (Instr V ρ)}
    (hkept : NodesKept i h h')
    (hnow : ∀ j ∈ now, j.node = none) (hlater : ∀ j ∈ later, j.node = none) :
    PlainOut i h ⟨h', now, later⟩ :=
  ⟨hkept, fun j hj => .inl (hj.elim (hnow j) (hlater j))⟩

theorem plain_evalStep (k : Cont V ρ) (e : Expr V ρ) :
    PlainOut (.eval e k) h (evalStep h k e) := by
  cases e with
  | spawn rt user =>
    have hsubmit : PlainOut (.eval (.spawn rt user) k) h
        (Future.submit (h.contract rt (.spawn rt user)) rt
          (.task ⟨h.size, rt, none⟩ user (.set h.size))) :=
      ⟨.same (by rw [submit_heap]; rfl) (by rw [submit_heap]; rfl), fun _ => submit_plain rfl⟩
    refine ⟨hsubmit.1, fun j hj => ?_⟩
    obtain hj | hj := hj
    · obtain hj | hj := List.mem_append.mp hj
      · exact hsubmit.2 j (.inl hj)
      · rw [List.mem_singleton.mp hj]
        exact .inl rfl
    · exact hsubmit.2 j (.inr hj)
  | _ => exact .of_lists (.same rfl rfl) (by simp [Instr.node]) (by simp [Instr.node])

theorem plain_retStep {v : Val V} {k : Cont V ρ} (hstep : retStep h v k = some out) :
    PlainOut (.ret v k) h out := by
  cases retMoves_of_step hstep with
  | concurSnd _ _ _ op k =>
    exact .of_lists (.shared op h.size rfl rfl rfl) (by simp [Instr.node]) (by simp)
  | pipe _ op k =>
    cases op <;> exact .of_lists (.same rfl rfl) (by simp [Instr.node]) (by simp)
  | _ => exact .of_lists (.same rfl rfl) (by simp [Instr.node]) (by simp)

theorem plain_callback {i : Instr V ρ} {cb : Callback V ρ} {v : Val V}
    (hstep : callback h cb v = some out) : PlainOut i h out := by
  cases cb with
  | root r =>
    obtain rfl := Option.some.inj hstep
    exact .of_lists (.same rfl rfl) (by simp) (by simp)
  | forward promise =>
    obtain rfl := Option.some.inj hstep
    exact .of_lists (.same rfl rfl) (by simp [Instr.node]) (by simp)
  | concur n side =>
    obtain rfl := Option.some.inj hstep
    refine ⟨.same rfl rfl, fun j hj => ?_⟩
    obtain hj | hj := hj
    · exact .inr ⟨n, side, v, List.mem_singleton.mp hj⟩
    · cases hj
  | pipe op rt promise =>
    cases op with
    | via rt => cases hstep
    | map user =>
      obtain rfl := Option.some.inj hstep
      exact .submit rfl
    | after delay =>
      obtain rfl := Option.some.inj hstep
      exact .of_lists (.same rfl rfl) (by simp) (by simp [Instr.node])
    | flatten =>
      simp only [callback, pipeCallback] at hstep
      split at hstep
      · split at hstep
        · obtain rfl := Option.some.inj hstep
          exact .of_lists (.same rfl rfl) (by simp [Instr.node]) (by simp)
        · cases hstep
      · cases hstep
    | _ =>
      simp only [callback, pipeCallback] at hstep
      split at hstep <;> obtain rfl := Option.some.inj hstep
      all_goals first
        | exact .submit rfl
        | exact .of_lists (.same rfl rfl) (by simp [Instr.node]) (by simp)

theorem exec_plain {i : Instr V ρ} {code : Expr V ρ} (hi : i.node = none)
    (hstep : exec code h i = some out) : PlainOut i h out := by
  cases i with
  | eval e k =>
    obtain rfl := Option.some.inj hstep
    exact plain_evalStep k e
  | ret v k => exact plain_retStep hstep
  | rendezvous cs =>
    cases rendezvousMoves_of_step hstep with
    | call _ _ ho =>
      obtain ⟨hkept, hplain⟩ := plain_callback ho
      refine ⟨?_, fun j hj => ?_⟩
      · cases hkept with
        | same hnodes hcount => exact .same hnodes hcount
        | shared op cs hnodes hcount hcalls => exact .shared op cs hnodes hcount hcalls
      · obtain hj | hj := hj
        · obtain hj | hj := List.mem_append.mp hj
          · exact hplain j (.inl hj)
          · rw [List.mem_singleton.mp hj]
            exact .inl rfl
        · exact hplain j (.inr hj)
    | crash => exact .of_lists (.same rfl rfl) (by simp) (by simp)
  | produced cs =>
    obtain rfl := Option.some.inj hstep
    refine .of_lists (.same rfl rfl) (fun j hj => ?_) (by simp)
    split at hj
    · rw [List.mem_singleton.mp hj]
      rfl
    · cases hj
  | consumed cs =>
    obtain rfl := Option.some.inj hstep
    refine .of_lists (.same rfl rfl) (fun j hj => ?_) (by simp)
    split at hj
    · rw [List.mem_singleton.mp hj]
      rfl
    · cases hj
  | call | store | arrive | setTuple | setNode | fail => cases hi
  | _ =>
    obtain rfl := Option.some.inj hstep
    exact .of_lists (.same rfl rfl) (by simp [Instr.node]) (by simp)

end Plain

/-! ## Slots are written before they are read -/

def Concur.hasSlots : Concur → Bool
  | .both => true
  | .bothOk => true
  | _ => false

/-- The slot of who has arrived with a value. -/
def ProtectedPromise.Stored (node : ProtectedPromise V) (s : Side) (v : Val V) : Prop :=
  match node.op with
  | .both => node.slot s = some v
  | .bothOk => v.hasValue = true → ∃ w, v = .ok w ∧ node.slot s = some w
  | _ => True

/-- Both values are there. -/
def ProtectedPromise.Paired (node : ProtectedPromise V) : Prop :=
  ∃ s v w, node.slot s = some v ∧ node.slot s.other = some w ∧
    (node.op = .both ∧ node.arrivals = [(s, v), (s.other, w)] ∨
      node.op = .bothOk ∧ node.arrivals = [(s, .ok v), (s.other, .ok w)])

/-- What an instruction relies on at its node. -/
def Instr.SlotOk (node : ProtectedPromise V) : Instr V ρ → Prop
  | .store _ _ _ => node.op.hasSlots = true
  | .arrive _ s v => node.op.hasSlots = true → node.slot s = some v
  | .setTuple _ => node.Paired
  | .fail _ => node.op = .bothOk ∧ ∃ a ∈ node.arrivals, a.2.hasValue = false
  | _ => True

structure Slots (h : Heap V ρ) (is : Multiset (Instr V ρ)) : Prop where
  word : ∀ n, (h.nodes n).op.Word (h.nodes n).state (h.nodes n).arrivals
  slot : ∀ n s v, (s, v) ∈ (h.nodes n).arrivals → (h.nodes n).Stored s v
  owner : ∀ n p, (h.nodes n).promise = some p → p = (h.nodes n).owner
  instr : ∀ i ∈ is, ∀ n, i.node = some n → i.SlotOk (h.nodes n)

section SlotSteps

variable {h h' : Heap V ρ} {out : Out V ρ} {i : Instr V ρ} {O : Multiset (Instr V ρ)} {n : ℕ}
  {s : Side} {v : Val V}

theorem Ledger.lt_nodeCount_of_arrivals {m : Multiset Res} (hl : Ledger h m)
    (ha : (h.nodes n).arrivals ≠ []) : n < h.nodeCount := by
  obtain ⟨⟨s, v⟩, l, hlist⟩ := List.exists_cons_of_ne_nil ha
  have hbalance := hl.balance (.side n s)
  have hpos : 0 < (h.nodes n).arrived s := by
    rw [ProtectedPromise.arrived, hlist, List.map_cons, List.count_cons_self]
    omega
  simp only [Heap.spent, Heap.issued] at hbalance
  by_contra hlt
  rw [if_neg hlt] at hbalance
  omega

theorem paired_length {node : ProtectedPromise V} (hp : node.Paired) :
    node.arrivals.length = 2 := by
  obtain ⟨s, v, w, -, -, ⟨-, ha⟩ | ⟨-, ha⟩⟩ := hp <;> rw [ha] <;> rfl

/-- Whatever is a part of a callback, its node has been made. -/
theorem Slots.lt_nodeCount {m : Multiset Res} (hl : Ledger h m) (hi : i.res ≤ m)
    (hok : i.SlotOk (h.nodes n)) (hn : i.node = some n) (hset : ∀ w, i ≠ .setNode n w) :
    n < h.nodeCount := by
  cases i with
  | call n' s v =>
    obtain rfl := Option.some.inj hn
    exact hl.lt_nodeCount (s := s) (.inl (Multiset.mem_of_le hi (by simp [Instr.res])))
  | store n' s v =>
    obtain rfl := Option.some.inj hn
    exact hl.lt_nodeCount (s := s) (.inl (Multiset.mem_of_le hi (by simp [Instr.res])))
  | arrive n' s v =>
    obtain rfl := Option.some.inj hn
    exact hl.lt_nodeCount (s := s) (.inr (Multiset.mem_of_le hi (by simp [Instr.res])))
  | setTuple n' =>
    refine hl.lt_nodeCount_of_arrivals fun hnil => ?_
    have hlen := paired_length hok
    rw [hnil] at hlen
    cases hlen
  | setNode n' w =>
    obtain rfl := Option.some.inj hn
    exact absurd rfl (hset w)
  | fail n' =>
    refine hl.lt_nodeCount_of_arrivals fun hnil => ?_
    obtain ⟨-, a, ha, -⟩ := hok
    rw [hnil] at ha
    cases ha
  | _ => cases hn

/-- A step that leaves the nodes alone. -/
theorem Slots.plain (hl : Ledger h (i.res + holdings O)) (hs : Slots h ({i} + O))
    (hout : PlainOut i h out) : Slots out.heap (out.instrs + O) := by
  have hnew : ∀ j ∈ out.instrs, ∀ node : ProtectedPromise V,
      j.SlotOk node := by
    intro j hj node
    have hplain := hout.2 j ((Multiset.mem_add.mp hj).imp Multiset.mem_coe.mp Multiset.mem_coe.mp)
    obtain hnone | ⟨n, s, v, rfl⟩ := hplain
    · cases j <;> trivial
    · trivial
  have hold : ∀ j ∈ O, ∀ n, j.node = some n → j.SlotOk (h.nodes n) := by
    intro j hj
    exact hs.instr j (Multiset.mem_add.mpr (.inr hj))
  obtain ⟨hnodes, -⟩ | ⟨op, cs, hnodes, -⟩ := hout.1
  · refine ⟨?_, ?_, ?_, fun j hj n hn => ?_⟩
    · rw [hnodes]
      exact hs.word
    · rw [hnodes]
      exact hs.slot
    · rw [hnodes]
      exact hs.owner
    · obtain hj | hj := Multiset.mem_add.mp hj
      · exact hnew j hj _
      · rw [hnodes]
        exact hold j hj n hn
  · -- the new node is nobody's yet
    have hcases : ∀ n, (n = h.nodeCount ∧
        out.heap.nodes n = ⟨op, some cs, fun _ => none, 0, cs, []⟩) ∨
        n ≠ h.nodeCount ∧ out.heap.nodes n = h.nodes n := by
      intro n
      rw [hnodes]
      by_cases hn : n = h.nodeCount
      · exact .inl ⟨hn, by rw [hn, Function.update_self]⟩
      · exact .inr ⟨hn, Function.update_of_ne hn _ _⟩
    refine ⟨fun n => ?_, fun n s v ha => ?_, fun n p hp => ?_, fun j hj n hn => ?_⟩
    · obtain ⟨-, hn⟩ | ⟨-, hn⟩ := hcases n <;> rw [hn]
      · cases op <;> rfl
      · exact hs.word n
    · obtain ⟨-, hn⟩ | ⟨-, hn⟩ := hcases n <;> rw [hn] at ha ⊢
      · cases ha
      · exact hs.slot n s v ha
    · obtain ⟨-, hn⟩ | ⟨-, hn⟩ := hcases n <;> rw [hn] at hp ⊢
      · exact (Option.some.inj hp).symm
      · exact hs.owner n p hp
    · obtain hj | hj := Multiset.mem_add.mp hj
      · exact hnew j hj _
      · have hle : j.res ≤ i.res + holdings O :=
          le_trans (res_le_holdings hj) (Multiset.le_add_left _ _)
        by_cases hset : ∃ w, j = .setNode n w
        · obtain ⟨w, rfl⟩ := hset
          trivial
        · have hlt := Slots.lt_nodeCount hl hle (hold j hj n hn) hn fun w he => hset ⟨w, he⟩
          obtain ⟨he, -⟩ | ⟨-, he⟩ := hcases n
          · omega
          · rw [he]
            exact hold j hj n hn

/-- A step at node `n`. -/
theorem Slots.change {node : ProtectedPromise V} {new : Multiset (Instr V ρ)}
    (hs : Slots h ({i} + O)) (hnodes : h'.nodes = update h.nodes n node)
    (hword : node.op.Word node.state node.arrivals)
    (hslot : ∀ s v, (s, v) ∈ node.arrivals → node.Stored s v)
    (howner : ∀ p, node.promise = some p → p = node.owner)
    (hother : ∀ j ∈ O, j.node = some n → j.SlotOk node)
    (hnew : ∀ j ∈ new, ∀ n', j.node = some n' → n' = n ∧ j.SlotOk node) :
    Slots h' (new + O) := by
  have hcases : ∀ n', (n' = n ∧ h'.nodes n' = node) ∨ n' ≠ n ∧ h'.nodes n' = h.nodes n' := by
    intro n'
    rw [hnodes]
    by_cases hn : n' = n
    · exact .inl ⟨hn, by rw [hn, Function.update_self]⟩
    · exact .inr ⟨hn, Function.update_of_ne hn _ _⟩
  refine ⟨fun n' => ?_, fun n' s v ha => ?_, fun n' p hp => ?_, fun j hj n' hn => ?_⟩
  · obtain ⟨-, he⟩ | ⟨-, he⟩ := hcases n' <;> rw [he]
    · exact hword
    · exact hs.word n'
  · obtain ⟨-, he⟩ | ⟨-, he⟩ := hcases n' <;> rw [he] at ha ⊢
    · exact hslot s v ha
    · exact hs.slot n' s v ha
  · obtain ⟨-, he⟩ | ⟨-, he⟩ := hcases n' <;> rw [he] at hp ⊢
    · exact howner p hp
    · exact hs.owner n' p hp
  · obtain hj | hj := Multiset.mem_add.mp hj
    · obtain ⟨rfl, hok⟩ := hnew j hj n' hn
      obtain ⟨-, he⟩ | ⟨hne, -⟩ := hcases n'
      · rw [he]
        exact hok
      · exact absurd rfl hne
    · obtain ⟨rfl, he⟩ | ⟨-, he⟩ := hcases n' <;> rw [he]
      · exact hother j hj hn
      · exact hs.instr j (Multiset.mem_add.mpr (.inr hj)) n' hn

/-- A side is in one place. -/
theorem Ledger.side_unique {x : Res} (hl : Ledger h ({x} + holdings O))
    (hx : x = .side n s ∨ x = .arriving n s) {j : Instr V ρ} (hj : j ∈ O) :
    j.res ≠ {.side n s} ∧ j.res ≠ {.arriving n s} := by
  have hle := hl.side_le n s
  have hcount : ∀ r, ({x} + holdings O).count r = ({x} : Multiset Res).count r +
      (holdings O).count r := fun r => Multiset.count_add _ _ _
  have hone : 1 ≤ ({x} : Multiset Res).count (.side n s) +
      ({x} : Multiset Res).count (.arriving n s) := by
    obtain rfl | rfl := hx <;> simp
  rw [hcount, hcount] at hle
  have hmem := res_le_holdings hj
  refine ⟨fun he => ?_, fun he => ?_⟩
  · rw [he] at hmem
    have hpos := Multiset.count_le_of_le (.side n s) hmem
    rw [Multiset.count_singleton_self] at hpos
    omega
  · rw [he] at hmem
    have hpos := Multiset.count_le_of_le (.arriving n s) hmem
    rw [Multiset.count_singleton_self] at hpos
    omega

/-- Nobody reads a pair as long as a side is to come. -/
theorem not_paired {m : Multiset Res} (hl : Ledger h m)
    (hx : .side n s ∈ m ∨ .arriving n s ∈ m) : ¬(h.nodes n).Paired := by
  intro hp
  have hlen := paired_length hp
  obtain hnil | ⟨w, hone⟩ := hl.arrivals_of_mem hx
  · rw [hnil] at hlen
    cases hlen
  · rw [hone] at hlen
    cases hlen

/-- A callback arrives at a node: what the others rely on there. -/
theorem slotOk_of_arrival {x : Res} (hl : Ledger h ({x} + holdings O))
    (hx : x = .side n s ∨ x = .arriving n s) {state : ℕ} {j : Instr V ρ}
    (hok : j.SlotOk (h.nodes n)) : j.SlotOk { h.nodes n with
      state, arrivals := (h.nodes n).arrivals ++ [(s, v)] } := by
  have hmem : .side n s ∈ ({x} + holdings O) ∨ .arriving n s ∈ ({x} + holdings O) := by
    obtain rfl | rfl := hx
    · exact .inl (by simp)
    · exact .inr (by simp)
  cases j with
  | setTuple n' => exact absurd hok (not_paired hl hmem)
  | fail n' =>
    obtain ⟨hop, a, ha, herr⟩ := hok
    exact ⟨hop, a, List.mem_append_left _ ha, herr⟩
  | _ => exact hok

theorem word_append (op : Concur) (a b : Side × Val V) (x : ℕ) : op.Word x ([a] ++ [b]) := by
  cases op <;> trivial

theorem stored_append {node : ProtectedPromise V} {state : ℕ}
    (hold : ∀ s v, (s, v) ∈ node.arrivals → node.Stored s v) (hnew : node.Stored s v) :
    ∀ t w, (t, w) ∈ node.arrivals ++ [(s, v)] → ProtectedPromise.Stored
      { node with state, arrivals := node.arrivals ++ [(s, v)] } t w := by
  intro t w hmem
  obtain hmem | hmem := List.mem_append.mp hmem
  · exact hold t w hmem
  · obtain ⟨rfl, rfl⟩ := Prod.mk.inj (List.mem_singleton.mp hmem)
    exact hnew

theorem Slots.callStep (hl : Ledger h ({.side n s} + holdings O))
    (hs : Slots h ({.call n s v} + O)) :
    Slots (callStep (ρ := ρ) h n s v).heap
      ((callStep (ρ := ρ) h n s v).instrs + O) := by
  have hold : ∀ j ∈ O, j.node = some n → j.SlotOk (h.nodes n) := fun j hj =>
    hs.instr j (Multiset.mem_add.mpr (.inr hj)) n
  have hsame : h.nodes = update h.nodes n (h.nodes n) := (Function.update_eq_self n _).symm
  -- nothing happens at the node: the next instruction is about to act on it
  have hgo : ∀ j : Instr V ρ, j.node = some n → j.SlotOk (h.nodes n) →
      Slots h (([j] : List (Instr V ρ)) + ([] : List (Instr V ρ)) + O) := by
    intro j hj hok
    refine hs.change hsame (hs.word n) (hs.slot n) (hs.owner n) hold fun i hi n' hn' => ?_
    have hij : i = j := by simpa using hi
    subst hij
    exact ⟨Option.some.inj (hn'.symm.trans hj), hok⟩
  unfold Future.callStep
  cases hop : (h.nodes n).op with
  | both => exact hgo _ rfl (by rw [Instr.SlotOk, hop]; rfl)
  | first => exact hgo _ rfl fun hhas => by rw [hop] at hhas; cases hhas
  | firstOk => exact hgo _ rfl fun hhas => by rw [hop] at hhas; cases hhas
  | bothOk =>
    dsimp only
    split
    · exact hgo _ rfl (by rw [Instr.SlotOk, hop]; rfl)
    · rename_i herr
      refine hs.change rfl ?_ ?_ (hs.owner n) (fun j hj hn => ?_) fun j hj n' hn' => ?_
      · have hword := hs.word n
        obtain hnil | ⟨w, hone⟩ := hl.arrivals_of_mem (n := n) (s := s) (.inl (by simp))
        · simp only [hnil, hop, List.nil_append, Concur.Word, if_neg herr] at hword ⊢
          exact .inl hword
        · rw [hone]
          exact word_append _ _ _ _
      · refine stored_append (hs.slot n) ?_
        simp only [ProtectedPromise.Stored, hop]
        exact fun hval => absurd hval herr
      · exact slotOk_of_arrival hl (.inl rfl) (hold j hj hn)
      · obtain rfl | rfl : j = .setNode n v ∨ j = .fail n := by simpa using hj
        · exact ⟨(Option.some.inj hn').symm, trivial⟩
        · refine ⟨(Option.some.inj hn').symm, hop, (s, v), by simp, ?_⟩
          exact Bool.not_eq_true _ ▸ herr

theorem Slots.storeStep (hl : Ledger h ({.side n s} + holdings O))
    (hs : Slots h ({.store n s v} + O)) :
    Slots (h.setNode n { h.nodes n with slot := update (h.nodes n).slot s (some v) })
      (([.arrive n s v] : List (Instr V ρ)) + ([] : List (Instr V ρ)) + O) := by
  have hmem : .side n s ∈ ({.side n s} + holdings O : Multiset Res) := by simp
  have hkeep : ∀ t, t ≠ s → update (h.nodes n).slot s (some v) t = (h.nodes n).slot t :=
    fun t ht => Function.update_of_ne ht _ _
  refine hs.change rfl (hs.word n) (fun t w ha => ?_) (hs.owner n) (fun j hj hn => ?_)
    fun j hj n' hn' => ?_
  · -- who has arrived is on the other side
    have ht : t ≠ s := by
      rintro rfl
      exact hl.not_arrived (.inl hmem) w ha
    have hold := hs.slot n t w ha
    simp only [ProtectedPromise.Stored, hkeep t ht] at hold ⊢
    exact hold
  · have hold := hs.instr j (Multiset.mem_add.mpr (.inr hj)) n hn
    cases j with
    | arrive n' t w =>
      obtain rfl := Option.some.inj hn
      have ht : t ≠ s := by
        rintro rfl
        exact (hl.side_unique (.inl rfl) hj).2 rfl
      intro hhas
      exact (hkeep t ht).trans (hold hhas)
    | setTuple n' => exact absurd hold (not_paired hl (.inl hmem))
    | _ => exact hold
  · obtain rfl : j = .arrive n s v := by simpa using hj
    exact ⟨(Option.some.inj hn').symm, fun _ => Function.update_self s _ _⟩

/-- Who finds the bit of the other side finds both values. -/
theorem paired_of_arrive {w : Val V} {state : ℕ}
    (hl : Ledger h ({.arriving n s} + holdings O)) (hs : Slots h ({.arrive n s v} + O))
    (hop : (h.nodes n).op = .both ∧ w = v ∨ (h.nodes n).op = .bothOk ∧ w = .ok v)
    (hword : (h.nodes n).state = s.other.bit) : ProtectedPromise.Paired { h.nodes n with
      state, arrivals := (h.nodes n).arrivals ++ [(s, w)] } := by
  have hmine : (h.nodes n).slot s = some v := by
    refine hs.instr (.arrive n s v) (by simp) n rfl ?_
    obtain ⟨hop, -⟩ | ⟨hop, -⟩ := hop <;> rw [hop] <;> rfl
  have hx := hs.word n
  have hbit : s.other.bit ≠ 0 ∧ s.other.bit ≠ failBit := by cases s <;> decide
  rw [hword] at hx
  obtain hnil | ⟨u, hone⟩ := hl.arrivals_of_mem (n := n) (s := s) (.inr (by simp))
  · exfalso
    rw [hnil] at hx
    obtain ⟨hop, -⟩ | ⟨hop, -⟩ := hop <;> rw [hop] at hx <;> exact hbit.1 hx
  · have hstored := hs.slot n s.other u (by rw [hone]; exact List.mem_cons_self)
    obtain ⟨hop, rfl⟩ | ⟨hop, rfl⟩ := hop
    · simp only [ProtectedPromise.Stored, hop] at hstored
      refine ⟨s.other, u, w, hstored, by rw [Side.other_other]; exact hmine, .inl ⟨hop, ?_⟩⟩
      simp [hone]
    · simp only [ProtectedPromise.Stored, hop] at hstored
      rw [hone, hop] at hx
      simp only [Concur.Word] at hx
      by_cases hu : u.hasValue = true
      · obtain ⟨u, rfl, hslot⟩ := hstored hu
        refine ⟨s.other, u, v, hslot, by rw [Side.other_other]; exact hmine, .inr ⟨hop, ?_⟩⟩
        simp [hone]
      · rw [if_neg hu] at hx
        obtain hx | hx := hx
        · exact absurd hx hbit.1
        · exact absurd hx hbit.2

theorem Slots.arriveStep (hl : Ledger h ({.arriving n s} + holdings O))
    (hs : Slots h ({.arrive n s v} + O)) :
    Slots (arriveStep (ρ := ρ) h n s v).heap
      ((arriveStep (ρ := ρ) h n s v).instrs + O) := by
  have hold : ∀ j ∈ O, j.node = some n → j.SlotOk (h.nodes n) := fun j hj =>
    hs.instr j (Multiset.mem_add.mpr (.inr hj)) n
  have hmine := hs.instr (.arrive n s v) (by simp) n rfl
  have harrivals := hl.arrivals_of_mem (n := n) (s := s) (.inr (by simp))
  have hword := hs.word n
  -- the arrival, with the instruction that follows it if `p`
  have hgo : ∀ (w : Val V) (state : ℕ) (p : Prop) [Decidable p] (j : Instr V ρ),
      (h.nodes n).Stored s w →
      ((h.nodes n).arrivals = [] → (h.nodes n).op.Word state [(s, w)]) → j.node = some n →
      (p → j.SlotOk { h.nodes n with
        state, arrivals := (h.nodes n).arrivals ++ [(s, w)] }) →
      Slots (h.setNode n { h.nodes n with state, arrivals := (h.nodes n).arrivals ++ [(s, w)] })
        ((if p then [j] else [] : List (Instr V ρ)) + ([] : List (Instr V ρ)) + O) := by
    intro w state p _ j hstored hfirst hj hok
    refine hs.change rfl ?_ (stored_append (hs.slot n) hstored) (hs.owner n)
      (fun i hi hn => slotOk_of_arrival hl (.inr rfl) (hold i hi hn)) fun i hi n' hn' => ?_
    · obtain hnil | ⟨u, hone⟩ := harrivals
      · simp only [hnil, List.nil_append]
        exact hfirst hnil
      · simp only [hone]
        exact word_append _ _ _ _
    · rw [Multiset.coe_nil, add_zero] at hi
      split at hi
      · rename_i hp
        have hij : i = j := by simpa using hi
        subst hij
        exact ⟨Option.some.inj (hn'.symm.trans hj), hok hp⟩
      · simp at hi
  unfold Future.arriveStep
  dsimp only
  split
  · rename_i hop
    refine hgo v _ _ (.setTuple n) ?_ (fun hnil => ?_) rfl fun hp =>
      paired_of_arrive hl hs (.inl ⟨hop, rfl⟩) hp
    · simp only [ProtectedPromise.Stored, hop]
      exact hmine (by rw [hop]; rfl)
    · rw [hop, hnil] at hword
      have hzero : (h.nodes n).state = 0 := hword
      rw [hop, hzero]
      exact Nat.zero_or _
  · rename_i hop
    refine hgo v _ _ (.setNode n v) ?_ (fun hnil => ?_) rfl fun _ => trivial
    · simp only [ProtectedPromise.Stored, hop]
    · rw [hop]
      rfl
  · rename_i hop
    have hstored : (h.nodes n).Stored s v := by simp only [ProtectedPromise.Stored, hop]
    split
    · rename_i hv
      refine hgo v _ _ (.setNode n v) hstored (fun _ => ?_) rfl fun _ => trivial
      simp only [hop, Concur.Word, if_pos hv]
    · rename_i hv
      refine hgo v _ _ (.setNode n v) hstored (fun _ => ?_) rfl fun _ => trivial
      simp only [hop, Concur.Word, if_neg hv]
  · rename_i hop
    refine hgo (.ok v) _ _ (.setTuple n) ?_ (fun hnil => ?_) rfl fun hp =>
      paired_of_arrive hl hs (.inr ⟨hop, rfl⟩) hp
    · simp only [ProtectedPromise.Stored, hop]
      exact fun _ => ⟨v, rfl, hmine (by rw [hop]; rfl)⟩
    · rw [hop, hnil] at hword
      have hzero : (h.nodes n).state = 0 := hword
      rw [hop, hzero]
      simp only [Concur.Word, Val.hasValue, if_true]
      exact Nat.zero_or _

/-- The promise is taken, or the thread crashes. -/
theorem Slots.takeStep {p : ℕ} {w : Val V} (hs : Slots h ({i} + O)) :
    Slots (h.setNode n { h.nodes n with promise := none })
      (([.produce p w] : List (Instr V ρ)) + ([] : List (Instr V ρ)) + O) := by
  refine hs.change rfl (hs.word n) (hs.slot n) (fun p hp => ?_) (fun j hj hn => ?_)
    fun j hj n' hn' => ?_
  · cases hp
  · have hold := hs.instr j (Multiset.mem_add.mpr (.inr hj)) n hn
    cases j <;> exact hold
  · obtain rfl : j = .produce p w := by simpa using hj
    cases hn'

theorem Slots.crash (hs : Slots h ({i} + O)) : Slots h.crash
    (([] : List (Instr V ρ)) + ([] : List (Instr V ρ)) + O) := by
  refine ⟨hs.word, hs.slot, hs.owner, fun j hj n hn => ?_⟩
  have hj : j ∈ O := by simpa using hj
  exact hs.instr j (Multiset.mem_add.mpr (.inr hj)) n hn

theorem Slots.failStep (hs : Slots h ({.fail n} + O)) :
    Slots (h.setNode n { h.nodes n with state := (h.nodes n).state ||| failBit })
      (([] : List (Instr V ρ)) + ([] : List (Instr V ρ)) + O) := by
  obtain ⟨hop, a, ha, herr⟩ := hs.instr (.fail n) (by simp) n rfl
  refine hs.change rfl ?_ (hs.slot n) (hs.owner n) (fun j hj hn => ?_) fun j hj => by simp at hj
  · have hword := hs.word n
    rcases hlist : (h.nodes n).arrivals with _ | ⟨⟨t, w⟩, _ | ⟨b, l⟩⟩
    · rw [hlist] at ha
      cases ha
    · rw [hlist] at ha
      rw [List.mem_singleton.mp ha] at herr
      simp only [hlist, hop, Concur.Word, herr, Bool.false_eq_true, if_false] at hword ⊢
      obtain hword | hword := hword <;> rw [hword] <;> exact .inr rfl
    · rw [hop]
      trivial
  · have hold := hs.instr j (Multiset.mem_add.mpr (.inr hj)) n hn
    cases j <;> exact hold

theorem Slots.exec {code : Expr V ρ} (hl : Ledger h (i.res + holdings O)) (hs : Slots h ({i} + O))
    (hstep : exec code h i = some out) : Slots out.heap (out.instrs + O) := by
  cases i with
  | call n s v =>
    obtain rfl := Option.some.inj hstep
    exact Slots.callStep hl hs
  | store n s v =>
    obtain rfl := Option.some.inj hstep
    exact Slots.storeStep hl hs
  | arrive n s v =>
    obtain rfl := Option.some.inj hstep
    exact Slots.arriveStep hl hs
  | setTuple n =>
    obtain rfl := Option.some.inj hstep
    unfold setTupleStep
    dsimp only
    split
    · exact hs.takeStep
    · exact hs.crash
  | setNode n v =>
    obtain rfl := Option.some.inj hstep
    unfold setNodeStep
    split
    · exact hs.takeStep
    · exact hs.crash
  | fail n =>
    obtain rfl := Option.some.inj hstep
    exact Slots.failStep hs
  | _ => exact hs.plain hl (exec_plain rfl hstep)

theorem slots_of_reachable {s : State V ρ} (hs : (machine V ρ).Reachable s) :
    Slots s.heap s.instrs := by
  refine hs.invariant_of (B := fun s => Ledger s.heap (holdings s.instrs))
    (I := fun s => Slots s.heap s.instrs) (fun hs => ledger_of_reachable hs)
    (fun s hinit => ?_) fun a s s' hl _ h _ hstep => ?_
  · obtain rfl := hinit
    refine ⟨fun n => rfl, fun n s v ha => ?_, fun n p hp => ?_, fun i hi => ?_⟩
    · cases ha
    · cases hp
    · cases hi
  · obtain ⟨e, -, hheap, hnew⟩ | ⟨t, code, i, rest, out, -, -, hout, hheap, O, hold, hnew⟩ :=
      step_cases hstep
    · rw [hheap, hnew]
      refine ⟨h.word, h.slot, h.owner, fun j hj n hn => ?_⟩
      obtain hj | hj := Multiset.mem_add.mp hj
      · rw [Multiset.mem_singleton.mp hj] at hn
        cases hn
      · exact h.instr j hj n hn
    · rw [hold] at hl h
      rw [holdings_add, holdings_singleton] at hl
      rw [hheap, hnew]
      exact Slots.exec hl h hout

end SlotSteps

/-! ## Who sets the promise -/

/-- No callback of `BothOk` gets an error after the other one got one. -/
def Instr.Safe (h : Heap V ρ) : Instr V ρ → Prop
  | .call n _ v => (h.nodes n).op = .bothOk → v.hasValue = false →
      ∀ a ∈ (h.nodes n).arrivals, a.2.hasValue = true
  | _ => True

/-- The condition on a step. -/
def Safe (a : Action V ρ) (s : State V ρ) : Prop :=
  match a with
  | .start _ => True
  | .step t _ =>
    match s.threads[t]? with
    | some (i :: _) => i.Safe s.heap
    | _ => True

/-- The promise of the node, or somebody who is to set it. -/
def Heap.taken (h : Heap V ρ) (n : ℕ) : ℕ :=
  if n < h.nodeCount ∧ (h.nodes n).promise = none then 1 else 0

def ProtectedPromise.outcome (node : ProtectedPromise V) : Option (Val V) :=
  node.op.outcome node.arrivals

/-- A promise has been taken, or is about to be, if and only if the outcome is determined; and
it is the outcome it is set with. -/
structure Settled (h : Heap V ρ) (is : Multiset (Instr V ρ)) : Prop where
  setting : ∀ n, (holdings is).count (.setting n) + h.taken n =
    (h.nodes n).outcome.isSome.toNat
  value : ∀ n v, .setNode n v ∈ is → (h.nodes n).outcome = some v

section SettledSteps

variable {h h' : Heap V ρ} {out : Out V ρ} {i : Instr V ρ} {O : Multiset (Instr V ρ)} {n : ℕ}
  {s : Side} {v : Val V}

/-- Who has a promise to set is one of these. -/
theorem setting_mem {is : Multiset (Instr V ρ)} (hmem : .setting n ∈ holdings is) :
    .setTuple n ∈ is ∨ ∃ v, .setNode n v ∈ is := by
  induction is using Multiset.induction_on with
  | empty => cases hmem
  | cons i is ih =>
    rw [← Multiset.singleton_add, holdings_add, holdings_singleton] at hmem
    obtain hi | hmem := Multiset.mem_add.mp hmem
    · have hnot : ∀ cb : Callback V ρ, Res.setting n ≠ cb.res := by
        intro cb
        cases cb <;> exact Res.noConfusion
      have hnot' : ∀ k : Cont V ρ, Res.setting n ≠ k.res := by
        intro k
        induction k with
        | consume cb => exact hnot cb
        | set | setOk => exact Res.noConfusion
        | ready k ih | pipe _ k ih | concurFst _ _ k ih | concurSnd _ _ k ih => exact ih
      cases i with
      | setTuple n' =>
        obtain rfl : n = n' := by simpa [Instr.res] using hi
        exact .inl (Multiset.mem_cons_self _ _)
      | setNode n' v =>
        obtain rfl : n = n' := by simpa [Instr.res] using hi
        exact .inr ⟨v, Multiset.mem_cons_self _ _⟩
      | eval e k | ret v k | task _ _ k => exact absurd (by simpa [Instr.res] using hi) (hnot' k)
      | consume cs cb => exact absurd (by simpa [Instr.res] using hi) (hnot cb)
      | _ => simp [Instr.res] at hi
    · obtain htuple | ⟨v, hv⟩ := ih hmem
      · exact .inl (Multiset.mem_cons_of_mem htuple)
      · exact .inr ⟨v, Multiset.mem_cons_of_mem hv⟩

theorem arrivals_ne_nil {node : ProtectedPromise V} (hv : node.outcome = some v) :
    node.arrivals ≠ [] := by
  intro hnil
  rw [ProtectedPromise.outcome, hnil] at hv
  cases hop : node.op <;> rw [hop] at hv <;> cases hv

/-- Who has a promise to set, the node of it has been made. -/
theorem Settled.lt_nodeCount {m : Multiset Res} {is : Multiset (Instr V ρ)} (hl : Ledger h m)
    (hslots : Slots h is) (hs : Settled h is) (hmem : .setting n ∈ holdings is) :
    n < h.nodeCount := by
  refine hl.lt_nodeCount_of_arrivals ?_
  obtain hmem | ⟨v, hmem⟩ := setting_mem hmem
  · intro hnil
    have hlen := paired_length (hslots.instr _ hmem n rfl)
    rw [hnil] at hlen
    cases hlen
  · exact arrivals_ne_nil (hs.value n v hmem)

/-- Nothing but the instructions has changed, and they have no promise to set. -/
theorem Settled.plain (hl : Ledger h (i.res + holdings O)) (hslots : Slots h ({i} + O))
    (hs : Settled h ({i} + O)) (hi : i.node = none) (hout : PlainOut i h out) :
    Settled out.heap (out.instrs + O) := by
  have hplain : ∀ j ∈ out.instrs, j.IsPlain := fun j hj =>
    hout.2 j ((Multiset.mem_add.mp hj).imp Multiset.mem_coe.mp Multiset.mem_coe.mp)
  have hnew : ∀ n, (holdings out.instrs).count (.setting n) = 0 := by
    intro n
    refine Multiset.count_eq_zero.mpr fun hmem => ?_
    obtain hmem | ⟨v, hmem⟩ := setting_mem hmem <;>
      obtain hnone | ⟨_, _, _, he⟩ := hplain _ hmem <;> first | cases hnone | cases he
  have hold : ∀ n, i.res.count (.setting n) = 0 := by
    intro n
    refine Multiset.count_eq_zero.mpr fun hmem => ?_
    rw [← holdings_singleton] at hmem
    obtain hmem | ⟨v, hmem⟩ := setting_mem hmem <;>
      rw [← Multiset.mem_singleton.mp hmem] at hi <;> cases hi
  have hcount : ∀ n, (holdings (out.instrs + O)).count (.setting n) =
      (holdings ({i} + O)).count (.setting n) := by
    intro n
    rw [holdings_add, Multiset.count_add, hnew, holdings_add, Multiset.count_add,
      holdings_singleton, hold]
  have hvalue : ∀ n v, .setNode n v ∈ out.instrs + O → .setNode n v ∈ O := by
    intro n v hmem
    refine (Multiset.mem_add.mp hmem).resolve_left fun hmem => ?_
    obtain hnone | ⟨_, _, _, he⟩ := hplain _ hmem
    · cases hnone
    · cases he
  have hmem : ∀ n v, .setNode n v ∈ out.instrs + O → .setNode n v ∈ {i} + O :=
    fun n v h => Multiset.mem_add.mpr (.inr (hvalue n v h))
  obtain ⟨hnodes, hnodeCount⟩ | ⟨op, cs, hnodes, hnodeCount⟩ := hout.1
  · refine ⟨fun n => ?_, fun n v hv => ?_⟩
    · rw [hcount, Heap.taken, hnodes, hnodeCount]
      exact hs.setting n
    · rw [hnodes]
      exact hs.value n v (hmem n v hv)
  · refine ⟨fun n => ?_, fun n v hv => ?_⟩
    · have hset := hs.setting n
      rw [hcount, Heap.taken, hnodes, hnodeCount]
      by_cases hn : n = h.nodeCount
      · -- nobody could have its promise to set
        subst hn
        rw [Function.update_self, if_neg (by simp)]
        have hzero : (holdings ({i} + O)).count (.setting h.nodeCount) = 0 := by
          refine Multiset.count_eq_zero.mpr fun hmem => ?_
          exact Nat.lt_irrefl _ (hs.lt_nodeCount hl hslots hmem)
        rw [hzero]
        cases op <;> rfl
      · have hiff : n < h.nodeCount + 1 ↔ n < h.nodeCount := by omega
        rw [Function.update_of_ne hn]
        simp only [hiff]
        exact hset
    · have hold := hs.value n v (hmem n v hv)
      have hn : n ≠ h.nodeCount :=
        Nat.ne_of_lt (hl.lt_nodeCount_of_arrivals (arrivals_ne_nil hold))
      rw [hnodes, Function.update_of_ne hn]
      exact hold

/-- A step at node `n`. -/
theorem Settled.change {node : ProtectedPromise V} {new : Multiset (Instr V ρ)}
    (hs : Settled h ({i} + O)) (hnodes : h'.nodes = update h.nodes n node)
    (hcount : h'.nodeCount = h.nodeCount) (hi : ∀ n', n' ≠ n → i.res.count (.setting n') = 0)
    (hnew : ∀ n', n' ≠ n → (holdings new).count (.setting n') = 0)
    (hset : (holdings new).count (.setting n) + (holdings O).count (.setting n) +
      (if n < h.nodeCount ∧ node.promise = none then 1 else 0) = node.outcome.isSome.toNat)
    (hother : ∀ w, .setNode n w ∈ O → node.outcome = some w)
    (hvalue : ∀ n' w, .setNode n' w ∈ new → n' = n ∧ node.outcome = some w) :
    Settled h' (new + O) := by
  refine ⟨fun n' => ?_, fun n' w hmem => ?_⟩
  · have hold := hs.setting n'
    rw [holdings_add, Multiset.count_add, holdings_singleton] at hold
    rw [holdings_add, Multiset.count_add, Heap.taken, hnodes, hcount]
    by_cases hn : n' = n
    · rw [hn, Function.update_self]
      exact hset
    · rw [Function.update_of_ne hn, hnew n' hn, Nat.zero_add]
      rw [hi n' hn, Nat.zero_add] at hold
      exact hold
  · rw [hnodes]
    obtain hmem | hmem := Multiset.mem_add.mp hmem
    · obtain ⟨rfl, hw⟩ := hvalue n' w hmem
      rw [Function.update_self]
      exact hw
    · by_cases hn : n' = n
      · subst hn
        rw [Function.update_self]
        exact hother w hmem
      · rw [Function.update_of_ne hn]
        exact hs.value n' w (Multiset.mem_add.mpr (.inr hmem))

/-- A callback arrives, and goes on with `new`: it is to set the promise if and only if the
outcome is determined by its arrival. -/
theorem Settled.arrive {x : Res} {state : ℕ} {w : Val V} {new : Multiset (Instr V ρ)}
    (hs : Settled h ({i} + O)) (hi : i.res = {x}) (hx : ∀ n', x ≠ .setting n')
    (hnew : ∀ n', n' ≠ n → (holdings new).count (.setting n') = 0)
    (hset : (holdings new).count (.setting n) + (h.nodes n).outcome.isSome.toNat =
      ((h.nodes n).op.outcome ((h.nodes n).arrivals ++ [(s, w)])).isSome.toNat)
    (hvalue : ∀ n' u, .setNode n' u ∈ new → n' = n ∧
      (h.nodes n).op.outcome ((h.nodes n).arrivals ++ [(s, w)]) = some u) :
    Settled (h.setNode n { h.nodes n with state, arrivals := (h.nodes n).arrivals ++ [(s, w)] })
      (new + O) := by
  have hzero : ∀ n', i.res.count (.setting n') = 0 := by
    intro n'
    rw [hi, Multiset.count_singleton, if_neg (Ne.symm (hx n'))]
  refine hs.change rfl rfl (fun n' _ => hzero n') hnew ?_ (fun u hu => ?_) hvalue
  · have hold := hs.setting n
    rw [holdings_add, Multiset.count_add, holdings_singleton, hzero, Heap.taken] at hold
    change _ + _ + (if n < h.nodeCount ∧ (h.nodes n).promise = none then 1 else 0) =
      ((h.nodes n).op.outcome ((h.nodes n).arrivals ++ [(s, w)])).isSome.toNat
    omega
  · exact outcome_append (hs.value n u (Multiset.mem_add.mpr (.inr hu))) _

/-- The node is as it was, but for words the outcome does not depend on. -/
theorem Settled.same {node : ProtectedPromise V} {new : Multiset (Instr V ρ)}
    (hs : Settled h ({i} + O)) (hnodes : h'.nodes = update h.nodes n node)
    (hcount : h'.nodeCount = h.nodeCount) (hop : node.op = (h.nodes n).op)
    (harrivals : node.arrivals = (h.nodes n).arrivals)
    (hpromise : node.promise = (h.nodes n).promise)
    (hi : ∀ n', i.res.count (.setting n') = 0)
    (hnew : ∀ n', (holdings new).count (.setting n') = 0) : Settled h' (new + O) := by
  have houtcome : node.outcome = (h.nodes n).outcome := by
    rw [ProtectedPromise.outcome, hop, harrivals, ProtectedPromise.outcome]
  refine hs.change hnodes hcount (fun n' _ => hi n') (fun n' _ => hnew n') ?_ (fun w hw => ?_)
    fun n' w hw => ?_
  · have hold := hs.setting n
    rw [holdings_add, Multiset.count_add, holdings_singleton, hi, Heap.taken] at hold
    rw [hnew, hpromise, houtcome]
    exact hold
  · rw [houtcome]
    exact hs.value n w (Multiset.mem_add.mpr (.inr hw))
  · have hmem := Multiset.mem_of_le (res_le_holdings hw) (a := .setting n') (by simp [Instr.res])
    have hpos := Multiset.count_pos.mpr hmem
    have hzero := hnew n'
    omega

/-- The promise is there for who is to set it, and it is set with the outcome. -/
theorem Settled.take (hl : Ledger h ({.setting n} + holdings O)) (hslots : Slots h ({i} + O))
    (hs : Settled h ({i} + O)) (hi : i.res = {.setting n}) :
    (h.nodes n).promise ≠ none ∧ ∀ p w, Settled
      (h.setNode n { h.nodes n with promise := none })
      ((([.produce p w] : List (Instr V ρ)) : Multiset (Instr V ρ)) +
        (([] : List (Instr V ρ)) : Multiset (Instr V ρ)) + O) := by
  have hold := hs.setting n
  have hmem : .setting n ∈ holdings ({i} + O) := by
    rw [holdings_add, holdings_singleton, hi]
    simp
  have hlt := hs.lt_nodeCount hl hslots hmem
  rw [holdings_add, Multiset.count_add, holdings_singleton, hi, Multiset.count_singleton_self,
    Heap.taken] at hold
  have hle := Bool.toNat_le (h.nodes n).outcome.isSome
  have hpromise : (h.nodes n).promise ≠ none := by
    intro hnone
    rw [if_pos ⟨hlt, hnone⟩] at hold
    omega
  rw [if_neg fun hand => hpromise hand.2] at hold
  refine ⟨hpromise, fun p w => ?_⟩
  refine hs.change rfl rfl (fun n' hn => ?_) (fun n' _ => ?_) ?_ (fun u hu => ?_) fun n' u hu => ?_
  · rw [hi, Multiset.count_singleton, if_neg (by simpa using hn)]
  · simp [Instr.res]
  · rw [if_pos ⟨hlt, rfl⟩]
    have hzero : (holdings ((([.produce p w] : List (Instr V ρ)) : Multiset (Instr V ρ)) +
        (([] : List (Instr V ρ)) : Multiset (Instr V ρ)))).count (.setting n) = 0 := by
      simp [Instr.res]
    rw [hzero]
    change _ = (h.nodes n).outcome.isSome.toNat
    omega
  · exact hs.value n u (Multiset.mem_add.mpr (.inr hu))
  · simp at hu

theorem count_setting_singleton {n n' : ℕ} (hn : n' ≠ n) :
    ({Res.setting n} : Multiset Res).count (.setting n') = 0 := by
  rw [Multiset.count_singleton, if_neg (by simpa using hn)]

theorem Settled.callStep (hl : Ledger h ({.side n s} + holdings O))
    (hs : Settled h ({.call n s v} + O)) (hsafe : Instr.Safe h (.call n s v : Instr V ρ)) :
    Settled (callStep (ρ := ρ) h n s v).heap ((callStep (ρ := ρ) h n s v).instrs + O) := by
  have hsame : h.nodes = update h.nodes n (h.nodes n) := (Function.update_eq_self n _).symm
  have hgo : ∀ j : Instr V ρ, (∀ n', j.res.count (.setting n') = 0) →
      Settled h (Out.instrs ⟨h, [j], []⟩ + O) := by
    intro j hj
    refine hs.same hsame rfl rfl rfl rfl (fun n' => ?_) fun n' => ?_
    · simp [Instr.res]
    · simpa [Out.instrs] using hj n'
  unfold Future.callStep
  cases hop : (h.nodes n).op with
  | both => exact hgo _ fun n' => by simp [Instr.res]
  | first => exact hgo _ fun n' => by simp [Instr.res]
  | firstOk => exact hgo _ fun n' => by simp [Instr.res]
  | bothOk =>
    dsimp only
    split
    · exact hgo _ fun n' => by simp [Instr.res]
    · rename_i herr
      rw [Bool.not_eq_true] at herr
      have hok := hsafe hop herr
      -- the other callback, if it has arrived, has got a value
      have hbefore : (h.nodes n).outcome = none ∧
          (h.nodes n).op.outcome ((h.nodes n).arrivals ++ [(s, v)]) = some v := by
        rw [ProtectedPromise.outcome, hop]
        obtain hnil | ⟨w, hone⟩ := hl.arrivals_of_mem (n := n) (s := s) (.inl (by simp))
        · rw [hnil]
          simp [Concur.outcome, herr]
        · rw [hone] at hok ⊢
          have hw := hok (s.other, w) List.mem_cons_self
          simp only at hw
          simp [Concur.outcome, herr, hw]
      have hset : ∀ n', (holdings (Out.instrs (ρ := ρ) ⟨h, [.setNode n v, .fail n], []⟩)).count
          (.setting n') = ({Res.setting n} : Multiset Res).count (.setting n') := by
        intro n'
        simp [Out.instrs, Instr.res]
      refine hs.arrive (x := .side n s) rfl (fun n' => by simp) (fun n' hn => ?_) ?_
        fun n' u hu => ?_
      · exact (hset n').trans (count_setting_singleton hn)
      · rw [hbefore.1, hbefore.2]
        exact congrArg (· + 0) ((hset n).trans (Multiset.count_singleton_self _))
      · obtain ⟨rfl, rfl⟩ : n' = n ∧ u = v := by simpa [Out.instrs] using hu
        exact ⟨rfl, hbefore.2⟩

theorem Settled.arriveStep (hl : Ledger h ({.arriving n s} + holdings O))
    (hslots : Slots h ({.arrive n s v} + O)) (hs : Settled h ({.arrive n s v} + O)) :
    Settled (arriveStep (ρ := ρ) h n s v).heap ((arriveStep (ρ := ρ) h n s v).instrs + O) := by
  have hword := hslots.word n
  have harrivals := hl.arrivals_of_mem (n := n) (s := s) (.inr (by simp))
  have hbit : s.other.bit ≠ 0 ∧ s.other.bit ≠ failBit := by cases s <;> decide
  -- who finds the word so that `p` has determined the outcome, and goes on with `j`
  have hgo : ∀ (w : Val V) (state : ℕ) (p : Prop) [Decidable p] (j : Instr V ρ),
      (j = .setTuple n ∨ j = .setNode n v ∧
        (p → (h.nodes n).op.outcome ((h.nodes n).arrivals ++ [(s, w)]) = some v)) →
      (if p then 1 else 0) + (h.nodes n).outcome.isSome.toNat =
        ((h.nodes n).op.outcome ((h.nodes n).arrivals ++ [(s, w)])).isSome.toNat →
      Settled (h.setNode n { h.nodes n with state, arrivals := (h.nodes n).arrivals ++ [(s, w)] })
        (Out.instrs ⟨h, if p then [j] else [], []⟩ + O) := by
    intro w state p _ j hj hcount
    have hset : ∀ n', (holdings (Out.instrs ⟨h, if p then [j] else [], []⟩)).count (.setting n') =
        if p then ({Res.setting n} : Multiset Res).count (.setting n') else 0 := by
      intro n'
      split
      · obtain rfl | ⟨rfl, -⟩ := hj <;> simp [Out.instrs, Instr.res]
      · simp [Out.instrs]
    refine hs.arrive (x := .arriving n s) rfl (fun n' => by simp) (fun n' hn => ?_) ?_
      fun n' u hu => ?_
    · rw [hset, count_setting_singleton hn, ite_self]
    · rw [hset, Multiset.count_singleton_self]
      exact hcount
    · rw [Out.instrs, Multiset.coe_nil, add_zero] at hu
      split at hu
      · rename_i hp
        obtain rfl | ⟨rfl, hv⟩ := hj
        · simp at hu
        · obtain ⟨rfl, rfl⟩ : n' = n ∧ u = v := by simpa using hu
          exact ⟨rfl, hv hp⟩
      · simp at hu
  unfold Future.arriveStep
  dsimp only
  split
  · rename_i hop
    refine hgo v _ _ (.setTuple n) (.inl rfl) ?_
    rw [ProtectedPromise.outcome, hop]
    rw [hop] at hword
    obtain hnil | ⟨u, hone⟩ := harrivals
    · rw [hnil] at hword ⊢
      have hzero : (h.nodes n).state = 0 := hword
      rw [if_neg (by rw [hzero]; exact Ne.symm hbit.1)]
      rfl
    · rw [hone] at hword ⊢
      have hfound : (h.nodes n).state = s.other.bit := hword
      rw [if_pos hfound]
      rfl
  · rename_i hop
    rw [hop] at hword
    obtain hnil | ⟨u, hone⟩ := harrivals
    · refine hgo v _ _ (.setNode n v) (.inr ⟨rfl, fun _ => ?_⟩) ?_
      · rw [hop, hnil]
        rfl
      · rw [hnil] at hword
        have hzero : (h.nodes n).state = 0 := hword
        rw [if_pos hzero, ProtectedPromise.outcome, hop, hnil]
        rfl
    · rw [hone] at hword
      have hfree : (h.nodes n).state ≠ 0 := by
        have hone : (h.nodes n).state = 1 := hword
        omega
      refine hgo v _ _ (.setNode n v) (.inr ⟨rfl, fun hp => absurd hp hfree⟩) ?_
      rw [if_neg hfree, ProtectedPromise.outcome, hop, hone]
      rfl
  · rename_i hop
    rw [hop] at hword
    split
    · rename_i hv
      obtain hnil | ⟨u, hone⟩ := harrivals
      · rw [hnil] at hword
        have hfree : (h.nodes n).state ≠ satisfied := by
          have hzero : (h.nodes n).state = 0 := hword
          rw [hzero]
          decide
        refine hgo v _ _ (.setNode n v) (.inr ⟨rfl, fun _ => ?_⟩) ?_
        · simp [hop, hnil, Concur.outcome, hv]
        · simp [hfree, ProtectedPromise.outcome, hop, hnil, Concur.outcome, hv]
      · rw [hone] at hword
        simp only [Concur.Word] at hword
        refine hgo v _ _ (.setNode n v) (.inr ⟨rfl, fun hp => ?_⟩) ?_
        · by_cases hu : u.hasValue = true
          · rw [if_pos hu] at hword
            exact absurd hword hp
          · simp [hop, hone, Concur.outcome, hu]
        · by_cases hu : u.hasValue = true
          · rw [if_pos hu] at hword
            simp [hword, ProtectedPromise.outcome, hop, hone, Concur.outcome, hu]
          · rw [if_neg hu] at hword
            simp [hword, ProtectedPromise.outcome, hop, hone, Concur.outcome, hu, satisfied,
              reportError]
    · rename_i hv
      obtain hnil | ⟨u, hone⟩ := harrivals
      · rw [hnil] at hword
        have hfree : (h.nodes n).state ≠ reportError := by
          have hzero : (h.nodes n).state = 0 := hword
          rw [hzero]
          decide
        refine hgo v _ _ (.setNode n v) (.inr ⟨rfl, fun hp => absurd hp hfree⟩) ?_
        simp [hfree, ProtectedPromise.outcome, hop, hnil, Concur.outcome, hv]
      · rw [hone] at hword
        simp only [Concur.Word] at hword
        refine hgo v _ _ (.setNode n v) (.inr ⟨rfl, fun hp => ?_⟩) ?_
        · by_cases hu : u.hasValue = true
          · rw [if_pos hu] at hword
            rw [hword] at hp
            cases hp
          · simp [hop, hone, Concur.outcome, hu]
        · by_cases hu : u.hasValue = true
          · rw [if_pos hu] at hword
            simp [hword, ProtectedPromise.outcome, hop, hone, Concur.outcome, hu, satisfied,
              reportError]
          · rw [if_neg hu] at hword
            simp [hword, ProtectedPromise.outcome, hop, hone, Concur.outcome, hu]
  · rename_i hop
    refine hgo (.ok v) _ _ (.setTuple n) (.inl rfl) ?_
    rw [hop] at hword
    obtain hnil | ⟨u, hone⟩ := harrivals
    · rw [hnil] at hword
      have hzero : (h.nodes n).state = 0 := hword
      rw [if_neg (by rw [hzero]; exact Ne.symm hbit.1), ProtectedPromise.outcome, hop, hnil]
      rfl
    · rw [hone] at hword
      simp only [Concur.Word] at hword
      rw [ProtectedPromise.outcome, hop, hone]
      have hok : (Val.ok v).hasValue = true := rfl
      by_cases hu : u.hasValue = true
      · rw [if_pos hu] at hword
        simp [hword, Concur.outcome, hu, hok]
      · rw [if_neg hu] at hword
        have hfree : (h.nodes n).state ≠ s.other.bit := by
          obtain hword | hword := hword <;> rw [hword]
          · exact Ne.symm hbit.1
          · exact Ne.symm hbit.2
        simp [hfree, Concur.outcome, hu]

/-- **Who finds the outcome determined sets the promise, and nobody else.** -/
theorem Settled.exec {code : Expr V ρ} (hl : Ledger h (i.res + holdings O))
    (hslots : Slots h ({i} + O)) (hs : Settled h ({i} + O)) (hsafe : i.Safe h)
    (hstep : exec code h i = some out) : Settled out.heap (out.instrs + O) := by
  cases i with
  | call n s v =>
    obtain rfl := Option.some.inj hstep
    exact Settled.callStep hl hs hsafe
  | store n s v =>
    obtain rfl := Option.some.inj hstep
    refine hs.same rfl rfl rfl rfl rfl (fun n' => ?_) fun n' => ?_ <;> simp [Out.instrs, Instr.res]
  | arrive n s v =>
    obtain rfl := Option.some.inj hstep
    exact Settled.arriveStep hl hslots hs
  | setTuple n =>
    obtain rfl := Option.some.inj hstep
    obtain ⟨hpromise, htake⟩ := hs.take hl hslots rfl
    obtain ⟨p, hp⟩ := Option.ne_none_iff_exists'.mp hpromise
    obtain ⟨s, v, w, hv, hw, -⟩ := hslots.instr (.setTuple n) (by simp) n rfl
    unfold setTupleStep
    dsimp only
    split
    · exact htake _ _
    · rename_i hno
      cases s
      · exact absurd hw (hno p v w hp hv)
      · exact absurd hv (hno p w v hp hw)
  | setNode n v =>
    obtain rfl := Option.some.inj hstep
    obtain ⟨hpromise, htake⟩ := hs.take hl hslots rfl
    unfold setNodeStep
    split
    · exact htake _ _
    · rename_i hno
      exact absurd hno hpromise
  | fail n =>
    obtain rfl := Option.some.inj hstep
    refine hs.same rfl rfl rfl rfl rfl (fun n' => ?_) fun n' => ?_ <;> simp [Out.instrs, Instr.res]
  | _ => exact hs.plain hl hslots rfl (exec_plain rfl hstep)

/-! ## No fault -/

theorem fault_touch {m : Multiset Res} {cs : ℕ} {r : Res} (hl : Ledger h m)
    (hfault : h.fault = false) (hr : r ∈ m) (hcs : r = .promise cs ∨ r.state = some cs) :
    (h.touch cs).fault = false := by
  rw [Heap.touch, hfault, hl.not_deleted hr hcs]
  rfl

theorem fault_retStep {m : Multiset Res} {k : Cont V ρ} (hl : Ledger h m)
    (hfault : h.fault = false) (hstep : retStep h v k = some out) : out.heap.fault = false := by
  cases retMoves_of_step hstep with
  | @pipe cs hheld op k =>
    have htouch : (h.touch cs).fault = false := by
      rw [Heap.touch, hfault, (hl.not_deleted_of_held hheld).2]
      rfl
    cases op <;> exact htouch
  | _ => exact hfault

theorem fault_callback {cb : Callback V ρ} (hstep : callback h cb v = some out) :
    out.heap.fault = h.fault := by
  cases cb with
  | pipe op rt promise =>
    cases op with
    | via rt => cases hstep
    | map user =>
      obtain rfl := Option.some.inj hstep
      rw [submit_heap]
    | after delay =>
      obtain rfl := Option.some.inj hstep
      rfl
    | flatten =>
      simp only [callback, pipeCallback] at hstep
      split at hstep
      · split at hstep
        · obtain rfl := Option.some.inj hstep
          rfl
        · cases hstep
      · cases hstep
    | _ =>
      simp only [callback, pipeCallback] at hstep
      split at hstep <;> obtain rfl := Option.some.inj hstep <;> first | rfl | rw [submit_heap]
  | _ =>
    obtain rfl := Option.some.inj hstep
    rfl

/-- The step acts on no state that has been deleted, finds the promise it is to set, and
what it reads has been constructed. -/
theorem fault_exec {code : Expr V ρ} (hl : Ledger h (i.res + holdings O))
    (hslots : Slots h ({i} + O)) (hs : Settled h ({i} + O)) (hfault : h.fault = false)
    (hstep : exec code h i = some out) : out.heap.fault = false := by
  have htouch : ∀ cs r, r ∈ i.res → r = .promise cs ∨ r.state = some cs →
      (h.touch cs).fault = false := fun cs r hr hcs =>
    fault_touch hl hfault (Multiset.mem_add.mpr (.inl hr)) hcs
  cases i with
  | eval e k =>
    obtain rfl := Option.some.inj hstep
    cases e with
    | spawn rt user =>
      have hsubmit : (submit (h.contract rt (.spawn rt user)) rt
          (.task ⟨h.size, rt, none⟩ user (.set h.size))).heap.fault = false := by
        rw [submit_heap]
        exact hfault
      exact hsubmit
    | _ => exact hfault
  | ret v k => exact fault_retStep hl hfault hstep
  | produce cs res =>
    obtain rfl := Option.some.inj hstep
    exact htouch cs (.promise cs) (by simp [Instr.res]) (.inl rfl)
  | produced cs =>
    obtain rfl := Option.some.inj hstep
    exact htouch cs (.produced cs) (by simp [Instr.res]) (.inr rfl)
  | consume cs cb =>
    obtain rfl := Option.some.inj hstep
    exact htouch cs (.consume cs) (by simp [Instr.res]) (.inr rfl)
  | consumed cs =>
    obtain rfl := Option.some.inj hstep
    exact htouch cs (.consumed cs) (by simp [Instr.res]) (.inr rfl)
  | delete cs =>
    obtain rfl := Option.some.inj hstep
    exact htouch cs (.delete cs) (by simp [Instr.res]) (.inr rfl)
  | rendezvous cs =>
    have hmem : Res.rendezvous cs ∈ (Instr.rendezvous cs : Instr V ρ).res := by simp [Instr.res]
    obtain ⟨⟨cb, hcb⟩, ⟨v, hv⟩, -⟩ := Ledger.rendezvous_ready hl
    simp only [exec, rendezvousStep, hcb, hv] at hstep
    obtain ⟨o, ho, rfl⟩ := Option.map_eq_some_iff.mp hstep
    exact (fault_callback ho).trans (htouch cs _ hmem (.inr rfl))
  | call n side v =>
    obtain rfl := Option.some.inj hstep
    simp only [callStep]
    split <;> (try split) <;> exact hfault
  | arrive n side v =>
    obtain rfl := Option.some.inj hstep
    simp only [arriveStep]
    split <;> (try split) <;> exact hfault
  | setTuple n =>
    obtain rfl := Option.some.inj hstep
    obtain ⟨p, hp⟩ := Option.ne_none_iff_exists'.mp (hs.take hl hslots rfl).1
    obtain ⟨s, v, w, hv, hw, -⟩ := hslots.instr (.setTuple n) (by simp) n rfl
    unfold setTupleStep
    dsimp only
    split
    · exact hfault
    · rename_i hno
      cases s
      · exact absurd hw (hno p v w hp hv)
      · exact absurd hv (hno p w v hp hw)
  | setNode n v =>
    obtain rfl := Option.some.inj hstep
    have hpromise := (hs.take hl hslots rfl).1
    unfold setNodeStep
    split
    · exact hfault
    · rename_i hno
      exact absurd hno hpromise
  | _ =>
    obtain rfl := Option.some.inj hstep
    exact hfault

end SettledSteps

instance instDecidableInstrSafe (h : Heap V ρ) (i : Instr V ρ) : Decidable (i.Safe h) :=
  match i with
  | .call n _ v => inferInstanceAs (Decidable ((h.nodes n).op = .bothOk → v.hasValue = false →
      ∀ a ∈ (h.nodes n).arrivals, a.2.hasValue = true))
  | .eval .. | .ret .. | .task .. | .leaf _ | .produce .. | .produced _ | .consume ..
  | .consumed _ | .rendezvous _ | .delete _ | .store .. | .arrive .. | .setTuple _
  | .setNode .. | .fail _ => inferInstanceAs (Decidable True)

instance instDecidableSafe (a : Action V ρ) (s : State V ρ) : Decidable (Safe a s) :=
  match a with
  | .start _ => inferInstanceAs (Decidable True)
  | .step t _ =>
    match hx : s.threads[t]? with
    | some (i :: _) => decidable_of_iff (i.Safe s.heap) (by rw [Safe, hx])
    | some [] => isTrue (by rw [Safe, hx]; trivial)
    | none => isTrue (by rw [Safe, hx]; trivial)

theorem settled_of_safe {s : State V ρ} (hs : (machine V ρ).ReachableVia Safe s) :
    Settled s.heap s.instrs ∧ s.heap.fault = false := by
  refine hs.invariant_of (B := fun s => Ledger s.heap (holdings s.instrs) ∧ Slots s.heap s.instrs)
    (I := fun s => Settled s.heap s.instrs ∧ s.heap.fault = false)
    (fun hs => ⟨ledger_of_reachable hs.reachable, slots_of_reachable hs.reachable⟩)
    (fun s hinit => ?_) fun a s s' hbase _ h hsafe hstep => ?_
  · obtain rfl := hinit
    refine ⟨⟨fun n => ?_, fun n v hv => ?_⟩, rfl⟩
    · simp [State.instrs, Heap.taken, Heap.empty, ProtectedPromise.outcome,
        ProtectedPromise.none_, Concur.outcome]
    · cases hv
  · obtain ⟨hl, hslots⟩ := hbase
    obtain ⟨hsettled, hfault⟩ := h
    obtain ⟨e, -, hheap, hnew⟩ | ⟨t, code, i, rest, out, rfl, ht, hout, hheap, O, hold, hnew⟩ :=
      step_cases hstep
    · rw [hheap, hnew]
      refine ⟨⟨fun n => ?_, fun n v hv => ?_⟩, hfault⟩
      · have hnone : (Instr.eval e (.consume (.root s.heap.roots.length))).res.count
            (.setting n) = 0 := by
          simp [Instr.res, Cont.res, Callback.res]
        rw [holdings_add, Multiset.count_add, holdings_singleton, hnone, Nat.zero_add]
        exact hsettled.setting n
      · exact hsettled.value n v (by simpa using hv)
    · rw [Safe, ht] at hsafe
      rw [hold] at hl hslots hsettled
      rw [holdings_add, holdings_singleton] at hl
      rw [hheap, hnew]
      exact ⟨Settled.exec hl hslots hsettled hsafe hout, fault_exec hl hslots hsettled hfault hout⟩

end Exe.Future
