/-
No step acts on a destroyed state.

A state that `Protect` has returned is in the thread's hazard pointer until the
slot is reset. When the second load of `Protect` sees the state in the cell, the
cell's reference is counted, so nobody has retired it yet; whoever retires it
later scans the hazard pointers after that. The scan walks the list of mutators
as it was when the scan loaded `head_`, and is repeated if the list has grown
since. So as long as the thread is protected, a scan for its state has either not
come to its slot yet or has started from an old head (`ScanPc.Unseen`), and it
does not end with the verdict that the state may be destroyed.
-/
import Exe.ReferenceCounts

set_option autoImplicit false
set_option linter.unusedSectionVars false

namespace Exe.Gc

open Function (update)

variable {θ ν κ A : Type*}

/-! ## The list of mutators -/

/-- Following `next` from `p` gives `l`. -/
def Chain (next : θ → Option θ) : Option θ → List θ → Prop
  | p, [] => p = none
  | p, t :: l => p = some t ∧ Chain next (next t) l

theorem Chain.head {next : θ → Option θ} {p : Option θ} {l : List θ} (h : Chain next p l) :
    p = l.head? := by
  cases l with
  | nil => exact h
  | cons t l => exact h.1

/-- Changing `next` of a mutator outside the list does not change the list. -/
theorem Chain.congr {next next' : θ → Option θ} {p : Option θ} {l : List θ} (h : Chain next p l)
    (hn : ∀ t ∈ l, next' t = next t) : Chain next' p l := by
  induction l generalizing p with
  | nil => exact h
  | cons t l ih =>
    refine ⟨h.1, ?_⟩
    rw [hn t List.mem_cons_self]
    exact ih h.2 fun u hu => hn u (List.mem_cons_of_mem _ hu)

/-- What follows `cur` in the list starts at `next cur`. -/
theorem Chain.drop {next : θ → Option θ} {p : Option θ} {pre post : List θ} {cur : θ}
    (h : Chain next p (pre ++ cur :: post)) : Chain next (next cur) post := by
  induction pre generalizing p with
  | nil => exact h.2
  | cons t pre ih => exact ih h.2

/-- The head a scan started from. -/
def ScanPc.head : ScanPc θ → Option θ
  | .loadHead => none
  | .slot head _ _ => head
  | .next head _ => head
  | .checkHead head => head

/-- The scan started from a mutator of the list. -/
def ScanPc.Within (l : List θ) (pc : ScanPc θ) : Prop := ∀ t, pc.head = some t → t ∈ l

variable [DecidableEq θ]

/-- The list behind `head_`: the mutators of the threads that have been through
`GetMutator`. -/
structure Listed (s : State θ ν κ A) : Prop where
  chain : Chain s.next_ s.head_ s.mutators
  nodup : s.mutators.Nodup
  mem : ∀ t, t ∈ s.mutators ↔ s.current_mutator t = true ∧ (s.pc t).isRegistering = false
  within : ∀ t pc obj kept k, s.pc t = .scan pc obj kept k → pc.Within s.mutators
  started : ∀ t pc k, s.pc t = .register pc k → pc = .loadHead ∨ s.current_mutator t = true
  linking : ∀ t head k, s.pc t = .register (.cas head) k → s.next_ t = head
  enrolled : ∀ t, (s.pc t).enrolled = true → t ∈ s.mutators

variable [DecidableEq ν] [DecidableEq κ] [DecidableEq A] {s : State θ ν κ A} {t : θ}

/-- A thread outside `GetMutator` moves, and does not come out of it. -/
theorem Listed.of_move {s' : State θ ν κ A} {pc' : Pc θ ν κ A} (h : Listed s)
    (hpc : s'.pc = update s.pc t pc') (hhead : s'.head_ = s.head_) (hnext : s'.next_ = s.next_)
    (hcur : s'.current_mutator = s.current_mutator) (hmut : s'.mutators = s.mutators)
    (hnot : (s.pc t).isRegistering = false)
    (hreg : ∀ pc k, pc' = .register pc k → pc = .loadHead ∧ s.current_mutator t = false)
    (hscan : ∀ pc obj kept k, pc' = .scan pc obj kept k → pc.Within s.mutators)
    (henr : pc'.enrolled = true → t ∈ s.mutators) : Listed s' := by
  have hself : s'.pc t = pc' := by rw [hpc, Function.update_self]
  have hother : ∀ u, u ≠ t → s'.pc u = s.pc u := fun u hu => by
    rw [hpc, Function.update_of_ne hu]
  refine ⟨?_, ?_, fun u => ?_, fun u pc obj kept k hu => ?_, fun u pc k hu => ?_,
    fun u head k hu => ?_, fun u hu => ?_⟩
  · rw [hnext, hhead, hmut]
    exact h.chain
  · rw [hmut]
    exact h.nodup
  · rw [hmut, hcur]
    by_cases hut : u = t
    · subst hut
      rw [hself, h.mem u]
      -- a thread that enters `GetMutator` was not in the list
      cases hr : pc'.isRegistering with
      | false => simp [hnot]
      | true =>
        have hfalse : s.current_mutator u = false := by
          cases pc' with
          | register pc k => exact (hreg pc k rfl).2
          | _ => cases hr
        simp [hfalse]
    · rw [hother u hut]
      exact h.mem u
  · rw [hmut]
    by_cases hut : u = t
    · subst hut
      exact hscan pc obj kept k (hself.symm.trans hu)
    · exact h.within u pc obj kept k ((hother u hut).symm.trans hu)
  · rw [hcur]
    by_cases hut : u = t
    · subst hut
      exact .inl (hreg pc k (hself.symm.trans hu)).1
    · exact h.started u pc k ((hother u hut).symm.trans hu)
  · rw [hnext]
    by_cases hut : u = t
    · subst hut
      cases (hreg _ k (hself.symm.trans hu)).1
    · exact h.linking u head k ((hother u hut).symm.trans hu)
  · rw [hmut]
    by_cases hut : u = t
    · subst hut
      exact henr (by rwa [hself] at hu)
    · exact h.enrolled u (by rwa [hother u hut] at hu)

/-- A thread moves inside `GetMutator`. -/
theorem Listed.of_register {s' : State θ ν κ A} {pc pc' : RegisterPc θ}
    {k : AfterRegister ν κ A} (h : Listed s) (hpc : s.pc t = .register pc k)
    (hpc' : s'.pc = update s.pc t (.register pc' k)) (hhead : s'.head_ = s.head_)
    (hnext : ∀ u, u ≠ t → s'.next_ u = s.next_ u)
    (hcur : ∀ u, u ≠ t → s'.current_mutator u = s.current_mutator u)
    (hmut : s'.mutators = s.mutators) (hstart : pc' = .loadHead ∨ s'.current_mutator t = true)
    (hlink : ∀ head, pc' = .cas head → s'.next_ t = head) : Listed s' := by
  have hself : s'.pc t = .register pc' k := by rw [hpc', Function.update_self]
  have hother : ∀ u, u ≠ t → s'.pc u = s.pc u := fun u hu => by
    rw [hpc', Function.update_of_ne hu]
  -- a mutator that is being registered is not in the list yet
  have hnot : t ∉ s.mutators := by
    intro ht
    have hreg := ((h.mem t).mp ht).2
    rw [hpc] at hreg
    cases hreg
  have hne : ∀ u ∈ s.mutators, u ≠ t := by
    rintro u hu rfl
    exact hnot hu
  refine ⟨?_, ?_, fun u => ?_, fun u sc obj kept k' hu => ?_, fun u rpc k' hu => ?_,
    fun u head k' hu => ?_, fun u hu => ?_⟩
  · rw [hhead, hmut]
    exact h.chain.congr fun u hu => hnext u (hne u hu)
  · rw [hmut]
    exact h.nodup
  · rw [hmut]
    by_cases hut : u = t
    · subst hut
      rw [hself]
      exact ⟨fun ht => absurd ht hnot, fun hc => by cases hc.2⟩
    · rw [hother u hut, hcur u hut]
      exact h.mem u
  · rw [hmut]
    by_cases hut : u = t
    · subst hut
      rw [hself] at hu
      cases hu
    · exact h.within u sc obj kept k' ((hother u hut).symm.trans hu)
  · by_cases hut : u = t
    · subst hut
      rw [hself] at hu
      cases hu
      exact hstart
    · rw [hcur u hut]
      exact h.started u rpc k' ((hother u hut).symm.trans hu)
  · by_cases hut : u = t
    · subst hut
      rw [hself] at hu
      cases hu
      exact hlink head rfl
    · rw [hnext u hut]
      exact h.linking u head k' ((hother u hut).symm.trans hu)
  · rw [hmut]
    by_cases hut : u = t
    · subst hut
      rw [hself] at hu
      exact absurd (h.enrolled u (by rw [hpc]; exact hu)) hnot
    · exact h.enrolled u (by rwa [hother u hut] at hu)

/-- The new mutator becomes the head of the list. -/
theorem Listed.link {s' : State θ ν κ A} {k : AfterRegister ν κ A} (h : Listed s)
    (hpc : s.pc t = .register (.cas s.head_) k) (hpc' : s'.pc = update s.pc t k.resume)
    (hhead : s'.head_ = some t) (hnext : s'.next_ = s.next_)
    (hcur : s'.current_mutator = s.current_mutator) (hmut : s'.mutators = t :: s.mutators) :
    Listed s' := by
  have hself : s'.pc t = k.resume := by rw [hpc', Function.update_self]
  have hother : ∀ u, u ≠ t → s'.pc u = s.pc u := fun u hu => by
    rw [hpc', Function.update_of_ne hu]
  have hnot : t ∉ s.mutators := by
    intro ht
    have hreg := ((h.mem t).mp ht).2
    rw [hpc] at hreg
    cases hreg
  have hstarted : s.current_mutator t = true :=
    (h.started t _ k hpc).resolve_left fun he => by cases he
  refine ⟨?_, ?_, fun u => ?_, fun u sc obj kept k' hu => ?_, fun u rpc k' hu => ?_,
    fun u head k' hu => ?_, fun u hu => ?_⟩
  · rw [hhead, hnext, hmut]
    refine ⟨rfl, ?_⟩
    rw [h.linking t _ k hpc]
    exact h.chain
  · rw [hmut]
    exact List.nodup_cons.mpr ⟨hnot, h.nodup⟩
  · rw [hmut, hcur, List.mem_cons]
    by_cases hut : u = t
    · subst hut
      rw [hself, resume_isRegistering]
      simp [hstarted]
    · rw [hother u hut, ← h.mem u]
      simp [hut]
  -- a scan under way stays within the old list
  · have hwithin : sc.Within s.mutators := by
      by_cases hut : u = t
      · subst hut
        rw [hself] at hu
        cases k <;> cases hu
      · exact h.within u sc obj kept k' ((hother u hut).symm.trans hu)
    rw [hmut]
    exact fun v hv => List.mem_cons_of_mem _ (hwithin v hv)
  · rw [hcur]
    by_cases hut : u = t
    · subst hut
      exact .inr hstarted
    · exact h.started u rpc k' ((hother u hut).symm.trans hu)
  · rw [hnext]
    by_cases hut : u = t
    · subst hut
      rw [hself] at hu
      cases k <;> cases hu
    · exact h.linking u head k' ((hother u hut).symm.trans hu)
  · rw [hmut]
    by_cases hut : u = t
    · subst hut
      exact List.mem_cons_self
    · exact List.mem_cons_of_mem _ (h.enrolled u (by rwa [hother u hut] at hu))

/-- What `Keeps` says about the list. -/
theorem Listed.of_keeps {s' : State θ ν κ A} {pc' : Pc θ ν κ A} (h : Listed s)
    (keeps : Keeps s t pc') (hpc : s'.pc = update s.pc t pc') (hhead : s'.head_ = s.head_)
    (hnext : s'.next_ = s.next_) (hcur : s'.current_mutator = s.current_mutator)
    (hmut : s'.mutators = s.mutators) : Listed s' := by
  refine h.of_move hpc hhead hnext hcur hmut keeps.notRegistering keeps.registering
    (fun pc obj kept k he => ?_) fun he => ?_
  · have hex := keeps.examined
    rw [he] at hex
    cases hex
  · rcases keeps.enrolled he with hin | hc
    · exact h.enrolled t hin
    · exact (h.mem t).mpr ⟨hc, keeps.notRegistering⟩

theorem ScanMove.within {pc pc' : ScanPc θ} {obj : A} (h : Listed s) (hm : ScanMove s obj pc pc')
    (hw : pc.Within s.mutators) : pc'.Within s.mutators := by
  cases hm with
  | @start head hhead =>
    rintro u hu
    cases hu
    have hh := h.chain.head
    rw [hhead] at hh
    exact List.mem_of_mem_head? hh.symm
  | startEmpty hhead => exact fun u hu => by cases hu
  | miss hslot => exact hw
  | missLast hslot => exact hw
  | next hnext => exact hw
  | last hnext => exact hw
  | restart hhead => exact fun u hu => by cases hu

variable [Fintype ν] [Fintype κ]

theorem Listed.effect {s' : State θ ν κ A} (h : Listed s) (hs : Effect s t s') : Listed s' := by
  -- the steps inside `Unlink` and `Gc`
  have hgo : ∀ {s' : State θ ν κ A} {pc' : Pc θ ν κ A}, s'.pc = update s.pc t pc' →
      s'.head_ = s.head_ → s'.next_ = s.next_ → s'.current_mutator = s.current_mutator →
      s'.mutators = s.mutators → (s.pc t).isRegistering = false → pc'.isRegistering = false →
      (∀ pc obj kept k, pc' = .scan pc obj kept k → pc.Within s.mutators) →
      pc'.enrolled = (s.pc t).enrolled → Listed s' := by
    intro s' pc' hpc hhead hnext hcur hmut hnot hnot' hscan henr
    refine h.of_move hpc hhead hnext hcur hmut hnot (fun pc k he => ?_) hscan fun he => ?_
    · rw [he] at hnot'
      cases hnot'
    · exact h.enrolled t (henr ▸ he)
  cases hs with
  | shift var' cell' turn keeps => exact h.of_keeps keeps rfl rfl rfl rfl rfl
  | addRef var' pc' hss turn keeps => exact h.of_keeps keeps rfl rfl rfl rfl rfl
  | unlink turn refs pending held hprot examined checks notRegistering registering enrolled =>
    refine h.of_move rfl rfl rfl rfl rfl notRegistering registering (fun pc obj kept k he => ?_)
      fun he => h.enrolled t (enrolled ▸ he)
    rw [he] at examined
    cases examined
  | make hlive hdst hfree hpc =>
    exact ⟨h.chain, h.nodup, h.mem, h.within, h.started, h.linking, h.enrolled⟩
  | touch hss turn keeps => exact h.of_keeps keeps rfl rfl rfl rfl rfl
  | protect hpc turn hprot refs pending held examined checks registering =>
    refine h.of_move rfl rfl rfl rfl rfl (by rw [hpc]; rfl) (fun pc k he => ?_)
      (fun pc obj kept k he => ?_) fun _ => h.enrolled t (by rw [hpc]; rfl)
    · rw [he] at registering
      cases registering
    · rw [he] at examined
      cases examined
  | set hpc holds =>
    exact hgo rfl rfl rfl rfl rfl (by rw [hpc]; rfl) rfl (fun _ _ _ _ he => by cases he)
      (by rw [hpc]; rfl)
  | reset turn keeps => exact h.of_keeps keeps rfl rfl rfl rfl rfl
  | registerHead hpc holds =>
    exact h.of_register hpc rfl rfl (fun _ _ => rfl) (fun u hu => Function.update_of_ne hu _ _) rfl
      (.inr (Function.update_self _ _ _)) fun head he => by cases he
  | @registerNext head k hpc holds =>
    refine h.of_register hpc rfl rfl (fun u hu => Function.update_of_ne hu _ _) (fun _ _ => rfl) rfl
      (.inr ?_) fun head' he => ?_
    · exact (h.started t _ k hpc).resolve_left fun he => by cases he
    · cases he
      exact Function.update_self _ _ _
  | registerRetry hpc holds =>
    exact h.of_register hpc rfl rfl (fun _ _ => rfl) (fun _ _ => rfl) rfl (.inl rfl)
      fun head he => by cases he
  | registerLink hpc holds => exact h.link hpc rfl rfl rfl rfl rfl
  | retire hpc holds =>
    exact hgo rfl rfl rfl rfl rfl (by rw [hpc]; rfl) rfl (fun _ _ _ _ he => by cases he)
      (by rw [hpc]; rfl)
  | collectNone hpc hret holds =>
    exact hgo rfl rfl rfl rfl rfl (by rw [hpc]; rfl) rfl (fun _ _ _ _ he => by cases he)
      (by rw [hpc]; rfl)
  | collectSome hpc hret holds =>
    refine hgo rfl rfl rfl rfl rfl (by rw [hpc]; rfl) rfl (fun pc obj kept k he => ?_)
      (by rw [hpc]; rfl)
    cases he
    exact fun u hu => by cases hu
  | scan hpc move holds =>
    refine hgo rfl rfl rfl rfl rfl (by rw [hpc]; rfl) rfl (fun pc obj kept k he => ?_)
      (by rw [hpc]; rfl)
    cases he
    exact move.within h (h.within t _ _ _ _ hpc)
  | keep hpc holds =>
    exact hgo rfl rfl rfl rfl rfl (by rw [hpc]; rfl) rfl (fun _ _ _ _ he => by cases he)
      (by rw [hpc]; rfl)
  | clear hpc holds =>
    exact hgo rfl rfl rfl rfl rfl (by rw [hpc]; rfl) rfl (fun _ _ _ _ he => by cases he)
      (by rw [hpc]; rfl)
  | destroy hpc holds =>
    exact hgo rfl rfl rfl rfl rfl (by rw [hpc]; rfl) rfl (fun _ _ _ _ he => by cases he)
      (by rw [hpc]; rfl)

theorem listed_of_reachable [Fintype θ] {C : Action θ ν κ A → State θ ν κ A → Prop}
    (hs : (machine θ ν κ A).ReachableVia C s) : Listed s := by
  refine hs.invariant_of (I := Listed) (fun h => vars_of_reachable h) (fun s hinit => ?_)
    fun a s s' hv _ h _ hst => h.effect (step_cases hv hst)
  subst hinit
  refine ⟨rfl, List.nodup_nil, fun t => ?_, fun t pc obj kept k ht => (by cases ht),
    fun t pc k ht => (by cases ht), fun t head k ht => (by cases ht), fun t ht => by cases ht⟩
  simp [State.init]

/-! ## A scan does not pass a protected slot -/

/-- The scan has not come to the first slot of `u` yet, or it has started from an
old head and will be repeated. -/
def ScanPc.Unseen (l : List θ) (u : θ) : ScanPc θ → Prop
  | .loadHead => True
  | .slot head cur i =>
    head ≠ l.head? ∨ ∃ pre post, l = pre ++ cur :: post ∧ (u ∈ post ∨ u = cur ∧ i = 0)
  | .next head cur => head ≠ l.head? ∨ ∃ pre post, l = pre ++ cur :: post ∧ u ∈ post
  | .checkHead head => head ≠ l.head?

/-- A `Gc` that looks for `ss` has not passed the slot of `u`. -/
def Pc.Unseen (l : List θ) (u : θ) (ss : A) : Pc θ ν κ A → Prop
  | .scan pc obj _ _ => obj = ss → pc.Unseen l u
  | .destroy obj _ _ => obj ≠ ss
  | _ => True

theorem Pc.unseen_of_examined {pc : Pc θ ν κ A} (h : pc.examined = none) (l : List θ) (u : θ)
    (ss : A) : pc.Unseen l u ss := by
  cases pc <;> first | exact trivial | cases h

/-- One step of a scan for what `u` protects. -/
theorem ScanMove.unseen {pc pc' : ScanPc θ} {obj : A} {u : θ} (hm : ScanMove s obj pc pc')
    (hl : Listed s) (hu : u ∈ s.mutators) (hslot : s.hazard_ptrs_ u 0 = some obj)
    (h : pc.Unseen s.mutators u) : pc'.Unseen s.mutators u := by
  cases hm with
  -- the scan begins at the head, and `u` is there or behind it
  | @start head hhead =>
    have hh := hl.chain.head
    rw [hhead] at hh
    cases hlist : s.mutators with
    | nil =>
      rw [hlist] at hu
      cases hu
    | cons v post =>
      rw [hlist] at hh hu
      cases hh
      refine .inr ⟨[], post, rfl, ?_⟩
      rcases List.mem_cons.mp hu with rfl | hpost
      · exact .inr ⟨rfl, rfl⟩
      · exact .inl hpost
  | startEmpty hhead =>
    have hh := hl.chain.head
    rw [hhead] at hh
    rw [List.head?_eq_none_iff.mp hh.symm] at hu
    cases hu
  -- the slot that was looked at is the one of somebody else
  | @miss head cur hne =>
    refine h.imp id ?_
    rintro ⟨pre, post, hlist, hpost | ⟨rfl, -⟩⟩
    · exact ⟨pre, post, hlist, .inl hpost⟩
    · exact absurd hslot hne
  | missLast hne =>
    refine h.imp id ?_
    rintro ⟨pre, post, hlist, hpost | ⟨-, hi⟩⟩
    · exact ⟨pre, post, hlist, hpost⟩
    · cases hi
  -- `u` is behind `cur`, so it is the next one or behind that
  | @next head cur next hnext =>
    refine h.imp id ?_
    rintro ⟨pre, post, hlist, hpost⟩
    have hchain := hl.chain
    rw [hlist] at hchain
    have hdrop := hchain.drop
    rw [hnext] at hdrop
    cases post with
    | nil => cases hpost
    | cons v post =>
      cases hdrop.1
      refine ⟨pre ++ [cur], post, by rw [hlist, List.append_assoc]; rfl, ?_⟩
      rcases List.mem_cons.mp hpost with rfl | hp
      · exact .inr ⟨rfl, rfl⟩
      · exact .inl hp
  -- at the end of the list nobody is behind
  | last hnext =>
    refine h.resolve_right ?_
    rintro ⟨pre, post, hlist, hpost⟩
    have hchain := hl.chain
    rw [hlist] at hchain
    have hdrop := hchain.drop
    rw [hnext] at hdrop
    cases post with
    | nil => cases hpost
    | cons v post => cases hdrop.1
  | restart hhead => exact trivial

/-- The list grows at the head, which no scan has started from. -/
theorem ScanPc.Unseen.cons {pc : ScanPc θ} {l : List θ} {u v : θ} (h : pc.Unseen l u)
    (hw : pc.Within l) (hv : v ∉ l) : pc.Unseen (v :: l) u := by
  have hhead : pc.head ≠ some v := fun he => hv (hw v he)
  cases pc with
  | loadHead => exact trivial
  | slot head cur i =>
    refine .inl ?_
    exact hhead
  | next head cur => exact .inl hhead
  | checkHead head => exact hhead

/-- Whoever is protected has a `PtrOwner`. -/
theorem Pc.enrolled_of_protected {pc : Pc θ ν κ A} {ss : A} (h : pc.protected_ = some ss) :
    pc.enrolled = true := by
  have hk : ∀ {k : AfterUnlink ν κ A}, k.protected_ = some ss → k.enrolled = true := by
    intro k hk
    cases k <;> first | rfl | cases hk
  cases pc with
  | register pc k =>
    cases k with
    | retire p k => exact hk h
    | _ => cases h
  | unlink p k => exact hk h
  | retire p k => exact hk h
  | collect kept k => exact hk h
  | scan pc obj kept k => exact hk h
  | destroy obj kept k => exact hk h
  | resume k => exact hk h
  | tryLoad p k => rfl
  | tryCas p old k => rfl
  | acquired p k => rfl
  | swing x => rfl
  | scopedReset p k exit => rfl
  | _ => cases h

/-! ## The handshake -/

/-- What `Protect` has returned is published, live, and passed by no scan. -/
structure Hazards (s : State θ ν κ A) : Prop where
  slot : ∀ u ss, (s.pc u).protected_ = some ss → s.hazard_ptrs_ u 0 = some ss
  check : ∀ u ptr, (s.pc u).checks = some ptr → s.hazard_ptrs_ u 0 = ptr
  live : ∀ u ss, (s.pc u).protected_ = some ss → s.live ss = true
  unseen : ∀ v u ss, (s.pc u).protected_ = some ss → (s.pc v).Unseen s.mutators u ss

/-- A thread moves, and does not become protected. -/
theorem Hazards.of_move {s' : State θ ν κ A} {pc' : Pc θ ν κ A} (h : Hazards s)
    (hpc : s'.pc = update s.pc t pc') (hhaz : s'.hazard_ptrs_ = s.hazard_ptrs_)
    (hmut : s'.mutators = s.mutators)
    (hlive : ∀ u ss, (s.pc u).protected_ = some ss → s'.live ss = true)
    (hprot : pc'.protected_ = (s.pc t).protected_ ∨ pc'.protected_ = none)
    (hcheck : pc'.checks = none)
    (hunseen : ∀ u ss, (s.pc u).protected_ = some ss → pc'.Unseen s.mutators u ss) :
    Hazards s' := by
  have hself : s'.pc t = pc' := by rw [hpc, Function.update_self]
  have hother : ∀ u, u ≠ t → s'.pc u = s.pc u := fun u hu => by
    rw [hpc, Function.update_of_ne hu]
  -- whoever is protected now was protected before
  have hback : ∀ {u ss}, (s'.pc u).protected_ = some ss → (s.pc u).protected_ = some ss := by
    intro u ss hu
    by_cases hut : u = t
    · subst hut
      rw [hself] at hu
      rcases hprot with he | he
      · exact he ▸ hu
      · rw [he] at hu
        cases hu
    · rwa [hother u hut] at hu
  refine ⟨fun u ss hu => ?_, fun u ptr hu => ?_, fun u ss hu => hlive u ss (hback hu),
    fun v u ss hu => ?_⟩
  · rw [hhaz]
    exact h.slot u ss (hback hu)
  · rw [hhaz]
    by_cases hut : u = t
    · subst hut
      rw [hself, hcheck] at hu
      cases hu
    · exact h.check u ptr (by rwa [hother u hut] at hu)
  · rw [hmut]
    by_cases hvt : v = t
    · subst hvt
      rw [hself]
      exact hunseen u ss (hback hu)
    · rw [hother v hvt]
      exact h.unseen v u ss (hback hu)

/-- A thread writes its slot, and is not protected afterwards. -/
theorem Hazards.of_slot {pc' : Pc θ ν κ A} {p : Option A} (h : Hazards s)
    (hprot : pc'.protected_ = none) (hexamined : pc'.examined = none)
    (hcheck : ∀ ptr, pc'.checks = some ptr → ptr = p) :
    Hazards ((s.setHazard t p).setPc t pc') := by
  have hself : ((s.setHazard t p).setPc t pc').pc t = pc' := Function.update_self _ _ _
  have hother : ∀ u, u ≠ t → ((s.setHazard t p).setPc t pc').pc u = s.pc u := fun u hu =>
    Function.update_of_ne hu _ _
  have hslot : ∀ u, u ≠ t → ((s.setHazard t p).setPc t pc').hazard_ptrs_ u = s.hazard_ptrs_ u :=
    fun u hu => Function.update_of_ne hu _ _
  -- nobody but `t` writes this slot, and `t` is not protected
  have hback : ∀ {u ss}, (((s.setHazard t p).setPc t pc').pc u).protected_ = some ss →
      u ≠ t ∧ (s.pc u).protected_ = some ss := by
    intro u ss hu
    by_cases hut : u = t
    · subst hut
      rw [hself, hprot] at hu
      cases hu
    · rw [hother u hut] at hu
      exact ⟨hut, hu⟩
  refine ⟨fun u ss hu => ?_, fun u ptr hu => ?_, fun u ss hu => h.live u ss (hback hu).2,
    fun v u ss hu => ?_⟩
  · rw [hslot u (hback hu).1]
    exact h.slot u ss (hback hu).2
  · by_cases hut : u = t
    · subst hut
      rw [hself] at hu
      rw [hcheck ptr hu]
      simp [State.setHazard, State.setPc]
    · rw [hslot u hut]
      exact h.check u ptr (by rwa [hother u hut] at hu)
  · by_cases hvt : v = t
    · subst hvt
      rw [hself]
      exact Pc.unseen_of_examined hexamined _ _ _
    · rw [hother v hvt]
      exact h.unseen v u ss (hback hu).2

/-- A new mutator: the scans under way have started from an old head. -/
theorem Hazards.link {s' : State θ ν κ A} {k : AfterRegister ν κ A} (h : Hazards s)
    (hl : Listed s) (hpc : s.pc t = .register (.cas s.head_) k)
    (hpc' : s'.pc = update s.pc t k.resume) (hhaz : s'.hazard_ptrs_ = s.hazard_ptrs_)
    (hlive : s'.live = s.live) (hmut : s'.mutators = t :: s.mutators) : Hazards s' := by
  have hself : s'.pc t = k.resume := by rw [hpc', Function.update_self]
  have hother : ∀ u, u ≠ t → s'.pc u = s.pc u := fun u hu => by
    rw [hpc', Function.update_of_ne hu]
  have hnot : t ∉ s.mutators := by
    intro ht
    have hreg := ((hl.mem t).mp ht).2
    rw [hpc] at hreg
    cases hreg
  have hprot : (k.resume : Pc θ ν κ A).protected_ = (s.pc t).protected_ := by
    rw [hpc]
    cases k <;> rfl
  have hback : ∀ {u ss}, (s'.pc u).protected_ = some ss → (s.pc u).protected_ = some ss := by
    intro u ss hu
    by_cases hut : u = t
    · subst hut
      rwa [hself, hprot] at hu
    · rwa [hother u hut] at hu
  refine ⟨fun u ss hu => ?_, fun u ptr hu => ?_, fun u ss hu => ?_, fun v u ss hu => ?_⟩
  · rw [hhaz]
    exact h.slot u ss (hback hu)
  · rw [hhaz]
    by_cases hut : u = t
    · subst hut
      rw [hself] at hu
      cases k <;> cases hu
    · exact h.check u ptr (by rwa [hother u hut] at hu)
  · rw [hlive]
    exact h.live u ss (hback hu)
  · rw [hmut]
    by_cases hvt : v = t
    · subst hvt
      rw [hself]
      refine Pc.unseen_of_examined ?_ _ _ _
      cases k <;> rfl
    · rw [hother v hvt]
      have hun := h.unseen v u ss (hback hu)
      cases hv : s.pc v with
      | scan pc obj kept k' =>
        rw [hv] at hun
        -- it is going to find the head changed and start again
        exact fun he => (hun he).cons (hl.within v pc obj kept k' hv) hnot
      | destroy obj kept k' =>
        rw [hv] at hun
        exact hun
      | _ => exact trivial

section Counts

variable [Fintype θ]

/-- Nobody collects what is still referred to. -/
theorem Books.not_examined (hb : Books s) {v : θ} {ss : A} (hc : s.counter_ ss ≠ 0) :
    (s.pc v).examined ≠ some ss := by
  intro hex
  have hheld : 1 ≤ (s.pc v).held ss := by
    cases hv : s.pc v with
    | scan pc obj kept k =>
      rw [hv] at hex
      cases hex
      simp only [Pc.held, pointsTo_some, if_pos]
      omega
    | destroy obj kept k =>
      rw [hv] at hex
      cases hex
      simp only [Pc.held, pointsTo_some, if_pos]
      omega
    | _ =>
      rw [hv] at hex
      cases hex
  have hle := le_sum_pc (Pc.held ss) s.pc v
  refine hc (hb.of_garbage ?_).2
  unfold State.garbage
  omega

/-- **`Protect` returns.** Its second load has seen the state in the cell. -/
theorem Hazards.protect {c : κ} {pc' : Pc θ ν κ A} {k : Call ν κ A} (h : Hazards s)
    (hb : Books s) (hpc : s.pc t = .protect (.check (s.cell c)) k)
    (hprot : pc'.protected_ = s.cell c) (hexamined : pc'.examined = none)
    (hcheck : pc'.checks = none) : Hazards (s.setPc t pc') := by
  have hself : (s.setPc t pc').pc t = pc' := Function.update_self _ _ _
  have hother : ∀ u, u ≠ t → (s.setPc t pc').pc u = s.pc u := fun u hu =>
    Function.update_of_ne hu _ _
  refine ⟨fun u ss hu => ?_, fun u ptr hu => ?_, fun u ss hu => ?_, fun v u ss hu => ?_⟩
  · by_cases hut : u = t
    · subst hut
      rw [hself, hprot] at hu
      exact (h.check u _ (by rw [hpc]; rfl)).trans hu
    · exact h.slot u ss (by rwa [hother u hut] at hu)
  · by_cases hut : u = t
    · subst hut
      rw [hself, hcheck] at hu
      cases hu
    · exact h.check u ptr (by rwa [hother u hut] at hu)
  · by_cases hut : u = t
    · subst hut
      rw [hself, hprot] at hu
      exact hb.live_of_counter (hb.counter_ne_zero_of_cell hu)
    · exact h.live u ss (by rwa [hother u hut] at hu)
  · by_cases hut : u = t
    · subst hut
      rw [hself, hprot] at hu
      -- the cell's reference is counted, so no `Gc` has the state
      have hnone := hb.counter_ne_zero_of_cell hu
      by_cases hvt : v = u
      · subst hvt
        rw [hself]
        exact Pc.unseen_of_examined hexamined _ _ _
      · rw [hother v hvt]
        have hne := hb.not_examined (v := v) hnone
        cases hv : s.pc v with
        | scan pc obj kept k' =>
          rw [hv] at hne
          exact fun he => absurd (congrArg some he) hne
        | destroy obj kept k' =>
          rw [hv] at hne
          exact fun he => hne (congrArg some he)
        | _ => exact trivial
    · have hu' : (s.pc u).protected_ = some ss := by rwa [hother u hut] at hu
      by_cases hvt : v = t
      · subst hvt
        rw [hself]
        exact Pc.unseen_of_examined hexamined _ _ _
      · rw [hother v hvt]
        exact h.unseen v u ss hu'

theorem Hazards.effect {s' : State θ ν κ A} (h : Hazards s) (hl : Listed s) (hb : Books s)
    (hs : Effect s t s') : Hazards s' := by
  -- the steps after which the thread is not in a scan
  have hgo : ∀ {s' : State θ ν κ A} {pc' : Pc θ ν κ A}, s'.pc = update s.pc t pc' →
      s'.hazard_ptrs_ = s.hazard_ptrs_ → s'.mutators = s.mutators → s'.live = s.live →
      (pc'.protected_ = (s.pc t).protected_ ∨ pc'.protected_ = none) → pc'.checks = none →
      pc'.examined = none → Hazards s' := by
    intro s' pc' hpc hhaz hmut hlive hprot hcheck hex
    refine h.of_move hpc hhaz hmut (fun u ss hu => ?_) hprot hcheck
      fun u ss _ => Pc.unseen_of_examined hex _ _ _
    rw [hlive]
    exact h.live u ss hu
  cases hs with
  | shift var' cell' turn keeps =>
    exact hgo rfl rfl rfl rfl keeps.protected_ keeps.checks keeps.examined
  | addRef var' pc' hss turn keeps =>
    exact hgo rfl rfl rfl rfl keeps.protected_ keeps.checks keeps.examined
  | unlink turn refs pending held hprot examined checks =>
    exact hgo rfl rfl rfl rfl (.inl hprot) checks examined
  | @make dst ss hlive hdst hfree hpc =>
    refine ⟨h.slot, h.check, fun u p hu => ?_, h.unseen⟩
    change update s.live ss true p = true
    by_cases hp : p = ss
    · subst hp
      exact Function.update_self _ _ _
    · rw [Function.update_of_ne hp]
      exact h.live u p hu
  | touch hss turn keeps =>
    exact hgo rfl rfl rfl rfl keeps.protected_ keeps.checks keeps.examined
  | protect hpc turn hprot refs pending held examined checks =>
    exact h.protect hb hpc hprot examined checks
  | @set ptr k hpc holds =>
    refine h.of_slot rfl rfl fun p hp => ?_
    cases hp
    rfl
  | reset turn keeps refs hprot =>
    refine h.of_slot hprot keeps.examined fun p hp => ?_
    rw [keeps.checks] at hp
    cases hp
  | registerHead hpc holds => exact hgo rfl rfl rfl rfl (.inl (by rw [hpc]; rfl)) rfl rfl
  | registerNext hpc holds => exact hgo rfl rfl rfl rfl (.inl (by rw [hpc]; rfl)) rfl rfl
  | registerRetry hpc holds => exact hgo rfl rfl rfl rfl (.inl (by rw [hpc]; rfl)) rfl rfl
  | registerLink hpc holds => exact h.link hl hpc rfl rfl rfl rfl
  | retire hpc holds => exact hgo rfl rfl rfl rfl (.inl (by rw [hpc]; rfl)) rfl rfl
  | collectNone hpc hret holds => exact hgo rfl rfl rfl rfl (.inl (by rw [hpc]; rfl)) rfl rfl
  | collectSome hpc hret holds =>
    exact h.of_move rfl rfl rfl (fun u ss hu => h.live u ss hu) (.inl (by rw [hpc]; rfl)) rfl
      fun u ss _ _ => trivial
  | @scan pc pc' obj kept k hpc move holds =>
    refine h.of_move rfl rfl rfl (fun u ss hu => h.live u ss hu) (.inl (by rw [hpc]; rfl)) rfl ?_
    rintro u ss hu rfl
    have hun := h.unseen t u obj hu
    rw [hpc] at hun
    exact move.unseen hl (hl.enrolled u (Pc.enrolled_of_protected hu)) (h.slot u obj hu) (hun rfl)
  | keep hpc holds => exact hgo rfl rfl rfl rfl (.inl (by rw [hpc]; rfl)) rfl rfl
  | @clear obj kept k hpc holds =>
    refine h.of_move rfl rfl rfl (fun u ss hu => h.live u ss hu) (.inl (by rw [hpc]; rfl)) rfl ?_
    rintro u ss hu rfl
    -- the list has not grown, so the scan has been past every slot
    have hun := h.unseen t u obj hu
    rw [hpc] at hun
    exact hun rfl hl.chain.head
  | @destroy obj kept k hpc holds =>
    refine h.of_move rfl rfl rfl (fun u ss hu => ?_) (.inl (by rw [hpc]; rfl)) rfl
      fun u ss _ => trivial
    have hun := h.unseen t u ss hu
    rw [hpc] at hun
    change update s.live obj false ss = true
    rw [Function.update_of_ne (Ne.symm hun)]
    exact h.live u ss hu

theorem hazards_of_reachable {C : Action θ ν κ A → State θ ν κ A → Prop}
    (hs : (machine θ ν κ A).ReachableVia C s) : Hazards s := by
  refine hs.invariant_of (I := Hazards) (B := fun s => Vars s ∧ Listed s ∧ Books s)
    (fun h => ⟨vars_of_reachable h, listed_of_reachable h, books_of_reachable h⟩)
    (fun s hinit => ?_) fun a s s' hB _ h _ hst => h.effect hB.2.1 hB.2.2 (step_cases hB.1 hst)
  subst hinit
  exact ⟨fun u ss hu => (by cases hu), fun u ptr hu => (by cases hu),
    fun u ss hu => (by cases hu), fun v u ss hu => by cases hu⟩

/-! ## No fault -/

/-- What a step acts on is live. -/
theorem not_fault_effect {s' : State θ ν κ A} (h : Hazards s) (hb : Books s)
    (hf : s.fault = false) (hs : Effect s t s') : s'.fault = false := by
  have htouch : ∀ {ss : A}, s.live ss = true → (s.fault || !s.live ss) = false := by
    intro ss hl
    rw [hf, hl]
    rfl
  -- the thread's own garbage is live
  have hheld : ∀ {ss : A}, (s.pc t).pending ss ≠ 0 ∨ (s.pc t).held ss ≠ 0 ∨
      (s.retired_ t).count ss ≠ 0 → s.live ss = true := by
    intro ss hg
    refine (hb.of_garbage fun hzero => ?_).1
    have h₁ := le_sum_pc (Pc.pending ss) s.pc t
    have h₂ := le_sum_pc (Pc.held ss) s.pc t
    have h₃ : (s.retired_ t).count ss ≤ ∑ u, (s.retired_ u).count ss :=
      Finset.single_le_sum (f := fun u => (s.retired_ u).count ss) (fun _ _ => Nat.zero_le _)
        (Finset.mem_univ t)
    unfold State.garbage at hzero
    omega
  have hrefer : ∀ {ss : A}, (∃ v, s.var v = some ss) ∨ (s.pc t).protected_ = some ss →
      s.live ss = true := by
    rintro ss (⟨v, hv⟩ | hp)
    · exact hb.live_of_counter (hb.counter_ne_zero hv)
    · exact h.live t ss hp
  cases hs with
  | @addRef ss var' pc' hss turn keeps refs => exact htouch (hrefer (hss.imp id (·.1)))
  | @unlink ss pc' turn refs =>
    refine htouch (hb.live_of_counter fun hzero => ?_)
    have hcount := hb.count ss
    have hle := le_sum_pc (Pc.refs ss) s.pc t
    have hloc := refs ss
    rw [pointsTo_some, if_pos rfl] at hloc
    unfold State.refs at hcount
    omega
  | touch hss turn keeps refs => exact htouch (hrefer hss)
  | @retire ss k hpc holds =>
    refine htouch (hheld (.inl ?_))
    rw [hpc]
    simp [Pc.pending, pointsTo_some]
  | collectSome hpc hret holds =>
    refine htouch (hheld (.inr (.inr ?_)))
    rw [hret]
    simp
  | keep hpc holds =>
    refine htouch (hheld (.inr (.inl ?_)))
    rw [hpc]
    simp [Pc.held, pointsTo_some]
  | destroy hpc holds =>
    refine htouch (hheld (.inr (.inl ?_)))
    rw [hpc]
    simp [Pc.held, pointsTo_some]
  | _ => exact hf

/-- **Safe reclamation.** No step has acted on a destroyed state, and what
`Protect` has returned to a thread stays live and published until the thread
resets the slot. -/
theorem safe_reclamation (hs : (machine θ ν κ A).Reachable s) :
    s.fault = false ∧ ∀ t ss, (s.pc t).protected_ = some ss →
      s.live ss = true ∧ s.hazard_ptrs_ t 0 = some ss := by
  have h := hazards_of_reachable hs
  refine ⟨?_, fun t ss ht => ⟨h.live t ss ht, h.slot t ss ht⟩⟩
  refine hs.invariant_of (I := fun s : State θ ν κ A => s.fault = false)
    (B := fun s => Vars s ∧ Hazards s ∧ Books s)
    (fun h => ⟨vars_of_reachable h, hazards_of_reachable h, books_of_reachable h⟩)
    (fun s hinit => ?_) fun a s s' hB _ hf _ hst =>
      not_fault_effect hB.2.1 hB.2.2 hf (step_cases hB.1 hst)
  subst hinit
  rfl

end Counts

/-- The state is retired and collected by the one thread while the other has it
protected: it stays. -/
theorem safe_reclamation_kept : ∃ s, (machine (Fin 2) (Fin 2) (Fin 1) ℕ).Reachable s ∧
    (s.pc 0).protected_ = some 7 ∧ s.counter_ 7 = 0 ∧ s.retires 7 = 1 ∧ s.retired_ 1 = [7] ∧
    s.live 7 = true ∧ s.fault = false := by
  obtain ⟨s, hs, hp⟩ := Machine.Reachable.exec_any (M := machine (Fin 2) (Fin 2) (Fin 1) ℕ)
    (.init rfl) (storeDuringLoad ++ List.replicate 12 (.step 1 false))
    (fun s => decide ((s.pc 0).protected_ = some 7 ∧ s.counter_ 7 = 0 ∧ s.retires 7 = 1 ∧
      s.retired_ 1 = [7])) (by decide)
  obtain ⟨hprot, hzero, hone, hret⟩ := of_decide_eq_true hp
  obtain ⟨hfault, hsafe⟩ := safe_reclamation hs
  exact ⟨s, hs, hprot, hzero, hone, hret, (hsafe 0 7 hprot).1, hfault⟩

end Exe.Gc
