import JyyOs.Library.PartialRun
import Mathlib.Logic.Function.Basic
import Mathlib.Data.Int.Basic

/-!
One parent in kwait and its children in kexit, one step for each access to what they share:
the killed flags, the parent's retstate and its wait_sem. `notice` records the first child that
signalled since the last sem_init, whose exit the current kwait is woken for.
-/
namespace ExitNotice
open PartialRun

/-- Where a child is in kexit: after `killed = true`, after it wrote the parent's retstate and
    after sem_signal. -/
inductive ChildPc where
  | alive
  | killed (status : Int)
  | stored (status : Int)
  | signalled (status : Int)
deriving DecidableEq

/-- Where the parent is in kwait; `returned none` is the result -1. -/
inductive ParentPc where
  | outside
  | scan (i : Nat)
  | semInit
  | semWait
  | reread
  | yielding
  | read
  | returned (status : Option Int)
deriving DecidableEq

structure Family where
  children : Nat → ChildPc
  childCnt : Nat
  pc : ParentPc
  retstate : Int
  resource : Int
  taskCnt : Nat
  block : Bool
  notice : Option Nat

inductive Event where
  | kfork
  | kwait
  | parent
  | kexit (i : Nat) (status : Int)
  | child (i : Nat)

def Family.setChild (s : Family) (i : Nat) (pc : ChildPc) : Family :=
  { s with children := Function.update s.children i pc }

/-- The next step of the parent inside kwait; a blocked parent takes none. -/
def kwaitStep (s : Family) : Option Family :=
  match s.pc with
  | .outside | .returned _ => none
  | .scan i =>
    if i < s.childCnt then
      some { s with pc := if s.children i = .alive then .semInit else .scan (i + 1) }
    else some { s with pc := .returned none }
  | .semInit => some { s with pc := .semWait, resource := 0, taskCnt := 0, notice := none }
  | .semWait =>
    let s := { s with pc := .reread, resource := s.resource - 1 }
    some (if s.resource < 0 then { s with taskCnt := s.taskCnt + 1, block := true } else s)
  | .reread => some { s with pc := if s.resource < 0 then .yielding else .read }
  | .yielding => if s.block then none else some { s with pc := .read }
  | .read => some { s with pc := .returned (some s.retstate) }

/-- kmt_sem_signal on wait_sem, where only the parent can be waiting. -/
def semSignal (s : Family) : Family :=
  let s := { s with resource := s.resource + 1 }
  if s.resource ≤ 0 ∧ 0 < s.taskCnt then { s with taskCnt := s.taskCnt - 1, block := false } else s

def kexitStep (s : Family) (i : Nat) : Option Family :=
  match s.children i with
  | .alive | .signalled _ => none
  | .killed status => some { s.setChild i (.stored status) with retstate := status }
  | .stored status =>
    some { semSignal (s.setChild i (.signalled status)) with notice := s.notice.or (some i) }

def ParentPc.Idle : ParentPc → Prop
  | .outside | .returned _ => True
  | .scan _ | .semInit | .semWait | .reread | .yielding | .read => False

instance (pc : ParentPc) : Decidable pc.Idle := by
  cases pc <;> simp only [ParentPc.Idle] <;> infer_instance

def step (s : Family) : Event → Option Family
  | .kfork =>
    if s.pc.Idle then some { s.setChild s.childCnt .alive with childCnt := s.childCnt + 1 } else none
  | .kwait => if s.pc.Idle then some { s with pc := .scan 0, retstate := 0 } else none
  | .parent => kwaitStep s
  | .kexit i status =>
    if i < s.childCnt ∧ s.children i = .alive then some (s.setChild i (.killed status)) else none
  | .child i => if i < s.childCnt then kexitStep s i else none

def boot : Family := ⟨fun _ => .alive, 0, .outside, 0, 0, 0, false, none⟩

def ChildPc.Signalled : ChildPc → Prop
  | .signalled _ => True
  | .alive | .killed _ | .stored _ => False

def ChildPc.Stored : ChildPc → Prop
  | .stored _ => True
  | .alive | .killed _ | .signalled _ => False

def ChildPc.Killed : ChildPc → Prop
  | .killed _ => True
  | .alive | .stored _ | .signalled _ => False

/-- The parent is not blocked when every child has signalled, and a kwait that returned 0
    delivered the status of the child it was woken for. -/
structure ExitsDelivered (s : Family) : Prop where
  woken : s.block = true → ∃ i, i < s.childCnt ∧ ¬ (s.children i).Signalled
  status : ∀ status, s.pc = .returned (some status) →
    ∃ i, i < s.childCnt ∧ s.notice = some i ∧ s.children i = .signalled status

def ParentPc.Waiting : ParentPc → Prop
  | .semWait | .reread | .yielding | .read => True
  | .outside | .scan _ | .semInit | .returned _ => False

/-- kwait starts while no child is between its write and its signal; sem_init comes while some
    child has yet to signal; a child writes when no other child is between its write and its
    signal, and no signal waits for the parent to read retstate. -/
def Orderly (s : Family) : Event → Prop
  | .kwait => ∀ i, i < s.childCnt → ¬ (s.children i).Stored
  | .parent => s.pc = .semInit → ∃ i, i < s.childCnt ∧ ¬ (s.children i).Signalled
  | .child i => (s.children i).Killed →
      (∀ j, j < s.childCnt → ¬ (s.children j).Stored) ∧ (s.pc.Waiting → s.notice = none)
  | .kfork | .kexit _ _ => True

def PhaseOk (s : Family) : Prop :=
  match s.pc with
  | .semWait => s.block = false ∧ s.taskCnt = 0 ∧ 0 ≤ s.resource ∧
      (s.notice = none ↔ s.resource = 0)
  | .reread | .yielding =>
      s.block = true ∧ s.taskCnt = 1 ∧ s.resource = -1 ∧ s.notice = none ∨
        s.block = false ∧ 0 ≤ s.resource ∧ s.notice ≠ none
  | .read => s.block = false ∧ s.notice ≠ none
  | .outside | .scan _ | .semInit | .returned _ => s.block = false

structure FamilyInv (s : Family) : Prop where
  fresh : ∀ i, s.childCnt ≤ i → s.children i = .alive
  carried : ∀ i status, s.children i = .stored status → s.retstate = status
  alone : ∀ i j, (s.children i).Stored → (s.children j).Stored → i = j
  phase : PhaseOk s
  noticed : s.pc.Waiting → ∀ i, s.notice = some i → s.children i = .signalled s.retstate
  awaited : s.pc.Waiting → s.notice = none → ∃ i, i < s.childCnt ∧ ¬ (s.children i).Signalled
  delivered : ∀ status, s.pc = .returned (some status) →
    ∃ i, s.notice = some i ∧ s.children i = .signalled status

theorem inv_delivered {s : Family} (inv : FamilyInv s) : ExitsDelivered s := by
  refine ⟨fun blocked => ?_, fun status returned => ?_⟩
  · have phase := inv.phase
    unfold PhaseOk at phase
    cases pc : s.pc <;> simp only [pc, blocked, Bool.true_eq_false, false_and, or_false] at phase
    all_goals
      refine inv.awaited ?_ phase.2.2.2
      rw [pc]
      trivial
  · obtain ⟨i, notice, child⟩ := inv.delivered status returned
    refine ⟨i, ?_, notice, child⟩
    by_contra outside
    rw [inv.fresh i (by omega)] at child
    cases child

section Steps

variable {s s' : Family}

theorem no_stored {pc : ChildPc} {status : Int} (quiet : ¬ pc.Stored) : pc ≠ .stored status := by
  rintro rfl
  exact quiet trivial

theorem idle_not_waiting {pc : ParentPc} (idle : pc.Idle) : ¬ pc.Waiting := by
  cases pc <;> first | exact id | exact absurd idle id

theorem phase_idle (inv : FamilyInv s) (quiet : ¬ s.pc.Waiting) : s.block = false := by
  have phase := inv.phase
  unfold PhaseOk at phase
  cases pc : s.pc <;> simp only [pc] at phase quiet <;> first
    | exact phase
    | exact absurd trivial quiet

theorem kfork_inv (inv : FamilyInv s) (idle : s.pc.Idle) :
    FamilyInv { s.setChild s.childCnt .alive with childCnt := s.childCnt + 1 } := by
  have same : Function.update s.children s.childCnt .alive = s.children :=
    Function.update_eq_self_iff.mpr (inv.fresh _ (Nat.le_refl _)).symm
  simp only [Family.setChild, same]
  exact ⟨fun i above => inv.fresh i (by simp only at above; omega), inv.carried, inv.alone,
    inv.phase, inv.noticed, fun waiting => absurd waiting (idle_not_waiting idle),
    inv.delivered⟩

theorem kwait_inv (inv : FamilyInv s) (idle : s.pc.Idle)
    (orderly : ∀ i, i < s.childCnt → ¬ (s.children i).Stored) :
    FamilyInv { s with pc := .scan 0, retstate := 0 } := by
  have running := phase_idle inv (idle_not_waiting idle)
  refine ⟨inv.fresh, fun i status stored => ?_, inv.alone, running, nofun, nofun, nofun⟩
  · by_cases inside : i < s.childCnt
    · exact absurd stored (no_stored (orderly i inside))
    · have alive := inv.fresh i (by omega)
      simp only [alive] at stored
      cases stored

theorem parent_inv (inv : FamilyInv s)
    (orderly : s.pc = .semInit → ∃ i, i < s.childCnt ∧ ¬ (s.children i).Signalled)
    (taken : kwaitStep s = some s') : FamilyInv s' := by
  have phase := inv.phase
  have noticed := inv.noticed
  have awaited := inv.awaited
  unfold kwaitStep at taken
  unfold PhaseOk at phase
  cases pc : s.pc with
  | outside | returned status => simp [pc] at taken
  | scan i =>
    simp only [pc] at taken phase
    split at taken
    · cases taken
      by_cases alive : s.children i = .alive
      · simp only [if_pos alive]
        exact ⟨inv.fresh, inv.carried, inv.alone, phase, nofun, nofun, nofun⟩
      · simp only [if_neg alive]
        exact ⟨inv.fresh, inv.carried, inv.alone, phase, nofun, nofun, nofun⟩
    · cases taken
      exact ⟨inv.fresh, inv.carried, inv.alone, phase, nofun, nofun, nofun⟩
  | semInit =>
    simp only [pc] at taken phase
    cases taken
    exact ⟨inv.fresh, inv.carried, inv.alone, ⟨phase, rfl, Int.le_refl _, by simp⟩, fun _ => nofun,
      fun _ _ => orderly pc, nofun⟩
  | semWait =>
    simp only [pc] at taken phase noticed awaited
    obtain ⟨running, nobody, positive, notice⟩ := phase
    split at taken
    · rename_i negative
      cases taken
      have zero : s.resource = 0 := by omega
      refine ⟨inv.fresh, inv.carried, inv.alone, .inl ⟨rfl, ?_, ?_, notice.mpr zero⟩, noticed,
        awaited, nofun⟩
      · simp only; omega
      · simp only; omega
    · rename_i enough
      cases taken
      refine ⟨inv.fresh, inv.carried, inv.alone, .inr ⟨running, ?_, fun none => ?_⟩, noticed,
        awaited, nofun⟩
      · simp only; omega
      · have := notice.mp none
        omega
  | reread =>
    simp only [pc] at taken phase noticed awaited
    cases taken
    by_cases negative : s.resource < 0
    · simp only [if_pos negative]
      exact ⟨inv.fresh, inv.carried, inv.alone, phase, noticed, awaited, nofun⟩
    · simp only [if_neg negative]
      have woken := phase.resolve_left fun blocked => by omega
      exact ⟨inv.fresh, inv.carried, inv.alone, ⟨woken.1, woken.2.2⟩, noticed, awaited, nofun⟩
  | yielding =>
    simp only [pc] at taken phase noticed awaited
    split at taken
    · cases taken
    · rename_i running
      cases taken
      have woken := phase.resolve_left fun blocked => running blocked.1
      exact ⟨inv.fresh, inv.carried, inv.alone, ⟨woken.1, woken.2.2⟩, noticed, awaited, nofun⟩
  | read =>
    simp only [pc] at taken phase noticed
    cases taken
    refine ⟨inv.fresh, inv.carried, inv.alone, phase.1, nofun, nofun, fun status same => ?_⟩
    cases same
    obtain ⟨i, notice⟩ := Option.ne_none_iff_exists'.mp phase.2
    exact ⟨i, notice, noticed trivial i notice⟩

theorem set_child_inv (inv : FamilyInv s) {i : Nat} {pc : ChildPc} {retstate : Int}
    (inside : i < s.childCnt) (before : ¬ (s.children i).Signalled) (after : ¬ pc.Signalled)
    (carried : ∀ j status, (s.setChild i pc).children j = .stored status → retstate = status)
    (alone : ∀ j k, ((s.setChild i pc).children j).Stored →
      ((s.setChild i pc).children k).Stored → j = k)
    (unread : s.pc.Waiting → s.notice ≠ none → retstate = s.retstate) :
    FamilyInv { s.setChild i pc with retstate := retstate } := by
  have other : ∀ j, (s.children j).Signalled → Function.update s.children i pc j = s.children j :=
    fun j signalled => Function.update_of_ne (fun same => before (by rw [← same]; exact signalled)) ..
  refine ⟨fun j above => ?_, carried, alone, inv.phase, fun waiting j notice => ?_,
    fun waiting none => ⟨i, inside, ?_⟩, fun status returned => ?_⟩
  · refine (Function.update_of_ne ?_ ..).trans (inv.fresh j above)
    rintro rfl
    exact absurd inside (Nat.not_lt.mpr above)
  · have told := inv.noticed waiting j notice
    have kept := other j (by rw [told]; trivial)
    have same := unread waiting (Option.ne_none_iff_exists'.mpr ⟨j, notice⟩)
    exact kept.trans (told.trans (by rw [same]))
  · simp only [Family.setChild, Function.update_self]
    exact after
  · obtain ⟨j, notice, child⟩ := inv.delivered status returned
    exact ⟨j, notice, (other j (by rw [child]; trivial)).trans child⟩

theorem stored_set_child {i j : Nat} {pc : ChildPc} (quiet : ¬ pc.Stored)
    (stored : ((s.setChild i pc).children j).Stored) : j ≠ i ∧ (s.children j).Stored := by
  by_cases same : j = i
  · subst same
    simp only [Family.setChild, Function.update_self] at stored
    exact absurd stored quiet
  · simp only [Family.setChild, Function.update_of_ne same] at stored
    exact ⟨same, stored⟩

theorem kexit_inv (inv : FamilyInv s) {i : Nat} {status : Int} (inside : i < s.childCnt)
    (alive : s.children i = .alive) : FamilyInv (s.setChild i (.killed status)) := by
  refine set_child_inv inv inside (by rw [alive]; exact id) id (fun j status' stored => ?_)
    (fun j k hj hk => ?_) fun _ _ => rfl
  · have old := stored_set_child id (j := j) (by rw [stored]; trivial)
    simp only [Family.setChild, Function.update_of_ne old.1] at stored
    exact inv.carried j status' stored
  · exact inv.alone j k (stored_set_child id hj).2 (stored_set_child id hk).2

theorem store_inv (inv : FamilyInv s) {i : Nat} {status : Int} (inside : i < s.childCnt)
    (killed : s.children i = .killed status)
    (quiet : ∀ j, j < s.childCnt → ¬ (s.children j).Stored)
    (unread : s.pc.Waiting → s.notice = none) :
    FamilyInv { s.setChild i (.stored status) with retstate := status } := by
  have only : ∀ j, ((s.setChild i (.stored status)).children j).Stored → j = i := by
    intro j stored
    by_contra other
    simp only [Family.setChild, Function.update_of_ne other] at stored
    by_cases known : j < s.childCnt
    · exact quiet j known stored
    · rw [inv.fresh j (by omega)] at stored
      exact stored
  refine set_child_inv inv inside (by rw [killed]; exact id) id (fun j status' stored => ?_)
    (fun j k hj hk => (only j hj).trans (only k hk).symm)
    fun waiting told => absurd (unread waiting) told
  have here := only j (by rw [stored]; trivial)
  subst here
  simp only [Family.setChild, Function.update_self, ChildPc.stored.injEq] at stored
  exact stored

theorem sem_signal_cases (s : Family) :
    ∃ taskCnt, semSignal s =
      { s with
        resource := s.resource + 1
        taskCnt := taskCnt
        block := s.block && !decide (s.resource + 1 ≤ 0 ∧ 0 < s.taskCnt) } ∧
      (s.taskCnt = 0 → taskCnt = 0) := by
  unfold semSignal
  dsimp only
  split
  · rename_i woken
    exact ⟨s.taskCnt - 1, by simp [woken], fun h => by omega⟩
  · rename_i kept
    refine ⟨s.taskCnt, ?_, id⟩
    rw [decide_eq_false kept, Bool.not_false, Bool.and_true]

theorem signal_phase {taskCnt i : Nat} {children : Nat → ChildPc} (phase : PhaseOk s)
    (none : s.taskCnt = 0 → taskCnt = 0) :
    PhaseOk
      { s with
        children := children
        resource := s.resource + 1
        taskCnt := taskCnt
        block := s.block && !decide (s.resource + 1 ≤ 0 ∧ 0 < s.taskCnt)
        notice := s.notice.or (some i) } := by
  have told : s.notice.or (some i) ≠ Option.none := by cases s.notice <;> simp
  unfold PhaseOk at phase ⊢
  cases pc : s.pc <;> simp only [pc] at phase ⊢
  case semWait =>
    obtain ⟨running, nobody, positive, _⟩ := phase
    exact ⟨by rw [running]; rfl, none nobody, by omega, iff_of_false told (by omega)⟩
  case reread | yielding =>
    rcases phase with ⟨blocked, one, minus, _⟩ | ⟨running, positive, _⟩
    · exact .inr ⟨by simp [blocked, one, minus], by omega, told⟩
    · exact .inr ⟨by rw [running]; rfl, by omega, told⟩
  case read => exact ⟨by rw [phase.1]; rfl, told⟩
  case outside | scan | semInit | returned => rw [phase]; rfl

theorem signal_inv (inv : FamilyInv s) {i : Nat} {status : Int} (inside : i < s.childCnt)
    (stored : s.children i = .stored status) :
    FamilyInv { semSignal (s.setChild i (.signalled status)) with
      notice := s.notice.or (some i) } := by
  obtain ⟨taskCnt, result, none⟩ := sem_signal_cases (s.setChild i (.signalled status))
  rw [result]
  have quiet : ¬ (ChildPc.signalled status).Stored := id
  have here : Function.update s.children i (.signalled status) i = .signalled status :=
    Function.update_self ..
  have other : ∀ j, (s.children j).Signalled →
      Function.update s.children i (.signalled status) j = s.children j := by
    intro j signalled
    refine Function.update_of_ne ?_ ..
    rintro rfl
    rw [stored] at signalled
    exact signalled
  refine ⟨fun j above => ?_, fun j status' child => ?_,
    fun j k hj hk => inv.alone j k (stored_set_child quiet hj).2 (stored_set_child quiet hk).2,
    signal_phase inv.phase none, fun waiting j notice => ?_, fun waiting untold => ?_,
    fun status' returned => ?_⟩
  · refine (Function.update_of_ne ?_ ..).trans (inv.fresh j above)
    rintro rfl
    exact absurd inside (Nat.not_lt.mpr above)
  · have old := stored_set_child quiet (s := s) (i := i) (j := j) (by rw [child]; trivial)
    simp only [Family.setChild, Function.update_of_ne old.1] at child
    exact inv.carried j status' child
  · have notice : s.notice.or (some i) = some j := notice
    cases before : s.notice with
    | none =>
      rw [before, Option.none_or, Option.some.injEq] at notice
      subst notice
      exact here.trans (by rw [← inv.carried i status stored]; rfl)
    | some k =>
      rw [before, Option.some_or, Option.some.injEq] at notice
      subst notice
      have told := inv.noticed waiting k before
      exact (other k (by rw [told]; trivial)).trans told
  · have untold : s.notice.or (some i) = Option.none := untold
    cases before : s.notice <;> simp [before] at untold
  · obtain ⟨j, notice, child⟩ := inv.delivered status' returned
    refine ⟨j, ?_, (other j (by rw [child]; trivial)).trans child⟩
    simp only [notice, Option.some_or]

theorem step_inv {e : Event} (inv : FamilyInv s) (orderly : Orderly s e)
    (taken : step s e = some s') : FamilyInv s' := by
  cases e with
  | kfork =>
    simp only [step] at taken
    split at taken
    · rename_i idle
      cases taken
      exact kfork_inv inv idle
    · cases taken
  | kwait =>
    simp only [step] at taken
    split at taken
    · rename_i idle
      cases taken
      exact kwait_inv inv idle orderly
    · cases taken
  | parent => exact parent_inv inv orderly taken
  | kexit i status =>
    simp only [step] at taken
    split at taken
    · rename_i guard
      cases taken
      exact kexit_inv inv guard.1 guard.2
    · cases taken
  | child i =>
    simp only [step] at taken
    split at taken
    · rename_i inside
      unfold kexitStep at taken
      cases child : s.children i with
      | alive | signalled status => simp [child] at taken
      | killed status =>
        simp only [child] at taken
        cases taken
        obtain ⟨quiet, unread⟩ := orderly (by rw [child]; trivial)
        exact store_inv inv inside child quiet unread
      | stored status =>
        simp only [child] at taken
        cases taken
        exact signal_inv inv inside child
    · cases taken

end Steps

/-- While the steps of the children are orderly, every exit the parent waits for reaches it. -/
theorem exits_delivered_when_orderly (events : List Event)
    (orderly : EachStep step Orderly boot events) : Throughout step ExitsDelivered boot events := by
  have start : FamilyInv boot :=
    ⟨fun _ _ => rfl, nofun, nofun, rfl, nofun, nofun, nofun⟩
  have kept : ∀ s e s', FamilyInv s → Orderly s e → step s e = some s' → FamilyInv s' :=
    fun s e s' inv orderly taken => step_inv inv orderly taken
  exact throughout_mono (fun s inv => inv_delivered inv)
    (throughout_of_each_step kept events start orderly)

section Decide

instance (pc : ChildPc) : Decidable pc.Signalled := by
  cases pc <;> simp only [ChildPc.Signalled] <;> infer_instance

instance (pc : ChildPc) : Decidable pc.Stored := by
  cases pc <;> simp only [ChildPc.Stored] <;> infer_instance

instance (pc : ChildPc) : Decidable pc.Killed := by
  cases pc <;> simp only [ChildPc.Killed] <;> infer_instance

instance (pc : ParentPc) : Decidable pc.Waiting := by
  cases pc <;> simp only [ParentPc.Waiting] <;> infer_instance

instance (s : Family) (e : Event) : Decidable (Orderly s e) := by
  cases e <;> simp only [Orderly] <;> infer_instance

end Decide

/-- One child that exits with status 3 while its parent is blocked in kwait. -/
def blockedThenExit : List Event :=
  [.kfork, .kwait, .parent, .parent, .parent, .parent, .kexit 0 3, .child 0, .child 0, .parent,
    .parent]

theorem blocked_parent_gets_status :
    (run step boot blockedThenExit).map Family.pc = some (.returned (some 3)) ∧
      Throughout step ExitsDelivered boot blockedThenExit :=
  ⟨rfl, exits_delivered_when_orderly blockedThenExit (by decide +kernel)⟩

/-- The only child exits between the scan and sem_init: its signal is wiped out and the parent
    waits for good. -/
def exitBeforeSemInit : List Event :=
  [.kfork, .kwait, .parent, .kexit 0 3, .child 0, .child 0, .parent, .parent, .parent]

theorem exit_before_sem_init_is_lost :
    ¬ Throughout step ExitsDelivered boot exitBeforeSemInit := by
  intro all
  have final : run step boot exitBeforeSemInit = some _ := rfl
  obtain ⟨i, inside, silent⟩ := (throughout_of_run all final).woken rfl
  obtain rfl : i = 0 := Nat.lt_one_iff.mp inside
  exact silent trivial

end ExitNotice
