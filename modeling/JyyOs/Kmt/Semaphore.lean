import JyyOs.Kmt.Exclusive
import JyyOs.Library.Prefix
import Mathlib.Data.List.Nodup
import Mathlib.Order.Lattice

/-!
Semaphore accounting over the scheduler: how often each semaphore was waited for, signalled
and returned from, and which semaphore blocked a task last.
-/
namespace Kmt
open PartialRun Prefix

structure Counted where
  s : State
  begun : Nat → Nat
  signals : Nat → Nat
  returned : Nat → Nat
  blockedBy : TaskPtr → Option Nat

def bump (f : Nat → Nat) (k : Nat) : Nat → Nat := Function.update f k (f k + 1)

def waiters (s : State) (k : Nat) : List TaskPtr := firstN (s.sems k).taskList (s.sems k).taskCnt

def woken (s : State) (sem r : Nat) : Option TaskPtr :=
  if (s.sems sem).resource + 1 ≤ 0 ∧ 0 < (s.sems sem).taskCnt then
    some ((s.sems sem).taskList (r % (s.sems sem).taskCnt))
  else none

def wakeUp (blockedBy : TaskPtr → Option Nat) : Option TaskPtr → TaskPtr → Option Nat
  | none => blockedBy
  | some t => Function.update blockedBy t none

def account (c : Counted) (s' : State) : Event → Counted
  | .waitSection cpu sem =>
    { c with
      s := s'
      begun := bump c.begun sem
      blockedBy := if (s'.sems sem).resource < 0 then
        Function.update c.blockedBy (c.s.current cpu) (some sem) else c.blockedBy }
  | .waitReread cpu =>
    match c.s.pc (c.s.current cpu) with
    | .reread sem =>
      { c with
        s := s'
        returned := if (c.s.sems sem).resource < 0 then c.returned else bump c.returned sem }
    | _ => { c with s := s' }
  | .waitReturn cpu =>
    match c.s.pc (c.s.current cpu) with
    | .yielded sem => { c with s := s', returned := bump c.returned sem }
    | _ => { c with s := s' }
  | .signal sem r =>
    { c with
      s := s'
      signals := bump c.signals sem
      blockedBy := wakeUp c.blockedBy (woken c.s sem r) }
  | _ => { c with s := s' }

def countedStep (c : Counted) (e : Event) : Option Counted :=
  (step c.s e).map fun s' => account c s' e

def countedInit (s : State) : Counted := ⟨s, fun _ => 0, fun _ => 0, fun _ => 0, fun _ => none⟩

/-- The accounting of every semaphore adds up. -/
structure Accounts (value : Nat → Nat) (c : Counted) : Prop where
  resource : ∀ k, (c.s.sems k).resource = (value k : Int) + c.signals k - c.begun k
  taskCnt : ∀ k, ((c.s.sems k).taskCnt : Int) = max 0 (-(c.s.sems k).resource)
  once : ∀ k, (waiters c.s k).Nodup
  blocked : ∀ k t, t ∈ waiters c.s k ↔ (c.s.tasks t).block = true ∧ c.blockedBy t = some k
  returned : ∀ k, c.returned k ≤ value k + c.signals k

def Inside (pc : WaitPc) (k : Nat) : Prop := pc = .reread k ∨ pc = .yielding k ∨ pc = .yielded k

theorem inside_one {pc : WaitPc} {j k : Nat} (hj : Inside pc j) (hk : Inside pc k) : j = k := by
  rcases hj with rfl | rfl | rfl <;> simpa [Inside] using hk

theorem outside_not_inside (k : Nat) : ¬ Inside .outside k := by simp [Inside]

structure Books (value : Nat → Nat) (c : Counted) : Prop where
  resource : ∀ k, (c.s.sems k).resource = (value k : Int) + c.signals k - c.begun k
  taskCnt : ∀ k, ((c.s.sems k).taskCnt : Int) = max 0 (-(c.s.sems k).resource)
  once : ∀ k, (waiters c.s k).Nodup
  blocked : ∀ k t, t ∈ waiters c.s k ↔ (c.s.tasks t).block = true ∧ c.blockedBy t = some k
  waiting : ∀ t, (c.s.tasks t).block = true → ∃ k, c.blockedBy t = some k ∧ Inside (c.s.pc t) k
  tokens : ∀ k, ∃ list : List TaskPtr, list.Nodup ∧ (∀ t, t ∈ list ↔ Inside (c.s.pc t) k) ∧
    c.returned k + list.length = c.begun k

structure Awake (s : State) : Prop where
  picked : ∀ cpu, s.mode cpu = .picked → (s.tasks (s.current cpu)).block = false
  resumed : ∀ cpu k, s.mode cpu = .running → s.pc (s.current cpu) = .yielded k →
    (s.tasks (s.current cpu)).block = false

structure SemInv (value : Nat → Nat) (c : Counted) : Prop where
  sched : SchedInv c.s
  books : Books value c
  awake : Awake c.s

variable {value : Nat → Nat} {c : Counted} {s s' : State}

/-- The number of returned waits is bounded because every listed waiter is still inside. -/
theorem accounts_of_books (books : Books value c) : Accounts value c := by
  refine ⟨books.resource, books.taskCnt, books.once, books.blocked, fun k => ?_⟩
  obtain ⟨list, _, members, count⟩ := books.tokens k
  have listed : waiters c.s k ⊆ list := by
    intro t waiting
    obtain ⟨block, by_⟩ := (books.blocked k t).mp waiting
    obtain ⟨j, by', inside⟩ := books.waiting t block
    obtain rfl : k = j := Option.some.inj (by_.symm.trans by')
    exact (members t).mpr inside
  have fewer := (List.subperm_of_subset (books.once k) listed).length_le
  rw [waiters, first_length] at fewer
  have cnt := books.taskCnt k
  have resource := books.resource k
  omega

theorem current_once (inv : SchedInv s) {c d : Nat} (same : s.current c = s.current d) : c = d := by
  rcases inv.known c _ (Or.inl rfl) with null | idle | ⟨i, _, task⟩
  · exact absurd null (inv.real c)
  · rcases inv.known d _ (Or.inl rfl) with null' | idle' | ⟨j, _, task'⟩
    · exact absurd null' (inv.real d)
    · rw [idle, idle'] at same
      exact TaskPtr.idle.inj same
    · rw [idle, task'] at same
      simp at same
  · exact inv.once c d i (Or.inl task) (Or.inl (same ▸ task))

theorem books_congr (books : Books value c) (sems : s'.sems = c.s.sems) (pc : s'.pc = c.s.pc)
    (block : ∀ t, (s'.tasks t).block = (c.s.tasks t).block) :
    Books value { c with s := s' } := by
  have same : ∀ k, waiters s' k = waiters c.s k := fun k => by rw [waiters, waiters, sems]
  refine ⟨fun k => ?_, fun k => ?_, fun k => ?_, fun k t => ?_, fun t h => ?_, fun k => ?_⟩
  · rw [sems]
    exact books.resource k
  · rw [sems]
    exact books.taskCnt k
  · rw [same]
    exact books.once k
  · rw [same, block]
    exact books.blocked k t
  · rw [block] at h
    rw [pc]
    exact books.waiting t h
  · rw [pc]
    exact books.tokens k

theorem trap_awake {cpu : Nat} (awake : Awake s) (effect : TrapEffect s s' cpu) : Awake s' := by
  refine ⟨fun d picked => ?_, fun d k running yielded => ?_⟩
  all_goals
    have other : d ≠ cpu := by
      intro h
      subst h
      simp_all [effect.mode]
    rw [effect.block, effect.current]
  · rw [effect.mode, Function.update_of_ne other] at picked
    exact awake.picked d picked
  · rw [effect.mode, Function.update_of_ne other] at running
    rw [effect.pc, effect.current] at yielded
    exact awake.resumed d k running yielded

theorem yield_awake {cpu : Nat} {pc : WaitPc} (inv : SchedInv s) (awake : Awake s)
    (effect : TrapEffect (s.setPc (s.current cpu) pc) s' cpu) : Awake s' := by
  refine ⟨fun d picked => ?_, fun d k running yielded => ?_⟩
  all_goals
    have other : d ≠ cpu := by
      intro h
      subst h
      simp_all [effect.mode]
    rw [effect.block, effect.current]
  · rw [effect.mode, Function.update_of_ne other] at picked
    exact awake.picked d picked
  · have apart : s.current d ≠ s.current cpu := fun h => other (current_once inv h)
    rw [effect.mode, Function.update_of_ne other] at running
    rw [effect.pc, effect.current, current_set_pc] at yielded
    simp only [State.setPc, Function.update_of_ne apart] at yielded
    exact awake.resumed d k running yielded

structure ExamineEffect (s s' : State) (cpu : Nat) : Prop where
  sems : s'.sems = s.sems
  pc : s'.pc = s.pc
  block : ∀ t, (s'.tasks t).block = (s.tasks t).block
  elsewhere : ∀ d, d ≠ cpu → s'.current d = s.current d ∧ s'.mode d = s.mode d
  inTrap : s'.mode cpu ≠ .running
  picked : s'.mode cpu = .picked → (s'.tasks (s'.current cpu)).block = false

theorem examine_effect {cpu i r : Nat} (ran : kmtScheduleExamine s cpu i r = some s') :
    ExamineEffect s s' cpu := by
  obtain ⟨k, _, _, _, outcome⟩ := examine_cases ran
  have tasks : ∀ (task : Task) t, task.block = (s.tasks (s.taskList k)).block →
      (Function.update s.tasks (s.taskList k) task t).block = (s.tasks t).block := by
    intro task t same
    by_cases here : t = s.taskList k
    · simp [here, same]
    · simp [here]
  rcases outcome with rfl | ⟨own, open_, rfl⟩ | ⟨_, _, open_, rfl⟩
  · refine ⟨rfl, rfl, fun _ => rfl, fun d other => ⟨rfl, ?_⟩, ?_, fun picked => ?_⟩
    · simp [State.setMode, other]
    · simp [State.setMode]
    · simp [State.setMode] at picked
  · refine ⟨rfl, rfl, fun t => tasks _ t rfl, fun d other => ⟨rfl, ?_⟩, ?_, fun _ => ?_⟩
    · simp [State.setMode, State.setTask, other]
    · simp [State.setMode]
    · rw [tasks_set_mode, current_set_mode, current_set_task, ← own]
      simpa [State.setTask] using open_
  · refine ⟨rfl, rfl, fun t => tasks _ t rfl, fun d other => ⟨?_, ?_⟩, ?_, fun _ => ?_⟩
    · simp [other]
    · simp [State.setMode, State.setTask, State.setCurrent, other]
    · simp [State.setMode]
    · simpa [State.setTask] using open_

theorem examine_awake {cpu : Nat} (awake : Awake s) (effect : ExamineEffect s s' cpu) :
    Awake s' := by
  refine ⟨fun d picked => ?_, fun d k running yielded => ?_⟩
  · by_cases here : d = cpu
    · subst here
      exact effect.picked picked
    · obtain ⟨current, mode⟩ := effect.elsewhere d here
      rw [effect.block, current]
      exact awake.picked d (mode ▸ picked)
  · by_cases here : d = cpu
    · subst here
      exact absurd running effect.inTrap
    · obtain ⟨current, mode⟩ := effect.elsewhere d here
      rw [effect.pc, current] at yielded
      rw [effect.block, current]
      exact awake.resumed d k (mode ▸ running) yielded

theorem return_awake {cpu : Nat} {fineTask : Bool} {t : TaskPtr} {ret : Context} (awake : Awake s)
    (ran : kmtScheduleReturn s cpu fineTask = some (t, ret, s')) : Awake s' := by
  have open_ := resumed_open ran
  obtain ⟨rfl, _, _⟩ := schedule_return_cases ran
  generalize next : (if fineTask then s else s.setCurrent cpu (s.cpuList cpu).idleTask) = s1
    at open_
  have tasks : s1.tasks = s.tasks := by
    subst next
    cases fineTask <;> rfl
  have pc : s1.pc = s.pc := by
    subst next
    cases fineTask <;> rfl
  have elsewhere : ∀ d, d ≠ cpu → s1.current d = s.current d ∧ s1.mode d = s.mode d := by
    intro d other
    subst next
    cases fineTask
    · simp only [Bool.false_eq_true, ↓reduceIte]
      exact ⟨by simp [other], rfl⟩
    · simp
  refine ⟨fun d picked => ?_, fun d k running yielded => ?_⟩
  all_goals by_cases here : d = cpu
  · subst here
    simp [State.setMode] at picked
  · obtain ⟨current, mode⟩ := elsewhere d here
    simp only [State.setMode, Function.update_of_ne here, mode] at picked
    simpa only [current_set_mode, tasks_set_mode, tasks, current] using awake.picked d picked
  · subst here
    exact open_
  · obtain ⟨current, mode⟩ := elsewhere d here
    simp only [State.setMode, Function.update_of_ne here, mode] at running
    have yielded : s1.pc (s1.current d) = .yielded k := yielded
    rw [pc, current] at yielded
    simpa only [current_set_mode, tasks_set_mode, tasks, current] using
      awake.resumed d k running yielded

theorem leave_inv {cpu k : Nat} (inv : SemInv value c)
    (inside : Inside (c.s.pc (c.s.current cpu)) k)
    (open_ : (c.s.tasks (c.s.current cpu)).block = false) :
    SemInv value { c with
      s := c.s.setPc (c.s.current cpu) .outside
      returned := bump c.returned k } := by
  obtain ⟨sched, books, awake⟩ := inv
  have pc : ∀ t, (c.s.setPc (c.s.current cpu) .outside).pc t =
      if t = c.s.current cpu then .outside else c.s.pc t := fun t => by
    simp [State.setPc, Function.update_apply]
  refine ⟨pc_inv sched _ _, ⟨books.resource, books.taskCnt, books.once, books.blocked,
    fun t block => ?_, fun j => ?_⟩, ⟨awake.picked, fun d j running yielded => ?_⟩⟩
  · have block : (c.s.tasks t).block = true := block
    have other : t ≠ c.s.current cpu := fun h => by
      rw [h, open_] at block
      exact Bool.false_ne_true block
    simp only [pc, if_neg other]
    exact books.waiting t block
  · obtain ⟨list, once, members, count⟩ := books.tokens j
    by_cases same : j = k
    · subst same
      have here := (members _).mpr inside
      refine ⟨list.erase (c.s.current cpu), once.erase _, fun t => ?_, ?_⟩
      · rw [once.mem_erase_iff, members, pc]
        by_cases other : t = c.s.current cpu
        · simp [other, outside_not_inside]
        · simp [other]
      · have length := List.length_erase_of_mem here
        have pos := List.length_pos_of_mem here
        simp only [bump, Function.update_self]
        omega
    · refine ⟨list, once, fun t => ?_, ?_⟩
      · rw [members, pc]
        by_cases other : t = c.s.current cpu
        · have notHere : ¬ Inside (c.s.pc t) j := fun h => same (inside_one h (other ▸ inside))
          simp [other, outside_not_inside]
          exact other ▸ notHere
        · simp [other]
      · simpa only [bump, Function.update_of_ne same] using count
  · by_cases other : c.s.current d = c.s.current cpu
    · rw [current_set_pc, pc, if_pos other] at yielded
      simp at yielded
    · rw [current_set_pc, pc, if_neg other] at yielded
      exact awake.resumed d j running yielded

theorem move_books (t : TaskPtr) (pc : WaitPc) (books : Books value c)
    (same : ∀ k, Inside pc k ↔ Inside (c.s.pc t) k) :
    Books value { c with s := c.s.setPc t pc } := by
  have moved : ∀ u k, Inside ((c.s.setPc t pc).pc u) k ↔ Inside (c.s.pc u) k := by
    intro u k
    by_cases here : u = t
    · simp [State.setPc, here, same]
    · simp [State.setPc, here]
  refine ⟨books.resource, books.taskCnt, books.once, books.blocked, fun u block => ?_,
    fun k => ?_⟩
  · obtain ⟨k, by_, inside⟩ := books.waiting u block
    exact ⟨k, by_, (moved u k).mpr inside⟩
  · obtain ⟨list, once, members, count⟩ := books.tokens k
    exact ⟨list, once, fun u => (members u).trans (moved u k).symm, count⟩

theorem move_awake {cpu : Nat} {pc : WaitPc} (awake : Awake s) (inKernel : ∀ k, pc ≠ .yielded k) :
    Awake (s.setPc (s.current cpu) pc) := by
  refine ⟨awake.picked, fun d k running yielded => ?_⟩
  by_cases other : s.current d = s.current cpu
  · simp only [State.setPc, State.current] at yielded other
    rw [other, Function.update_self] at yielded
    exact absurd yielded (inKernel k)
  · simp only [State.setPc, State.current] at yielded other
    rw [Function.update_of_ne other] at yielded
    exact awake.resumed d k running yielded

theorem sem_wait_cases {cpu k : Nat} (real : s.current cpu ≠ .null)
    (ran : kmtSemWait s cpu k = some s') :
    0 ≤ (s.sems k).resource - 1 ∧ s' = { s with
        sems := Function.update s.sems k { s.sems k with resource := (s.sems k).resource - 1 }
        pc := Function.update s.pc (s.current cpu) (.reread k) } ∨
      (s.sems k).resource - 1 < 0 ∧ s' = { s with
        sems := Function.update s.sems k ⟨(s.sems k).resource - 1, (s.sems k).taskCnt + 1,
          Function.update (s.sems k).taskList (s.sems k).taskCnt (s.current cpu)⟩
        tasks := Function.update s.tasks (s.current cpu)
          { s.tasks (s.current cpu) with block := true }
        pc := Function.update s.pc (s.current cpu) (.reread k) } := by
  unfold kmtSemWait at ran
  simp only [Function.update_self, Function.update_idem] at ran
  split at ran
  · rename_i blocks
    split at ran
    · simp at ran
    · simp only [Option.some.injEq] at ran
      exact Or.inr ⟨blocks.1, ran.symm⟩
  · rename_i passes
    simp only [Option.some.injEq] at ran
    refine Or.inl ⟨?_, ran.symm⟩
    by_contra negative
    exact passes ⟨by omega, real⟩

theorem outside_open {t : TaskPtr} (books : Books value c) (outside : c.s.pc t = .outside) :
    (c.s.tasks t).block = false := by
  cases block : (c.s.tasks t).block with
  | false => rfl
  | true =>
    obtain ⟨k, _, inside⟩ := books.waiting t block
    rw [outside] at inside
    exact absurd inside (outside_not_inside k)

theorem enter_tokens {t : TaskPtr} {k : Nat} (books : Books value c)
    (outside : c.s.pc t = .outside) (j : Nat) :
    ∃ list : List TaskPtr, list.Nodup ∧
      (∀ u, u ∈ list ↔ Inside (Function.update c.s.pc t (.reread k) u) j) ∧
      c.returned j + list.length = bump c.begun k j := by
  obtain ⟨list, once, members, count⟩ := books.tokens j
  have absent : t ∉ list := fun h => outside_not_inside j (outside ▸ (members t).mp h)
  by_cases same : j = k
  · subst same
    refine ⟨t :: list, List.nodup_cons.mpr ⟨absent, once⟩, fun u => ?_, ?_⟩
    · by_cases here : u = t
      · simp [here, Inside]
      · simp [here, members]
    · simp only [bump, Function.update_self, List.length_cons]
      omega
  · refine ⟨list, once, fun u => ?_, ?_⟩
    · by_cases here : u = t
      · subst here
        have other : ¬ Inside (.reread k) j := fun h => same (inside_one h (Or.inl rfl))
        simp [absent, other]
      · simp [here, members]
    · simpa only [bump, Function.update_of_ne same] using count

theorem enter_awake {cpu k : Nat} (inv : SemInv value c) (running : c.s.mode cpu = .running)
    {tasks : TaskPtr → Task} {sems : Nat → Sem}
    (elsewhere : ∀ t, t ≠ c.s.current cpu → (tasks t).block = (c.s.tasks t).block) :
    Awake { c.s with
      sems := sems
      tasks := tasks
      pc := Function.update c.s.pc (c.s.current cpu) (.reread k) } := by
  refine ⟨fun d picked => ?_, fun d j running' yielded => ?_⟩
  · have picked : c.s.mode d = .picked := picked
    have other : c.s.current d ≠ c.s.current cpu := fun h => by
      rw [current_once inv.sched h, running] at picked
      simp at picked
    exact (elsewhere _ other).trans (inv.awake.picked d picked)
  · have yielded : Function.update c.s.pc (c.s.current cpu) (.reread k) (c.s.current d) =
        .yielded j := yielded
    by_cases other : c.s.current d = c.s.current cpu
    · rw [other, Function.update_self] at yielded
      simp at yielded
    · rw [Function.update_of_ne other] at yielded
      exact (elsewhere _ other).trans (inv.awake.resumed d j running' yielded)

theorem wait_passes {cpu k : Nat} (inv : SemInv value c) (running : c.s.mode cpu = .running)
    (outside : c.s.pc (c.s.current cpu) = .outside) (left : 0 ≤ (c.s.sems k).resource - 1)
    (sched : SchedInv { c.s with
      sems := Function.update c.s.sems k
        { c.s.sems k with resource := (c.s.sems k).resource - 1 }
      pc := Function.update c.s.pc (c.s.current cpu) (.reread k) }) :
    SemInv value { c with
      s := { c.s with
        sems := Function.update c.s.sems k
          { c.s.sems k with resource := (c.s.sems k).resource - 1 }
        pc := Function.update c.s.pc (c.s.current cpu) (.reread k) }
      begun := bump c.begun k } := by
  have books := inv.books
  have open_ := outside_open books outside
  refine ⟨sched, ⟨fun j => ?_, fun j => ?_, fun j => ?_, fun j t => ?_, fun t block => ?_,
    enter_tokens books outside⟩, enter_awake inv running fun _ _ => rfl⟩
  · have before := books.resource j
    by_cases same : j = k
    · subst same
      simp only [Function.update_self, bump]
      omega
    · simpa only [Function.update_of_ne same, bump] using before
  · have before := books.taskCnt j
    by_cases same : j = k
    · subst same
      simp only [Function.update_self]
      omega
    · simpa only [Function.update_of_ne same] using before
  · have before := books.once j
    by_cases same : j = k
    · subst same
      simpa only [waiters, Function.update_self] using before
    · simpa only [waiters, Function.update_of_ne same] using before
  · have before := books.blocked j t
    by_cases same : j = k
    · subst same
      simpa only [waiters, Function.update_self] using before
    · simpa only [waiters, Function.update_of_ne same] using before
  · have block : (c.s.tasks t).block = true := block
    have other : t ≠ c.s.current cpu := fun h => by
      rw [h, open_] at block
      exact Bool.false_ne_true block
    simpa only [Function.update_of_ne other] using books.waiting t block

theorem wait_blocks {cpu k : Nat} (inv : SemInv value c) (running : c.s.mode cpu = .running)
    (outside : c.s.pc (c.s.current cpu) = .outside) (short : (c.s.sems k).resource - 1 < 0)
    {s' : State} (is : s' = { c.s with
      sems := Function.update c.s.sems k ⟨(c.s.sems k).resource - 1, (c.s.sems k).taskCnt + 1,
        Function.update (c.s.sems k).taskList (c.s.sems k).taskCnt (c.s.current cpu)⟩
      tasks := Function.update c.s.tasks (c.s.current cpu)
        { c.s.tasks (c.s.current cpu) with block := true }
      pc := Function.update c.s.pc (c.s.current cpu) (.reread k) })
    (sched : SchedInv s') :
    SemInv value { c with
      s := s'
      begun := bump c.begun k
      blockedBy := Function.update c.blockedBy (c.s.current cpu) (some k) } := by
  have books := inv.books
  have open_ := outside_open books outside
  have absent : ∀ j, c.s.current cpu ∉ waiters c.s j := fun j h => by
    have := ((books.blocked j _).mp h).1
    rw [open_] at this
    exact Bool.false_ne_true this
  have waitersHere : waiters s' k = waiters c.s k ++ [c.s.current cpu] := by
    subst is
    simp only [waiters, Function.update_self, first_push]
  have waitersElse : ∀ j, j ≠ k → waiters s' j = waiters c.s j := fun j other => by
    subst is
    simp only [waiters, Function.update_of_ne other]
  have tasks : ∀ t, t ≠ c.s.current cpu → s'.tasks t = c.s.tasks t := fun t other => by
    subst is
    exact Function.update_of_ne other ..
  have blocked : (s'.tasks (c.s.current cpu)).block = true := by
    subst is
    simp only [Function.update_self]
  have awake : Awake s' := by
    subst is
    refine enter_awake inv running fun t other => ?_
    rw [Function.update_of_ne other]
  refine ⟨sched, ⟨fun j => ?_, fun j => ?_, fun j => ?_, fun j t => ?_, fun t block => ?_, ?_⟩,
    awake⟩
  · have before := books.resource j
    subst is
    by_cases same : j = k
    · subst same
      simp only [Function.update_self, bump]
      omega
    · simpa only [Function.update_of_ne same, bump] using before
  · have before := books.taskCnt j
    subst is
    by_cases same : j = k
    · subst same
      simp only [Function.update_self]
      omega
    · simpa only [Function.update_of_ne same] using before
  · have before := books.once j
    by_cases same : j = k
    · subst same
      rw [waitersHere]
      exact List.nodup_append.mpr ⟨before, List.nodup_singleton _, fun a ha b hb h =>
        absent j (List.mem_singleton.mp hb ▸ h ▸ ha)⟩
    · rw [waitersElse j same]
      exact before
  · have before := books.blocked j t
    by_cases here : t = c.s.current cpu
    · subst here
      by_cases same : j = k
      · subst same
        simp [waitersHere, blocked]
      · simp [waitersElse j same, absent, Ne.symm same]
    · by_cases same : j = k
      · subst same
        simpa [waitersHere, here, tasks t here] using before
      · simpa [waitersElse j same, here, tasks t here] using before
  · by_cases here : t = c.s.current cpu
    · subst here
      refine ⟨k, by simp, ?_⟩
      subst is
      simp [Inside]
    · have block : (c.s.tasks t).block = true := tasks t here ▸ block
      obtain ⟨j, by_, inside⟩ := books.waiting t block
      refine ⟨j, by simpa [here] using by_, ?_⟩
      subst is
      simpa [here] using inside
  · subst is
    exact enter_tokens books outside

theorem sem_signal_cases {k r : Nat} (ran : kmtSemSignal s k r = some s') :
    woken s k r = none ∧ s' = { s with
        sems := Function.update s.sems k
          { s.sems k with resource := (s.sems k).resource + 1 } } ∨
      ∃ i n, i < n + 1 ∧ (s.sems k).taskCnt = n + 1 ∧ (s.sems k).resource + 1 ≤ 0 ∧
        woken s k r = some ((s.sems k).taskList i) ∧ s' = { s with
          sems := Function.update s.sems k ⟨(s.sems k).resource + 1, n,
            Function.update (s.sems k).taskList i ((s.sems k).taskList n)⟩
          tasks := Function.update s.tasks ((s.sems k).taskList i)
            { s.tasks ((s.sems k).taskList i) with block := false } } := by
  unfold kmtSemSignal at ran
  simp only at ran
  split at ran
  · rename_i wakes
    obtain ⟨negative, pos⟩ := wakes
    obtain ⟨n, count⟩ := Nat.exists_eq_add_of_lt pos
    rw [Nat.zero_add] at count
    split at ran
    · simp at ran
    · simp only [Option.some.injEq] at ran
      refine Or.inr ⟨r % (s.sems k).taskCnt, n, ?_, count, negative, ?_, ?_⟩
      · exact count ▸ Nat.mod_lt r pos
      · rw [woken, if_pos ⟨negative, pos⟩]
      · rw [← ran]
        simp only [State.setTask, count, Nat.add_sub_cancel]
  · rename_i keeps
    simp only [Option.some.injEq] at ran
    exact Or.inl ⟨if_neg keeps, ran.symm⟩

theorem signal_keeps {k : Nat} (inv : SemInv value c)
    (nobody : 0 < (c.s.sems k).resource + 1 ∨ (c.s.sems k).taskCnt = 0)
    (sched : SchedInv { c.s with
      sems := Function.update c.s.sems k
        { c.s.sems k with resource := (c.s.sems k).resource + 1 } }) :
    SemInv value { c with
      s := { c.s with
        sems := Function.update c.s.sems k
          { c.s.sems k with resource := (c.s.sems k).resource + 1 } }
      signals := bump c.signals k } := by
  have books := inv.books
  refine ⟨sched, ⟨fun j => ?_, fun j => ?_, fun j => ?_, fun j t => ?_, books.waiting,
    books.tokens⟩, inv.awake.picked, inv.awake.resumed⟩
  · have before := books.resource j
    by_cases same : j = k
    · subst same
      simp only [Function.update_self, bump]
      omega
    · simpa only [Function.update_of_ne same, bump] using before
  · have before := books.taskCnt j
    by_cases same : j = k
    · subst same
      simp only [Function.update_self]
      omega
    · simpa only [Function.update_of_ne same] using before
  · have before := books.once j
    by_cases same : j = k
    · subst same
      simpa only [waiters, Function.update_self] using before
    · simpa only [waiters, Function.update_of_ne same] using before
  · have before := books.blocked j t
    by_cases same : j = k
    · subst same
      simpa only [waiters, Function.update_self] using before
    · simpa only [waiters, Function.update_of_ne same] using before

theorem signal_wakes {k i n : Nat} (inv : SemInv value c) (bound : i < n + 1)
    (count : (c.s.sems k).taskCnt = n + 1) {t : TaskPtr} (isTask : t = (c.s.sems k).taskList i)
    {s' : State} (is : s' = { c.s with
      sems := Function.update c.s.sems k ⟨(c.s.sems k).resource + 1, n,
        Function.update (c.s.sems k).taskList i ((c.s.sems k).taskList n)⟩
      tasks := Function.update c.s.tasks t { c.s.tasks t with block := false } })
    (sched : SchedInv s') :
    SemInv value { c with
      s := s'
      signals := bump c.signals k
      blockedBy := Function.update c.blockedBy t none } := by
  have books := inv.books
  have perm : (waiters c.s k).Perm (t :: waiters s' k) := by
    subst is
    rw [waiters, count, isTask]
    simp only [waiters, Function.update_self]
    exact first_swap_remove _ bound
  have waitersElse : ∀ j, j ≠ k → waiters s' j = waiters c.s j := fun j other => by
    subst is
    simp only [waiters, Function.update_of_ne other]
  have listed := (books.blocked k t).mp (perm.mem_iff.mpr List.mem_cons_self)
  have once := List.nodup_cons.mp (perm.nodup_iff.mp (books.once k))
  have tasks : ∀ u, u ≠ t → s'.tasks u = c.s.tasks u := fun u other => by
    subst is
    exact Function.update_of_ne other ..
  have woke : (s'.tasks t).block = false := by
    subst is
    simp only [Function.update_self]
  have calm : ∀ u, (c.s.tasks u).block = false → (s'.tasks u).block = false := fun u h => by
    by_cases here : u = t
    · rw [here]
      exact woke
    · rw [tasks u here]
      exact h
  have pc : s'.pc = c.s.pc := by subst is; rfl
  have mode : s'.mode = c.s.mode := by subst is; rfl
  have current : ∀ d, s'.current d = c.s.current d := fun d => by subst is; rfl
  refine ⟨sched, ⟨fun j => ?_, fun j => ?_, fun j => ?_, fun j u => ?_, fun u block => ?_, ?_⟩,
    fun d picked => ?_, fun d j running yielded => ?_⟩
  · have before := books.resource j
    subst is
    by_cases same : j = k
    · subst same
      simp only [Function.update_self, bump]
      omega
    · simpa only [Function.update_of_ne same, bump] using before
  · have before := books.taskCnt j
    subst is
    by_cases same : j = k
    · subst same
      simp only [Function.update_self]
      omega
    · simpa only [Function.update_of_ne same] using before
  · by_cases same : j = k
    · exact same ▸ once.2
    · rw [waitersElse j same]
      exact books.once j
  · have before := books.blocked j u
    by_cases here : u = t
    · subst here
      by_cases same : j = k
      · subst same
        simp [woke, once.1]
      · have notThere : u ∉ waiters c.s j := fun h => same (by
          have := (before.mp h).2
          exact Option.some.inj (this.symm.trans listed.2))
        simp [waitersElse j same, woke, notThere]
    · by_cases same : j = k
      · subst same
        rw [perm.mem_iff, List.mem_cons, or_iff_right here] at before
        simpa [here, tasks u here] using before
      · simpa [waitersElse j same, here, tasks u here] using before
  · have block : (s'.tasks u).block = true := block
    have other : u ≠ t := fun h => by
      rw [h, woke] at block
      exact Bool.false_ne_true block
    rw [tasks u other] at block
    rw [pc]
    simpa [other] using books.waiting u block
  · rw [pc]
    exact books.tokens
  · rw [mode] at picked
    rw [current]
    exact calm _ (inv.awake.picked d picked)
  · rw [mode] at running
    rw [pc, current] at yielded
    rw [current]
    exact calm _ (inv.awake.resumed d j running yielded)

theorem nobody_waits (inv : SemInv value c) {cpu sem : Nat}
    (inside : Inside (c.s.pc (c.s.current cpu)) sem) (left : 0 ≤ (c.s.sems sem).resource) :
    (c.s.tasks (c.s.current cpu)).block = false := by
  cases block : (c.s.tasks (c.s.current cpu)).block with
  | false => rfl
  | true =>
    obtain ⟨j, waits, inside'⟩ := inv.books.waiting _ block
    have same := inside_one inside' inside
    have listed := (inv.books.blocked sem _).mpr ⟨block, same ▸ waits⟩
    have empty := inv.books.taskCnt sem
    have length := List.length_pos_of_mem listed
    rw [waiters, first_length] at length
    omega

theorem counted_step_inv {c' : Counted} {e : Event} (inv : SemInv value c)
    (taken : countedStep c e = some c') : SemInv value c' := by
  obtain ⟨s', ran, rfl⟩ := Option.map_eq_some_iff.mp taken
  have sched := step_inv inv.sched ran
  cases e with
  | trap cpu ctx =>
    simp only [step] at ran
    split at ran
    · have effect := trap_effect ran
      exact ⟨sched, books_congr inv.books effect.sems effect.pc effect.block,
        trap_awake inv.awake effect⟩
    · simp at ran
  | examine cpu r =>
    simp only [step] at ran
    split at ran
    · split at ran
      · have effect := examine_effect ran
        exact ⟨sched, books_congr inv.books effect.sems effect.pc effect.block,
          examine_awake inv.awake effect⟩
      · simp at ran
    · simp at ran
  | scheduled cpu =>
    have returned : ∀ fineTask t ret,
        kmtScheduleReturn c.s cpu fineTask = some (t, ret, s') → SemInv value { c with s := s' } := by
      intro fineTask t ret call
      refine ⟨sched, ?_, return_awake inv.awake call⟩
      obtain ⟨rfl, _⟩ := schedule_return_cases call
      cases fineTask
      · exact books_congr inv.books rfl rfl fun _ => rfl
      · exact books_congr inv.books rfl rfl fun _ => rfl
    simp only [step] at ran
    split at ran
    · obtain ⟨⟨t, ret, s1⟩, call, rfl⟩ := Option.map_eq_some_iff.mp ran
      exact returned _ _ _ call
    · split at ran
      · simp at ran
      · obtain ⟨⟨t, ret, s1⟩, call, rfl⟩ := Option.map_eq_some_iff.mp ran
        exact returned _ _ _ call
    · simp at ran
  | waitSection cpu sem =>
    simp only [step] at ran
    split at ran
    · rename_i ready
      rcases sem_wait_cases (inv.sched.real cpu) ran with ⟨left, is⟩ | ⟨short, is⟩
      · have resource : ¬ (s'.sems sem).resource < 0 := by
          rw [is]
          simp only [Function.update_self]
          omega
        simp only [account, if_neg resource]
        subst is
        exact wait_passes inv ready.1 ready.2 left sched
      · have resource : (s'.sems sem).resource < 0 := by
          rw [is]
          simp only [Function.update_self]
          omega
        simp only [account, if_pos resource]
        exact wait_blocks inv ready.1 ready.2 short is sched
    · simp at ran
  | waitReread cpu =>
    simp only [step] at ran
    split at ran
    · rename_i sem running here
      simp only [Option.some.injEq] at ran
      simp only [account, here]
      by_cases negative : (c.s.sems sem).resource < 0
      · simp only [if_pos negative] at ran ⊢
        subst ran
        refine ⟨sched, move_books _ _ inv.books fun k => ?_, move_awake inv.awake fun k => by simp⟩
        rw [here]
        simp [Inside]
      · simp only [if_neg negative] at ran ⊢
        subst ran
        exact leave_inv inv (here ▸ Or.inl rfl)
          (nobody_waits inv (here ▸ Or.inl rfl) (Int.not_lt.mp negative))
    · simp at ran
  | waitYield cpu ctx =>
    simp only [step] at ran
    split at ran
    · rename_i sem running here
      have effect := trap_effect ran
      have books := move_books (c.s.current cpu) (.yielded sem) inv.books fun k => by
        rw [here]
        simp [Inside]
      have moved := books_congr books effect.sems effect.pc effect.block
      exact ⟨sched, moved, yield_awake inv.sched inv.awake effect⟩
    · simp at ran
  | waitReturn cpu =>
    simp only [step] at ran
    split at ran
    · rename_i sem running here
      simp only [Option.some.injEq] at ran
      simp only [account, here]
      subst ran
      exact leave_inv inv (here ▸ Or.inr (Or.inr rfl)) (inv.awake.resumed cpu sem running here)
    · simp at ran
  | signal sem r =>
    have cnt := inv.books.taskCnt sem
    rcases sem_signal_cases ran with ⟨nobody, rfl⟩ | ⟨i, n, bound, count, _, wakes, is⟩
    · simp only [account, nobody, wakeUp]
      refine signal_keeps inv ?_ sched
      unfold woken at nobody
      split at nobody
      · simp at nobody
      · rename_i keeps
        omega
    · simp only [account, wakes, wakeUp]
      exact signal_wakes inv bound count rfl is sched

theorem counted_init_inv (entries : List Nat) :
    SemInv value (countedInit (createTasks (kmtInit value) entries)) := by
  have kept : ∀ s : State, (createTasks s entries).sems = s.sems ∧
      (createTasks s entries).pc = s.pc ∧ (createTasks s entries).mode = s.mode ∧
      ((∀ t, (s.tasks t).block = false) →
        ∀ t, ((createTasks s entries).tasks t).block = false) := by
    induction entries with
    | nil => exact fun s => ⟨rfl, rfl, rfl, fun h => h⟩
    | cons entry rest ih =>
      intro s
      obtain ⟨sems, pc, mode, block⟩ := ih (kmtCreate s entry)
      refine ⟨sems, pc, mode, fun h => block fun t => ?_⟩
      by_cases new : t = .task s.taskCnt
      · simp [kmtCreate, new]
      · simpa [kmtCreate, new] using h t
  obtain ⟨sems, pc, mode, calm⟩ := kept (kmtInit value)
  have sched := create_tasks_inv (init_inv value) entries
  generalize createTasks (kmtInit value) entries = s at *
  have open_ : ∀ t, (s.tasks t).block = false := calm fun _ => rfl
  have empty : ∀ k, waiters s k = [] := fun k => by
    rw [waiters, sems]
    rfl
  refine ⟨sched, ⟨fun k => ?_, fun k => ?_, fun k => ?_, fun k t => ?_, fun t block => ?_,
    fun k => ⟨[], List.nodup_nil, fun t => ?_, rfl⟩⟩, fun cpu _ => open_ _,
    fun cpu _ _ _ => open_ _⟩
  · simp [countedInit, sems, kmtInit, semInit]
  · simp [countedInit, sems, kmtInit, semInit]
  · simp [countedInit, empty]
  · simp [countedInit, empty, open_]
  · have block : (s.tasks t).block = true := block
    rw [open_] at block
    exact absurd block Bool.false_ne_true
  · have pc : (countedInit s).s.pc t = .outside := congrFun pc t
    simp [pc, outside_not_inside]

/-- Any waits and signals on any semaphores, interleaved with the scheduler of all CPUs. -/
theorem semaphores_account (value : Nat → Nat) (entries : List Nat) (events : List Event) :
    Throughout countedStep (Accounts value) (countedInit (createTasks (kmtInit value) entries))
      events := by
  exact throughout_of_invariant (fun c e c' inv taken => counted_step_inv inv taken)
    (fun c inv => accounts_of_books inv.books) events (counted_init_inv entries)

end Kmt
