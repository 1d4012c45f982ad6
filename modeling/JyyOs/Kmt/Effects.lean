import JyyOs.Kmt.Sched
import Mathlib.Data.List.Basic

/-!
What each step does to the fields of the state: who is current and saved on which CPU, and
the flags of the tasks.
-/
namespace Kmt

variable {s s' : State} {cpu d : Nat} {t u : TaskPtr}

@[simp] theorem current_set_task (task : Task) : (s.setTask t task).current d = s.current d := rfl
@[simp] theorem save_set_task (task : Task) : (s.setTask t task).save d = s.save d := rfl
@[simp] theorem mode_set_task (task : Task) : (s.setTask t task).mode = s.mode := rfl
@[simp] theorem current_set_mode (m : Mode) : (s.setMode cpu m).current d = s.current d := rfl
@[simp] theorem save_set_mode (m : Mode) : (s.setMode cpu m).save d = s.save d := rfl
@[simp] theorem tasks_set_mode (m : Mode) : (s.setMode cpu m).tasks = s.tasks := rfl
@[simp] theorem current_set_pc (pc : WaitPc) : (s.setPc t pc).current d = s.current d := rfl
@[simp] theorem save_set_pc (pc : WaitPc) : (s.setPc t pc).save d = s.save d := rfl
@[simp] theorem tasks_set_pc (pc : WaitPc) : (s.setPc t pc).tasks = s.tasks := rfl
@[simp] theorem tasks_set_current : (s.setCurrent cpu t).tasks = s.tasks := rfl
@[simp] theorem tasks_set_save : (s.setSave cpu t).tasks = s.tasks := rfl

@[simp] theorem current_set_current :
    (s.setCurrent cpu t).current d = if d = cpu then t else s.current d := by
  by_cases same : d = cpu
  · subst same
    simp [State.setCurrent, State.current]
  · simp [State.setCurrent, State.current, same]

@[simp] theorem save_set_current : (s.setCurrent cpu t).save d = s.save d := by
  by_cases same : d = cpu
  · subst same
    simp [State.setCurrent, State.save]
  · simp [State.setCurrent, State.save, same]

@[simp] theorem current_set_save : (s.setSave cpu t).current d = s.current d := by
  by_cases same : d = cpu
  · subst same
    simp [State.setSave, State.current]
  · simp [State.setSave, State.current, same]

@[simp] theorem save_set_save :
    (s.setSave cpu t).save d = if d = cpu then t else s.save d := by
  by_cases same : d = cpu
  · subst same
    simp [State.setSave, State.save]
  · simp [State.setSave, State.save, same]

@[simp] theorem idle_set_current :
    ((s.setCurrent cpu t).cpuList d).idleTask = (s.cpuList d).idleTask := by
  by_cases same : d = cpu
  · subst same
    simp [State.setCurrent]
  · simp [State.setCurrent, same]

@[simp] theorem idle_set_save :
    ((s.setSave cpu t).cpuList d).idleTask = (s.cpuList d).idleTask := by
  by_cases same : d = cpu
  · subst same
    simp [State.setSave]
  · simp [State.setSave, same]

structure Steady (s s' : State) : Prop where
  taskList : s'.taskList = s.taskList
  taskCnt : s'.taskCnt = s.taskCnt
  idle : ∀ d, (s'.cpuList d).idleTask = (s.cpuList d).idleTask
  pids : ∀ t, (s'.tasks t).pid = (s.tasks t).pid

/-- The task a trap on `cpu` lets go of: the one whose stack was in use until now. -/
def Released (s : State) (cpu : Nat) (t : TaskPtr) : Prop :=
  s.save cpu = t ∧ t ≠ .null ∧ t ≠ s.current cpu ∧ 0 < (s.tasks t).pid

instance : Decidable (Released s cpu t) := by unfold Released; infer_instance

structure TrapEffect (s s' : State) (cpu : Nat) : Prop where
  steady : Steady s s'
  real : s.current cpu ≠ .null
  current : ∀ d, s'.current d = s.current d
  save : ∀ d, s'.save d = if d = cpu then s.current cpu else s.save d
  sems : s'.sems = s.sems
  pc : s'.pc = s.pc
  mode : s'.mode = Function.update s.mode cpu (.examining 0)
  block : ∀ t, (s'.tasks t).block = (s.tasks t).block
  running : ∀ t, (s'.tasks t).isRunning =
    if Released s cpu t then false else (s.tasks t).isRunning

theorem save_context_fields {task task' : Task} {c : Context}
    (saved : saveContext task c = some task') :
    task'.pid = task.pid ∧ task'.block = task.block ∧ task'.isRunning = task.isRunning := by
  unfold saveContext at saved
  split at saved
  · split at saved
    · simp only [Option.some.injEq] at saved
      subst saved
      exact ⟨rfl, rfl, rfl⟩
    · simp at saved
  · simp only [Option.some.injEq] at saved
    subst saved
    exact ⟨rfl, rfl, rfl⟩

theorem release_task_fields {task task' : Task} (released : releaseTask task = some task') :
    task'.pid = task.pid ∧ task'.block = task.block ∧ task'.isRunning = false := by
  unfold releaseTask at released
  simp only at released
  split at released
  · simp only [Option.some.injEq] at released
    subst released
    exact ⟨rfl, rfl, rfl⟩
  · simp at released

theorem context_save_cases {c : Context} (ran : kmtContextSave s cpu c = some s') :
    s.current cpu ≠ .null ∧ ∃ task, saveContext (s.tasks (s.current cpu)) c = some task ∧
      ((¬ Released s cpu (s.save cpu) ∧
          s' = (s.setTask (s.current cpu) task).setSave cpu (s.current cpu)) ∨
        (Released s cpu (s.save cpu) ∧ ∃ free, releaseTask (s.tasks (s.save cpu)) = some free ∧
          s' = ((s.setTask (s.current cpu) task).setTask (s.save cpu) free).setSave cpu
            (s.current cpu))) := by
  unfold kmtContextSave at ran
  simp only at ran
  split at ran
  · simp at ran
  · rename_i real
    refine ⟨real, ?_⟩
    cases saved : saveContext (s.tasks (s.current cpu)) c with
    | none => simp [saved] at ran
    | some task =>
      refine ⟨task, rfl, ?_⟩
      simp only [saved] at ran
      have other : ∀ t, t ≠ s.current cpu →
          (s.setTask (s.current cpu) task).tasks t = s.tasks t := fun t h =>
        Function.update_of_ne h ..
      split at ran
      · rename_i release
        obtain ⟨notNull, notCur, pid⟩ := release
        rw [save_set_task] at notNull notCur pid ran
        rw [other _ notCur] at pid ran
        cases freed : releaseTask (s.tasks (s.save cpu)) with
        | none => simp [freed] at ran
        | some free =>
          simp only [freed, Option.some.injEq] at ran
          exact Or.inr ⟨⟨rfl, notNull, notCur, pid⟩, free, rfl, ran.symm⟩
      · rename_i keep
        simp only [Option.some.injEq] at ran
        refine Or.inl ⟨fun release => keep ?_, ran.symm⟩
        obtain ⟨_, notNull, notCur, pid⟩ := release
        rw [save_set_task, other _ notCur]
        exact ⟨notNull, notCur, pid⟩

theorem trap_effect {c : Nat} (ran : enterTrap s cpu c = some s') : TrapEffect s s' cpu := by
  obtain ⟨s1, saved, entered⟩ := Option.map_eq_some_iff.mp ran
  obtain ⟨real, task, stored, outcome⟩ := context_save_cases saved
  obtain ⟨pid, block, running⟩ := save_context_fields stored
  have current1 : s1.current cpu = s.current cpu := by
    rcases outcome with ⟨_, rfl⟩ | ⟨_, free, _, rfl⟩ <;> simp
  rw [kmtScheduleEnter, if_neg (current1 ▸ real)] at entered
  subst entered
  rcases outcome with ⟨keep, rfl⟩ | ⟨release, free, freed, rfl⟩
  · refine ⟨⟨rfl, rfl, fun d => by simp [State.setMode, State.setTask], fun t => ?_⟩, real,
      fun d => by simp, fun d => by simp, rfl, rfl, rfl, fun t => ?_, fun t => ?_⟩
    · by_cases here : t = s.current cpu
      · simp [here, State.setTask, pid]
      · simp [State.setTask, here]
    · by_cases here : t = s.current cpu
      · simp [here, State.setTask, block]
      · simp [State.setTask, here]
    · have notReleased : ¬ Released s cpu t := fun h => keep (h.1 ▸ h)
      rw [if_neg notReleased]
      by_cases here : t = s.current cpu
      · simp [here, State.setTask, running]
      · simp [State.setTask, here]
  · obtain ⟨pid', block', running'⟩ := release_task_fields freed
    have notCur := release.2.2.1
    refine ⟨⟨rfl, rfl, fun d => by simp [State.setMode, State.setTask], fun t => ?_⟩, real,
      fun d => by simp, fun d => by simp, rfl, rfl, rfl, fun t => ?_, fun t => ?_⟩
    · by_cases saved : t = s.save cpu
      · simp [saved, State.setTask, pid']
      · by_cases here : t = s.current cpu
        · simp [State.setTask, here, pid, Ne.symm notCur]
        · simp [State.setTask, saved, here]
    · by_cases saved : t = s.save cpu
      · simp [saved, State.setTask, block']
      · by_cases here : t = s.current cpu
        · simp [State.setTask, here, block, Ne.symm notCur]
        · simp [State.setTask, saved, here]
    · by_cases saved : t = s.save cpu
      · rw [saved, if_pos release]
        simp [State.setTask, running']
      · rw [if_neg fun h => saved h.1.symm]
        by_cases here : t = s.current cpu
        · simp [State.setTask, here, running, Ne.symm notCur]
        · simp [State.setTask, saved, here]

/-- The three outcomes of examining a candidate: passed over, re-picked by its own CPU, or
    taken over. -/
theorem examine_cases {i r : Nat} (ran : kmtScheduleExamine s cpu i r = some s') :
    ∃ k, 1 ≤ k ∧ k < s.taskCnt ∧ s.taskList k ≠ .null ∧
      (s' = s.setMode cpu (.examining (i + 1)) ∨
        (s.taskList k = s.current cpu ∧ (s.tasks (s.taskList k)).block = false ∧
          s' = (s.setTask (s.taskList k) { s.tasks (s.taskList k) with
            nestedInterrupt := (s.tasks (s.taskList k)).nestedInterrupt - 1 }).setMode cpu
              .picked) ∨
        (s.taskList k ≠ s.current cpu ∧ (s.tasks (s.taskList k)).isRunning = false ∧
          (s.tasks (s.taskList k)).block = false ∧
          s' = ((s.setTask (s.taskList k) { s.tasks (s.taskList k) with
            isRunning := true }).setCurrent cpu (s.taskList k)).setMode cpu .picked)) := by
  unfold kmtScheduleExamine at ran
  split at ran
  · simp at ran
  · rename_i some_
    have range := Nat.mod_lt r (show s.taskCnt - 1 > 0 by omega)
    refine ⟨r % (s.taskCnt - 1) + 1, by omega, by omega, ?_⟩
    simp only at ran
    split at ran
    · simp at ran
    · rename_i notNull
      refine ⟨notNull, ?_⟩
      split at ran
      · rename_i own
        split at ran
        · simp only [Option.some.injEq] at ran
          exact Or.inl ran.symm
        · rename_i open_
          simp only [Option.some.injEq] at ran
          exact Or.inr (Or.inl ⟨own, by simpa using open_, ran.symm⟩)
      · rename_i other
        split at ran
        · simp only [Option.some.injEq] at ran
          exact Or.inl ran.symm
        · rename_i free
          simp only [Option.some.injEq] at ran
          rw [not_or] at free
          exact Or.inr (Or.inr ⟨other, by simpa using free.1, by simpa using free.2, ran.symm⟩)

theorem schedule_return_cases {fineTask : Bool} {ret : Context}
    (ran : kmtScheduleReturn s cpu fineTask = some (t, ret, s')) :
    s' = (if fineTask then s else s.setCurrent cpu (s.cpuList cpu).idleTask).setMode cpu
        .running ∧
      t = (if fineTask then s.current cpu else (s.cpuList cpu).idleTask) ∧
      (s.tasks t).block = false := by
  cases fineTask with
  | true =>
    simp only [kmtScheduleReturn, and_true, ↓reduceIte, true_and] at ran
    split at ran
    · simp at ran
    · rename_i open_
      split at ran
      · simp at ran
      · split at ran
        · simp at ran
        · split at ran
          · simp at ran
          · simp only [Option.some.injEq, Prod.mk.injEq] at ran
            obtain ⟨rfl, rfl, rfl⟩ := ran
            exact ⟨rfl, rfl, by simpa using open_⟩
  | false =>
    simp only [kmtScheduleReturn, Bool.false_eq_true, and_false, false_and, ↓reduceIte,
      current_set_current, tasks_set_current] at ran
    split at ran
    · simp at ran
    · split at ran
      · simp at ran
      · rename_i open_
        split at ran
        · simp at ran
        · simp only [Option.some.injEq, Prod.mk.injEq] at ran
          obtain ⟨rfl, rfl, rfl⟩ := ran
          exact ⟨rfl, rfl, by simpa using open_⟩

/-- A semaphore step touches block flags, the semaphore and program counters only. -/
structure SemEffect (s s' : State) : Prop where
  steady : Steady s s'
  cpuList : s'.cpuList = s.cpuList
  mode : s'.mode = s.mode
  running : ∀ t, (s'.tasks t).isRunning = (s.tasks t).isRunning

theorem block_effect (value : Bool) (sems : Nat → Sem) (pc : TaskPtr → WaitPc) :
    SemEffect s { s with
      tasks := Function.update s.tasks t { s.tasks t with block := value }
      sems := sems
      pc := pc } := by
  refine ⟨⟨rfl, rfl, fun _ => rfl, fun u => ?_⟩, rfl, rfl, fun u => ?_⟩
  all_goals
    by_cases same : u = t
    · simp [same]
    · simp [same]

theorem sem_effect (sems : Nat → Sem) (pc : TaskPtr → WaitPc) :
    SemEffect s { s with sems := sems, pc := pc } :=
  ⟨⟨rfl, rfl, fun _ => rfl, fun _ => rfl⟩, rfl, rfl, fun _ => rfl⟩

theorem sem_wait_effect {sem : Nat} (ran : kmtSemWait s cpu sem = some s') : SemEffect s s' := by
  unfold kmtSemWait at ran
  simp only at ran
  split at ran
  · split at ran
    · simp at ran
    · simp only [Option.some.injEq] at ran
      subst ran
      exact block_effect true _ _
  · simp only [Option.some.injEq] at ran
    subst ran
    exact sem_effect _ _

theorem sem_signal_effect {sem r : Nat} (ran : kmtSemSignal s sem r = some s') :
    SemEffect s s' := by
  unfold kmtSemSignal at ran
  simp only at ran
  split at ran
  · split at ran
    · simp at ran
    · simp only [Option.some.injEq] at ran
      subst ran
      exact block_effect false _ _
  · simp only [Option.some.injEq] at ran
    subst ran
    exact sem_effect _ _

end Kmt
