import JyyOs.Kmt.Semaphore

/-!
The index kmt_sem_wait writes into task_list. Tasks that wait are blocked and wait once, so the
index stays below the number of tasks; that many tasks can also wait at the same time.
-/
namespace Kmt
open PartialRun Prefix

/-- The index a task is about to write lies in the array. -/
def IndexFits (s : State) : Prop :=
  ∀ cpu sem i, s.mode cpu = .running → s.pc (s.current cpu) = .outside → s.current cpu = .task i →
    (s.sems sem).resource - 1 < 0 → (s.sems sem).taskCnt < kMaxTask

/-- Only tasks wait: the idle threads call no semaphore. -/
def WaitsByTasks (s : State) : Event → Prop
  | .waitSection cpu _ => ∃ i, s.current cpu = .task i
  | _ => True

section Bounded

variable {value : Nat → Nat} {s s' : State} {n : Nat}

structure Blocks (s : State) (e : Event) (s' : State) : Prop where
  taskCnt : s'.taskCnt = s.taskCnt
  block : ∀ t, (s'.tasks t).block = true → (s.tasks t).block = true ∨
    ∃ cpu sem, e = .waitSection cpu sem ∧ t = s.current cpu

theorem blocks_same {e : Event} (steady : Steady s s')
    (block : ∀ t, (s'.tasks t).block = (s.tasks t).block) : Blocks s e s' :=
  ⟨steady.taskCnt, fun t h => .inl (block t ▸ h)⟩

theorem blocks_return {cpu : Nat} {fineTask : Bool} {t : TaskPtr} {ret : Context} {e : Event}
    (ran : kmtScheduleReturn s cpu fineTask = some (t, ret, s')) : Blocks s e s' := by
  obtain ⟨rfl, _⟩ := schedule_return_cases ran
  cases fineTask with
  | true => exact ⟨rfl, fun _ h => .inl h⟩
  | false => exact ⟨rfl, fun _ h => .inl h⟩

theorem blocks_examine {cpu i r : Nat} {e : Event}
    (ran : kmtScheduleExamine s cpu i r = some s') : Blocks s e s' := by
  have effect := examine_effect ran
  refine ⟨?_, fun t h => .inl (effect.block t ▸ h)⟩
  obtain ⟨_, _, _, _, rfl | ⟨_, _, rfl⟩ | ⟨_, _, _, rfl⟩⟩ := examine_cases ran <;> rfl

theorem blocks_wait {cpu sem : Nat} (real : s.current cpu ≠ .null)
    (ran : kmtSemWait s cpu sem = some s') : Blocks s (.waitSection cpu sem) s' := by
  refine ⟨(sem_wait_effect ran).steady.taskCnt, fun t h => ?_⟩
  rcases sem_wait_cases real ran with ⟨_, rfl⟩ | ⟨_, rfl⟩
  · exact .inl h
  · by_cases here : t = s.current cpu
    · exact .inr ⟨cpu, sem, rfl, here⟩
    · exact .inl (by simpa [here] using h)

theorem blocks_signal {sem r : Nat} {e : Event} (ran : kmtSemSignal s sem r = some s') :
    Blocks s e s' := by
  refine ⟨(sem_signal_effect ran).steady.taskCnt, fun t h => .inl ?_⟩
  rcases sem_signal_cases ran with ⟨_, rfl⟩ | ⟨i, _, _, _, _, _, rfl⟩
  · exact h
  · by_cases here : t = (s.sems sem).taskList i
    · simp [here] at h
    · simpa [here] using h

theorem step_blocks {e : Event} (inv : SchedInv s) (taken : step s e = some s') :
    Blocks s e s' := by
  cases e with
  | trap cpu c =>
    simp only [step] at taken
    split at taken
    · have effect := trap_effect taken
      exact blocks_same effect.steady effect.block
    · simp at taken
  | examine cpu r =>
    simp only [step] at taken
    split at taken
    · split at taken
      · exact blocks_examine taken
      · simp at taken
    · simp at taken
  | scheduled cpu =>
    simp only [step] at taken
    split at taken
    · obtain ⟨_, ran, rfl⟩ := Option.map_eq_some_iff.mp taken
      exact blocks_return ran
    · split at taken
      · simp at taken
      · obtain ⟨_, ran, rfl⟩ := Option.map_eq_some_iff.mp taken
        exact blocks_return ran
    · simp at taken
  | waitSection cpu sem =>
    simp only [step] at taken
    split at taken
    · exact blocks_wait (inv.real cpu) taken
    · simp at taken
  | waitReread cpu =>
    simp only [step] at taken
    split at taken
    · simp only [Option.some.injEq] at taken
      subst taken
      exact ⟨rfl, fun _ h => .inl h⟩
    · simp at taken
  | waitYield cpu c =>
    simp only [step] at taken
    split at taken
    · have effect := trap_effect taken
      exact ⟨effect.steady.taskCnt, fun t h => .inl (effect.block t ▸ h)⟩
    · simp at taken
  | waitReturn cpu =>
    simp only [step] at taken
    split at taken
    · simp only [Option.some.injEq] at taken
      subst taken
      exact ⟨rfl, fun _ h => .inl h⟩
    · simp at taken
  | signal sem r => exact blocks_signal taken

/-- The accounting of the semaphores, with `n` tasks of which alone some are blocked. -/
structure WaiterInv (n : Nat) (s : State) : Prop where
  books : ∃ value c, SemInv value c ∧ c.s = s
  taskCnt : s.taskCnt = n + 1
  blocked : ∀ t, (s.tasks t).block = true → ∃ i, Listed s i ∧ t = .task i

theorem waiter_inv_step {e : Event} (inv : WaiterInv n s) (byTasks : WaitsByTasks s e)
    (taken : step s e = some s') : WaiterInv n s' := by
  obtain ⟨⟨value, c, sem, rfl⟩, taskCnt, blocked⟩ := inv
  have counted : countedStep c e = some (account c s' e) := by
    unfold countedStep
    rw [taken]
    rfl
  have blocks := step_blocks sem.sched taken
  have listed : ∀ i, Listed c.s i → Listed s' i := by
    intro i h
    unfold Listed
    rw [blocks.taskCnt]
    exact h
  refine ⟨⟨value, _, counted_step_inv sem counted, ?_⟩, blocks.taskCnt.trans taskCnt, ?_⟩
  · unfold account
    split
    · rfl
    · split <;> rfl
    · split <;> rfl
    · rfl
    · rfl
  · intro t block
    rcases blocks.block t block with old | ⟨cpu, sem', rfl, rfl⟩
    · obtain ⟨i, h, same⟩ := blocked t old
      exact ⟨i, listed i h, same⟩
    · obtain ⟨i, current⟩ := byTasks
      rcases sem.sched.known cpu _ (.inl current) with null | idle | ⟨j, h, same⟩
      · simp at null
      · simp at idle
      · exact ⟨j, listed j h, current.trans same⟩

theorem tasks_few {list : List TaskPtr} (once : list.Nodup)
    (known : ∀ t ∈ list, ∃ i, 1 ≤ i ∧ i < n + 1 ∧ t = .task i) : list.length ≤ n := by
  have inside : list ⊆ (List.range n).map fun i => TaskPtr.task (i + 1) := by
    intro t mem
    obtain ⟨i, first, last, rfl⟩ := known t mem
    apply List.mem_map.mpr
    exact ⟨i - 1, List.mem_range.mpr (by omega), by rw [Nat.sub_add_cancel first]⟩
  have fewer := (List.subperm_of_subset once inside).length_le
  rwa [List.length_map, List.length_range] at fewer

/-- The waiters and the task about to wait are distinct tasks. -/
theorem index_fits_of_few (inv : WaiterInv n s) (few : n ≤ kMaxTask) : IndexFits s := by
  obtain ⟨⟨value, c, sem, rfl⟩, taskCnt, blocked⟩ := inv
  intro cpu k i _ outside current _
  have awake := outside_open sem.books outside
  have apart : c.s.current cpu ∉ waiters c.s k := by
    intro waits
    rw [((sem.books.blocked k _).mp waits).1] at awake
    cases awake
  have once : (c.s.current cpu :: waiters c.s k).Nodup :=
    List.nodup_cons.mpr ⟨apart, sem.books.once k⟩
  have known : ∀ t ∈ c.s.current cpu :: waiters c.s k, ∃ i, 1 ≤ i ∧ i < n + 1 ∧ t = .task i := by
    intro t mem
    have listed : ∃ i, Listed c.s i ∧ t = .task i := by
      rcases List.mem_cons.mp mem with rfl | waits
      · rcases sem.sched.known cpu _ (.inl rfl) with null | idle | listed
        · exact absurd null (sem.sched.real cpu)
        · rw [current] at idle
          simp at idle
        · exact listed
      · exact blocked t ((sem.books.blocked k t).mp waits).1
    obtain ⟨i, h, same⟩ := listed
    unfold Listed at h
    rw [taskCnt] at h
    exact ⟨i, h.1, h.2, same⟩
  have bound := tasks_few once known
  rw [List.length_cons, waiters, first_length] at bound
  exact Nat.lt_of_lt_of_le bound few

end Bounded

theorem create_tasks_count (s : State) (entries : List Nat) :
    (createTasks s entries).taskCnt = s.taskCnt + entries.length := by
  induction entries generalizing s with
  | nil => rfl
  | cons entry rest ih =>
    have grown : (kmtCreate s entry).taskCnt = s.taskCnt + 1 := rfl
    have count := ih (kmtCreate s entry)
    rw [grown] at count
    rw [List.length_cons]
    exact count.trans (by omega)

theorem waiter_inv_start (value : Nat → Nat) (entries : List Nat) :
    WaiterInv entries.length (createTasks (kmtInit value) entries) := by
  have start : SemInv value (countedInit (createTasks (kmtInit value) entries)) :=
    counted_init_inv entries
  refine ⟨⟨value, _, start, rfl⟩, ?_, fun t block => ?_⟩
  · rw [create_tasks_count, Nat.add_comm]
    rfl
  · obtain ⟨k, by_, _⟩ := start.books.waiting t block
    simp [countedInit] at by_

section Overflow

variable {s : State} {n j : Nat}

structure Fresh (task : Task) : Prop where
  open_ : task.block = false
  stopped : task.isRunning = false
  nested : task.nestedInterrupt = 0
  context : task.context 0 ≠ none

structure Created (s : State) : Prop where
  sched : SchedInv s
  fresh : ∀ i, Listed s i → Fresh (s.tasks (.task i))
  outside : ∀ t, s.pc t = .outside
  idle : s.current 0 = .idle 0 ∧ s.save 0 = .null ∧ (s.tasks (.idle 0)).pid = 0
  mode : s.mode 0 = .running
  sem : s.sems 0 = semInit 0

theorem created_start : Created (kmtInit fun _ => 0) := by
  refine ⟨init_inv _, fun i listed => ?_, fun _ => rfl, ⟨rfl, rfl, rfl⟩, rfl, rfl⟩
  simp only [Listed, kmtInit] at listed
  omega

theorem created_next (created : Created s) (entry : Nat) : Created (kmtCreate s entry) := by
  refine ⟨create_inv created.sched entry, fun i listed => ?_, created.outside, ?_, created.mode,
    created.sem⟩
  · by_cases new : i = s.taskCnt
    · subst new
      have made : Fresh ⟨Function.update (s.tasks (.task s.taskCnt)).context 0 (some entry),
          s.taskCnt, 0, false, false⟩ := ⟨rfl, rfl, rfl, by simp⟩
      simpa [kmtCreate] using made
    · have old : Listed s i := by
        simp only [Listed, kmtCreate] at listed
        exact ⟨listed.1, by omega⟩
      simpa [kmtCreate, new] using created.fresh i old
  · obtain ⟨current, save, pid⟩ := created.idle
    exact ⟨current, save, by simpa [kmtCreate] using pid⟩

theorem created_all (created : Created s) (entries : List Nat) :
    Created (createTasks s entries) := by
  induction entries generalizing s with
  | nil => exact created
  | cons entry rest ih => exact ih (created_next created entry)

/-- CPU 0 is in kmt_schedule after the first `j` of `n` tasks went to wait on semaphore 0. -/
structure Lined (n j : Nat) (s : State) : Prop where
  taskCnt : s.taskCnt = n + 1
  listed : ∀ i, 1 ≤ i → i ≤ n → s.taskList i = .task i
  ahead : ∀ i, j < i → i ≤ n → Fresh (s.tasks (.task i))
  pids : ∀ i, 1 ≤ i → i ≤ n → (s.tasks (.task i)).pid = i
  outside : ∀ i, j < i → i ≤ n → s.pc (.task i) = .outside
  mode : s.mode 0 = .examining 0
  current : (s.current 0 = .idle 0 ∧ (s.tasks (.idle 0)).pid = 0) ∨
    (s.current 0 = .task j ∧ 1 ≤ j ∧ (s.tasks (.task j)).nestedInterrupt = 1)
  save : s.save 0 = s.current 0
  resource : (s.sems 0).resource = -j
  waiting : (s.sems 0).taskCnt = j

theorem Lined.not_current (lined : Lined n j s) : s.current 0 ≠ .task (j + 1) := by
  rcases lined.current with ⟨idle, _⟩ | ⟨task, _⟩
  · rw [idle]
    simp
  · rw [task]
    simp

def resumedNext (s : State) (j : Nat) : State :=
  ((s.setTask (.task (j + 1)) { s.tasks (.task (j + 1)) with isRunning := true }).setCurrent 0
    (.task (j + 1))).setMode 0 .running

theorem lined_resumes (lined : Lined n j s) (more : j < n) :
    run step s [.examine 0 j, .scheduled 0] = some (resumedNext s j) := by
  have fresh := lined.ahead (j + 1) (by omega) (by omega)
  have bound : j % n + 1 = j + 1 := by rw [Nat.mod_eq_of_lt more]
  have some_task : ¬s.taskCnt - 1 = 0 := by
    rw [lined.taskCnt]
    omega
  have examined : step s (.examine 0 j) = some (((s.setTask (.task (j + 1))
      { s.tasks (.task (j + 1)) with isRunning := true }).setCurrent 0 (.task (j + 1))).setMode 0
        .picked) := by
    have rounds : 0 < s.taskCnt * 10 := by
      rw [lined.taskCnt]
      omega
    simp only [step, lined.mode, rounds, if_true, kmtScheduleExamine, if_neg some_task]
    simp [lined.taskCnt, bound, lined.listed (j + 1) (by omega) (by omega),
      Ne.symm lined.not_current, fresh.stopped, fresh.open_]
  simp only [run, examined]
  simp [step, State.setMode, kmtScheduleReturn, State.setCurrent, State.setTask, State.current,
    fresh.open_, fresh.nested, fresh.context, resumedNext]

def blockedNext (s : State) (j : Nat) : State :=
  let cur := TaskPtr.task (j + 1)
  let s := resumedNext s j
  { s with
    sems := Function.update s.sems 0
      ⟨-(j + 1 : Int), j + 1, Function.update (s.sems 0).taskList j cur⟩
    tasks := Function.update s.tasks cur { s.tasks cur with block := true }
    pc := Function.update s.pc cur (.yielding 0) }

theorem next_waits (lined : Lined n j s) (more : j < n) (room : j < kMaxTask) :
    run step (resumedNext s j) [.waitSection 0 0, .waitReread 0] = some (blockedNext s j) := by
  have outside := lined.outside (j + 1) (by omega) (by omega)
  have negative : -(j + 1 : Int) < 0 := by omega
  have section_ : step (resumedNext s j) (.waitSection 0 0) = some
      { blockedNext s j with
        pc := Function.update s.pc (.task (j + 1)) (.reread 0) } := by
    have full : ¬kMaxTask ≤ j := by omega
    have resource : -(j : Int) - 1 = -(j + 1 : Int) := by omega
    have enters : -(j + 1 : Int) < 0 ∧ TaskPtr.task (j + 1) ≠ .null := ⟨negative, nofun⟩
    simp only [step, resumedNext, State.setMode, State.setCurrent, State.setTask, State.current,
      Function.update_self, outside, and_self, if_true, kmtSemWait, lined.resource, lined.waiting,
      resource, if_pos enters, if_neg full, State.setPc, blockedNext, Function.update_idem]
  simp only [run, section_]
  simp only [step, blockedNext, resumedNext, State.setMode, State.setCurrent, State.setTask,
    State.current, State.setPc, Function.update_self, if_pos negative, Function.update_idem]

/-- A trap is taken when there is room for the context and the task let go is held. -/
theorem trap_taken {cpu c : Nat} {task : Task} (real : s.current cpu ≠ .null)
    (saved : saveContext (s.tasks (s.current cpu)) (some c) = some task)
    (held : Released s cpu (s.save cpu) → ∃ free, releaseTask (s.tasks (s.save cpu)) = some free) :
    ∃ s', enterTrap s cpu c = some s' ∧ s'.tasks (s.current cpu) = task ∧
      ∀ t, t ≠ s.current cpu → t ≠ s.save cpu → s'.tasks t = s.tasks t := by
  have entered : ∀ m : State, m.current cpu = s.current cpu →
      kmtContextSave s cpu (some c) = some m →
      enterTrap s cpu c = some (m.setMode cpu (.examining 0)) := by
    intro m current call
    unfold enterTrap
    rw [call, Option.map_some, kmtScheduleEnter, if_neg (current ▸ real)]
  have unfolded : kmtContextSave s cpu (some c) =
      if Released s cpu (s.save cpu) then
        (releaseTask (s.tasks (s.save cpu))).map fun free =>
          ((s.setTask (s.current cpu) task).setTask (s.save cpu) free).setSave cpu (s.current cpu)
      else some ((s.setTask (s.current cpu) task).setSave cpu (s.current cpu)) := by
    unfold kmtContextSave
    simp only [if_neg real, saved, save_set_task]
    by_cases own : s.save cpu = s.current cpu
    · simp [Released, own]
    · have same : (s.setTask (s.current cpu) task).tasks (s.save cpu) = s.tasks (s.save cpu) :=
        Function.update_of_ne own ..
      simp only [Released, same, true_and]
      split
      · cases releaseTask (s.tasks (s.save cpu)) <;> rfl
      · rfl
  by_cases release : Released s cpu (s.save cpu)
  · obtain ⟨free, freed⟩ := held release
    rw [if_pos release, freed] at unfolded
    refine ⟨_, entered _ (by simp) unfolded, ?_, fun t notCur notSave => ?_⟩
    · simp [State.setTask, Ne.symm release.2.2.1]
    · simp [State.setTask, notCur, notSave]
  · rw [if_neg release] at unfolded
    refine ⟨_, entered _ (by simp) unfolded, ?_, fun t notCur notSave => ?_⟩
    · simp [State.setTask]
    · simp [State.setTask, notCur]

theorem next_yields (lined : Lined n j s) (more : j < n) :
    ∃ s', step (blockedNext s j) (.waitYield 0 0) = some s' ∧ Lined n (j + 1) s' := by
  have fresh := lined.ahead (j + 1) (by omega) (by omega)
  have pid := lined.pids (j + 1) (by omega) (by omega)
  let m := (blockedNext s j).setPc (.task (j + 1)) (.yielded 0)
  have current : m.current 0 = .task (j + 1) := by
    simp [m, blockedNext, resumedNext, State.current, State.setMode, State.setCurrent, State.setPc]
  have save : m.save 0 = s.current 0 := by
    rw [← lined.save]
    simp [m, blockedNext, resumedNext, State.save, State.setMode, State.setCurrent, State.setPc,
      State.setTask]
  have others : ∀ t, t ≠ .task (j + 1) → m.tasks t = s.tasks t := by
    intro t other
    simp [m, blockedNext, resumedNext, State.setMode, State.setCurrent, State.setPc,
      State.setTask, other]
  have own : (m.tasks (.task (j + 1))).pid = j + 1 ∧
      (m.tasks (.task (j + 1))).nestedInterrupt = 0 := by
    simp [m, blockedNext, resumedNext, State.setMode, State.setCurrent, State.setPc,
      State.setTask, pid, fresh.nested]
  have stored : ∃ task, saveContext (m.tasks (m.current 0)) (some 0) = some task ∧
      task.nestedInterrupt = 1 := by
    unfold saveContext
    rw [current, own.1, own.2]
    simp
  obtain ⟨task, stored, nested⟩ := stored
  have held : Released m 0 (m.save 0) → ∃ free, releaseTask (m.tasks (m.save 0)) = some free := by
    rw [save, others _ lined.not_current]
    rintro ⟨_, _, _, positive⟩
    rw [others _ lined.not_current] at positive
    rcases lined.current with ⟨idle, low⟩ | ⟨before, _, once⟩
    · rw [idle] at positive
      omega
    · rw [before]
      unfold releaseTask
      simp [once]
  obtain ⟨s', trapped, filed, apart⟩ := trap_taken (by simp [current]) stored held
  have effect := trap_effect trapped
  rw [current] at filed
  refine ⟨s', ?_, ?_⟩
  · have running : (blockedNext s j).mode 0 = .running := by
      simp [blockedNext, resumedNext, State.setMode]
    have yielding : (blockedNext s j).pc ((blockedNext s j).current 0) = .yielding 0 := by
      simp [blockedNext, resumedNext, State.current, State.setMode, State.setCurrent]
    have next : (blockedNext s j).current 0 = .task (j + 1) := current
    simp only [step, running, yielding]
    rw [next]
    exact trapped
  · have untouched : ∀ i, j + 1 < i → s'.tasks (.task i) = s.tasks (.task i) := by
      intro i later
      have notNext : TaskPtr.task i ≠ .task (j + 1) := by
        simp
        omega
      have notSave : TaskPtr.task i ≠ s.current 0 := by
        rcases lined.current with ⟨idle, _⟩ | ⟨before, _⟩
        · rw [idle]
          simp
        · rw [before]
          simp
          omega
      rw [apart _ (by rwa [current]) (by rwa [save]), others _ notNext]
    have sems : s'.sems 0 =
        ⟨-(j + 1 : Int), j + 1, Function.update (s.sems 0).taskList j (.task (j + 1))⟩ := by
      rw [effect.sems]
      simp [m, blockedNext, resumedNext, State.setMode, State.setCurrent, State.setPc,
        State.setTask]
    refine ⟨effect.steady.taskCnt.trans lined.taskCnt, fun i first last => ?_,
      fun i later last => ?_, fun i first last => ?_, fun i later last => ?_, ?_, .inr ⟨?_, ?_, ?_⟩,
      ?_, ?_, ?_⟩
    · rw [effect.steady.taskList]
      exact lined.listed i first last
    · rw [untouched i later]
      exact lined.ahead i (by omega) last
    · rw [effect.steady.pids]
      by_cases here : i = j + 1
      · subst here
        exact own.1
      · rw [others _ (by simpa using here)]
        exact lined.pids i first last
    · have notNext : i ≠ j + 1 := by omega
      rw [effect.pc]
      simpa [m, blockedNext, resumedNext, State.setMode, State.setCurrent, State.setTask,
        State.setPc, notNext] using lined.outside i (by omega) last
    · simp [effect.mode]
    · rw [effect.current, current]
    · omega
    · rw [filed, nested]
    · rw [effect.save, effect.current, if_pos rfl]
    · rw [sems]
      simp
    · rw [sems]

theorem lined_step (lined : Lined n j s) (more : j < n) (room : j < kMaxTask) :
    ∃ events s', run step s events = some s' ∧ EachStep step WaitsByTasks s events ∧
      Lined n (j + 1) s' := by
  obtain ⟨s', yields, lined'⟩ := next_yields lined more
  have resumes := lined_resumes lined more
  have waits := next_waits lined more room
  have byTask : ∃ i, (resumedNext s j).current 0 = .task i :=
    ⟨j + 1, by simp [resumedNext]⟩
  have later : EachStep step WaitsByTasks (resumedNext s j)
      [.waitSection 0 0, .waitReread 0, .waitYield 0 0] := by
    refine fun _ _ => ⟨byTask, fun _ _ => ⟨trivial, fun _ _ => ⟨trivial, trivial⟩⟩⟩
  have first : EachStep step WaitsByTasks s [.examine 0 j, .scheduled 0] :=
    fun _ _ => ⟨trivial, fun _ _ => ⟨trivial, trivial⟩⟩
  have last : run step (blockedNext s j) [.waitYield 0 0] = some s' := by
    simp [run, yields]
  exact ⟨_, s', run_append resumes (run_append waits last),
    each_step_append first resumes later, lined'⟩

theorem lined_all (lined : Lined n j s) {k : Nat} (later : j ≤ k) (few : k ≤ n)
    (room : k ≤ kMaxTask) :
    ∃ events s', run step s events = some s' ∧ EachStep step WaitsByTasks s events ∧
      Lined n k s' := by
  induction k, later using Nat.le_induction with
  | base => exact ⟨[], s, rfl, trivial, lined⟩
  | succ k _ ih =>
    obtain ⟨front, m, ran, each, reached⟩ := ih (by omega) (by omega)
    obtain ⟨rest, s', ran', each', reached'⟩ := lined_step reached (by omega) (by omega)
    exact ⟨front ++ rest, s', run_append ran ran', each_step_append each ran each', reached'⟩

theorem lined_start (created : Created s) (count : s.taskCnt = n + 1) :
    ∃ s', step s (.trap 0 0) = some s' ∧ Lined n 0 s' := by
  obtain ⟨current, save, low⟩ := created.idle
  have stored : saveContext (s.tasks (s.current 0)) (some 0) = some
      { s.tasks (.idle 0) with context := Function.update (s.tasks (.idle 0)).context 0 (some 0) } := by
    have idle : ¬0 < (s.tasks (.idle 0)).pid := by omega
    unfold saveContext
    rw [current, if_neg idle]
  have held : Released s 0 (s.save 0) → ∃ free, releaseTask (s.tasks (s.save 0)) = some free :=
    fun release => absurd save release.2.1
  obtain ⟨s', trapped, filed, apart⟩ := trap_taken (by simp [current]) stored held
  have effect := trap_effect trapped
  have listed : ∀ i, 1 ≤ i → i ≤ n → Listed s i := by
    intro i first last
    unfold Listed
    rw [count]
    omega
  have untouched : ∀ i, s'.tasks (.task i) = s.tasks (.task i) :=
    fun i => apart _ (by simp [current]) (by simp [save])
  have sems : s'.sems 0 = semInit 0 := by
    rw [effect.sems]
    exact created.sem
  refine ⟨s', ?_, effect.steady.taskCnt.trans count, fun i first last => ?_,
    fun i first last => ?_, fun i first last => ?_, fun i _ _ => ?_, ?_, .inl ⟨?_, ?_⟩, ?_, ?_, ?_⟩
  · simp only [step, created.mode, if_true]
    exact trapped
  · rw [effect.steady.taskList]
    exact created.sched.list i (listed i first last)
  · rw [untouched]
    exact created.fresh i (listed i first last)
  · rw [untouched]
    exact created.sched.pids i (listed i first last)
  · rw [effect.pc]
    exact created.outside _
  · simp [effect.mode]
  · rw [effect.current, current]
  · rw [effect.steady.pids, low]
  · rw [effect.save, effect.current, if_pos rfl]
  · rw [sems]
    rfl
  · rw [sems]
    rfl

theorem lined_overflows (lined : Lined n kMaxTask s) (more : kMaxTask < n) :
    ¬IndexFits (resumedNext s kMaxTask) := by
  intro fits
  have outside := lined.outside (kMaxTask + 1) (by omega) (by omega)
  have current : (resumedNext s kMaxTask).current 0 = .task (kMaxTask + 1) := by
    simp [resumedNext]
  have sem : (resumedNext s kMaxTask).sems 0 = s.sems 0 := rfl
  have below := fits 0 0 (kMaxTask + 1) (by simp [resumedNext, State.setMode])
    (by rw [current]; exact outside) current (by rw [sem, lined.resource]; omega)
  rw [sem, lined.waiting] at below
  exact Nat.lt_irrefl _ below

theorem waiters_overflow {entries : List Nat} (more : kMaxTask < entries.length) :
    ∃ events, EachStep step WaitsByTasks (createTasks (kmtInit fun _ => 0) entries) events ∧
      ¬Throughout step IndexFits (createTasks (kmtInit fun _ => 0) entries) events := by
  have created := created_all created_start entries
  have count : (createTasks (kmtInit fun _ => 0) entries).taskCnt = entries.length + 1 := by
    rw [create_tasks_count, Nat.add_comm]
    rfl
  obtain ⟨s, trapped, lined⟩ := lined_start created count
  have enters : run step (createTasks (kmtInit fun _ => 0) entries) [.trap 0 0] = some s := by
    simp [run, trapped]
  obtain ⟨events, m, ran, each, full⟩ :=
    lined_all lined (Nat.zero_le _) (Nat.le_of_lt more) (Nat.le_refl _)
  have resumes := lined_resumes full more
  have first : EachStep step WaitsByTasks (createTasks (kmtInit fun _ => 0) entries)
      [.trap 0 0] := fun _ _ => ⟨trivial, trivial⟩
  have last : EachStep step WaitsByTasks m [.examine 0 kMaxTask, .scheduled 0] :=
    fun _ _ => ⟨trivial, fun _ _ => ⟨trivial, trivial⟩⟩
  have whole := run_append enters (run_append ran resumes)
  refine ⟨_, each_step_append first enters (each_step_append each ran last), fun fits => ?_⟩
  exact lined_overflows full more (throughout_of_run fits whole)

end Overflow

abbrev maxTask : Nat := 32768

/-- Every index kmt_sem_wait writes lies in the array of the semaphore exactly when the tasks
    that were created are no more than K_MAX_TASK. -/
theorem waiter_index_fits_iff (entries : List Nat) :
    (∀ value events,
        EachStep step WaitsByTasks (createTasks (kmtInit value) entries) events →
        Throughout step IndexFits (createTasks (kmtInit value) entries) events) ↔
      entries.length ≤ kMaxTask := by
  constructor
  · intro fits
    by_contra more
    obtain ⟨events, each, overflows⟩ := waiters_overflow (Nat.lt_of_not_le more)
    exact overflows (fits _ events each)
  · intro few value events each
    have kept := throughout_of_each_step
      (fun s e s' inv byTasks taken => waiter_inv_step inv byTasks taken) events
      (waiter_inv_start value entries) each
    exact throughout_mono (fun s inv => index_fits_of_few inv few) kept

/-- 1025 tasks, far below MAX_TASK, wait on one semaphore. -/
theorem waiter_array_overflows :
    ¬ ∀ entries : List Nat, entries.length < maxTask → ∀ value events,
        EachStep step WaitsByTasks (createTasks (kmtInit value) entries) events →
        Throughout step IndexFits (createTasks (kmtInit value) entries) events := by
  intro fits
  have length : (List.replicate 1025 0).length = 1025 := List.length_replicate
  have admitted : (List.replicate 1025 0).length < maxTask := by
    rw [length]
    decide
  have more : kMaxTask < (List.replicate 1025 0).length := by
    rw [length]
    decide
  obtain ⟨events, each, overflows⟩ := waiters_overflow more
  exact overflows (fits _ admitted _ events each)

end Kmt
