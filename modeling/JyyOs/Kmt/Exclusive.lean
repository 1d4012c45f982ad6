import JyyOs.Kmt.Effects
import JyyOs.Library.PartialRun

/-!
Scheduler exclusivity. A CPU owns its current task and the one whose stack it was on before;
no task has two owners, and owned tasks are flagged as running.
-/
namespace Kmt
open PartialRun

def Owns (s : State) (cpu : Nat) (t : TaskPtr) : Prop := s.current cpu = t ∨ s.save cpu = t

def Listed (s : State) (i : Nat) : Prop := 1 ≤ i ∧ i < s.taskCnt

structure SchedInv (s : State) : Prop where
  list : ∀ i, Listed s i → s.taskList i = .task i
  pids : ∀ i, Listed s i → (s.tasks (.task i)).pid = i
  idle : ∀ c, (s.cpuList c).idleTask = .idle c
  real : ∀ c, s.current c ≠ .null
  known : ∀ c t, Owns s c t → t = .null ∨ t = .idle c ∨ ∃ i, Listed s i ∧ t = .task i
  once : ∀ c d i, Owns s c (.task i) → Owns s d (.task i) → c = d
  running : ∀ c i, Owns s c (.task i) → (s.tasks (.task i)).isRunning = true

variable {s s' : State} {cpu : Nat}

theorem listed_steady (steady : Steady s s') {i : Nat} : Listed s' i ↔ Listed s i := by
  unfold Listed
  rw [steady.taskCnt]

/-- A step keeps the invariant when every owner it creates owned the task before, or took it
    over from nobody. -/
theorem sched_inv_step (inv : SchedInv s) (steady : Steady s s')
    (real : ∀ c, s'.current c ≠ .null)
    (known : ∀ c t, Owns s' c t → Owns s c t ∨ t = .idle c ∨ ∃ i, Listed s i ∧ t = .task i)
    (once : ∀ c d i, Owns s' c (.task i) → Owns s' d (.task i) → c = d)
    (running : ∀ c i, Owns s' c (.task i) → (s'.tasks (.task i)).isRunning = true) :
    SchedInv s' := by
  refine ⟨fun i h => ?_, fun i h => ?_, fun c => ?_, real, fun c t owns => ?_, once, running⟩
  · rw [steady.taskList]
    exact inv.list i ((listed_steady steady).mp h)
  · rw [steady.pids]
    exact inv.pids i ((listed_steady steady).mp h)
  · rw [steady.idle]
    exact inv.idle c
  · simp only [listed_steady steady]
    rcases known c t owns with old | own | listed
    · exact inv.known c t old
    · exact Or.inr (Or.inl own)
    · exact Or.inr (Or.inr listed)

theorem trap_inv (inv : SchedInv s) (effect : TrapEffect s s' cpu) : SchedInv s' := by
  have owned : ∀ c t, Owns s' c t → Owns s c t := by
    intro c t owns
    unfold Owns at owns ⊢
    rw [effect.current, effect.save] at owns
    rcases owns with current | saved
    · exact Or.inl current
    · by_cases here : c = cpu
      · subst here
        rw [if_pos rfl] at saved
        exact Or.inl saved
      · rw [if_neg here] at saved
        exact Or.inr saved
  refine sched_inv_step inv effect.steady (fun c => ?_) (fun c t owns => Or.inl (owned c t owns))
    (fun c d i hc hd => inv.once c d i (owned c _ hc) (owned d _ hd)) (fun c i owns => ?_)
  · rw [effect.current]
    exact inv.real c
  · rw [effect.running]
    split
    · rename_i release
      obtain ⟨saved, _, notCur, _⟩ := release
      -- the released task would have to be owned by this CPU, which no longer refers to it
      have same := inv.once c cpu i (owned c _ owns) (Or.inr saved)
      subst same
      rcases owns with current | saved'
      · rw [effect.current] at current
        exact absurd current.symm notCur
      · rw [effect.save, if_pos rfl] at saved'
        exact absurd saved'.symm notCur
    · exact inv.running c i (owned c _ owns)

theorem mode_inv (inv : SchedInv s) (m : Mode) : SchedInv (s.setMode cpu m) :=
  ⟨inv.list, inv.pids, inv.idle, inv.real, inv.known, inv.once, inv.running⟩

theorem nested_inv (inv : SchedInv s) (t : TaskPtr) (nested : Int) :
    SchedInv (s.setTask t { s.tasks t with nestedInterrupt := nested }) := by
  have running : ∀ u, ((s.setTask t { s.tasks t with nestedInterrupt := nested }).tasks
      u).isRunning = (s.tasks u).isRunning := by
    intro u
    by_cases same : u = t
    · simp [State.setTask, same]
    · simp [State.setTask, same]
  have pids : ∀ u, ((s.setTask t { s.tasks t with nestedInterrupt := nested }).tasks
      u).pid = (s.tasks u).pid := by
    intro u
    by_cases same : u = t
    · simp [State.setTask, same]
    · simp [State.setTask, same]
  exact sched_inv_step inv ⟨rfl, rfl, fun _ => rfl, pids⟩ inv.real
    (fun c u owns => Or.inl owns) inv.once fun c i owns => (running _).trans (inv.running c i owns)

theorem take_over_inv (inv : SchedInv s) {k : Nat} (listed : Listed s k)
    (free : (s.tasks (.task k)).isRunning = false) :
    SchedInv ((s.setTask (.task k) { s.tasks (.task k) with isRunning := true }).setCurrent cpu
      (.task k)) := by
  have unowned : ∀ c, ¬ Owns s c (.task k) := fun c owns => by
    have := inv.running c k owns
    rw [free] at this
    exact Bool.false_ne_true this
  have pids : ∀ u, ((s.setTask (.task k) { s.tasks (.task k) with isRunning := true }).tasks
      u).pid = (s.tasks u).pid := by
    intro u
    by_cases same : u = .task k
    · simp [State.setTask, same]
    · simp [State.setTask, same]
  have owned : ∀ c t, Owns ((s.setTask (.task k) { s.tasks (.task k) with
      isRunning := true }).setCurrent cpu (.task k)) c t →
        Owns s c t ∨ c = cpu ∧ t = .task k := by
    intro c t owns
    unfold Owns at owns ⊢
    simp only [current_set_current, current_set_task, save_set_current, save_set_task] at owns
    by_cases here : c = cpu
    · rw [if_pos here] at owns
      rcases owns with rfl | saved
      · exact Or.inr ⟨here, rfl⟩
      · exact Or.inl (Or.inr saved)
    · rw [if_neg here] at owns
      exact Or.inl owns
  refine sched_inv_step inv ⟨rfl, rfl, fun d => by simp [State.setTask], pids⟩ (fun c => ?_)
    (fun c t owns => ?_) (fun c d i hc hd => ?_) (fun c i owns => ?_)
  · simp only [current_set_current, current_set_task]
    split
    · simp
    · exact inv.real c
  · rcases owned c t owns with old | ⟨_, rfl⟩
    · exact Or.inl old
    · exact Or.inr (Or.inr ⟨k, listed, rfl⟩)
  · rcases owned c _ hc with oldC | ⟨rfl, same⟩
    · rcases owned d _ hd with oldD | ⟨_, same⟩
      · exact inv.once c d i oldC oldD
      · exact absurd (same ▸ oldC) (unowned c)
    · rcases owned d _ hd with oldD | ⟨rfl, _⟩
      · exact absurd (same ▸ oldD) (unowned d)
      · rfl
  · by_cases same : i = k
    · simp [State.setTask, same]
    · have other : TaskPtr.task i ≠ .task k := fun h => same (TaskPtr.task.inj h)
      rcases owned c _ owns with old | ⟨_, h⟩
      · simpa [State.setTask, other] using inv.running c i old
      · exact absurd h other

theorem idle_inv (inv : SchedInv s) : SchedInv (s.setCurrent cpu (s.cpuList cpu).idleTask) := by
  have owned : ∀ c t, Owns (s.setCurrent cpu (s.cpuList cpu).idleTask) c t →
      Owns s c t ∨ t = .idle c := by
    intro c t owns
    unfold Owns at owns ⊢
    simp only [current_set_current, save_set_current] at owns
    by_cases here : c = cpu
    · subst here
      rw [if_pos rfl, inv.idle] at owns
      rcases owns with rfl | saved
      · exact Or.inr rfl
      · exact Or.inl (Or.inr saved)
    · rw [if_neg here] at owns
      exact Or.inl owns
  have kept : ∀ c i, Owns (s.setCurrent cpu (s.cpuList cpu).idleTask) c (.task i) →
      Owns s c (.task i) := fun c i owns => by
    rcases owned c _ owns with old | idle
    · exact old
    · simp at idle
  refine sched_inv_step inv ⟨rfl, rfl, fun d => by simp, fun _ => rfl⟩ (fun c => ?_)
    (fun c t owns => ?_) (fun c d i hc hd => inv.once c d i (kept c i hc) (kept d i hd))
    (fun c i owns => inv.running c i (kept c i owns))
  · rw [current_set_current]
    split
    · rw [inv.idle]
      simp
    · exact inv.real c
  · rcases owned c t owns with old | idle
    · exact Or.inl old
    · exact Or.inr (Or.inl idle)

theorem examine_inv {i r : Nat} (inv : SchedInv s)
    (ran : kmtScheduleExamine s cpu i r = some s') : SchedInv s' := by
  obtain ⟨k, first, last, _, outcome⟩ := examine_cases ran
  have listed : Listed s k := ⟨first, last⟩
  rw [inv.list k listed] at outcome
  rcases outcome with rfl | ⟨_, _, rfl⟩ | ⟨_, free, _, rfl⟩
  · exact mode_inv inv _
  · exact mode_inv (nested_inv inv _ _) _
  · exact mode_inv (take_over_inv inv listed free) _

theorem return_inv {fineTask : Bool} {t : TaskPtr} {ret : Context} (inv : SchedInv s)
    (ran : kmtScheduleReturn s cpu fineTask = some (t, ret, s')) : SchedInv s' := by
  obtain ⟨rfl, _⟩ := schedule_return_cases ran
  cases fineTask with
  | true => exact mode_inv inv _
  | false => exact mode_inv (idle_inv inv) _

theorem sem_inv (inv : SchedInv s) (effect : SemEffect s s') : SchedInv s' := by
  have current : ∀ c, s'.current c = s.current c := fun c => by
    unfold State.current
    rw [effect.cpuList]
  have owned : ∀ c t, Owns s' c t ↔ Owns s c t := by
    intro c t
    unfold Owns State.current State.save
    rw [effect.cpuList]
  refine sched_inv_step inv effect.steady (fun c => current c ▸ inv.real c)
    (fun c t owns => Or.inl ((owned c t).mp owns)) (fun c d i hc hd => ?_) (fun c i owns => ?_)
  · exact inv.once c d i ((owned c _).mp hc) ((owned d _).mp hd)
  · exact (effect.running _).trans (inv.running c i ((owned c _).mp owns))

theorem pc_inv (inv : SchedInv s) (t : TaskPtr) (pc : WaitPc) : SchedInv (s.setPc t pc) :=
  ⟨inv.list, inv.pids, inv.idle, inv.real, inv.known, inv.once, inv.running⟩

theorem step_inv {e : Event} (inv : SchedInv s) (taken : step s e = some s') : SchedInv s' := by
  cases e with
  | trap cpu c =>
    simp only [step] at taken
    split at taken
    · exact trap_inv inv (trap_effect taken)
    · simp at taken
  | examine cpu r =>
    simp only [step] at taken
    split at taken
    · split at taken
      · exact examine_inv inv taken
      · simp at taken
    · simp at taken
  | scheduled cpu =>
    simp only [step] at taken
    split at taken
    · obtain ⟨⟨t, ret, s1⟩, ran, rfl⟩ := Option.map_eq_some_iff.mp taken
      exact return_inv inv ran
    · split at taken
      · simp at taken
      · obtain ⟨⟨t, ret, s1⟩, ran, rfl⟩ := Option.map_eq_some_iff.mp taken
        exact return_inv inv ran
    · simp at taken
  | waitSection cpu sem =>
    simp only [step] at taken
    split at taken
    · exact sem_inv inv (sem_wait_effect taken)
    · simp at taken
  | waitReread cpu =>
    simp only [step] at taken
    split at taken
    · simp only [Option.some.injEq] at taken
      subst taken
      exact pc_inv inv _ _
    · simp at taken
  | waitYield cpu c =>
    simp only [step] at taken
    split at taken
    · exact trap_inv (pc_inv inv _ _) (trap_effect taken)
    · simp at taken
  | waitReturn cpu =>
    simp only [step] at taken
    split at taken
    · simp only [Option.some.injEq] at taken
      subst taken
      exact pc_inv inv _ _
    · simp at taken
  | signal sem r => exact sem_inv inv (sem_signal_effect taken)

theorem init_inv (value : Nat → Nat) : SchedInv (kmtInit value) := by
  have owned : ∀ c t, Owns (kmtInit value) c t → t = .idle c ∨ t = .null := by
    rintro c t (rfl | rfl)
    · exact Or.inl rfl
    · exact Or.inr rfl
  have empty : ∀ i, ¬ Listed (kmtInit value) i := fun i ⟨first, last⟩ => by
    simp only [kmtInit] at last
    omega
  refine ⟨fun i h => absurd h (empty i), fun i h => absurd h (empty i), fun _ => rfl,
    fun _ => by simp [kmtInit, State.current], fun c t owns => ?_, fun c d i hc _ => ?_,
    fun c i owns => ?_⟩
  · rcases owned c t owns with rfl | rfl
    · exact Or.inr (Or.inl rfl)
    · exact Or.inl rfl
  · simpa using owned c _ hc
  · simpa using owned c _ owns

theorem create_inv (inv : SchedInv s) (entry : Nat) : SchedInv (kmtCreate s entry) := by
  have more : ∀ i, Listed s i → Listed (kmtCreate s entry) i := fun i ⟨first, last⟩ =>
    ⟨first, by simp only [kmtCreate]; omega⟩
  have older : ∀ i, Listed s i → TaskPtr.task i ≠ .task s.taskCnt := fun i ⟨_, last⟩ h => by
    have := TaskPtr.task.inj h
    omega
  have last : ∀ i, Listed (kmtCreate s entry) i → i = s.taskCnt ∨ Listed s i := by
    rintro i ⟨first, bound⟩
    simp only [kmtCreate] at bound
    by_cases new : i = s.taskCnt
    · exact Or.inl new
    · exact Or.inr ⟨first, by omega⟩
  refine ⟨fun i h => ?_, fun i h => ?_, inv.idle, inv.real, fun c t owns => ?_, inv.once,
    fun c i owns => ?_⟩
  · rcases last i h with rfl | old
    · simp [kmtCreate]
    · have : i ≠ s.taskCnt := fun e => older i old (e ▸ rfl)
      simpa [kmtCreate, this] using inv.list i old
  · rcases last i h with rfl | old
    · simp [kmtCreate]
    · simpa [kmtCreate, older i old] using inv.pids i old
  · rcases inv.known c t owns with null | idle | ⟨i, listed, rfl⟩
    · exact Or.inl null
    · exact Or.inr (Or.inl idle)
    · exact Or.inr (Or.inr ⟨i, more i listed, rfl⟩)
  · rcases inv.known c _ owns with null | idle | ⟨j, listed, same⟩
    · simp at null
    · simp at idle
    · obtain rfl := TaskPtr.task.inj same
      simpa [kmtCreate, older _ listed] using inv.running c _ owns

theorem create_tasks_inv (inv : SchedInv s) (entries : List Nat) :
    SchedInv (createTasks s entries) := by
  induction entries generalizing s with
  | nil => exact inv
  | cons entry rest ih => exact ih (create_inv inv entry)

/-- No task is current on two CPUs, and a task a CPU still refers to is flagged. -/
structure Exclusive (s : State) : Prop where
  once : ∀ c d i, s.current c = .task i → s.current d = .task i → c = d
  running : ∀ c i, s.current c = .task i ∨ s.save c = .task i →
    (s.tasks (.task i)).isRunning = true

/-- kmt_schedule picks no task of another CPU and resumes no blocked task. -/
def SchedulesWell (s : State) : Event → Prop
  | .examine cpu r => ∀ s', step s (.examine cpu r) = some s' → s'.mode cpu = .picked →
      ∀ d, d ≠ cpu → s.current d ≠ s'.current cpu ∧ s.save d ≠ s'.current cpu
  | .scheduled cpu => ∀ s', step s (.scheduled cpu) = some s' →
      (s'.tasks (s'.current cpu)).block = false
  | _ => True

theorem exclusive_of_inv (inv : SchedInv s) : Exclusive s :=
  ⟨fun c d i hc hd => inv.once c d i (Or.inl hc) (Or.inl hd), inv.running⟩

theorem picks_unowned {i r d : Nat} (inv : SchedInv s)
    (ran : kmtScheduleExamine s cpu i r = some s') (picked : s'.mode cpu = .picked)
    (other : d ≠ cpu) : s.current d ≠ s'.current cpu ∧ s.save d ≠ s'.current cpu := by
  obtain ⟨k, first, last, _, outcome⟩ := examine_cases ran
  have listed : Listed s k := ⟨first, last⟩
  rw [inv.list k listed] at outcome
  have mine : ¬ Owns s d (.task k) ∧ s'.current cpu = .task k := by
    rcases outcome with rfl | ⟨own, _, rfl⟩ | ⟨_, free, _, rfl⟩
    · simp [State.setMode] at picked
    · refine ⟨fun owns => other (inv.once d cpu k owns (Or.inl own.symm)), ?_⟩
      simpa using own.symm
    · refine ⟨fun owns => ?_, by simp⟩
      have := inv.running d k owns
      rw [free] at this
      exact Bool.false_ne_true this
  rw [mine.2]
  exact not_or.mp mine.1

theorem resumed_open {fineTask : Bool} {t : TaskPtr} {ret : Context}
    (ran : kmtScheduleReturn s cpu fineTask = some (t, ret, s')) :
    (s'.tasks (s'.current cpu)).block = false := by
  obtain ⟨rfl, rfl, open_⟩ := schedule_return_cases ran
  cases fineTask with
  | true => simpa using open_
  | false => simpa using open_

theorem schedules_well_of_inv {e : Event} (inv : SchedInv s) : SchedulesWell s e := by
  cases e with
  | examine cpu r =>
    intro s' taken picked d other
    simp only [step] at taken
    split at taken
    · split at taken
      · exact picks_unowned inv taken picked other
      · simp at taken
    · simp at taken
  | scheduled cpu =>
    intro s' taken
    simp only [step] at taken
    split at taken
    · obtain ⟨⟨t, ret, s1⟩, ran, rfl⟩ := Option.map_eq_some_iff.mp taken
      exact resumed_open ran
    · split at taken
      · simp at taken
      · obtain ⟨⟨t, ret, s1⟩, ran, rfl⟩ := Option.map_eq_some_iff.mp taken
        exact resumed_open ran
    · simp at taken
  | _ => trivial

/-- Any traps, candidates, waits and signals on any CPUs after the tasks are created. -/
theorem scheduler_exclusive (value : Nat → Nat) (entries : List Nat) (events : List Event) :
    Throughout step Exclusive (createTasks (kmtInit value) entries) events ∧
      EachStep step SchedulesWell (createTasks (kmtInit value) entries) events := by
  have start : SchedInv (createTasks (kmtInit value) entries) :=
    create_tasks_inv (init_inv value) entries
  have preserved : ∀ s e s', SchedInv s → step s e = some s' → SchedInv s' :=
    fun s e s' inv taken => step_inv inv taken
  exact ⟨throughout_of_invariant preserved (fun s inv => exclusive_of_inv inv) events start,
    each_step_of_invariant preserved (fun s e inv => schedules_well_of_inv inv) events start⟩

end Kmt
