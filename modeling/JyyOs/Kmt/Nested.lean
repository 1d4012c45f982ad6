import JyyOs.Kmt.Exclusive

/-!
Nested traps: system calls raise nested_interrupt and may be interrupted. `saved` records the
contexts saved for a task and not yet resumed, the latest first. os_trap calls syscall before
kmt_context_save and returns the frame of the call itself.
-/
namespace Kmt

open PartialRun

structure Nested where
  kmt : State
  inSyscall : TaskPtr → Option Nat
  saved : TaskPtr → List Nat

inductive NestedEvent where
  | kmt (e : Event)
  | syscall (cpu c : Nat)
  | sysret (cpu : Nat)

def Nested.push (n : Nested) (t : TaskPtr) (c : Nat) : Nested :=
  { n with saved := Function.update n.saved t (c :: n.saved t) }

def Nested.pop (n : Nested) (t : TaskPtr) : Nested :=
  { n with saved := Function.update n.saved t (n.saved t).tail }

def Nested.record (n : Nested) (s' : State) : Event → Nested
  | .trap cpu c | .waitYield cpu c => { n.push (n.kmt.current cpu) c with kmt := s' }
  | .scheduled cpu => { n.pop (s'.current cpu) with kmt := s' }
  | _ => { n with kmt := s' }

def nest (s : State) (t : TaskPtr) (amount : Int) : State :=
  s.setTask t { s.tasks t with nestedInterrupt := (s.tasks t).nestedInterrupt + amount }

def nestedStep (n : Nested) : NestedEvent → Option Nested
  | .kmt e => (step n.kmt e).map fun s' => n.record s' e
  | .syscall cpu c =>
    let t := n.kmt.current cpu
    if n.kmt.mode cpu = .running ∧ n.kmt.pc t = .outside ∧ n.inSyscall t = none ∧
        0 < (n.kmt.tasks t).pid then
      some { n.push t c with
        kmt := nest n.kmt t 1
        inSyscall := Function.update n.inSyscall t (some c) }
    else none
  | .sysret cpu =>
    let t := n.kmt.current cpu
    if n.kmt.mode cpu = .running ∧ n.kmt.pc t = .outside ∧ n.inSyscall t ≠ none then
      some { n.pop t with
        kmt := nest n.kmt t (-1)
        inSyscall := Function.update n.inSyscall t none }
    else none

/-- The task and the context kmt_schedule is about to return on `cpu`. -/
def resuming (s : State) (cpu : Nat) : Option (TaskPtr × Context) :=
  match s.mode cpu with
  | .picked => (kmtScheduleReturn s cpu true).map fun r => (r.1, r.2.1)
  | .examining i =>
    if i < s.taskCnt * 10 then none
    else (kmtScheduleReturn s cpu false).map fun r => (r.1, r.2.1)
  | .running => none

/-- A resumed task gets the context saved last for it. -/
def ResumesLatest (n : Nested) : NestedEvent → Prop
  | .kmt (.scheduled cpu) => ∀ t ret, resuming n.kmt cpu = some (t, ret) →
      ret ≠ none ∧ (n.saved t).head? = ret
  | .sysret cpu => ∀ n', nestedStep n (.sysret cpu) = some n' →
      (n.saved (n.kmt.current cpu)).head? = n.inSyscall (n.kmt.current cpu)
  | _ => True

def IndexOk (task : Task) : Prop := 0 ≤ task.nestedInterrupt ∧ task.nestedInterrupt < 2

/-- The indices into context[] and the assertion of kmt_context_save. -/
structure ContextsSafe (s : State) : Prop where
  stores : ∀ cpu, s.mode cpu = .running → 0 < (s.tasks (s.current cpu)).pid →
    IndexOk (s.tasks (s.current cpu))
  asserts : ∀ cpu t, s.mode cpu = .running → Released s cpu t →
    0 ≤ (s.tasks t).nestedInterrupt - 1 ∧ (s.tasks t).nestedInterrupt - 1 < 3
  reads : ∀ cpu, s.mode cpu = .picked → IndexOk (s.tasks (s.current cpu))
  idleReads : ∀ cpu, IndexOk (s.tasks (s.cpuList cpu).idleTask)
  saves : ∀ cpu c, s.mode cpu = .running → (kmtContextSave s cpu c).isSome = true

section Places

def Nested.calls (n : Nested) (t : TaskPtr) : List Nat := (n.inSyscall t).toList

/-- `t` runs: nothing but its system call waits for being resumed. -/
structure Runs (n : Nested) (t : TaskPtr) : Prop where
  depth : (n.kmt.tasks t).nestedInterrupt = (n.calls t).length
  saved : n.saved t = n.calls t

/-- `t` does not run; nested_interrupt is `extra` above the slot of its latest context. -/
structure Waits (n : Nested) (t : TaskPtr) (extra : Int) : Prop where
  depth : (n.kmt.tasks t).nestedInterrupt = (n.calls t).length + extra
  saved : ∃ c, n.saved t = c :: n.calls t ∧
    (n.kmt.tasks t).context (n.calls t).length = some c

structure IdleOk (n : Nested) (cpu : Nat) : Prop where
  fields : (n.kmt.tasks (.idle cpu)).pid = 0 ∧
    (n.kmt.tasks (.idle cpu)).nestedInterrupt = 0 ∧ n.inSyscall (.idle cpu) = none
  running : n.kmt.current cpu = .idle cpu → n.kmt.mode cpu = .running → n.saved (.idle cpu) = []
  waiting : n.kmt.current cpu ≠ .idle cpu ∨ n.kmt.mode cpu ≠ .running →
    ∃ c, n.saved (.idle cpu) = [c] ∧ (n.kmt.tasks (.idle cpu)).context 0 = some c

structure NestInv (n : Nested) : Prop where
  sched : SchedInv n.kmt
  trapped : ∀ c i, n.kmt.mode c = .examining i → n.kmt.save c = n.kmt.current c
  listed : ∀ c, n.kmt.mode c = .picked → ∃ i, Listed n.kmt i ∧ n.kmt.current c = .task i
  running : ∀ c i, n.kmt.current c = .task i → n.kmt.mode c = .running → Runs n (.task i)
  picked : ∀ c i, n.kmt.current c = .task i → n.kmt.mode c = .picked → Waits n (.task i) 0
  kept : ∀ c i, n.kmt.save c = .task i →
    (n.kmt.current c = .task i → ∃ k, n.kmt.mode c = .examining k) → Waits n (.task i) 1
  free : ∀ i, Listed n.kmt i → (∀ c, ¬Owns n.kmt c (.task i)) → Waits n (.task i) 0
  idle : ∀ c, IdleOk n c

end Places

section Frame

variable {n n' : Nested} {t : TaskPtr} {cpu : Nat}

structure SameTask (n n' : Nested) (t : TaskPtr) : Prop where
  nested : (n'.kmt.tasks t).nestedInterrupt = (n.kmt.tasks t).nestedInterrupt
  context : (n'.kmt.tasks t).context = (n.kmt.tasks t).context
  pid : (n'.kmt.tasks t).pid = (n.kmt.tasks t).pid
  saved : n'.saved t = n.saved t
  inSyscall : n'.inSyscall t = n.inSyscall t

theorem SameTask.calls (same : SameTask n n' t) : n'.calls t = n.calls t := by
  rw [Nested.calls, same.inSyscall, Nested.calls]

theorem SameTask.runs (same : SameTask n n' t) (h : Runs n t) : Runs n' t := by
  refine ⟨?_, ?_⟩
  · rw [same.nested, same.calls]
    exact h.depth
  · rw [same.saved, same.calls]
    exact h.saved

theorem SameTask.waits {extra : Int} (same : SameTask n n' t) (h : Waits n t extra) :
    Waits n' t extra := by
  obtain ⟨depth, c, saved, context⟩ := h
  refine ⟨?_, c, ?_, ?_⟩
  · rw [same.nested, same.calls]
    exact depth
  · rw [same.saved, same.calls]
    exact saved
  · rw [same.context, same.calls]
    exact context

theorem SameTask.idle (same : SameTask n n' (.idle cpu)) (h : IdleOk n cpu)
    (current : n'.kmt.current cpu = .idle cpu → n'.kmt.mode cpu = .running →
      n.kmt.current cpu = .idle cpu ∧ n.kmt.mode cpu = .running)
    (other : n'.kmt.current cpu ≠ .idle cpu ∨ n'.kmt.mode cpu ≠ .running →
      n.kmt.current cpu ≠ .idle cpu ∨ n.kmt.mode cpu ≠ .running) : IdleOk n' cpu := by
  obtain ⟨⟨pid, nested, outside⟩, running, waiting⟩ := h
  refine ⟨⟨same.pid.trans pid, same.nested.trans nested, same.inSyscall.trans outside⟩,
    fun here mode => ?_, fun away => ?_⟩
  · obtain ⟨here, mode⟩ := current here mode
    rw [same.saved]
    exact running here mode
  · rw [same.saved, same.context]
    exact waiting (other away)

theorem NestInv.quiet (inv : NestInv n) (sched : SchedInv n'.kmt)
    (list : n'.kmt.cpuList = n.kmt.cpuList) (mode : n'.kmt.mode = n.kmt.mode)
    (cnt : n'.kmt.taskCnt = n.kmt.taskCnt) (same : ∀ t, SameTask n n' t) : NestInv n' := by
  have current : ∀ c, n'.kmt.current c = n.kmt.current c := fun c => by
    rw [State.current, list, State.current]
  have save : ∀ c, n'.kmt.save c = n.kmt.save c := fun c => by rw [State.save, list, State.save]
  have listed : ∀ i, Listed n'.kmt i ↔ Listed n.kmt i := fun i => by rw [Listed, cnt, Listed]
  refine ⟨sched, fun c i h => ?_, fun c h => ?_, fun c i here h => ?_, fun c i here h => ?_,
    fun c i here h => ?_, fun i h nobody => ?_, fun c => ?_⟩
  · rw [mode] at h
    rw [save, current]
    exact inv.trapped c i h
  · rw [mode] at h
    simp only [listed, current]
    exact inv.listed c h
  · rw [current] at here
    rw [mode] at h
    exact (same _).runs (inv.running c i here h)
  · rw [current] at here
    rw [mode] at h
    exact (same _).waits (inv.picked c i here h)
  · rw [save] at here
    rw [current, mode] at h
    exact (same _).waits (inv.kept c i here h)
  · simp only [Owns, current, save] at nobody
    exact (same _).waits (inv.free i ((listed i).mp h) nobody)
  · refine (same _).idle (inv.idle c) ?_ ?_
    · rw [current, mode]
      exact fun here h => ⟨here, h⟩
    · rw [current, mode]
      exact id

end Frame

section Trap

variable {n : Nested} {s s' : State} {cpu c : Nat}

theorem trap_tasks (ran : enterTrap s cpu c = some s') :
    saveContext (s.tasks (s.current cpu)) (some c) = some (s'.tasks (s.current cpu)) ∧
    (∀ v, v ≠ s.current cpu → ¬Released s cpu v → s'.tasks v = s.tasks v) ∧
    ∀ v, Released s cpu v → (s'.tasks v).context = (s.tasks v).context ∧
      (s'.tasks v).nestedInterrupt = (s.tasks v).nestedInterrupt - 1 := by
  obtain ⟨s1, saved, entered⟩ := Option.map_eq_some_iff.mp ran
  obtain ⟨_, task, stored, outcome⟩ := context_save_cases saved
  have tasks : s'.tasks = s1.tasks := by
    rw [← entered, kmtScheduleEnter]
    split <;> rfl
  rw [tasks]
  rcases outcome with ⟨keep, rfl⟩ | ⟨release, free, freed, rfl⟩
  · refine ⟨?_, fun v other _ => ?_, fun v release => absurd (release.1 ▸ release) keep⟩
    · simp only [tasks_set_save, State.setTask, Function.update_self]
      exact stored
    · rw [tasks_set_save]
      exact Function.update_of_ne other ..
  · have notCur : s.current cpu ≠ s.save cpu := Ne.symm release.2.2.1
    refine ⟨?_, fun v other kept => ?_, fun v released => ?_⟩
    · simp only [tasks_set_save, State.setTask, Function.update_of_ne notCur,
        Function.update_self]
      exact stored
    · have apart : v ≠ s.save cpu := fun same => kept (same ▸ release)
      simp only [tasks_set_save, State.setTask, Function.update_of_ne apart,
        Function.update_of_ne other]
    · obtain rfl := released.1
      simp only [releaseTask] at freed
      split at freed
      · cases freed
        simp [State.setTask]
      · cases freed

theorem save_context_task {task task' : Task} {x : Context}
    (saved : saveContext task x = some task') (real : 0 < task.pid) :
    task'.context = Function.update task.context task.nestedInterrupt.toNat x ∧
      task'.nestedInterrupt = task.nestedInterrupt + 1 := by
  rw [saveContext, if_pos real] at saved
  split at saved
  · cases saved
    exact ⟨rfl, rfl⟩
  · cases saved

theorem Runs.trapped {i : Nat} {task : Task} (runs : Runs n (.task i))
    (real : 0 < (n.kmt.tasks (.task i)).pid)
    (saved : saveContext (n.kmt.tasks (.task i)) (some c) = some task) {n' : Nested}
    (here : n'.kmt.tasks (.task i) = task) (pushed : n'.saved (.task i) = c :: n.saved (.task i))
    (calls : n'.calls (.task i) = n.calls (.task i)) : Waits n' (.task i) 1 := by
  obtain ⟨context, nested⟩ := save_context_task saved real
  refine ⟨?_, c, ?_, ?_⟩
  · rw [here, nested, runs.depth, calls]
  · rw [pushed, runs.saved, calls]
  · rw [here, context, runs.depth, calls, Int.toNat_natCast, Function.update_self]

theorem SchedInv.pid_positive {s : State} (inv : SchedInv s) {d j : Nat}
    (owns : Owns s d (.task j)) : 0 < (s.tasks (.task j)).pid ∧ Listed s j := by
  rcases inv.known d _ owns with null | idle | ⟨k, h, same⟩
  · cases null
  · cases idle
  · cases same
    rw [inv.pids j h]
    exact ⟨h.1, h⟩

theorem trap_same (ran : enterTrap n.kmt cpu c = some s') {v : TaskPtr}
    (other : v ≠ n.kmt.current cpu) (kept : ¬Released n.kmt cpu v) :
    SameTask n { n.push (n.kmt.current cpu) c with kmt := s' } v := by
  have here := (trap_tasks ran).2.1 v other kept
  exact ⟨by simp only [here], by simp only [here], by simp only [here],
    Function.update_of_ne other .., rfl⟩

/-- The released task waits for being picked. -/
theorem NestInv.trap_released (inv : NestInv n) (ran : enterTrap n.kmt cpu c = some s')
    (listed : Listed n.kmt i) (left : n.kmt.save cpu = .task i)
    (away : TaskPtr.task i ≠ n.kmt.current cpu) :
    Waits { n.push (n.kmt.current cpu) c with kmt := s' } (.task i) 0 := by
  have positive : 0 < (n.kmt.tasks (.task i)).pid := by
    rw [inv.sched.pids i listed]
    exact listed.1
  have release : Released n.kmt cpu (.task i) := ⟨left, nofun, away, positive⟩
  obtain ⟨context, nested⟩ := (trap_tasks ran).2.2 _ release
  obtain ⟨depth, f, saved, slot⟩ := inv.kept cpu i left fun here => absurd here.symm away
  refine ⟨?_, f, ?_, ?_⟩
  · simp only [nested, depth]
    exact Int.add_sub_cancel ..
  · exact (Function.update_of_ne away ..).trans saved
  · simp only [context]
    exact slot

theorem NestInv.trap_idle (inv : NestInv n) (mode : n.kmt.mode cpu = .running)
    (ran : enterTrap n.kmt cpu c = some s') (d : Nat) :
    IdleOk { n.push (n.kmt.current cpu) c with kmt := s' } d := by
  have effect := trap_effect ran
  have stored := (trap_tasks ran).1
  obtain ⟨⟨pid, nested, outside⟩, running, waiting⟩ := inv.idle d
  by_cases trapped : TaskPtr.idle d = n.kmt.current cpu
  · have at_cpu : d = cpu := by
      rcases inv.sched.known cpu _ (.inl trapped.symm) with null | idle | ⟨j, _, task⟩
      · cases null
      · cases idle
        rfl
      · cases task
    subst at_cpu
    rw [← trapped, saveContext, if_neg (by omega)] at stored
    have here := Option.some.inj stored
    have none_saved := running trapped.symm mode
    refine ⟨⟨by simp only [← here]; exact pid, by simp only [← here]; exact nested, outside⟩,
      fun _ h => ?_, fun _ => ⟨c, ?_, ?_⟩⟩
    · rw [effect.mode, Function.update_self] at h
      cases h
    · simp [Nested.push, ← trapped, none_saved]
    · simp only [← here, Function.update_self]
  · have unreleased : ¬Released n.kmt cpu (.idle d) := by
      intro release
      have positive := release.2.2.2
      omega
    apply (trap_same ran trapped unreleased).idle (inv.idle d)
    · simp only [effect.current]
      intro here h
      by_cases at_cpu : d = cpu
      · subst at_cpu
        exact absurd here.symm trapped
      · rw [effect.mode, Function.update_of_ne at_cpu] at h
        exact ⟨here, h⟩
    · simp only [effect.current]
      rintro (away | h)
      · exact .inl away
      · by_cases at_cpu : d = cpu
        · subst at_cpu
          exact .inl (Ne.symm trapped)
        · rw [effect.mode, Function.update_of_ne at_cpu] at h
          exact .inr h

theorem NestInv.trap (inv : NestInv n) (mode : n.kmt.mode cpu = .running)
    (ran : enterTrap n.kmt cpu c = some s') :
    NestInv { n.push (n.kmt.current cpu) c with kmt := s' } := by
  have effect := trap_effect ran
  have sched := inv.sched
  have listed : ∀ i, Listed s' i ↔ Listed n.kmt i := fun i => listed_steady effect.steady
  have mode_other : ∀ d, d ≠ cpu → s'.mode d = n.kmt.mode d := fun d other => by
    rw [effect.mode, Function.update_of_ne other]
  have mode_here : s'.mode cpu = .examining 0 := by rw [effect.mode, Function.update_self]
  -- a task another CPU owns is neither the trapped nor the released one
  have elsewhere : ∀ d i, d ≠ cpu → Owns n.kmt d (.task i) →
      SameTask n { n.push (n.kmt.current cpu) c with kmt := s' } (.task i) := by
    intro d i ne owns
    refine trap_same ran (fun here => ?_) fun release => ?_
    · exact ne (sched.once d cpu i owns (.inl here.symm))
    · exact ne (sched.once d cpu i owns (.inr release.1))
  refine ⟨trap_inv sched effect, fun d i h => ?_, fun d h => ?_, fun d i here h => ?_,
    fun d i here h => ?_, fun d i here h => ?_, fun i h nobody => ?_, inv.trap_idle mode ran⟩
  · by_cases at_cpu : d = cpu
    · subst at_cpu
      simp only [effect.save, if_pos, effect.current]
    · simp only [mode_other d at_cpu] at h
      simp only [effect.save, if_neg at_cpu, effect.current]
      exact inv.trapped d i h
  · by_cases at_cpu : d = cpu
    · subst at_cpu
      rw [mode_here] at h
      cases h
    · simp only [mode_other d at_cpu] at h
      simp only [listed, effect.current]
      exact inv.listed d h
  · by_cases at_cpu : d = cpu
    · subst at_cpu
      rw [mode_here] at h
      cases h
    · simp only [mode_other d at_cpu] at h
      simp only [effect.current] at here
      exact (elsewhere d i at_cpu (.inl here)).runs (inv.running d i here h)
  · by_cases at_cpu : d = cpu
    · subst at_cpu
      rw [mode_here] at h
      cases h
    · simp only [mode_other d at_cpu] at h
      simp only [effect.current] at here
      exact (elsewhere d i at_cpu (.inl here)).waits (inv.picked d i here h)
  · simp only [effect.save] at here
    by_cases at_cpu : d = cpu
    · subst at_cpu
      rw [if_pos rfl] at here
      have stored := (trap_tasks ran).1
      have runs := inv.running d i here mode
      have positive := (sched.pid_positive (.inl here)).1
      rw [here] at stored
      refine runs.trapped positive stored rfl ?_ rfl
      simp [Nested.push, here]
    · rw [if_neg at_cpu] at here
      simp only [effect.current, mode_other d at_cpu] at h
      exact (elsewhere d i at_cpu (.inr here)).waits (inv.kept d i here h)
  · have h' := (listed i).mp h
    by_cases left : n.kmt.save cpu = .task i
    · refine inv.trap_released ran h' left fun here => ?_
      refine nobody cpu (.inl ?_)
      simp only [effect.current]
      exact here.symm
    · have apart : ∀ d, ¬Owns n.kmt d (.task i) := by
        rintro d (here | saved)
        · exact nobody d (.inl ((effect.current d).trans here))
        · by_cases at_cpu : d = cpu
          · exact left (at_cpu ▸ saved)
          · refine nobody d (.inr ?_)
            simp only [effect.save, if_neg at_cpu]
            exact saved
      apply (trap_same ran (fun here => apart cpu (.inl here.symm)) fun release => ?_).waits
        (inv.free i h' apart)
      exact left release.1

end Trap

end Kmt
