import JyyOs.Kmt.Nested

/-!
Saved contexts through kmt_schedule and system calls, and over whole runs: they stay in slots
0 and 1 and the latest one is resumed.
-/
namespace Kmt

open PartialRun

section Schedule

variable {n : Nested} {s' : State} {cpu i r : Nat}

/-- What a step of kmt_schedule on `cpu` has to show; all other CPUs and tasks stay. -/
theorem NestInv.scheduling {n' : Nested} (inv : NestInv n) (cpu : Nat) (sched : SchedInv n'.kmt)
    (cnt : n'.kmt.taskCnt = n.kmt.taskCnt)
    (save : ∀ d, n'.kmt.save d = n.kmt.save d)
    (current : ∀ d, d ≠ cpu → n'.kmt.current d = n.kmt.current d)
    (mode : ∀ d, d ≠ cpu → n'.kmt.mode d = n.kmt.mode d)
    (same : ∀ v, v ≠ n'.kmt.current cpu → SameTask n n' v)
    (unowned : ∀ v d, d ≠ cpu → Owns n.kmt d v → v ≠ .null → v ≠ n'.kmt.current cpu)
    (trapped : ∀ k, n'.kmt.mode cpu = .examining k → n'.kmt.save cpu = n'.kmt.current cpu)
    (listed : n'.kmt.mode cpu = .picked → ∃ j, Listed n'.kmt j ∧ n'.kmt.current cpu = .task j)
    (running : ∀ j, n'.kmt.current cpu = .task j → n'.kmt.mode cpu = .running →
      Runs n' (.task j))
    (picked : ∀ j, n'.kmt.current cpu = .task j → n'.kmt.mode cpu = .picked →
      Waits n' (.task j) 0)
    (kept : ∀ j, n'.kmt.save cpu = .task j →
      (n'.kmt.current cpu = .task j → ∃ k, n'.kmt.mode cpu = .examining k) → Waits n' (.task j) 1)
    (free : ∀ j, Listed n.kmt j → (∀ d, ¬Owns n'.kmt d (.task j)) → ∀ d, ¬Owns n.kmt d (.task j))
    (idle : ∀ d, IdleOk n' d) : NestInv n' := by
  have same_listed : ∀ j, Listed n'.kmt j ↔ Listed n.kmt j := fun j => by rw [Listed, cnt, Listed]
  have elsewhere : ∀ d j, d ≠ cpu → Owns n.kmt d (.task j) → SameTask n n' (.task j) :=
    fun d j ne owns => same _ (unowned _ d ne owns (by simp))
  refine ⟨sched, fun d k h => ?_, fun d h => ?_, fun d j here h => ?_, fun d j here h => ?_,
    fun d j here h => ?_, fun j h nobody => ?_, idle⟩ <;> try by_cases at_cpu : d = cpu
  · subst at_cpu
    exact trapped k h
  · rw [mode d at_cpu] at h
    rw [save, current d at_cpu]
    exact inv.trapped d k h
  · subst at_cpu
    exact listed h
  · rw [mode d at_cpu] at h
    simp only [same_listed, current d at_cpu]
    exact inv.listed d h
  · subst at_cpu
    exact running j here h
  · rw [current d at_cpu] at here
    rw [mode d at_cpu] at h
    exact (elsewhere d j at_cpu (.inl here)).runs (inv.running d j here h)
  · subst at_cpu
    exact picked j here h
  · rw [current d at_cpu] at here
    rw [mode d at_cpu] at h
    exact (elsewhere d j at_cpu (.inl here)).waits (inv.picked d j here h)
  · subst at_cpu
    exact kept j here h
  · rw [save] at here
    rw [current d at_cpu, mode d at_cpu] at h
    exact (elsewhere d j at_cpu (.inr here)).waits (inv.kept d j here h)
  · have away : TaskPtr.task j ≠ n'.kmt.current cpu := fun here => nobody cpu (.inl here.symm)
    have h' := (same_listed j).mp h
    exact (same _ away).waits (inv.free j h' (free j h' nobody))

theorem SchedInv.unowned {s : State} (inv : SchedInv s) {v : TaskPtr} {d : Nat} (ne : d ≠ cpu)
    (owns : Owns s d v) (real : v ≠ .null) : v ≠ s.current cpu := by
  rintro rfl
  rcases inv.known d _ owns with null | idle | ⟨j, _, task⟩
  · exact real null
  · rcases inv.known cpu _ (.inl rfl) with null | idle' | ⟨j, _, task⟩
    · exact real null
    · rw [idle] at idle'
      cases idle'
      exact ne rfl
    · rw [idle] at task
      cases task
  · rw [task] at owns
    exact ne (inv.once d cpu j owns (.inl task))

theorem mode_set_mode {s : State} {m : Mode} {d : Nat} (ne : d ≠ cpu) :
    (s.setMode cpu m).mode d = s.mode d := Function.update_of_ne ne ..

@[simp] theorem mode_set_mode_here {s : State} {m : Mode} : (s.setMode cpu m).mode cpu = m :=
  Function.update_self ..

theorem NestInv.idle_kept {n' : Nested} (inv : NestInv n)
    (same : ∀ d, SameTask n n' (.idle d)) (current : ∀ d, d ≠ cpu → n'.kmt.current d =
      n.kmt.current d) (mode : ∀ d, d ≠ cpu → n'.kmt.mode d = n.kmt.mode d)
    (busy : n.kmt.mode cpu ≠ .running) (busy' : n'.kmt.mode cpu ≠ .running) (d : Nat) :
    IdleOk n' d := by
  refine (same d).idle (inv.idle d) (fun here h => ?_) fun away => ?_
  · by_cases at_cpu : d = cpu
    · exact absurd (at_cpu ▸ h) busy'
    · rw [current d at_cpu] at here
      rw [mode d at_cpu] at h
      exact ⟨here, h⟩
  · by_cases at_cpu : d = cpu
    · exact .inr (at_cpu ▸ busy)
    · rwa [current d at_cpu, mode d at_cpu] at away

theorem NestInv.passed (inv : NestInv n) (mode : n.kmt.mode cpu = .examining i) :
    NestInv { n with kmt := n.kmt.setMode cpu (.examining (i + 1)) } := by
  have same : ∀ v, SameTask n { n with kmt := n.kmt.setMode cpu (.examining (i + 1)) } v :=
    fun _ => ⟨rfl, rfl, rfl, rfl, rfl⟩
  refine inv.scheduling cpu (mode_inv inv.sched _) rfl (fun _ => rfl) (fun _ _ => rfl)
    (fun d ne => mode_set_mode ne) (fun v _ => same v)
    (fun v d ne owns real => inv.sched.unowned ne owns real) (fun k _ => inv.trapped cpu i mode)
    (fun h => ?_) (fun j _ h => ?_) (fun j _ h => ?_) (fun j here _ => ?_) (fun j _ => id) ?_
  · simp at h
  · simp at h
  · simp at h
  · exact (same _).waits (inv.kept cpu j here fun _ => ⟨i, mode⟩)
  · exact inv.idle_kept (fun d => same _) (fun _ _ => rfl) (fun d ne => mode_set_mode ne)
      (by simp [mode]) (by simp)

theorem NestInv.repicked {k : Nat} (inv : NestInv n) (mode : n.kmt.mode cpu = .examining i)
    (own : .task k = n.kmt.current cpu) :
    NestInv { n with kmt := (n.kmt.setTask (.task k) { n.kmt.tasks (.task k) with
      nestedInterrupt := (n.kmt.tasks (.task k)).nestedInterrupt - 1 }).setMode cpu .picked } := by
  have saved : n.kmt.save cpu = .task k := (inv.trapped cpu i mode).trans own.symm
  have waits := inv.kept cpu k saved fun _ => ⟨i, mode⟩
  have listed := (inv.sched.pid_positive (.inl own.symm)).2
  have same : ∀ v, v ≠ .task k → SameTask n { n with
      kmt := (n.kmt.setTask (.task k) { n.kmt.tasks (.task k) with
        nestedInterrupt := (n.kmt.tasks (.task k)).nestedInterrupt - 1 }).setMode cpu .picked }
      v := by
    intro v other
    constructor <;> simp [State.setTask, Function.update_of_ne other]
  refine inv.scheduling cpu (mode_inv (nested_inv inv.sched _ _) _) rfl (fun _ => rfl)
    (fun _ _ => rfl) (fun d ne => mode_set_mode ne)
    (fun v ne => same v fun here => ne (here.trans own))
    (fun v d ne owns real => inv.sched.unowned ne owns real) (fun k h => ?_)
    (fun _ => ⟨k, listed, own.symm⟩) (fun j _ h => ?_) (fun j here _ => ?_)
    (fun j here h => ?_) (fun j _ => id) ?_
  · simp at h
  · simp at h
  · have task := here.symm.trans own.symm
    cases task
    obtain ⟨depth, f, saved, slot⟩ := waits
    refine ⟨?_, f, saved, ?_⟩
    · simp only [tasks_set_mode, State.setTask, Function.update_self, depth]
      exact Int.add_sub_cancel ..
    · simp only [tasks_set_mode, State.setTask, Function.update_self]
      exact slot
  · have task : TaskPtr.task j = .task k := here.symm.trans saved
    cases task
    obtain ⟨_, h⟩ := h own.symm
    simp at h
  · exact inv.idle_kept (fun d => same _ (by simp)) (fun _ _ => rfl) (fun d ne => mode_set_mode ne)
      (by simp [mode]) (by simp)

theorem NestInv.taken_over {k : Nat} (inv : NestInv n) (mode : n.kmt.mode cpu = .examining i)
    (listed : Listed n.kmt k) (stopped : (n.kmt.tasks (.task k)).isRunning = false) :
    NestInv { n with kmt := ((n.kmt.setTask (.task k) { n.kmt.tasks (.task k) with
      isRunning := true }).setCurrent cpu (.task k)).setMode cpu .picked } := by
  have unowned : ∀ d, ¬Owns n.kmt d (.task k) := fun d owns => by
    have := inv.sched.running d k owns
    rw [stopped] at this
    cases this
  have waits := inv.free k listed unowned
  have same : ∀ v, SameTask n { n with
      kmt := ((n.kmt.setTask (.task k) { n.kmt.tasks (.task k) with
        isRunning := true }).setCurrent cpu (.task k)).setMode cpu .picked } v := by
    intro v
    by_cases here : v = .task k
    · subst here
      constructor <;> simp [State.setTask]
    · constructor <;> simp [State.setTask, Function.update_of_ne here]
  refine inv.scheduling cpu (mode_inv (take_over_inv inv.sched listed stopped) _) rfl
    (fun _ => by simp) (fun d ne => by simp [ne]) (fun d ne => mode_set_mode ne)
    (fun v _ => same v) (fun v d ne owns real => ?_) (fun k h => ?_) (fun _ => ?_)
    (fun j _ h => ?_) (fun j here _ => ?_) (fun j here _ => ?_) (fun j h nobody d owns => ?_) ?_
  · simp only [current_set_mode, current_set_current, if_true]
    rintro rfl
    exact unowned d owns
  · simp at h
  · exact ⟨k, listed, by simp⟩
  · simp at h
  · have task : TaskPtr.task j = .task k := here.symm.trans (by simp)
    cases task
    exact (same _).waits waits
  · have saved : n.kmt.save cpu = .task j := by simpa using here
    exact (same _).waits (inv.kept cpu j saved fun _ => ⟨i, mode⟩)
  · have apart := nobody d
    simp only [Owns, current_set_mode, save_set_mode, current_set_current, save_set_current,
      current_set_task, save_set_task] at apart
    rcases owns with here | saved
    · by_cases at_cpu : d = cpu
      · subst at_cpu
        exact apart (.inr ((inv.trapped d i mode).trans here))
      · rw [if_neg at_cpu] at apart
        exact apart (.inl here)
    · exact apart (.inr saved)
  · exact inv.idle_kept (fun d => same _) (fun d ne => by simp [ne])
      (fun d ne => mode_set_mode ne) (by simp [mode]) (by simp)

theorem saved_pop_other {t v : TaskPtr} (ne : v ≠ t) : (n.pop t).saved v = n.saved v :=
  Function.update_of_ne ne ..

@[simp] theorem saved_pop_here {t : TaskPtr} : (n.pop t).saved t = (n.saved t).tail :=
  Function.update_self ..

theorem Waits.resumed {n' : Nested} {t : TaskPtr} (waits : Waits n t 0)
    (task : n'.kmt.tasks t = n.kmt.tasks t) (saved : n'.saved t = (n.saved t).tail)
    (calls : n'.calls t = n.calls t) : Runs n' t := by
  obtain ⟨depth, f, latest, _⟩ := waits
  refine ⟨?_, ?_⟩
  · rw [task, depth, calls, Int.add_zero]
  · rw [saved, latest, calls, List.tail_cons]

theorem NestInv.resumed (inv : NestInv n) (mode : n.kmt.mode cpu = .picked) :
    NestInv { n.pop (n.kmt.current cpu) with kmt := n.kmt.setMode cpu .running } := by
  obtain ⟨k, listed, here⟩ := inv.listed cpu mode
  have same : ∀ v, v ≠ n.kmt.current cpu →
      SameTask n { n.pop (n.kmt.current cpu) with kmt := n.kmt.setMode cpu .running } v :=
    fun v ne => ⟨rfl, rfl, rfl, saved_pop_other ne, rfl⟩
  refine inv.scheduling cpu (mode_inv inv.sched _) rfl (fun _ => rfl) (fun _ _ => rfl)
    (fun d ne => mode_set_mode ne) same
    (fun v d ne owns real => inv.sched.unowned ne owns real) (fun k h => ?_) (fun h => ?_)
    (fun j current _ => ?_) (fun j _ h => ?_) (fun j saved h => ?_) (fun j _ => id) fun d => ?_
  · simp at h
  · simp at h
  · have waits := inv.picked cpu j current mode
    have current' : n.kmt.current cpu = .task j := current
    exact waits.resumed rfl (by simp [current']) rfl
  · simp at h
  · have away : TaskPtr.task j ≠ n.kmt.current cpu := fun same => by
      obtain ⟨_, h⟩ := h same.symm
      simp at h
    exact (same _ away).waits (inv.kept cpu j saved fun h => absurd h.symm away)
  · have apart : TaskPtr.idle d ≠ n.kmt.current cpu := by
      rw [here]
      exact nofun
    refine (same _ apart).idle (inv.idle d) (fun current h => ?_) fun away => ?_
    · by_cases at_cpu : d = cpu
      · subst at_cpu
        exact absurd current.symm apart
      · exact ⟨current, (mode_set_mode at_cpu).symm.trans h⟩
    · by_cases at_cpu : d = cpu
      · subst at_cpu
        exact .inl (Ne.symm apart)
      · exact away.imp_right fun h h' => h ((mode_set_mode at_cpu).trans h')

theorem NestInv.idled (inv : NestInv n) (mode : n.kmt.mode cpu = .examining i) :
    NestInv { n.pop (.idle cpu) with
      kmt := (n.kmt.setCurrent cpu (.idle cpu)).setMode cpu .running } := by
  have idle_task := inv.sched.idle cpu
  have sched : SchedInv (n.kmt.setCurrent cpu (.idle cpu)) := idle_task ▸ idle_inv inv.sched
  have same : ∀ v, v ≠ .idle cpu → SameTask n { n.pop (.idle cpu) with
      kmt := (n.kmt.setCurrent cpu (.idle cpu)).setMode cpu .running } v :=
    fun v ne => ⟨rfl, rfl, rfl, saved_pop_other ne, rfl⟩
  refine inv.scheduling cpu (mode_inv sched _) rfl (fun _ => by simp)
    (fun d ne => by simp [ne]) (fun d ne => mode_set_mode ne)
    (fun v ne => same v fun h => ne (by simp [h])) (fun v d ne owns real => ?_) (fun k h => ?_)
    (fun h => ?_) (fun j current _ => ?_) (fun j _ h => ?_) (fun j saved _ => ?_)
    (fun j _ nobody d owns => ?_) fun d => ?_
  · simp only [current_set_mode, current_set_current, if_true]
    rintro rfl
    rcases inv.sched.known d _ owns with null | own | ⟨j, _, task⟩
    · cases null
    · cases own
      exact ne rfl
    · cases task
  · simp at h
  · simp at h
  · simp at current
  · simp at h
  · have saved' : n.kmt.save cpu = .task j := by simpa using saved
    exact (same (.task j) nofun).waits (inv.kept cpu j saved' fun _ => ⟨i, mode⟩)
  · have apart := nobody d
    simp only [Owns, current_set_mode, save_set_mode, current_set_current,
      save_set_current] at apart
    rcases owns with here | saved
    · by_cases at_cpu : d = cpu
      · subst at_cpu
        exact apart (.inr ((inv.trapped d i mode).trans here))
      · rw [if_neg at_cpu] at apart
        exact apart (.inl here)
    · exact apart (.inr saved)
  · by_cases at_cpu : d = cpu
    · subst at_cpu
      obtain ⟨fields, _, waiting⟩ := inv.idle d
      obtain ⟨f, saved, _⟩ := waiting (.inr (by simp [mode]))
      refine ⟨fields, fun _ _ => by simp [saved], fun away => ?_⟩
      simp at away
    · have away : TaskPtr.idle d ≠ .idle cpu := fun h => at_cpu (TaskPtr.idle.inj h)
      refine (same _ away).idle (inv.idle d) (fun current h => ?_) fun h => ?_
      · exact ⟨by simpa [at_cpu] using current, (mode_set_mode at_cpu).symm.trans h⟩
      · have modes : (n.kmt.setCurrent cpu (.idle cpu)).mode = n.kmt.mode := rfl
        simpa [at_cpu, mode_set_mode at_cpu, modes] using h

end Schedule

section Syscall

variable {n n' : Nested} {cpu c : Nat}

theorem NestInv.calling {k : Nat} {amount : Int} {saved : TaskPtr → List Nat}
    {inSyscall : TaskPtr → Option Nat} (inv : NestInv n)
    (mode : n.kmt.mode cpu = .running) (here : n.kmt.current cpu = .task k)
    (others : ∀ v, v ≠ .task k → saved v = n.saved v ∧ inSyscall v = n.inSyscall v)
    (runs : Runs ⟨nest n.kmt (.task k) amount, inSyscall, saved⟩ (.task k)) :
    NestInv ⟨nest n.kmt (.task k) amount, inSyscall, saved⟩ := by
  have same : ∀ v, v ≠ .task k →
      SameTask n ⟨nest n.kmt (.task k) amount, inSyscall, saved⟩ v := by
    intro v ne
    have task : (nest n.kmt (.task k) amount).tasks v = n.kmt.tasks v := Function.update_of_ne ne ..
    exact ⟨by simp only [task], by simp only [task], by simp only [task], (others v ne).1,
      (others v ne).2⟩
  refine inv.scheduling cpu (nested_inv inv.sched _ _) rfl (fun _ => rfl)
    (fun _ _ => rfl) (fun _ _ => rfl) (fun v ne => same v fun h => ne (h.trans here.symm))
    (fun v d ne owns real => inv.sched.unowned ne owns real) (fun k h => ?_) (fun h => ?_)
    (fun j current _ => ?_) (fun j _ h => ?_) (fun j saved h => ?_) (fun j _ => id) fun d => ?_
  · rw [show (nest n.kmt (.task _) amount).mode cpu = _ from mode] at h
    cases h
  · rw [show (nest n.kmt (.task _) amount).mode cpu = _ from mode] at h
    cases h
  · have task : TaskPtr.task j = .task k := Eq.trans (Eq.symm current) here
    cases task
    exact runs
  · rw [show (nest n.kmt (.task _) amount).mode cpu = _ from mode] at h
    cases h
  · have away : TaskPtr.task j ≠ .task k := fun task => by
      obtain ⟨_, busy⟩ := h (here.trans task.symm)
      rw [show (nest n.kmt (.task _) amount).mode cpu = _ from mode] at busy
      cases busy
    exact (same _ away).waits (inv.kept cpu j saved fun h => absurd (h.symm.trans here) away)
  · exact (same (.idle d) nofun).idle (inv.idle d) (fun current h => ⟨current, h⟩) id

theorem NestInv.syscall (inv : NestInv n) (taken : nestedStep n (.syscall cpu c) = some n') :
    NestInv n' := by
  simp only [nestedStep] at taken
  split at taken
  · rename_i guard
    obtain ⟨mode, _, outside, real⟩ := guard
    cases taken
    have task : ∃ k, n.kmt.current cpu = .task k := by
      rcases inv.sched.known cpu _ (.inl rfl) with null | idle | ⟨k, _, task⟩
      · exact absurd null (inv.sched.real cpu)
      · rw [idle, (inv.idle cpu).fields.1] at real
        cases real
      · exact ⟨k, task⟩
    obtain ⟨k, here⟩ := task
    have runs := inv.running cpu k here mode
    simp only [here] at outside ⊢
    refine inv.calling mode here (fun v ne => ?_) ⟨?_, ?_⟩
    · exact ⟨Function.update_of_ne ne .., Function.update_of_ne ne ..⟩
    · have depth := runs.depth
      simp only [Nested.calls, outside, Option.toList_none, List.length_nil] at depth
      simp [nest, State.setTask, Nested.calls, depth]
    · have saved := runs.saved
      simp only [Nested.calls, outside, Option.toList_none] at saved
      simp [Nested.push, Nested.calls, saved]
  · cases taken

theorem sysret_saved (inv : NestInv n) (taken : nestedStep n (.sysret cpu) = some n') :
    ∃ k f, n.kmt.mode cpu = .running ∧ n.kmt.current cpu = .task k ∧
      n.inSyscall (.task k) = some f ∧ n.saved (.task k) = [f] ∧ Runs n (.task k) := by
  simp only [nestedStep] at taken
  split at taken
  · rename_i guard
    obtain ⟨mode, _, inside⟩ := guard
    have task : ∃ k, n.kmt.current cpu = .task k := by
      rcases inv.sched.known cpu _ (.inl rfl) with null | idle | ⟨k, _, task⟩
      · exact absurd null (inv.sched.real cpu)
      · rw [idle, (inv.idle cpu).fields.2.2] at inside
        exact absurd rfl inside
      · exact ⟨k, task⟩
    obtain ⟨k, here⟩ := task
    rw [here] at inside
    obtain ⟨f, frame⟩ := Option.ne_none_iff_exists'.mp inside
    have runs := inv.running cpu k here mode
    refine ⟨k, f, mode, here, frame, ?_, runs⟩
    rw [runs.saved, Nested.calls, frame, Option.toList_some]
  · cases taken

theorem NestInv.sysret (inv : NestInv n) (taken : nestedStep n (.sysret cpu) = some n') :
    NestInv n' := by
  obtain ⟨k, f, mode, here, frame, saved, runs⟩ := sysret_saved inv taken
  simp only [nestedStep] at taken
  split at taken
  · cases taken
    simp only [here]
    refine inv.calling mode here (fun v ne => ?_) ⟨?_, ?_⟩
    · exact ⟨Function.update_of_ne ne .., Function.update_of_ne ne ..⟩
    · have depth := runs.depth
      simp only [Nested.calls, frame, Option.toList_some, List.length_singleton] at depth
      simp [nest, State.setTask, Nested.calls, depth]
    · simp [Nested.pop, Nested.calls, saved]
  · cases taken

end Syscall

section Steps

variable {n n' : Nested} {s s' : State}

structure SameNesting (s s' : State) : Prop where
  nested : ∀ t, (s'.tasks t).nestedInterrupt = (s.tasks t).nestedInterrupt
  context : ∀ t, (s'.tasks t).context = (s.tasks t).context

theorem block_nesting {t : TaskPtr} (value : Bool) (sems : Nat → Sem) (pc : TaskPtr → WaitPc) :
    SameNesting s { s with
      tasks := Function.update s.tasks t { s.tasks t with block := value }
      sems := sems
      pc := pc } := by
  constructor <;> intro u <;> by_cases same : u = t <;> simp [same]

theorem sem_wait_nesting {cpu sem : Nat} (ran : kmtSemWait s cpu sem = some s') :
    SameNesting s s' := by
  unfold kmtSemWait at ran
  simp only at ran
  split at ran
  · split at ran
    · cases ran
    · cases ran
      exact block_nesting true _ _
  · cases ran
    exact ⟨fun _ => rfl, fun _ => rfl⟩

theorem sem_signal_nesting {sem r : Nat} (ran : kmtSemSignal s sem r = some s') :
    SameNesting s s' := by
  unfold kmtSemSignal at ran
  simp only at ran
  split at ran
  · split at ran
    · cases ran
    · cases ran
      exact block_nesting false _ _
  · cases ran
    exact ⟨fun _ => rfl, fun _ => rfl⟩

theorem NestInv.sem (inv : NestInv n) (effect : SemEffect n.kmt s') (same : SameNesting n.kmt s') :
    NestInv { n with kmt := s' } :=
  inv.quiet (sem_inv inv.sched effect) effect.cpuList effect.mode effect.steady.taskCnt
    fun t => ⟨same.nested t, same.context t, effect.steady.pids t, rfl, rfl⟩

theorem NestInv.pc (inv : NestInv n) (t : TaskPtr) (pc : WaitPc) :
    NestInv { n with kmt := n.kmt.setPc t pc } :=
  inv.quiet (pc_inv inv.sched t pc) rfl rfl rfl fun _ => ⟨rfl, rfl, rfl, rfl, rfl⟩

theorem NestInv.examine {cpu i r : Nat} (inv : NestInv n) (mode : n.kmt.mode cpu = .examining i)
    (ran : kmtScheduleExamine n.kmt cpu i r = some s') : NestInv { n with kmt := s' } := by
  obtain ⟨k, first, last, _, outcome⟩ := examine_cases ran
  have listed : Listed n.kmt k := ⟨first, last⟩
  rw [inv.sched.list k listed] at outcome
  rcases outcome with rfl | ⟨own, _, rfl⟩ | ⟨_, stopped, _, rfl⟩
  · exact inv.passed mode
  · exact inv.repicked mode own
  · exact inv.taken_over mode listed stopped

theorem NestInv.step {e : Event} (inv : NestInv n) (taken : step n.kmt e = some s') :
    NestInv (n.record s' e) := by
  cases e with
  | trap cpu c =>
    simp only [Kmt.step] at taken
    split at taken
    · rename_i mode
      exact inv.trap mode taken
    · cases taken
  | examine cpu r =>
    simp only [Kmt.step] at taken
    split at taken
    · rename_i i mode
      split at taken
      · exact inv.examine mode taken
      · cases taken
    · cases taken
  | scheduled cpu =>
    simp only [Kmt.step] at taken
    split at taken
    · rename_i mode
      obtain ⟨⟨t, ret, s1⟩, ran, rfl⟩ := Option.map_eq_some_iff.mp taken
      obtain ⟨rfl, _⟩ := schedule_return_cases ran
      exact inv.resumed mode
    · rename_i i mode
      split at taken
      · cases taken
      · obtain ⟨⟨t, ret, s1⟩, ran, rfl⟩ := Option.map_eq_some_iff.mp taken
        obtain ⟨rfl, _⟩ := schedule_return_cases ran
        have idled := inv.idled mode
        simpa [Nested.record, inv.sched.idle cpu] using idled
    · cases taken
  | waitSection cpu sem =>
    simp only [Kmt.step] at taken
    split at taken
    · exact inv.sem (sem_wait_effect taken) (sem_wait_nesting taken)
    · cases taken
  | waitReread cpu =>
    simp only [Kmt.step] at taken
    split at taken
    · cases taken
      exact inv.pc _ _
    · cases taken
  | waitYield cpu c =>
    simp only [Kmt.step] at taken
    split at taken
    · rename_i mode _
      exact (inv.pc _ _).trap mode taken
    · cases taken
  | waitReturn cpu =>
    simp only [Kmt.step] at taken
    split at taken
    · cases taken
      exact inv.pc _ _
    · cases taken
  | signal sem r => exact inv.sem (sem_signal_effect taken) (sem_signal_nesting taken)

theorem nested_step_inv {e : NestedEvent} (inv : NestInv n) (taken : nestedStep n e = some n') :
    NestInv n' := by
  cases e with
  | kmt e =>
    obtain ⟨s', ran, rfl⟩ := Option.map_eq_some_iff.mp taken
    exact inv.step ran
  | syscall cpu c => exact inv.syscall taken
  | sysret cpu => exact inv.sysret taken

end Steps

section Safe

variable {n : Nested} {s s' : State} {cpu : Nat}

theorem calls_short (n : Nested) (t : TaskPtr) : (n.calls t).length ≤ 1 := by
  rw [Nested.calls]
  cases n.inSyscall t <;> simp

theorem Runs.index {t : TaskPtr} (runs : Runs n t) : IndexOk (n.kmt.tasks t) := by
  have := calls_short n t
  rw [IndexOk, runs.depth]
  omega

theorem Waits.index {t : TaskPtr} (waits : Waits n t 0) : IndexOk (n.kmt.tasks t) := by
  have := calls_short n t
  rw [IndexOk, waits.depth]
  omega

theorem NestInv.stores (inv : NestInv n) (mode : n.kmt.mode cpu = .running)
    (real : 0 < (n.kmt.tasks (n.kmt.current cpu)).pid) :
    IndexOk (n.kmt.tasks (n.kmt.current cpu)) := by
  rcases inv.sched.known cpu _ (.inl rfl) with null | idle | ⟨k, _, task⟩
  · exact absurd null (inv.sched.real cpu)
  · rw [idle, (inv.idle cpu).fields.1] at real
    cases real
  · rw [task]
    exact (inv.running cpu k task mode).index

theorem NestInv.asserts {t : TaskPtr} (inv : NestInv n) (release : Released n.kmt cpu t) :
    0 ≤ (n.kmt.tasks t).nestedInterrupt - 1 ∧ (n.kmt.tasks t).nestedInterrupt - 1 < 3 := by
  obtain ⟨saved, notNull, away, real⟩ := release
  rcases inv.sched.known cpu t (.inr saved) with null | idle | ⟨k, _, rfl⟩
  · exact absurd null notNull
  · rw [idle, (inv.idle cpu).fields.1] at real
    cases real
  · have waits := inv.kept cpu k saved fun here => absurd here.symm away
    have := calls_short n (.task k)
    rw [waits.depth]
    omega

theorem NestInv.saves (inv : NestInv n) (mode : n.kmt.mode cpu = .running) (c : Context) :
    (kmtContextSave n.kmt cpu c).isSome = true := by
  have stored : ∃ task, saveContext (n.kmt.tasks (n.kmt.current cpu)) c = some task := by
    unfold saveContext
    split
    · rename_i real
      have index : 0 ≤ (n.kmt.tasks (n.kmt.current cpu)).nestedInterrupt ∧
          (n.kmt.tasks (n.kmt.current cpu)).nestedInterrupt < 2 := inv.stores mode real
      rw [if_pos index]
      exact ⟨_, rfl⟩
    · exact ⟨_, rfl⟩
  obtain ⟨task, stored⟩ := stored
  simp only [kmtContextSave, if_neg (inv.sched.real cpu), stored]
  split
  · rename_i release
    obtain ⟨notNull, away, real⟩ := release
    rw [save_set_task] at notNull away real
    have other : (n.kmt.setTask (n.kmt.current cpu) task).tasks (n.kmt.save cpu) =
        n.kmt.tasks (n.kmt.save cpu) := Function.update_of_ne away ..
    rw [other] at real
    have range := inv.asserts ⟨rfl, notNull, away, real⟩
    rw [save_set_task, other, releaseTask, if_pos range]
    rfl
  · rfl

theorem NestInv.safe (inv : NestInv n) : ContextsSafe n.kmt := by
  refine ⟨fun cpu mode real => inv.stores mode real, fun cpu t _ release => inv.asserts release,
    fun cpu mode => ?_, fun cpu => ?_, fun cpu c mode => inv.saves mode c⟩
  · obtain ⟨k, _, task⟩ := inv.listed cpu mode
    rw [task]
    exact (inv.picked cpu k task mode).index
  · rw [inv.sched.idle cpu, IndexOk, (inv.idle cpu).fields.2.1]
    decide

theorem schedule_return_context {fineTask : Bool} {t : TaskPtr} {ret : Context}
    (ran : kmtScheduleReturn s cpu fineTask = some (t, ret, s')) :
    (fineTask = true → ret = (s.tasks (s.current cpu)).context
      (s.tasks (s.current cpu)).nestedInterrupt.toNat) ∧
    (fineTask = false → ret = (s.tasks (s.cpuList cpu).idleTask).context 0) := by
  unfold kmtScheduleReturn at ran
  cases fineTask with
  | true =>
    refine ⟨fun _ => ?_, nofun⟩
    simp only [and_true, ↓reduceIte, true_and] at ran
    split at ran
    · cases ran
    · split at ran
      · cases ran
      · split at ran
        · cases ran
        · split at ran
          · cases ran
          · cases ran
            rfl
  | false =>
    refine ⟨nofun, fun _ => ?_⟩
    simp only [Bool.false_eq_true, and_false, false_and, ↓reduceIte] at ran
    split at ran
    · cases ran
    · split at ran
      · cases ran
      · split at ran
        · cases ran
        · cases ran
          simp

theorem NestInv.resumes_latest (inv : NestInv n) (e : NestedEvent) : ResumesLatest n e := by
  cases e with
  | kmt e =>
    cases e with
    | scheduled cpu =>
      intro t ret returns
      simp only [resuming] at returns
      split at returns
      · rename_i mode
        obtain ⟨⟨t', ret', s'⟩, ran, same⟩ := Option.map_eq_some_iff.mp returns
        cases same
        obtain ⟨k, _, task⟩ := inv.listed cpu mode
        obtain ⟨_, here, _⟩ := schedule_return_cases ran
        obtain ⟨depth, f, saved, slot⟩ := inv.picked cpu k task mode
        have read := (schedule_return_context ran).1 rfl
        rw [task, depth, Int.add_zero, Int.toNat_natCast, slot] at read
        rw [if_pos rfl, task] at here
        rw [read, here, saved]
        exact ⟨nofun, rfl⟩
      · rename_i i mode
        split at returns
        · cases returns
        · obtain ⟨⟨t', ret', s'⟩, ran, same⟩ := Option.map_eq_some_iff.mp returns
          cases same
          obtain ⟨_, here, _⟩ := schedule_return_cases ran
          obtain ⟨f, saved, slot⟩ := (inv.idle cpu).waiting (.inr (by rw [mode]; exact nofun))
          have read := (schedule_return_context ran).2 rfl
          rw [inv.sched.idle cpu, slot] at read
          rw [if_neg Bool.false_ne_true, inv.sched.idle cpu] at here
          rw [read, here, saved]
          exact ⟨nofun, rfl⟩
      · cases returns
    | _ => trivial
  | syscall cpu c => trivial
  | sysret cpu =>
    intro n' taken
    obtain ⟨k, f, _, here, frame, saved, _⟩ := sysret_saved inv taken
    rw [here, saved, frame]
    rfl

end Safe

section Run

structure Booted (s : State) : Prop where
  mode : ∀ c, s.mode c = .running
  current : ∀ c, s.current c = .idle c
  save : ∀ c, s.save c = .null
  idle : ∀ c, s.tasks (.idle c) = idleTask
  fresh : ∀ i, Listed s i → (s.tasks (.task i)).nestedInterrupt = 0 ∧
    ∃ entry, (s.tasks (.task i)).context 0 = some entry

theorem booted_create {s : State} (booted : Booted s) (entry : Nat) :
    Booted (kmtCreate s entry) := by
  refine ⟨booted.mode, booted.current, booted.save, fun c => ?_, fun i h => ?_⟩
  · have other : TaskPtr.idle c ≠ .task s.taskCnt := nofun
    simpa [kmtCreate, Function.update_of_ne other] using booted.idle c
  · by_cases new : i = s.taskCnt
    · simp [kmtCreate, new]
    · have old : Listed s i := ⟨h.1, by have := h.2; simp only [kmtCreate] at this; omega⟩
      have other : TaskPtr.task i ≠ .task s.taskCnt := fun same => new (TaskPtr.task.inj same)
      simpa [kmtCreate, Function.update_of_ne other] using booted.fresh i old

theorem booted_tasks {s : State} (booted : Booted s) (entries : List Nat) :
    Booted (createTasks s entries) := by
  induction entries generalizing s with
  | nil => exact booted
  | cons entry rest ih => exact ih (booted_create booted entry)

theorem booted_init (value : Nat → Nat) : Booted (kmtInit value) := by
  refine ⟨fun _ => rfl, fun _ => rfl, fun _ => rfl, fun _ => rfl, fun i h => ?_⟩
  have := h.2
  have := h.1
  simp only [kmtInit] at *
  omega

/-- The contexts kcontext built for the tasks are the ones saved first. -/
def nestedInit (s : State) : Nested where
  kmt := s
  inSyscall _ := none
  saved
    | .task i => ((s.tasks (.task i)).context 0).toList
    | _ => []

theorem nested_init_inv {s : State} (sched : SchedInv s) (booted : Booted s) :
    NestInv (nestedInit s) := by
  have mode : ∀ c, (nestedInit s).kmt.mode c = .running := booted.mode
  refine ⟨sched, fun c i h => ?_, fun c h => ?_, fun c i here _ => ?_, fun c i _ h => ?_,
    fun c i here _ => ?_, fun i h _ => ?_, fun c => ?_⟩
  · rw [mode] at h
    cases h
  · rw [mode] at h
    cases h
  · rw [show (nestedInit s).kmt.current c = _ from booted.current c] at here
    cases here
  · rw [mode] at h
    cases h
  · rw [show (nestedInit s).kmt.save c = _ from booted.save c] at here
    cases here
  · obtain ⟨nested, entry, context⟩ := booted.fresh i h
    refine ⟨nested, entry, ?_, context⟩
    simp [nestedInit, Nested.calls, context]
  · refine ⟨?_, fun _ _ => rfl, fun away => ?_⟩
    · simp only [nestedInit, booted.idle c]
      exact ⟨rfl, rfl, trivial⟩
    · exact absurd away (by simp [nestedInit, booted.current c, booted.mode c])

/-- Contexts are kept in slots 0 and 1 and resumed latest first, in every run. -/
theorem contexts_resumed_in_order (value : Nat → Nat) (entries : List Nat)
    (events : List NestedEvent) :
    Throughout nestedStep (fun n => ContextsSafe n.kmt)
        (nestedInit (createTasks (kmtInit value) entries)) events ∧
      EachStep nestedStep ResumesLatest
        (nestedInit (createTasks (kmtInit value) entries)) events := by
  have start : NestInv (nestedInit (createTasks (kmtInit value) entries)) :=
    nested_init_inv (create_tasks_inv (init_inv value) entries)
      (booted_tasks (booted_init value) entries)
  have kept : ∀ n e n', NestInv n → nestedStep n e = some n' → NestInv n' :=
    fun n e n' inv taken => nested_step_inv inv taken
  exact ⟨throughout_of_invariant kept (fun n inv => inv.safe) events start,
    each_step_of_invariant kept (fun n e inv => inv.resumes_latest e) events start⟩

end Run

end Kmt
