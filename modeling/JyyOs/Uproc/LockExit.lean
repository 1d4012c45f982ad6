import JyyOs.Uproc.LockCalls

/-!
kexit up to destroy_task, which locks vme_lock twice, and when each of the four calls keeps the
lock discipline.
-/
namespace Uproc

open Hoare LinkedList

variable {L : LockId → Bool} {s s' m : Kernel} {u : Unit} {task : Nat}

structure ExitFrame (s s' : Kernel) : Prop where
  locks : s'.locks = s.locks
  rounds : s'.rounds = s.rounds
  nodes : s'.nodes = s.nodes
  heads : ∀ t, headOf s' t = headOf s t
  ids : ∀ t, (s'.tasks t).pid = (s.tasks t).pid ∧ (s'.tasks t).ppid = (s.tasks t).ppid
  taskList : s'.taskList = s.taskList
  pidUsed : s'.pidUsed = s.pidUsed
  queue : s'.pHead = s.pHead ∧ s'.pTail = s.pTail

theorem ExitFrame.refl (s : Kernel) : ExitFrame s s :=
  ⟨rfl, rfl, rfl, fun _ => rfl, fun _ => ⟨rfl, rfl⟩, rfl, rfl, rfl, rfl⟩

theorem ExitFrame.trans (first : ExitFrame s m) (second : ExitFrame m s') : ExitFrame s s' :=
  ⟨second.locks.trans first.locks, second.rounds.trans first.rounds,
    second.nodes.trans first.nodes, fun t => (second.heads t).trans (first.heads t),
    fun t => ⟨(second.ids t).1.trans (first.ids t).1, (second.ids t).2.trans (first.ids t).2⟩,
    second.taskList.trans first.taskList, second.pidUsed.trans first.pidUsed,
    second.queue.1.trans first.queue.1, second.queue.2.trans first.queue.2⟩

theorem exit_frame_set_task {t : Nat} {k : Task} (head : k.mappedPageHead = headOf s t)
    (pid : k.pid = (s.tasks t).pid) (ppid : k.ppid = (s.tasks t).ppid) :
    ExitFrame s (s.setTask t k) := by
  refine ⟨rfl, rfl, rfl, fun c => ?_, fun c => ?_, rfl, rfl, rfl, rfl⟩
  · by_cases here : c = t
    · subst here
      simpa [headOf, Kernel.setTask] using head
    · simp [headOf, Kernel.setTask, here]
  · by_cases here : c = t
    · subst here
      simp [Kernel.setTask, pid, ppid]
    · simp [Kernel.setTask, here]

theorem exit_frame_choices (rest : List Nat) : ExitFrame s { s with choices := rest } :=
  ⟨rfl, rfl, rfl, fun _ => rfl, fun _ => ⟨rfl, rfl⟩, rfl, rfl, rfl, rfl⟩

theorem ExitFrame.unlocked {l : LockId} (free : s.locks l = false)
    (inside : ExitFrame (s.setLock l true) m) : ExitFrame s (m.setLock l false) := by
  refine ⟨?_, inside.rounds, inside.nodes, inside.heads, inside.ids, inside.taskList,
    inside.pidUsed, inside.queue⟩
  rw [set_lock_locks, inside.locks, set_lock_locks]
  exact relock free

section Father

/-- Every NULL entry of task_list from `i` on lies behind a task with the process id `ppid`. -/
def ReachedFrom (s : Kernel) (ppid left i : Nat) : Prop :=
  ∀ k, i ≤ k → k < i + left → s.taskList k = 0 →
    ∃ j, i ≤ j ∧ j < k ∧ (s.tasks (s.taskList j)).pid = ppid

variable {ppid left i father f : Nat} {status : Int}

theorem father_loop_ok (h : (fatherLoop ppid status left i father).run s = .ok (f, s')) :
    ReachedFrom s ppid left i ∧ ExitFrame s s' := by
  induction left generalizing i father with
  | zero =>
    obtain ⟨_, rfl⟩ := pure_ok.mp h
    exact ⟨fun k above below => absurd below (Nat.not_lt.mpr above), .refl s⟩
  | succ left ih =>
    simp only [fatherLoop, bind_ok, get_ok, stop_unless_ok] at h
    obtain ⟨_, _, ⟨rfl, rfl⟩, _, _, ⟨real, rfl⟩, h⟩ := h
    split at h
    · rename_i found
      simp only [bind_ok, set_ok, pure_ok] at h
      obtain ⟨_, _, rfl, rfl, rfl⟩ := h
      refine ⟨fun k above _ null => ⟨i, Nat.le_refl i, ?_, found⟩, exit_frame_set_task rfl rfl rfl⟩
      refine Nat.lt_of_le_of_ne above ?_
      rintro rfl
      exact real null
    · obtain ⟨reached, frame⟩ := ih h
      refine ⟨fun k above below null => ?_, frame⟩
      have later : k ≠ i := by
        rintro rfl
        exact real null
      obtain ⟨j, first, before, same⟩ := reached k (by omega) (by omega) null
      exact ⟨j, by omega, before, same⟩

theorem father_loop_runs (reached : ReachedFrom s ppid left i) :
    ∃ f s', (fatherLoop ppid status left i father).run s = .ok (f, s') ∧
      s'.choices = s.choices := by
  induction left generalizing i father with
  | zero => exact ⟨father, s, rfl, rfl⟩
  | succ left ih =>
    have real : s.taskList i ≠ 0 := by
      intro null
      obtain ⟨j, above, before, _⟩ := reached i (Nat.le_refl i) (by omega) null
      omega
    simp only [fatherLoop, bind_ok, get_ok, stop_unless_ok]
    by_cases found : (s.tasks (s.taskList i)).pid = ppid
    · refine ⟨s.taskList i, s.setTask (s.taskList i)
        { s.tasks (s.taskList i) with retstate := status }, ⟨s, s, ⟨rfl, rfl⟩, (), s, ⟨real, rfl⟩, ?_⟩,
        rfl⟩
      rw [if_pos found]
      rfl
    · have rest : ReachedFrom s ppid left (i + 1) := by
        intro k above below null
        obtain ⟨j, first, before, same⟩ := reached k (by omega) (by omega) null
        refine ⟨j, ?_, before, same⟩
        refine Nat.lt_of_le_of_ne first ?_
        rintro rfl
        exact found same
      have searched : ∃ f s', (fatherLoop ppid status left (i + 1) (s.taskList i)).run s =
          .ok (f, s') ∧ s'.choices = s.choices := ih rest
      obtain ⟨f, s', ran, choices⟩ := searched
      refine ⟨f, s', ⟨s, s, ⟨rfl, rfl⟩, (), s, ⟨real, rfl⟩, ?_⟩, choices⟩
      rw [if_neg found]
      exact ran

theorem turns_father_loop : Turns L L (fatherLoop ppid status left i father) := by
  induction left generalizing i father with
  | zero => exact turns_pure _
  | succ left ih =>
    refine turns_get fun s locks => turns_bind (turns_stop_unless (by decide)) fun _ => ?_
    exact turns_ite (turns_bind (turns_set locks) fun _ => turns_pure _) ih

end Father

section Notify

variable {t n : Nat} {status : Int}

theorem turns_wake_one : Turns L L (wakeOne t) :=
  turns_bind turns_choose fun _ => turns_modify fun _ => rfl

theorem turns_sem_signal (free : L (.waitSem t) = false) : Turns L L (semSignal t) := by
  refine turns_bind (turns_lock free) fun _ => turns_get fun s locks => ?_
  refine turns_bind (turns_set (by exact locks)) fun _ => ?_
  exact turns_bind (turns_run_if turns_wake_one) fun _ => unlocked_again free

theorem wake_one_ok (h : (wakeOne t).run s = .ok (u, s')) :
    ExitFrame s s' ∧ ∃ r, s.choices = r :: s'.choices := by
  simp only [wakeOne, bind_ok, choose_ok, modify_ok] at h
  obtain ⟨r, _, ⟨rest, chosen, rfl⟩, rfl⟩ := h
  refine ⟨?_, r, chosen⟩
  refine (exit_frame_choices rest).trans (ExitFrame.trans ?_ (exit_frame_set_task ?_ ?_ ?_))
  · apply exit_frame_set_task <;> rfl
  all_goals rfl

theorem sem_signal_ok (h : (semSignal t).run s = .ok (u, s')) : ExitFrame s s' := by
  simp only [semSignal, bind_ok, spin_lock_ok, spin_unlock_ok, get_ok, set_ok] at h
  obtain ⟨_, _, ⟨free, rfl⟩, _, _, ⟨rfl, rfl⟩, _, _, rfl, _, m, wake, _, rfl⟩ := h
  refine ExitFrame.unlocked free ?_
  have counted : ExitFrame (s.setLock (.waitSem t) true) _ :=
    exit_frame_set_task (t := t) (k := { s.tasks t with waitSem :=
      { (s.tasks t).waitSem with resource := (s.tasks t).waitSem.resource + 1 } }) rfl rfl rfl
  rcases run_if_ok.mp wake with ⟨_, wake⟩ | ⟨_, rfl⟩
  · exact counted.trans (wake_one_ok wake).1
  · exact counted

theorem notify_father_ok (h : (notifyFather task status).run s = .ok (u, s')) :
    ((s.tasks task).ppid ≠ 0 → ReachedFrom s (s.tasks task).ppid (maxTask - 1) 1) ∧
      ExitFrame s s' := by
  simp only [notifyFather, bind_ok, get_task_ok] at h
  obtain ⟨_, _, ⟨rfl, rfl⟩, h⟩ := h
  split at h
  · obtain ⟨father, m, search, signal⟩ := bind_ok.mp h
    obtain ⟨reached, frame⟩ := father_loop_ok search
    exact ⟨fun _ => reached, frame.trans (sem_signal_ok signal)⟩
  · rename_i none
    obtain ⟨_, rfl⟩ := pure_ok.mp h
    exact ⟨fun some_father => absurd some_father none, .refl s⟩

theorem turns_notify_father (none_held : ∀ l, L l = false) :
    Turns L L (notifyFather task status) := by
  refine turns_bind turns_get_task fun t => turns_ite ?_ (turns_pure _)
  exact turns_bind turns_father_loop fun _ => turns_sem_signal (none_held _)

theorem sem_signal_runs (free : s.locks (.waitSem t) = false) (choices : s.choices = [n, n]) :
    ∃ s', (semSignal t).run s = .ok ((), s') ∧ ∃ rest, s'.choices = n :: rest := by
  let l := LockId.waitSem t
  let sem := (s.tasks t).waitSem
  let m := (s.setLock l true).setTask t
    { s.tasks t with waitSem := { sem with resource := sem.resource + 1 } }
  have held : ∀ {s' : Kernel}, ExitFrame m s' → s'.locks l = true := by
    intro s' frame
    rw [frame.locks]
    exact Function.update_self ..
  have woken : ∃ s', (runIf (sem.resource + 1 ≤ 0 ∧ sem.taskList ≠ []) (wakeOne t)).run m =
      .ok ((), s') ∧ ExitFrame m s' ∧ ∃ rest, s'.choices = n :: rest := by
    by_cases waits : sem.resource + 1 ≤ 0 ∧ sem.taskList ≠ []
    · have runs : ∃ s', (wakeOne t).run m = .ok ((), s') := by
        simp only [wakeOne, bind_ok, choose_ok, modify_ok]
        exact ⟨_, n, _, ⟨[n], choices, rfl⟩, rfl⟩
      obtain ⟨s', ran⟩ := runs
      obtain ⟨frame, r, chosen⟩ := wake_one_ok ran
      have left : m.choices = [n, n] := choices
      rw [left] at chosen
      exact ⟨s', run_if_ok.mpr (.inl ⟨waits, ran⟩), frame, [], (List.cons.inj chosen).2.symm⟩
    · exact ⟨m, run_if_ok.mpr (.inr ⟨waits, rfl⟩), .refl m, [n], choices⟩
  obtain ⟨s', ran, frame, rest, left⟩ := woken
  refine ⟨s'.setLock l false, ?_, rest, left⟩
  simp only [semSignal, bind_ok, get_ok, set_ok]
  exact ⟨(), _, lock_runs free, _, _, ⟨rfl, rfl⟩, ⟨⟩, m, rfl, (), s', ran, unlock_runs (held frame)⟩

theorem notify_father_runs (none_held : ∀ l, s.locks l = false) (choices : s.choices = [n, n])
    (father : (s.tasks task).ppid ≠ 0 → ReachedFrom s (s.tasks task).ppid (maxTask - 1) 1) :
    ∃ s', (notifyFather task status).run s = .ok ((), s') ∧ ∃ rest, s'.choices = n :: rest := by
  simp only [notifyFather, bind_ok, get_task_ok]
  by_cases some_father : (s.tasks task).ppid ≠ 0
  · have searched : ∃ f m, (fatherLoop (s.tasks task).ppid status (maxTask - 1) 1 0).run s =
        .ok (f, m) ∧ m.choices = s.choices := father_loop_runs (father some_father)
    obtain ⟨f, m, search, same⟩ := searched
    have frame := (father_loop_ok search).2
    obtain ⟨s', signal, left⟩ := sem_signal_runs (t := f) (by rw [frame.locks]; exact none_held _)
      (same.trans choices)
    refine ⟨s', ⟨_, s, ⟨rfl, rfl⟩, ?_⟩, left⟩
    rw [if_pos some_father]
    exact bind_ok.mpr ⟨f, m, search, signal⟩
  · refine ⟨s, ⟨_, s, ⟨rfl, rfl⟩, ?_⟩, [n], choices⟩
    rw [if_neg some_father]
    rfl

end Notify

section Teardown

variable {n : Nat}

theorem turns_store_pid {pid : Nat} (none_held : ∀ l, L l = false) :
    Turns L L (storePid pid) := by
  have alloc : ∀ {L : LockId → Bool}, Turns L L allocPidNode := by
    intro L
    refine turns_bind turns_choose fun _ => turns_get fun s locks => ?_
    refine turns_bind (turns_stop_unless (by decide)) fun _ => ?_
    refine turns_bind (turns_stop_unless (by decide)) fun _ => ?_
    exact turns_bind (turns_set (by exact locks)) fun _ => turns_pure _
  refine turns_bind (turns_lock (none_held _)) fun _ => turns_bind alloc fun _ => ?_
  refine turns_bind (turns_modify fun _ => rfl) fun _ => ?_
  refine turns_bind (turns_get fun s locks => turns_ite ?_ (turns_set (by exact locks))) fun _ =>
    unlocked_again (none_held _)
  exact turns_bind (turns_stop_unless (by decide)) fun _ => turns_set (by exact locks)

/-- store_pid asserts this of an empty queue. -/
theorem store_pid_queue {pid : Nat} (h : (storePid pid).run s = .ok (u, s')) :
    s.pHead = 0 → s.pTail = 0 := by
  intro empty
  simp only [storePid, allocPidNode, bind_ok, spin_lock_ok, choose_ok, get_ok, stop_unless_ok,
    set_ok, pure_ok, modify_ok] at h
  obtain ⟨_, _, ⟨_, rfl⟩, n, _, ⟨_, _, ⟨rest, _, rfl⟩, _, _, ⟨rfl, rfl⟩, _, _,
    ⟨_, rfl⟩, _, _, ⟨_, rfl⟩, _, _, rfl, rfl, rfl⟩, _, _, rfl, _, _, enqueue, _⟩ := h
  simp only [enqueuePid, bind_ok, get_ok] at enqueue
  obtain ⟨_, _, ⟨rfl, rfl⟩, enqueue⟩ := enqueue
  rw [if_pos (by exact empty)] at enqueue
  simp only [bind_ok, stop_unless_ok] at enqueue
  obtain ⟨_, _, ⟨tail, _⟩, _⟩ := enqueue
  exact tail

theorem store_pid_runs {pid : Nat} {rest : List Nat} (free : s.locks .pid = false)
    (choices : s.choices = n :: rest) (real : n ≠ 0) (fresh : s.pidUsed n = false)
    (queue : s.pHead = 0 → s.pTail = 0) :
    ∃ s', (storePid pid).run s = .ok ((), s') := by
  let m : Kernel := { s.setLock .pid true with
    choices := rest
    pidUsed := Function.update s.pidUsed n true
    pidNodes := Function.update s.pidNodes n ⟨pid, 0⟩ }
  have alloc : allocPidNode.run (s.setLock .pid true) =
      .ok (n, { m with pidNodes := s.pidNodes }) := by
    simp only [allocPidNode, bind_ok, choose_ok, get_ok, stop_unless_ok, set_ok, pure_ok]
    exact ⟨n, _, ⟨rest, choices, rfl⟩, _, _, ⟨rfl, rfl⟩, (), _, ⟨real, rfl⟩, (), _, ⟨fresh, rfl⟩,
      ⟨⟩, _, rfl, rfl, rfl⟩
  have enqueue : ∃ s', (enqueuePid n).run m = .ok ((), s') ∧ s'.locks = m.locks := by
    simp only [enqueuePid, bind_ok, get_ok]
    by_cases empty : s.pHead = 0
    · refine ⟨{ m with pHead := n, pTail := n }, ⟨m, m, ⟨rfl, rfl⟩, ?_⟩, rfl⟩
      rw [if_pos (by exact empty)]
      exact bind_ok.mpr ⟨(), m, stop_unless_ok.mpr ⟨queue empty, rfl⟩, rfl⟩
    · refine ⟨{ m with
        pidNodes := Function.update m.pidNodes m.pTail { m.pidNodes m.pTail with next := n }
        pTail := n }, ⟨m, m, ⟨rfl, rfl⟩, ?_⟩, rfl⟩
      rw [if_neg (by exact empty)]
      rfl
  obtain ⟨s', ran, locks⟩ := enqueue
  have held : s'.locks .pid = true := by
    rw [locks]
    simp [m, Kernel.setLock]
  refine ⟨s'.setLock .pid false, ?_⟩
  simp only [storePid, bind_ok, modify_ok]
  exact ⟨(), _, lock_runs free, n, _, alloc, ⟨⟩, m, rfl, (), s', ran, unlock_runs held⟩

theorem destroy_walk_linked {fuel cur : Nat}
    (h : (destroyMappedPagesLoop fuel cur).run s = .ok (u, s')) :
    ∃ list, Linked (nextOf s) 0 cur list := by
  induction fuel generalizing s cur with
  | zero => exact (throw_ok.mp h).elim
  | succ fuel ih =>
    rw [destroyMappedPagesLoop] at h
    by_cases ended : cur = 0
    · exact ⟨[], ended⟩
    · rw [if_neg ended] at h
      simp only [bind_ok, get_ok] at h
      obtain ⟨_, _, ⟨rfl, rfl⟩, _, _, dec, _, _, count, _, _, free, _, _, node, h⟩ := h
      obtain rfl := drop_cow_ok dec count free
      obtain rfl := free_node_ok node
      obtain ⟨rest, later⟩ := ih h
      exact ⟨cur :: rest, rfl, ended, linked_congr later fun _ _ => rfl⟩

theorem destroy_walk_error {fuel cur : Nat} {list : List Nat} {e : Stop}
    (free : s.locks .cow = false) (linked : Linked (nextOf s) 0 cur list)
    (enough : list.length < fuel)
    (h : (destroyMappedPagesLoop fuel cur).run s = .error e) : False := by
  induction fuel generalizing s cur list with
  | zero => exact absurd enough (Nat.not_lt_zero _)
  | succ fuel ih =>
    rw [destroyMappedPagesLoop] at h
    by_cases ended : cur = 0
    · rw [if_pos ended] at h
      exact pure_error.mp h
    · rw [if_neg ended] at h
      obtain ⟨rest, rfl, later⟩ := linked_head linked ended
      simp only [bind_error, get_ok, get_error, false_or] at h
      obtain ⟨_, _, ⟨rfl, rfl⟩, dec | ⟨_, _, dec, count | ⟨_, _, count, drop | ⟨_, _, drop, node |
        ⟨_, _, node, h⟩⟩⟩⟩⟩ := h
      · exact dec_cow_cnt_error free dec
      · rw [dec_cow_cnt_ok dec] at count
        exact get_cow_cnt_error (by exact free) count
      · exact free_page_error (run_if_error.mp drop).2
      · simp only [freeNode, bind_error, get_error, set_error, and_false, exists_false,
          or_false] at node
      · obtain rfl := drop_cow_ok dec count drop
        obtain rfl := free_node_ok node
        have behind : Linked (nextOf { s.dropped (s.nodes cur).pa with
            nodeUsed := Function.update s.nodeUsed cur false }) 0 (s.nodes cur).next rest :=
          linked_congr later fun _ _ => rfl
        exact ih (by exact free) behind (Nat.lt_of_succ_lt_succ enough) h

theorem turns_destroy_mapped_pages (cow : L .cow = false) : Turns L L (destroyMappedPages task) :=
  turns_get fun _ _ => turns_destroy_mapped_pages_loop cow

theorem entered_cow (cow : s.locks .cow = false) :
    (s.setLock (.vme task) true).locks .cow = false := by
  rw [set_lock_locks, Function.update_of_ne (by simp)]
  exact cow

/-- destroy_task locks vme_lock again where it should unlock it. -/
theorem destroy_task_never_returns (cow : s.locks .cow = false)
    (h : (destroyTask task).run s = .ok (u, s')) : False := by
  simp only [destroyTask, destroyVmeArea, unprotect, bind_ok, modify_ok, spin_lock_ok] at h
  obtain ⟨_, _, ⟨_, rfl⟩, _, m, destroy, _, _, rfl, _, _, rfl, free, _⟩ := h
  have locks := (turns_destroy_mapped_pages (entered_cow cow) _ rfl).1 _ _ destroy
  have open_again : m.locks (.vme task) = false := free
  rw [locks, set_lock_locks, Function.update_self] at open_again
  cases open_again

theorem destroy_task_deadlock (vme : s.locks (.vme task) = false) (cow : s.locks .cow = false)
    (h : (destroyTask task).run s = .error .deadlock) :
    ∃ list, Linked (nextOf s) 0 (headOf s task) list := by
  simp only [destroyTask, bind_error, spin_lock_ok, spin_lock_error] at h
  obtain ⟨held, _⟩ | ⟨_, _, ⟨_, rfl⟩, failed | ⟨_, m, ran, _⟩⟩ := h
  · rw [vme] at held
    cases held
  · exact absurd rfl ((turns_destroy_mapped_pages (entered_cow cow) _ rfl).2 _ failed)
  · simp only [destroyMappedPages, bind_ok, get_ok] at ran
    obtain ⟨_, _, ⟨rfl, rfl⟩, ran⟩ := ran
    have walked := destroy_walk_linked ran
    exact walked

theorem destroy_task_hangs {list : List Nat} (vme : s.locks (.vme task) = false)
    (cow : s.locks .cow = false) (linked : Linked (nextOf s) 0 (headOf s task) list)
    (enough : list.length < s.rounds) : (destroyTask task).run s = .error .deadlock := by
  have entered : Linked (nextOf (s.setLock (.vme task) true)) 0
      (headOf (s.setLock (.vme task) true) task) list := linked
  cases destroy : (destroyMappedPages task).run (s.setLock (.vme task) true) with
  | error e =>
    simp only [destroyMappedPages, bind_error, get_ok, get_error, false_or] at destroy
    obtain ⟨_, _, ⟨rfl, rfl⟩, walk⟩ := destroy
    exact (destroy_walk_error (entered_cow cow) entered enough walk).elim
  | ok p =>
    obtain ⟨_, m⟩ := p
    have locks := (turns_destroy_mapped_pages (entered_cow cow) _ rfl).1 _ _ destroy
    simp only [destroyTask, destroyVmeArea, unprotect, bind_error, modify_ok, spin_lock_ok,
      spin_lock_error]
    refine .inr ⟨(), _, ⟨vme, rfl⟩, .inr ⟨(), m, destroy, .inr ⟨⟨⟩, _, rfl, .inr ⟨⟨⟩, _, rfl, ?_, trivial⟩⟩⟩⟩
    change m.locks (.vme task) = true
    rw [locks, set_lock_locks, Function.update_self]

end Teardown

section Exit

variable {status : Int}

/-- How far a call of kexit has to come to lock vme_lock twice. -/
structure TornDown (s : Kernel) (task : Nat) : Prop where
  father : (s.tasks task).ppid ≠ 0 → ReachedFrom s (s.tasks task).ppid (maxTask - 1) 1
  node : ∃ n, n ≠ 0 ∧ s.pidUsed n = false
  queue : s.pHead = 0 → s.pTail = 0
  pages : ∃ list, Linked (nextOf s) 0 (headOf s task) list

theorem ExitFrame.reached {ppid left i : Nat} (frame : ExitFrame s s') :
    ReachedFrom s' ppid left i ↔ ReachedFrom s ppid left i := by
  simp only [ReachedFrom, frame.taskList, frame.ids]

theorem marked_frame (h : markKilled.run s = .ok (u, s')) : ExitFrame s s' := by
  rw [modify_ok.mp h]
  exact exit_frame_set_task rfl rfl rfl

theorem exit_reaches (none_held : ∀ l, s.locks l = false) {m m' : Kernel}
    (marked : markKilled.run s = .ok (u, m)) (told : (notifyFather task status).run m = .ok (u, m')) :
    ExitFrame s m' ∧ ∀ l, m'.locks l = false := by
  have frame := (marked_frame marked).trans (notify_father_ok told).2
  refine ⟨frame, fun l => ?_⟩
  rw [frame.locks]
  exact none_held l

theorem stored_locks {pid : Nat} (none_held : ∀ l, s.locks l = false)
    (h : (storePid pid).run s = .ok (u, s')) : ∀ l, s'.locks l = false := by
  intro l
  rw [(turns_store_pid none_held _ rfl).1 _ _ h]
  exact none_held l

theorem stored_linked {n pid : Nat} {rest list : List Nat} (frame : ExitFrame s m) :
    Linked (nextOf (m.enqueued n pid rest)) 0 (headOf (m.enqueued n pid rest) task) list ↔
      Linked (nextOf s) 0 (headOf s task) list := by
  have head : headOf (m.enqueued n pid rest) task = headOf s task := frame.heads task
  have nodes : nextOf (m.enqueued n pid rest) = nextOf s := by
    funext x
    exact congrArg (fun nodes => (nodes x).next) frame.nodes
  rw [head, nodes]

theorem kexit_never_returns {r : Int} (none_held : ∀ l, s.locks l = false)
    (h : (kexit task status).run s = .ok (r, s')) : False := by
  simp only [kexit, bind_ok, get_task_ok] at h
  obtain ⟨_, _, marked, _, _, told, _, _, ⟨rfl, rfl⟩, _, _, store, _, _, destroy, _⟩ := h
  have free := (exit_reaches none_held marked told).2
  exact destroy_task_never_returns (stored_locks free store .cow) destroy

theorem kexit_torn_down (none_held : ∀ l, s.locks l = false)
    (h : (kexit task status).run s = .error .deadlock) : TornDown s task := by
  simp only [kexit, bind_error, get_task_ok, get_task_error, false_or] at h
  obtain bad | ⟨_, m, marked, h⟩ := h
  · exact (modify_error.mp bad).elim
  · have seen := marked_frame marked
    have free : ∀ l, m.locks l = false := by
      intro l
      rw [seen.locks]
      exact none_held l
    obtain bad | ⟨_, m', told, _, _, ⟨rfl, rfl⟩, h⟩ := h
    · exact absurd rfl ((turns_notify_father free _ rfl).2 _ bad)
    · obtain ⟨frame, free'⟩ := exit_reaches none_held marked told
      obtain bad | ⟨_, stored, store, h⟩ := h
      · exact absurd rfl ((turns_store_pid free' _ rfl).2 _ bad)
      · have later := stored_locks free' store
        have destroyed : ∃ list, Linked (nextOf stored) 0 (headOf stored task) list := by
          obtain bad | ⟨_, _, destroy, _⟩ := h
          · exact destroy_task_deadlock (later _) (later _) bad
          · exact (destroy_task_never_returns (later _) destroy).elim
        have queue := store_pid_queue store
        obtain ⟨n, rest, _, real, fresh, rfl⟩ := store_pid_ok store
        refine ⟨fun some_father => ?_, ⟨n, real, ?_⟩, ?_, ?_⟩
        · rw [← seen.reached, ← (seen.ids task).2]
          refine (notify_father_ok told).1 ?_
          rw [(seen.ids task).2]
          exact some_father
        · rw [← frame.pidUsed]
          exact fresh
        · rw [← frame.queue.1, ← frame.queue.2]
          exact queue
        · obtain ⟨list, linked⟩ := destroyed
          exact ⟨list, (stored_linked frame).mp linked⟩

theorem kexit_hangs (none_held : ∀ l, s.locks l = false) (torn : TornDown s task) :
    ∃ choices rounds,
      (kexit task status).run { s with choices := choices, rounds := rounds } =
        .error .deadlock := by
  obtain ⟨n, real, fresh⟩ := torn.node
  obtain ⟨list, linked⟩ := torn.pages
  let start : Kernel := { s with choices := [n, n], rounds := list.length + 1 }
  let m : Kernel := start.setTask start.currentTask
    { start.tasks start.currentTask with killed := true }
  have seen : ExitFrame start m := exit_frame_set_task rfl rfl rfl
  have father : (m.tasks task).ppid ≠ 0 → ReachedFrom m (m.tasks task).ppid (maxTask - 1) 1 := by
    rw [(seen.ids task).2, seen.reached]
    exact torn.father
  have notified : ∃ m', (notifyFather task status).run m = .ok ((), m') ∧
      ∃ rest, m'.choices = n :: rest := notify_father_runs none_held rfl father
  obtain ⟨m', told, rest, left⟩ := notified
  have frame := seen.trans (notify_father_ok told).2
  have free : ∀ l, m'.locks l = false := by
    intro l
    rw [frame.locks]
    exact none_held l
  have storing : ∃ m, (storePid (m'.tasks task).pid).run m' = .ok ((), m) := by
    refine store_pid_runs (free .pid) left real ?_ ?_
    · rw [frame.pidUsed]
      exact fresh
    · rw [frame.queue.1, frame.queue.2]
      exact torn.queue
  obtain ⟨stored, store⟩ := storing
  have later := stored_locks free store
  obtain ⟨_, rest', _, _, _, rfl⟩ := store_pid_ok store
  refine ⟨[n, n], list.length + 1, ?_⟩
  simp only [kexit, bind_error, get_task_ok]
  refine .inr ⟨⟨⟩, m, rfl, .inr ⟨(), m', told, .inr ⟨_, m', ⟨rfl, rfl⟩, .inr ⟨(), _, store,
    .inl ?_⟩⟩⟩⟩
  refine destroy_task_hangs (later _) (later _) ((stored_linked frame).mpr linked) ?_
  change list.length < m'.rounds
  rw [frame.rounds]
  exact Nat.lt_succ_self _

end Exit

section Discipline

inductive LockCall where
  | kmmap (task addr : Nat) (length prot flags : Int)
  | kfork (task : Nat)
  | kexit (task : Nat) (status : Int)
  | pageFault (ref : Nat)

def LockCall.prog : LockCall → Kern Unit
  | .kmmap task addr length prot flags => do let _ ← Uproc.kmmap task addr length prot flags
  | .kfork task => do let _ ← Uproc.kfork task
  | .kexit task status => do let _ ← Uproc.kexit task status
  | .pageFault ref => do let _ ← Uproc.pageFault ref

/-- In every environment a return leaves the locks of the entry held, and no lock that is held
    is locked. -/
def Disciplined (s : Kernel) (call : LockCall) : Prop :=
  ∀ choices rounds,
    (∀ u s', call.prog.run { s with choices := choices, rounds := rounds } = .ok (u, s') →
      s'.locks = s.locks) ∧
    call.prog.run { s with choices := choices, rounds := rounds } ≠ .error .deadlock

/-- A system call or a fault: its CPU holds none of the module's locks, and the task that forks
    is allocated. -/
def Enters (s : Kernel) : LockCall → Prop
  | .kfork task => (∀ l, s.locks l = false) ∧ s.taskUsed task = true
  | _ => ∀ l, s.locks l = false

/-- kfork of a task without a mapped page that returns, and kexit that reaches destroy_task. -/
def Breaks (s : Kernel) : LockCall → Prop
  | .kfork task => headOf s task = 0 ∧ copyAreas [] (s.tasks task).vmAreas ≠ none ∧
      ∃ c, c ≠ 0 ∧ s.taskUsed c = false
  | .kexit task _ => TornDown s task
  | _ => False

theorem drop_ok {α : Type} {x : Kern α} (h : (do let _ ← x : Kern Unit).run s = .ok (u, s')) :
    ∃ a, x.run s = .ok (a, s') := by
  obtain ⟨a, _, ran, rest⟩ := bind_ok.mp h
  obtain ⟨_, rfl⟩ := pure_ok.mp rest
  exact ⟨a, ran⟩

theorem drop_error {α : Type} {x : Kern α} {e : Stop} :
    (do let _ ← x : Kern Unit).run s = .error e ↔ x.run s = .error e := by
  simp only [bind_error, pure_error, and_false, exists_false, or_false]

theorem turns_disciplined {α : Type} {x : Kern α} {call : LockCall}
    (same : call.prog = do let _ ← x) (turns : Turns s.locks s.locks x) : Disciplined s call := by
  intro choices rounds
  obtain ⟨ends, stops⟩ := turns { s with choices := choices, rounds := rounds } rfl
  rw [same]
  refine ⟨fun u s' h => ?_, fun h => stops _ (drop_error.mp h) rfl⟩
  obtain ⟨a, ran⟩ := drop_ok h
  exact ends a s' ran

theorem kfork_disciplined_iff (none_held : ∀ l, s.locks l = false)
    (used : s.taskUsed task = true) :
    Disciplined s (.kfork task) ↔ ¬Breaks s (.kfork task) := by
  constructor
  · rintro disciplined ⟨head, copied, c, real, fresh⟩
    obtain ⟨⟨out, all⟩, copied⟩ := Option.ne_none_iff_exists'.mp copied
    obtain ⟨r, s', ran, held⟩ := kfork_leaves_lock none_held used head copied real fresh
    have kept := (disciplined [c] 1).1 () s' (bind_ok.mpr ⟨r, s', ran, rfl⟩)
    rw [kept, none_held] at held
    cases held
  · intro holds choices rounds
    let start : Kernel := { s with choices := choices, rounds := rounds }
    refine ⟨fun u s' h => ?_, fun h => ?_⟩
    · obtain ⟨r, ran⟩ := drop_ok h
      by_cases head : headOf s task = 0
      · obtain ⟨child, copied⟩ := kfork_empty_ok (by exact used) (by exact head) ran
        exact absurd ⟨head, copied, child⟩ holds
      · exact (kfork_spec none_held start ⟨rfl, head, used⟩).1 r s' ran
    · have failed : (kfork task).run start = .error .deadlock := drop_error.mp h
      exact (kfork_never_deadlocks none_held start rfl).2 _ failed rfl

theorem kexit_disciplined_iff {status : Int} (none_held : ∀ l, s.locks l = false) :
    Disciplined s (.kexit task status) ↔ ¬Breaks s (.kexit task status) := by
  constructor
  · intro disciplined torn
    have stuck : ∃ choices rounds, (kexit task status).run
        { s with choices := choices, rounds := rounds } = .error .deadlock :=
      kexit_hangs none_held torn
    obtain ⟨choices, rounds, hangs⟩ := stuck
    exact (disciplined choices rounds).2 (drop_error.mpr hangs)
  · intro holds choices rounds
    refine ⟨fun u s' h => ?_, fun h => ?_⟩
    · obtain ⟨r, ran⟩ := drop_ok h
      exact (kexit_never_returns (by exact none_held) ran).elim
    · have torn := kexit_torn_down (by exact none_held) (drop_error.mp h)
      exact holds ⟨torn.father, torn.node, torn.queue, torn.pages⟩

/-- kmmap and page_fault keep the lock discipline; kfork and kexit do where they do not come to
    the early return of fork_coppying_new_mapped_pages and to the end of destroy_task. -/
theorem lock_discipline_iff (s : Kernel) (call : LockCall) (enters : Enters s call) :
    Disciplined s call ↔ ¬Breaks s call := by
  cases call with
  | kmmap task addr length prot flags =>
    have kept : Disciplined s (.kmmap task addr length prot flags) :=
      turns_disciplined rfl (turns_kmmap (enters _) (enters _))
    exact ⟨fun _ => id, fun _ => kept⟩
  | kfork task => exact kfork_disciplined_iff enters.1 enters.2
  | kexit task status => exact kexit_disciplined_iff enters
  | pageFault ref =>
    have kept : Disciplined s (.pageFault ref) :=
      turns_disciplined rfl (turns_page_fault enters)
    exact ⟨fun _ => id, fun _ => kept⟩

def firstProcess : Option Kernel :=
  (step (uprocInit (fun _ => ⟨0, 0, 0⟩) (fun _ _ => 0) []) ⟨.create, [1], 4⟩).bind fun s =>
    step s ⟨.pageFault 1 areaStart, [4096, 3], 4⟩

theorem step_none_held {e : Event} (turns : Turns s.locks s.locks (perform e.call))
    (none_held : ∀ l, s.locks l = false) (taken : step s e = some s') :
    ∀ l, s'.locks l = false := by
  let start : Kernel := { s with choices := e.choices, rounds := e.rounds, freed := [] }
  simp only [step] at taken
  split at taken
  · rename_i ran
    obtain rfl := Option.some.inj taken
    intro l
    rw [(turns start rfl).1 _ _ ran]
    exact none_held l
  · cases taken

theorem first_process_enters (started : firstProcess = some s) : ∀ l, s.locks l = false := by
  obtain ⟨m, created, faulted⟩ := Option.bind_eq_some_iff.mp started
  have before : ∀ l, m.locks l = false := by
    refine step_none_held ?_ (fun _ => rfl) created
    exact turns_bind turns_alloc_task fun _ => turns_uproc_create fun _ => rfl
  refine step_none_held ?_ before faulted
  refine turns_get fun s locks => turns_bind (turns_stop_unless (by decide)) fun _ => ?_
  refine turns_bind (turns_set (by exact locks)) fun _ => ?_
  exact turns_bind (turns_page_fault before) fun _ => turns_pure _

def stopOf {α : Type} : Except Stop α → Option Stop
  | .ok _ => none
  | .error e => some e

theorem stop_of_some {α : Type} {r : Except Stop α} {e : Stop} (h : stopOf r = some e) :
    r = .error e := by
  cases r with
  | ok a => cases h
  | error e' => rw [Option.some.inj h]

theorem first_process_runs :
    ∃ s, firstProcess = some s ∧
      (kexit 1 0).run { s with choices := [5, 5], rounds := 4 } = .error .deadlock := by
  have started : firstProcess.isSome = true := by decide +kernel
  obtain ⟨s, process⟩ := Option.isSome_iff_exists.mp started
  refine ⟨s, process, ?_⟩
  have hangs : firstProcess.map (fun s => stopOf ((kexit 1 0).run
      { s with choices := [5, 5], rounds := 4 })) = some (some .deadlock) := by decide +kernel
  rw [process, Option.map_some] at hangs
  exact stop_of_some (Option.some.inj hangs)

theorem lock_discipline_first_process :
    ∃ s, firstProcess = some s ∧ (Disciplined s (.kexit 1 0) ↔ ¬Breaks s (.kexit 1 0)) := by
  obtain ⟨s, started, _⟩ := first_process_runs
  exact ⟨s, started, lock_discipline_iff s (.kexit 1 0) (first_process_enters started)⟩

/-- The first process hangs in its kexit. -/
theorem first_process_hangs :
    ∃ s, firstProcess = some s ∧ Enters s (.kexit 1 0) ∧ ¬Disciplined s (.kexit 1 0) := by
  obtain ⟨s, started, hangs⟩ := first_process_runs
  refine ⟨s, started, first_process_enters started, fun disciplined => ?_⟩
  exact (disciplined [5, 5] 4).2 (drop_error.mpr hangs)

end Discipline

end Uproc
