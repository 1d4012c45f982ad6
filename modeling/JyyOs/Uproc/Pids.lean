import JyyOs.Uproc.Effects
import JyyOs.Library.LinkedList
import Mathlib.Data.List.Nodup
import Mathlib.Data.List.Perm.Basic

/-!
Process ids over runs of creations and terminations: new_pid counts up to 32767 and then
reuses stored ids in the order they were stored.
-/
namespace Uproc

open Hoare LinkedList PartialRun

section Queue

structure PidQueue (s : Kernel) (queue : List Nat) : Prop where
  linked : Linked (fun n => (s.pidNodes n).next) 0 s.pHead queue
  tail : s.pTail = queue.getLastD 0
  used : ∀ n ∈ queue, s.pidUsed n = true
  nodup : queue.Nodup

def pidOf (s : Kernel) (n : Nat) : Nat := (s.pidNodes n).pid

def Kernel.dequeued (s : Kernel) : Kernel :=
  let next := (s.pidNodes s.pHead).next
  { s with
    pidUsed := Function.update s.pidUsed s.pHead false
    pHead := next
    pTail := if next = 0 then 0 else s.pTail }

def Kernel.enqueued (s : Kernel) (n pid : Nat) (rest : List Nat) : Kernel :=
  let nodes := Function.update s.pidNodes n ⟨pid, 0⟩
  { s with
    choices := rest
    pidUsed := Function.update s.pidUsed n true
    pidNodes := if s.pHead = 0 then nodes
      else Function.update nodes s.pTail { nodes s.pTail with next := n }
    pHead := if s.pHead = 0 then n else s.pHead
    pTail := n }

variable {s s' : Kernel} {queue : List Nat}

theorem PidQueue.empty (q : PidQueue s queue) : queue = [] ↔ s.pHead = 0 := by
  constructor
  · rintro rfl
    exact q.linked
  · intro none
    cases queue with
    | nil => rfl
    | cons n rest => exact absurd (q.linked.1.symm.trans none) q.linked.2.1

theorem PidQueue.congr (q : PidQueue s queue) (nodes : s'.pidNodes = s.pidNodes)
    (used : s'.pidUsed = s.pidUsed) (head : s'.pHead = s.pHead) (tail : s'.pTail = s.pTail) :
    PidQueue s' queue := by
  refine ⟨?_, tail.trans q.tail, ?_, q.nodup⟩
  · rw [nodes, head]
    exact q.linked
  · rw [used]
    exact q.used

theorem PidQueue.dequeued {n : Nat} {rest : List Nat} (q : PidQueue s (n :: rest)) :
    s.pHead = n ∧ PidQueue s.dequeued rest := by
  obtain ⟨head, _, later⟩ := q.linked
  obtain ⟨n_new, nodup⟩ := List.nodup_cons.mp q.nodup
  subst head
  refine ⟨rfl, later, ?_, fun m hm => ?_, nodup⟩
  · cases rest with
    | nil =>
      have ended : (s.pidNodes s.pHead).next = 0 := later
      simp [Kernel.dequeued, ended]
    | cons m rest =>
      have real : (s.pidNodes s.pHead).next ≠ 0 := fun none =>
        later.2.1 (later.1.symm.trans none)
      rw [Kernel.dequeued, if_neg real]
      exact q.tail
  · have other : m ≠ s.pHead := fun same => n_new (same ▸ hm)
    exact (Function.update_of_ne other ..).trans (q.used m (List.mem_cons_of_mem _ hm))

theorem PidQueue.enqueued {n : Nat} (pid : Nat) (rest : List Nat) (q : PidQueue s queue)
    (real : n ≠ 0) (fresh : s.pidUsed n = false) :
    PidQueue (s.enqueued n pid rest) (queue ++ [n]) ∧
      (queue ++ [n]).map (pidOf (s.enqueued n pid rest)) = queue.map (pidOf s) ++ [pid] := by
  have new : n ∉ queue := fun inside => by
    rw [q.used n inside] at fresh
    cases fresh
  have others : ∀ m ∈ queue, m ≠ n := fun m hm same => new (same ▸ hm)
  have used : ∀ m ∈ queue ++ [n], (s.enqueued n pid rest).pidUsed m = true := by
    intro m hm
    rcases List.mem_append.mp hm with old | last
    · exact (Function.update_of_ne (others m old) ..).trans (q.used m old)
    · obtain rfl := List.mem_singleton.mp last
      exact Function.update_self ..
  have nodup : (queue ++ [n]).Nodup := by
    rw [List.nodup_append]
    exact ⟨q.nodup, List.nodup_singleton n, fun m hm k hk => List.mem_singleton.mp hk ▸ others m hm⟩
  rcases List.eq_nil_or_concat queue with rfl | ⟨front, last, rfl⟩
  · have none : s.pHead = 0 := q.linked
    refine ⟨⟨?_, ?_, used, nodup⟩, ?_⟩
    · simp [Kernel.enqueued, none, Linked, real]
    · simp [Kernel.enqueued]
    · simp [Kernel.enqueued, none, pidOf]
  · rw [List.concat_eq_append] at *
    have some_head : s.pHead ≠ 0 := fun none => by
      have := q.empty.mpr none
      simp at this
    have tail : s.pTail = last := by
      rw [q.tail, List.getLastD_concat]
    have last_old : last ≠ n := others last (by simp)
    have ids : ∀ m, pidOf (s.enqueued n pid rest) m = if m = n then pid else pidOf s m := by
      intro m
      rw [pidOf, Kernel.enqueued]
      simp only [if_neg some_head, tail, Function.update_apply, pidOf]
      by_cases here : m = last
      · subst here
        simp [last_old]
      · rw [if_neg here]
        split <;> rfl
    refine ⟨⟨?_, ?_, used, nodup⟩, ?_⟩
    · have linked : Linked (fun m => (Function.update s.pidNodes n ⟨pid, 0⟩ m).next) 0 s.pHead
          (front ++ [last]) :=
        linked_congr q.linked fun m hm => by
          rw [Nat.add_zero, Function.update_of_ne (others m hm)]
      have appended := linked_enqueue linked q.nodup real new (by
        rw [Nat.add_zero, Function.update_self])
      have same : (fun m => ((s.enqueued n pid rest).pidNodes m).next) =
          Function.update (fun m => (Function.update s.pidNodes n ⟨pid, 0⟩ m).next)
            (last + 0) n := by
        funext m
        rw [Kernel.enqueued]
        simp only [if_neg some_head, tail, Nat.add_zero, Function.update_apply]
        split <;> rfl
      rw [same, List.append_assoc]
      have head : (s.enqueued n pid rest).pHead = s.pHead := if_neg some_head
      rw [head]
      exact appended
    · rw [List.getLastD_concat]
      rfl
    · rw [List.map_append, List.map_singleton, ids n, if_pos rfl]
      refine congrArg (· ++ [pid]) (List.map_congr_left fun m hm => ?_)
      rw [ids m, if_neg (others m hm)]

theorem store_pid_ok {u : Unit} {pid : Nat} (h : (storePid pid).run s = .ok (u, s')) :
    ∃ n rest, s.choices = n :: rest ∧ n ≠ 0 ∧ s.pidUsed n = false ∧ s' = s.enqueued n pid rest := by
  simp only [storePid, allocPidNode, bind_ok, spin_lock_ok, choose_ok, get_ok, stop_unless_ok,
    set_ok, pure_ok, modify_ok, spin_unlock_ok] at h
  obtain ⟨_, _, ⟨free, rfl⟩, n, _, ⟨_, _, ⟨rest, chosen, rfl⟩, _, _, ⟨rfl, rfl⟩, _, _,
    ⟨real, rfl⟩, _, _, ⟨fresh, rfl⟩, _, _, rfl, rfl, rfl⟩, _, _, rfl, _, m, enqueue, _, rfl⟩ := h
  refine ⟨n, rest, chosen, real, fresh, ?_⟩
  simp only [enqueuePid, bind_ok, get_ok] at enqueue
  obtain ⟨_, _, ⟨rfl, rfl⟩, enqueue⟩ := enqueue
  have back := set_lock_back (s := s.enqueued n pid rest) (l := .pid) free
  split at enqueue
  · rename_i none
    simp only [bind_ok, stop_unless_ok, set_ok] at enqueue
    obtain ⟨_, _, ⟨_, rfl⟩, rfl⟩ := enqueue
    rw [← back]
    simp only [Kernel.setLock] at none
    simp [Kernel.enqueued, Kernel.setLock, none]
  · rename_i some_head
    obtain rfl := set_ok.mp enqueue
    rw [← back]
    simp only [Kernel.setLock] at some_head
    simp [Kernel.enqueued, Kernel.setLock, some_head]

theorem new_pid_ok {id : Nat} (h : newPid.run s = .ok (id, s')) :
    (s.taskCnt ≠ maxTask ∧ id = s.taskCnt ∧ s' = { s with taskCnt := s.taskCnt + 1 }) ∨
      (s.taskCnt = maxTask ∧ s.pHead = 0 ∧ id = 0 ∧ s' = s) ∨
      (s.taskCnt = maxTask ∧ s.pHead ≠ 0 ∧ id = pidOf s s.pHead ∧ s' = s.dequeued) := by
  simp only [newPid, bind_ok, get_ok] at h
  obtain ⟨_, _, ⟨rfl, rfl⟩, h⟩ := h
  split at h
  · rename_i full
    simp only [getPid, bind_ok, spin_lock_ok, get_ok] at h
    obtain ⟨_, _, ⟨free, rfl⟩, _, _, ⟨rfl, rfl⟩, h⟩ := h
    split at h
    · rename_i none
      simp only [bind_ok, spin_unlock_ok, pure_ok] at h
      obtain ⟨_, _, ⟨_, rfl⟩, rfl, rfl⟩ := h
      exact .inr (.inl ⟨full, none, rfl, set_lock_back free⟩)
    · rename_i some_head
      simp only [bind_ok, set_ok, spin_unlock_ok, pure_ok] at h
      obtain ⟨_, _, rfl, _, _, ⟨_, rfl⟩, rfl, rfl⟩ := h
      exact .inr (.inr ⟨full, some_head, rfl, set_lock_back (s := s.dequeued) free⟩)
  · rename_i more
    simp only [bind_ok, set_ok, pure_ok] at h
    obtain ⟨_, _, rfl, rfl, rfl⟩ := h
    exact .inl ⟨more, rfl, rfl⟩

end Queue

section Run

/-- The module with the pids of the living processes, and all pids stored and reissued so far,
    in order. -/
structure PidRun where
  k : Kernel
  alive : List Nat
  stored : List Nat
  reissued : List Nat

inductive PidEvent where
  | create (task : Nat)
  | exit (pid : Nat) (choices : List Nat)

/-- A process is created by uproc_init or kfork, or kexit gives back its pid. -/
def pidStep (s : PidRun) : PidEvent → Option PidRun
  | .create task =>
    match (kforkEnter task).run s.k with
    | .ok (pid, k) =>
      some
        { k := k
          alive := pid :: s.alive
          stored := s.stored
          reissued := if s.k.taskCnt = maxTask ∧ s.k.pHead ≠ 0 then s.reissued ++ [pid]
            else s.reissued }
    | .error _ => none
  | .exit pid choices =>
    if pid ∈ s.alive then
      match (storePid pid).run { s.k with choices := choices } with
      | .ok (_, k) => some { s with
          k := k, alive := s.alive.erase pid, stored := s.stored ++ [pid] }
      | .error _ => none
    else none

structure PidsOk (s : PidRun) : Prop where
  unique : s.alive.Nodup
  range : ∀ pid ∈ s.alive, 1 ≤ pid ∧ pid < maxTask
  fifo : ∃ waiting, s.reissued ++ waiting = s.stored

/-- What kfork returns to the parent tells a failure: neither a pid nor the 0 of the child. -/
def ReportsFailure (ret : Int) : Prop := ret < 0

/-- A creation that finds every pid in use reports failure and leaves task_list alone. -/
def RefusesWhenFull (s : PidRun) : PidEvent → Prop
  | .create task => (∀ pid, 1 ≤ pid → pid < maxTask → pid ∈ s.alive) →
      ∀ ret k, (kforkEnter task).run s.k = .ok (ret, k) →
        ReportsFailure ret ∧ k.taskList = s.k.taskList
  | .exit .. => True

/-- new_pid finds the counter below its bound or a stored pid. -/
def PidLeft (s : PidRun) : PidEvent → Prop
  | .create _ => s.k.taskCnt ≠ maxTask ∨ s.k.pHead ≠ 0
  | .exit .. => True

/-- The pids handed out so far are alive or wait in the queue, each in one place. -/
structure PidInv (s : PidRun) (queue : List Nat) : Prop where
  linked : PidQueue s.k queue
  counted : 1 ≤ s.k.taskCnt ∧ s.k.taskCnt ≤ maxTask
  places : (s.alive ++ queue.map (pidOf s.k)).Perm (List.range' 1 (s.k.taskCnt - 1))
  fifo : s.reissued ++ queue.map (pidOf s.k) = s.stored

variable {s s' : PidRun} {queue : List Nat}

theorem PidInv.ok (inv : PidInv s queue) : PidsOk s := by
  refine ⟨?_, fun pid alive => ?_, _, inv.fifo⟩
  · have nodup := inv.places.nodup_iff.mpr List.nodup_range'
    exact (List.nodup_append.mp nodup).1
  · have inside := inv.places.mem_iff.mp (List.mem_append_left _ alive)
    have counted := inv.counted
    rw [List.mem_range'_1] at inside
    omega

theorem kfork_enter_ok {k k' : Kernel} {task pid : Nat}
    (h : (kforkEnter task).run k = .ok (pid, k')) :
    ∃ m, newPid.run k = .ok (pid, m) ∧ k'.taskList = Function.update m.taskList pid task ∧
      k'.taskCnt = m.taskCnt ∧ k'.pidNodes = m.pidNodes ∧ k'.pidUsed = m.pidUsed ∧
      k'.pHead = m.pHead ∧ k'.pTail = m.pTail := by
  simp only [kforkEnter, bind_ok, modify_ok, spin_lock_ok, spin_unlock_ok, pure_ok] at h
  obtain ⟨id, m, new, _, _, rfl, _, _, ⟨_, rfl⟩, _, _, rfl, _, _, ⟨_, rfl⟩, rfl, rfl⟩ := h
  exact ⟨m, new, rfl, rfl, rfl, rfl, rfl, rfl⟩

theorem PidInv.counter {task : Nat} (inv : PidInv s queue) (more : s.k.taskCnt ≠ maxTask)
    (taken : pidStep s (.create task) = some s') :
    PidInv s' queue ∧ s.k.taskCnt ∉ s.alive := by
  have bound := inv.counted
  have new : s.k.taskCnt ∉ s.alive := by
    intro alive
    have inside := inv.places.mem_iff.mp (List.mem_append_left _ alive)
    rw [List.mem_range'_1] at inside
    omega
  refine ⟨?_, new⟩
  simp only [pidStep] at taken
  split at taken
  · rename_i pid k' ran
    cases taken
    obtain ⟨m, entered, _, cnt, nodes, used, head, tail⟩ := kfork_enter_ok ran
    rcases new_pid_ok entered with ⟨_, rfl, rfl⟩ | ⟨full, _⟩ | ⟨full, _⟩
    · have ids : pidOf k' = pidOf s.k := by
        funext n
        rw [pidOf, nodes, pidOf]
      simp only [if_neg (fun h : s.k.taskCnt = maxTask ∧ s.k.pHead ≠ 0 => more h.1)]
      refine ⟨inv.linked.congr nodes used head tail, ?_, ?_, ?_⟩
      · simp only [cnt]
        omega
      · simp only [cnt, ids]
        have grown : s.k.taskCnt + 1 - 1 = (s.k.taskCnt - 1) + 1 := by omega
        rw [grown, List.range'_concat, List.cons_append]
        refine (inv.places.cons _).trans ?_
        rw [show 1 + 1 * (s.k.taskCnt - 1) = s.k.taskCnt by omega]
        exact (List.perm_append_singleton _ _).symm
      · simp only [ids]
        exact inv.fifo
    · exact absurd full more
    · exact absurd full more
  · cases taken

theorem PidInv.reissue {task n : Nat} {rest : List Nat} (inv : PidInv s (n :: rest))
    (full : s.k.taskCnt = maxTask) (taken : pidStep s (.create task) = some s') :
    PidInv s' rest ∧ pidOf s.k n ∉ s.alive := by
  obtain ⟨head_n, dequeued⟩ := inv.linked.dequeued
  have some_head : s.k.pHead ≠ 0 := fun none => by
    have := inv.linked.empty.mpr none
    simp at this
  have nodup := inv.places.nodup_iff.mpr List.nodup_range'
  refine ⟨?_, fun alive => ?_⟩
  · simp only [pidStep] at taken
    split at taken
    · rename_i pid k' ran
      cases taken
      obtain ⟨m, entered, _, cnt, nodes, used, head, tail⟩ := kfork_enter_ok ran
      rcases new_pid_ok entered with ⟨more, _⟩ | ⟨_, none, _⟩ | ⟨_, _, rfl, rfl⟩
      · exact absurd full more
      · exact absurd none some_head
      · have ids : pidOf k' = pidOf s.k := by
          funext m
          rw [pidOf, nodes]
          rfl
        simp only [if_pos (⟨full, some_head⟩ : s.k.taskCnt = maxTask ∧ s.k.pHead ≠ 0)]
        refine ⟨dequeued.congr nodes used head tail, ?_, ?_, ?_⟩
        · simp only [cnt]
          exact inv.counted
        · have same : k'.taskCnt = s.k.taskCnt := cnt
          simp only [same, ids, head_n]
          exact List.perm_middle.symm.trans inv.places
        · simp only [ids, head_n, List.append_assoc]
          exact inv.fifo
    · cases taken
  · have apart := (List.nodup_append.mp nodup).2.2 _ alive (pidOf s.k n) (by simp)
    exact apart rfl

theorem PidInv.exited {pid : Nat} {choices : List Nat} (inv : PidInv s queue)
    (taken : pidStep s (.exit pid choices) = some s') : ∃ queue', PidInv s' queue' := by
  simp only [pidStep] at taken
  split at taken
  · rename_i alive
    split at taken
    · rename_i u k' ran
      cases taken
      obtain ⟨n, rest, _, real, fresh, rfl⟩ := store_pid_ok ran
      have q : PidQueue { s.k with choices := choices } queue := inv.linked.congr rfl rfl rfl rfl
      obtain ⟨queue', ids⟩ := q.enqueued pid rest real fresh
      refine ⟨queue ++ [n], queue', inv.counted, ?_, ?_⟩
      · rw [ids]
        refine List.Perm.trans ?_ inv.places
        have front := (List.perm_cons_erase alive).append_right (queue.map (pidOf s.k))
        refine List.Perm.trans ?_ front.symm
        rw [← List.append_assoc]
        exact List.perm_append_singleton _ _
      · rw [ids, ← List.append_assoc]
        exact congrArg (· ++ [pid]) inv.fifo
    · cases taken
  · cases taken

/-- A creation without a pid left hands out pid 0. -/
theorem exhausted_create {task : Nat} (full : s.k.taskCnt = maxTask) (none : s.k.pHead = 0)
    (taken : pidStep s (.create task) = some s') : s'.alive = 0 :: s.alive := by
  simp only [pidStep] at taken
  split at taken
  · rename_i pid k' ran
    cases taken
    obtain ⟨m, entered, _⟩ := kfork_enter_ok ran
    rcases new_pid_ok entered with ⟨more, _⟩ | ⟨_, _, rfl, _⟩ | ⟨_, some_head, _⟩
    · exact absurd full more
    · rfl
    · exact absurd none some_head
  · cases taken

theorem pid_step_kept {e : PidEvent} (inv : PidInv s queue) (left : PidLeft s e)
    (taken : pidStep s e = some s') :
    (∃ queue', PidInv s' queue') ∧ PidsOk s' ∧ RefusesWhenFull s e := by
  cases e with
  | create task =>
    have counted := inv.counted
    by_cases full : s.k.taskCnt = maxTask
    · have some_head := left.resolve_left fun more => more full
      cases queue with
      | nil => exact absurd (inv.linked.empty.mp rfl) some_head
      | cons n rest =>
        obtain ⟨inv', new⟩ := inv.reissue full taken
        have inside := inv.places.mem_iff.mp
          (List.mem_append_right s.alive (List.mem_cons_self (a := pidOf s.k n)))
        rw [List.mem_range'_1] at inside
        exact ⟨⟨_, inv'⟩, inv'.ok, fun all => absurd (all _ inside.1 (by omega)) new⟩
    · obtain ⟨inv', new⟩ := inv.counter full taken
      exact ⟨⟨_, inv'⟩, inv'.ok, fun all => absurd (all _ counted.1 (by omega)) new⟩
  | exit pid choices =>
    obtain ⟨queue', inv'⟩ := inv.exited taken
    exact ⟨⟨queue', inv'⟩, inv'.ok, trivial⟩

theorem pid_step_needs {e : PidEvent} (ok : PidsOk s') (taken : pidStep s e = some s') :
    PidLeft s e := by
  cases e with
  | create task =>
    by_contra exhausted
    obtain ⟨full, none⟩ := not_or.mp exhausted
    have zero := exhausted_create (not_not.mp full) (not_not.mp none) taken
    have := ok.range 0 (by rw [zero]; exact List.mem_cons_self)
    omega
  | exit pid choices => trivial

def pidBoot (nodes : Nat → MPage) (phys : Nat → Nat → Nat) (initCode : List Nat) : PidRun :=
  ⟨uprocInit nodes phys initCode, [], [], []⟩

theorem pid_boot_inv (nodes : Nat → MPage) (phys : Nat → Nat → Nat) (initCode : List Nat) :
    PidInv (pidBoot nodes phys initCode) [] :=
  ⟨⟨rfl, rfl, by simp, List.nodup_nil⟩, by simp [pidBoot, uprocInit, maxTask],
    by simp [pidBoot, uprocInit], rfl⟩

/-- Pids are unique, in range, reissued in order and refused when all are in use, in exactly the
    runs in which no process is created while all pids are in use. -/
theorem pids_unique_iff (nodes : Nat → MPage) (phys : Nat → Nat → Nat) (initCode : List Nat)
    (events : List PidEvent) :
    (Throughout pidStep PidsOk (pidBoot nodes phys initCode) events ∧
        EachStep pidStep RefusesWhenFull (pidBoot nodes phys initCode) events) ↔
      EachStep pidStep PidLeft (pidBoot nodes phys initCode) events := by
  have boot := pid_boot_inv nodes phys initCode
  have start : ∃ queue, PidInv (pidBoot nodes phys initCode) queue := ⟨[], boot⟩
  exact throughout_and_each_iff
    (fun s e s' (inv : ∃ queue, PidInv s queue) left taken =>
      pid_step_kept inv.choose_spec left taken)
    (fun s e s' _ taken ok _ => pid_step_needs ok taken) events start boot.ok

def Kernel.entered (m : Kernel) (task id : Nat) : Kernel :=
  { m with
    tasks := Function.update m.tasks task { m.tasks task with pid := id }
    taskList := Function.update m.taskList id task }

theorem create_runs {k m : Kernel} {id : Nat} (alive : List Nat) (task : Nat)
    (entered : newPid.run k = .ok (id, m)) (unlocked : m.locks .taskInit = false)
    (empty : k.pHead = 0) :
    pidStep ⟨k, alive, [], []⟩ (.create task) = some ⟨m.entered task id, id :: alive, [], []⟩ := by
  have ran : (kforkEnter task).run k = .ok (id, m.entered task id) := by
    simp only [kforkEnter, bind_ok, modify_ok, spin_lock_ok, spin_unlock_ok, pure_ok]
    refine ⟨id, m, entered, (), _, rfl, (), _, ⟨unlocked, rfl⟩, (), _, rfl, (), _,
      ⟨by simp, rfl⟩, rfl, ?_⟩
    have free : (m.entered task id).locks .taskInit = false := unlocked
    rw [← set_lock_back free]
    rfl
  simp [pidStep, ran, empty]

theorem many_creations (k : Kernel) (alive : List Nat) {n : Nat} (empty : k.pHead = 0)
    (unlocked : ∀ l, k.locks l = false) (room : k.taskCnt + n ≤ maxTask) {rest : List PidEvent}
    {P : PidRun → Prop}
    (all : Throughout pidStep P ⟨k, alive, [], []⟩ (List.replicate n (.create 1) ++ rest)) :
    ∃ k' alive', k'.taskCnt = k.taskCnt + n ∧ k'.pHead = 0 ∧ (∀ l, k'.locks l = false) ∧
      Throughout pidStep P ⟨k', alive', [], []⟩ rest := by
  induction n generalizing k alive with
  | zero => exact ⟨k, alive, rfl, empty, unlocked, all⟩
  | succ n ih =>
    have more : k.taskCnt ≠ maxTask := by omega
    have entered : newPid.run k = .ok (k.taskCnt, { k with taskCnt := k.taskCnt + 1 }) := by
      simp only [newPid, bind_ok, get_ok]
      refine ⟨k, k, ⟨rfl, rfl⟩, ?_⟩
      rw [if_neg more]
      rfl
    have later := all.2 _ (create_runs alive 1 entered (unlocked .taskInit) empty)
    have room' : k.taskCnt + 1 + n ≤ maxTask := by omega
    obtain ⟨k', alive', cnt, head, locks, states⟩ :=
      ih (({ k with taskCnt := k.taskCnt + 1 } : Kernel).entered 1 k.taskCnt)
        (k.taskCnt :: alive) empty unlocked room' later
    refine ⟨k', alive', ?_, head, locks, states⟩
    have cnt' : k'.taskCnt = k.taskCnt + 1 + n := cnt
    omega

/-- 32768 processes at the same time: the last one gets pid 0. -/
theorem last_creation_gets_zero :
    ¬(Throughout pidStep PidsOk (pidBoot (fun _ => ⟨0, 0, 0⟩) (fun _ _ => 0) [])
        (List.replicate 32767 (.create 1) ++ [.create 1]) ∧
      EachStep pidStep RefusesWhenFull (pidBoot (fun _ => ⟨0, 0, 0⟩) (fun _ _ => 0) [])
        (List.replicate 32767 (.create 1) ++ [.create 1])) := by
  rintro ⟨all, _⟩
  obtain ⟨k, alive, cnt, head, unlocked, states⟩ :=
    many_creations (uprocInit (fun _ => ⟨0, 0, 0⟩) (fun _ _ => 0) []) [] rfl (fun _ => rfl)
      (by simp [uprocInit, maxTask]) all
  have full : k.taskCnt = maxTask := by
    rw [cnt]
    simp [uprocInit, maxTask]
  have entered : newPid.run k = .ok (0, k) := by
    simp only [newPid, getPid, bind_ok, get_ok]
    refine ⟨k, k, ⟨rfl, rfl⟩, ?_⟩
    rw [if_pos full]
    simp only [bind_ok, spin_lock_ok, get_ok]
    refine ⟨(), _, ⟨unlocked .pid, rfl⟩, _, _, ⟨rfl, rfl⟩, ?_⟩
    rw [if_pos (show (k.setLock .pid true).pHead = 0 from head)]
    simp only [bind_ok, spin_unlock_ok, pure_ok]
    exact ⟨(), _, ⟨by simp, rfl⟩, trivial, set_lock_back (unlocked .pid)⟩
  have ok : PidsOk ⟨k.entered 1 0, 0 :: alive, [], []⟩ :=
    states.2 _ (create_runs alive 1 entered (unlocked .taskInit) head)
  have := ok.range 0 List.mem_cons_self
  omega

end Run

end Uproc
