import Mathlib.Logic.Function.Basic
import Mathlib.Data.Int.Basic

/-!
kmt.c: tasks, CPUs and semaphores. A section under a spinlock is one step, so lock words are
left out. A failed assertion, a panic, a NULL dereference, an index outside an array and a
division by zero are all `none`. The context of a trap is a token, `none` is NULL.
-/
namespace Kmt

/-- A task_t pointer: NULL, the idle task of a CPU or the task kmt_create gave a pid. -/
inductive TaskPtr where
  | null
  | idle (cpu : Nat)
  | task (pid : Nat)
  deriving DecidableEq, Repr

abbrev Context := Option Nat

structure Task where
  context : Nat → Context
  pid : Nat
  nestedInterrupt : Int
  block : Bool
  isRunning : Bool

structure CpuTasks where
  currentTask : TaskPtr
  saveTask : TaskPtr
  idleTask : TaskPtr

structure Sem where
  resource : Int
  taskCnt : Nat
  taskList : Nat → TaskPtr

abbrev kMaxTask : Nat := 1024

/-- What a CPU is doing: running its current task, inside the loop of kmt_schedule with `i`
    candidates examined, or past the loop with a fine task. -/
inductive Mode where
  | running
  | examining (i : Nat)
  | picked
  deriving DecidableEq, Repr

inductive WaitPc where
  | outside
  | reread (sem : Nat)
  | yielding (sem : Nat)
  | yielded (sem : Nat)
  deriving DecidableEq, Repr

structure State where
  cpuList : Nat → CpuTasks
  tasks : TaskPtr → Task
  taskList : Nat → TaskPtr
  taskCnt : Nat
  sems : Nat → Sem
  mode : Nat → Mode
  pc : TaskPtr → WaitPc

def State.current (s : State) (cpu : Nat) : TaskPtr := (s.cpuList cpu).currentTask
def State.save (s : State) (cpu : Nat) : TaskPtr := (s.cpuList cpu).saveTask

def State.setTask (s : State) (t : TaskPtr) (task : Task) : State :=
  { s with tasks := Function.update s.tasks t task }

def State.setCurrent (s : State) (cpu : Nat) (t : TaskPtr) : State :=
  { s with cpuList := Function.update s.cpuList cpu { s.cpuList cpu with currentTask := t } }

def State.setSave (s : State) (cpu : Nat) (t : TaskPtr) : State :=
  { s with cpuList := Function.update s.cpuList cpu { s.cpuList cpu with saveTask := t } }

def State.setMode (s : State) (cpu : Nat) (mode : Mode) : State :=
  { s with mode := Function.update s.mode cpu mode }

def State.setPc (s : State) (t : TaskPtr) (pc : WaitPc) : State :=
  { s with pc := Function.update s.pc t pc }

/-- `context[nested_interrupt++] = c`, with `context[0] = c` for an idle task. -/
def saveContext (task : Task) (c : Context) : Option Task :=
  if 0 < task.pid then
    if 0 ≤ task.nestedInterrupt ∧ task.nestedInterrupt < 2 then
      some { task with
        context := Function.update task.context task.nestedInterrupt.toNat c
        nestedInterrupt := task.nestedInterrupt + 1 }
    else none
  else some { task with context := Function.update task.context 0 c }

def releaseTask (task : Task) : Option Task :=
  let task := { task with isRunning := false, nestedInterrupt := task.nestedInterrupt - 1 }
  if 0 ≤ task.nestedInterrupt ∧ task.nestedInterrupt < 3 then some task else none

def kmtContextSave (s : State) (cpu : Nat) (c : Context) : Option State :=
  let curTask := s.current cpu
  if curTask = .null then none
  else
    match saveContext (s.tasks curTask) c with
    | none => none
    | some task =>
      let s := s.setTask curTask task
      let saveTask := s.save cpu
      if saveTask ≠ .null ∧ saveTask ≠ curTask ∧ 0 < (s.tasks saveTask).pid then
        match releaseTask (s.tasks saveTask) with
        | none => none
        | some task => some ((s.setTask saveTask task).setSave cpu curTask)
      else some (s.setSave cpu curTask)

def kmtScheduleEnter (s : State) (cpu : Nat) : State :=
  let s := if s.current cpu = .null then s.setCurrent cpu (s.cpuList cpu).idleTask else s
  s.setMode cpu (.examining 0)

/-- One round of the loop of kmt_schedule; `r` is what rand() returned. -/
def kmtScheduleExamine (s : State) (cpu i r : Nat) : Option State :=
  if s.taskCnt - 1 = 0 then none
  else
    let cand := s.taskList (r % (s.taskCnt - 1) + 1)
    let task := s.tasks cand
    if cand = .null then none
    else if cand = s.current cpu then
      if task.block then some (s.setMode cpu (.examining (i + 1)))
      else
        some ((s.setTask cand { task with nestedInterrupt := task.nestedInterrupt - 1 }).setMode
          cpu .picked)
    else if task.isRunning ∨ task.block then some (s.setMode cpu (.examining (i + 1)))
    else some (((s.setTask cand { task with isRunning := true }).setCurrent cpu cand).setMode
      cpu .picked)

def kmtScheduleReturn (s : State) (cpu : Nat) (fineTask : Bool) :
    Option (TaskPtr × Context × State) :=
  if (s.tasks (s.current cpu)).block ∧ fineTask then none
  else if s.current cpu = .null then none
  else
    let s := if fineTask then s else s.setCurrent cpu (s.cpuList cpu).idleTask
    let task := s.tasks (s.current cpu)
    if task.block then none
    else if task.nestedInterrupt < 0 ∨ 2 ≤ task.nestedInterrupt then none
    else
      let ret := if fineTask then task.context task.nestedInterrupt.toNat
        else (s.tasks (s.cpuList cpu).idleTask).context 0
      if fineTask ∧ ret = none then none
      else some (s.current cpu, ret, s.setMode cpu .running)

def kmtSemWait (s : State) (cpu sem : Nat) : Option State :=
  let cur := s.current cpu
  let resource := (s.sems sem).resource - 1
  let s := { s with sems := Function.update s.sems sem { s.sems sem with resource := resource } }
  if resource < 0 ∧ cur ≠ .null then
    let waiting := s.sems sem
    if kMaxTask ≤ waiting.taskCnt then none
    else
      let waiting := { waiting with
        taskList := Function.update waiting.taskList waiting.taskCnt cur
        taskCnt := waiting.taskCnt + 1 }
      let s := { s with sems := Function.update s.sems sem waiting }
      some ((s.setTask cur { s.tasks cur with block := true }).setPc cur (.reread sem))
  else some (s.setPc cur (.reread sem))

def kmtSemSignal (s : State) (sem r : Nat) : Option State :=
  let waiting := { s.sems sem with resource := (s.sems sem).resource + 1 }
  if waiting.resource ≤ 0 ∧ 0 < waiting.taskCnt then
    let taskId := r % waiting.taskCnt
    let woken := waiting.taskList taskId
    if woken = .null then none
    else
      let waiting := { waiting with
        taskCnt := waiting.taskCnt - 1
        taskList := Function.update waiting.taskList taskId
          (waiting.taskList (waiting.taskCnt - 1)) }
      let s := { s with sems := Function.update s.sems sem waiting }
      some (s.setTask woken { s.tasks woken with block := false })
  else some { s with sems := Function.update s.sems sem waiting }

def semInit (value : Nat) : Sem := ⟨value, 0, fun _ => .null⟩

/-- kmt_create on a fresh task_t; `entry` is the context kcontext builds. -/
def kmtCreate (s : State) (entry : Nat) : State :=
  let task := TaskPtr.task s.taskCnt
  let fresh : Task := ⟨Function.update (s.tasks task).context 0 (some entry), s.taskCnt, 0, false,
    false⟩
  { s with
    tasks := Function.update s.tasks task fresh
    taskList := Function.update s.taskList s.taskCnt task
    taskCnt := s.taskCnt + 1 }

def idleTask : Task := ⟨fun _ => some 0, 0, 0, false, false⟩

/-- After kmt_init, with every CPU on its idle task and the semaphores holding `value`. -/
def kmtInit (value : Nat → Nat) : State where
  cpuList cpu := ⟨.idle cpu, .null, .idle cpu⟩
  tasks _ := idleTask
  taskList _ := .null
  taskCnt := 1
  sems k := semInit (value k)
  mode _ := .running
  pc _ := .outside

def createTasks (s : State) (entries : List Nat) : State := entries.foldl kmtCreate s

inductive Event where
  | trap (cpu c : Nat)
  | examine (cpu r : Nat)
  | scheduled (cpu : Nat)
  | waitSection (cpu sem : Nat)
  | waitReread (cpu : Nat)
  | waitYield (cpu c : Nat)
  | waitReturn (cpu : Nat)
  | signal (sem r : Nat)

def enterTrap (s : State) (cpu c : Nat) : Option State :=
  (kmtContextSave s cpu (some c)).map fun s => kmtScheduleEnter s cpu

def step (s : State) : Event → Option State
  | .trap cpu c => if s.mode cpu = .running then enterTrap s cpu c else none
  | .examine cpu r =>
    match s.mode cpu with
    | .examining i => if i < s.taskCnt * 10 then kmtScheduleExamine s cpu i r else none
    | _ => none
  | .scheduled cpu =>
    match s.mode cpu with
    | .picked => (kmtScheduleReturn s cpu true).map fun r => r.2.2
    | .examining i =>
      if i < s.taskCnt * 10 then none else (kmtScheduleReturn s cpu false).map fun r => r.2.2
    | .running => none
  | .waitSection cpu sem =>
    if s.mode cpu = .running ∧ s.pc (s.current cpu) = .outside then kmtSemWait s cpu sem else none
  | .waitReread cpu =>
    match s.mode cpu, s.pc (s.current cpu) with
    | .running, .reread sem =>
      some (s.setPc (s.current cpu)
        (if (s.sems sem).resource < 0 then .yielding sem else .outside))
    | _, _ => none
  | .waitYield cpu c =>
    match s.mode cpu, s.pc (s.current cpu) with
    | .running, .yielding sem => enterTrap (s.setPc (s.current cpu) (.yielded sem)) cpu c
    | _, _ => none
  | .waitReturn cpu =>
    match s.mode cpu, s.pc (s.current cpu) with
    | .running, .yielded _ => some (s.setPc (s.current cpu) .outside)
    | _, _ => none
  | .signal sem r => kmtSemSignal s sem r

end Kmt
