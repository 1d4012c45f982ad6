import JyyOs.Library.PartialRun
import Mathlib.Data.List.Basic

/-!
kexit of one task on the CPU that runs it, with the traps that land between its steps. A section
under a spinlock lets no trap in, so taking a lock is one step and the section up to its unlock
another. `stored`, `destroyed` and `freed` count what store_pid, destroy_task and pmm->free did for
the task.
-/
namespace Teardown

open PartialRun

section Code

/-- The next step of a kexit; `spinning` waits for a lock the task itself holds. -/
inductive Pc where
  | kill
  | father (i : Nat)
  | signalLock
  | signalUnlock
  | storeLock
  | storeUnlock
  | destroyLock
  | destroyBody
  | destroyRelock
  | spinning
  | teardownLock
  | teardownUnlock
  | free
  | returned
  deriving DecidableEq

structure Frame where
  pc : Pc
  before : Bool
  deriving DecidableEq

structure State where
  killed : Bool
  frames : List Frame
  ienabled : Bool
  noff : Nat
  intena : Bool
  vmeLock : Bool
  stored : Nat
  destroyed : Nat
  freed : Nat
  deriving DecidableEq

def running : State := ⟨false, [], true, 0, false, false, 0, 0, 0⟩

def State.pushOff (s : State) : State :=
  { s with
    ienabled := false
    intena := if s.noff = 0 then s.ienabled else s.intena
    noff := s.noff + 1 }

def State.popOff (s : State) : State :=
  { s with
    noff := s.noff - 1
    ienabled := if s.noff - 1 = 0 ∧ s.intena = true then true else s.ienabled }

/-- spin_lock of vme_lock, which no other task takes. -/
def State.lockVme (s : State) (next : Pc) : State × Pc :=
  if s.vmeLock = true then (s.pushOff, .spinning) else ({ s.pushOff with vmeLock := true }, next)

/-- A step of the kexit at `pc`; `entry` is the process id in the entry of task_list that the
    search for the father reads, `none` for a NULL entry. -/
def kexitStep (ppid : Nat) (entry : Option Nat) (s : State) : Pc → Option (State × Pc)
  | .kill => some ({ s with killed := true }, if ppid ≠ 0 then .father 1 else .storeLock)
  | .father i =>
    if i < 32768 then
      match entry with
      | none => none
      | some pid => some (s, if pid = ppid then .signalLock else .father (i + 1))
    else some (s, .signalLock)
  | .signalLock => some (s.pushOff, .signalUnlock)
  | .signalUnlock => some (s.popOff, .storeLock)
  | .storeLock => some (s.pushOff, .storeUnlock)
  | .storeUnlock => some ({ s.popOff with stored := s.stored + 1 }, .destroyLock)
  | .destroyLock => some (s.lockVme .destroyBody)
  | .destroyBody => some ({ s with destroyed := s.destroyed + 1 }, .destroyRelock)
  | .destroyRelock => some (s.lockVme .teardownLock)
  | .spinning => some (s, .spinning)
  | .teardownLock => some (s.pushOff, .teardownUnlock)
  | .teardownUnlock => some (s.popOff, .free)
  | .free => some ({ s with freed := s.freed + 1 }, .returned)
  | .returned => none

/-- A trap of a timer or a device, a kkill of the task, its SYS_exit, and a step of the kexit that
    runs. -/
inductive Event where
  | trap
  | kkill
  | exit
  | go (entry : Option Nat)
  deriving DecidableEq

/-- os_trap, for a trap that is no system call: the handlers change nothing in a kexit. -/
def trap (s : State) : State :=
  if s.killed = true then
    { s with frames := ⟨.kill, s.ienabled⟩ :: s.frames, ienabled := false }
  else s

/-- SYS_exit: os_trap looks at `killed` first, syscall enables the interrupts. -/
def exitCall (s : State) : State :=
  { s with frames := ⟨.kill, s.ienabled⟩ :: s.frames, ienabled := !s.killed }

def step (ppid : Nat) (s : State) : Event → Option State
  | .trap => if s.ienabled = true then some (trap s) else none
  | .kkill => some { s with killed := true }
  | .exit => if s.frames = [] then some (exitCall s) else none
  | .go entry =>
    match s.frames with
    | [] => none
    | frame :: rest =>
      if frame.pc = .returned then some { s with frames := rest, ienabled := frame.before }
      else
        match kexitStep ppid entry s frame.pc with
        | none => none
        | some (s', pc) => some { s' with frames := ⟨pc, frame.before⟩ :: rest }

end Code

section Once

/-- Each part of the teardown happened at most once. -/
structure AtMostOnce (s : State) : Prop where
  stored : s.stored ≤ 1
  destroyed : s.destroyed ≤ 1
  freed : s.freed ≤ 1

def State.place (s : State) : Pc :=
  match s.frames with
  | [] => .kill
  | frame :: _ => frame.pc

/-- No trap between store_pid and the lock of destroy_task. -/
def Calm (s : State) : Event → Prop
  | .trap => s.place ≠ .destroyLock
  | .kkill | .exit | .go _ => True

structure Torn (s : State) (stored destroyed : Nat) (vmeLock : Bool) : Prop where
  stored : s.stored = stored
  destroyed : s.destroyed = destroyed
  freed : s.freed = 0
  vmeLock : s.vmeLock = vmeLock

def Reached (s : State) : Pc → Prop
  | .kill | .father _ | .signalLock | .signalUnlock | .storeLock | .storeUnlock => Torn s 0 0 false
  | .destroyLock => Torn s 1 0 false
  | .destroyBody => Torn s 1 0 true ∧ s.ienabled = false
  | .destroyRelock | .spinning => Torn s 1 1 true ∧ s.ienabled = false
  | .teardownLock | .teardownUnlock | .free | .returned => False

variable {ppid : Nat} {entry : Option Nat} {s s' : State} {pc pc' : Pc}

theorem Torn.moved {stored destroyed : Nat} {vmeLock : Bool} (torn : Torn s stored destroyed vmeLock)
    (killed : Bool) (frames : List Frame) (ienabled : Bool) :
    Torn { s with killed := killed, frames := frames, ienabled := ienabled } stored destroyed
      vmeLock :=
  ⟨torn.stored, torn.destroyed, torn.freed, torn.vmeLock⟩

theorem Reached.moved (reached : Reached s pc) (killed : Bool) (frames : List Frame) :
    Reached { s with killed := killed, frames := frames } pc := by
  cases pc with
  | kill | father i | signalLock | signalUnlock | storeLock | storeUnlock | destroyLock =>
    exact Torn.moved reached killed frames s.ienabled
  | destroyBody | destroyRelock | spinning =>
    exact ⟨reached.1.moved killed frames s.ienabled, reached.2⟩
  | teardownLock | teardownUnlock | free | returned => exact reached

theorem reached_step (reached : Reached s pc) (taken : kexitStep ppid entry s pc = some (s', pc')) :
    Reached s' pc' := by
  cases pc with
  | kill =>
    cases taken
    split
    · exact Torn.moved reached true s.frames s.ienabled
    · exact Torn.moved reached true s.frames s.ienabled
  | father i =>
    simp only [kexitStep] at taken
    split at taken
    · split at taken
      · cases taken
      · cases taken
        split
        · exact reached
        · exact reached
    · cases taken
      exact reached
  | signalLock | signalUnlock | storeLock =>
    cases taken
    exact ⟨reached.stored, reached.destroyed, reached.freed, reached.vmeLock⟩
  | storeUnlock =>
    cases taken
    exact ⟨congrArg Nat.succ reached.stored, reached.destroyed, reached.freed, reached.vmeLock⟩
  | destroyLock =>
    have free : s.vmeLock ≠ true := by
      rw [reached.vmeLock]
      exact Bool.false_ne_true
    rw [kexitStep, State.lockVme, if_neg free] at taken
    cases taken
    exact ⟨⟨reached.stored, reached.destroyed, reached.freed, rfl⟩, rfl⟩
  | destroyBody =>
    cases taken
    obtain ⟨torn, masked⟩ := reached
    exact ⟨⟨torn.stored, congrArg Nat.succ torn.destroyed, torn.freed, torn.vmeLock⟩, masked⟩
  | destroyRelock =>
    obtain ⟨torn, _⟩ := reached
    rw [kexitStep, State.lockVme, if_pos torn.vmeLock] at taken
    cases taken
    exact ⟨⟨torn.stored, torn.destroyed, torn.freed, torn.vmeLock⟩, rfl⟩
  | spinning =>
    cases taken
    exact reached
  | teardownLock | teardownUnlock | free | returned => exact absurd reached id

theorem reached_untouched (reached : Reached s pc) (enabled : s.ienabled = true)
    (calm : pc ≠ .destroyLock) : Torn s 0 0 false := by
  cases pc with
  | kill | father i | signalLock | signalUnlock | storeLock | storeUnlock => exact reached
  | destroyLock => exact absurd rfl calm
  | destroyBody | destroyRelock | spinning =>
    obtain ⟨_, masked⟩ := reached
    exact absurd (masked.symm.trans enabled) (by decide)
  | teardownLock | teardownUnlock | free | returned => exact absurd reached id

/-- The innermost kexit says how far the teardown is: it does not return. -/
theorem step_reached {e : Event} (reached : Reached s s.place) (calm : Calm s e)
    (taken : step ppid s e = some s') : Reached s' s'.place := by
  cases e with
  | trap =>
    rw [step] at taken
    split at taken
    · rename_i enabled
      cases taken
      rw [trap]
      split
      · exact (reached_untouched reached enabled calm).moved s.killed _ false
      · exact reached
    · cases taken
  | kkill =>
    cases taken
    exact reached.moved true s.frames
  | exit =>
    rw [step] at taken
    split at taken
    · rename_i frames
      cases taken
      rw [State.place, frames] at reached
      exact Torn.moved reached s.killed _ _
    · cases taken
  | go entry =>
    rw [step] at taken
    cases frames : s.frames with
    | nil =>
      rw [frames] at taken
      cases taken
    | cons frame rest =>
      rw [State.place, frames] at reached
      simp only [frames] at taken
      split at taken
      · rename_i back
        have ended : Reached s .returned := back ▸ reached
        exact absurd ended id
      · split at taken
        · cases taken
        · rename_i s1 pc stepped
          cases taken
          exact Reached.moved (reached_step reached stepped) s1.killed _

theorem at_most_one {n m : Nat} (counted : n = m) (small : m ≤ 1) : n ≤ 1 :=
  counted ▸ small

theorem reached_once (reached : Reached s pc) : AtMostOnce s := by
  cases pc with
  | kill | father i | signalLock | signalUnlock | storeLock | storeUnlock | destroyLock =>
    exact ⟨at_most_one reached.stored (by decide), at_most_one reached.destroyed (by decide),
      at_most_one reached.freed (by decide)⟩
  | destroyBody | destroyRelock | spinning =>
    obtain ⟨torn, _⟩ := reached
    exact ⟨at_most_one torn.stored (by decide), at_most_one torn.destroyed (by decide),
      at_most_one torn.freed (by decide)⟩
  | teardownLock | teardownUnlock | free | returned => exact absurd reached id

/-- As long as no trap lands between store_pid and the lock of destroy_task, nothing of the teardown
    happens twice. -/
theorem torn_down_once (ppid : Nat) (events : List Event)
    (calm : EachStep (step ppid) Calm running events) :
    Throughout (step ppid) AtMostOnce running events := by
  have start : Reached running running.place := ⟨rfl, rfl, rfl, rfl⟩
  have kept : ∀ s e s', Reached s s.place → Calm s e → step ppid s e = some s' →
      Reached s' s'.place := fun s e s' reached calm taken => step_reached reached calm taken
  exact throughout_mono (fun s reached => reached_once reached)
    (throughout_of_each_step kept events start calm)

instance (s : State) : ∀ e, Decidable (Calm s e)
  | .trap => inferInstanceAs (Decidable (s.place ≠ .destroyLock))
  | .kkill | .exit | .go _ => isTrue trivial

/-- A child of process 1 that exits, a kkill of it and a trap on the way to sem_signal. -/
def trapBeforeStore : List Event :=
  [.exit, .go none, .kkill, .trap, .go none, .go (some 1), .go none, .go none, .go none, .go none,
    .go none, .go none, .go none, .go none]

theorem trap_before_store_once :
    (run (step 1) running trapBeforeStore).map (fun s => (s.stored, s.destroyed)) = some (1, 1) ∧
      Throughout (step 1) AtMostOnce running trapBeforeStore :=
  ⟨rfl, torn_down_once 1 trapBeforeStore (by decide +kernel)⟩

def trapAfterStore : List Event :=
  [.exit, .go none, .go none, .go none, .trap, .go none, .go none, .go none]

theorem pid_stored_twice : ¬ Throughout (step 0) AtMostOnce running trapAfterStore := by
  intro once
  have final : run (step 0) running trapAfterStore = some _ := rfl
  exact absurd (throughout_of_run once final).stored (by decide)

end Once

end Teardown
