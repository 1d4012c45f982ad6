import JyyOs.Library.Ring
import JyyOs.Library.PartialRun
import Mathlib.Data.Int.Basic

/-!
dev_input.c: the queue of input events. The section under in->lock, the signal of event_sem and the
wait for it are steps of their own, taken by any tasks in any order; `pushed` and `popped` record
the events in the order of the sections.
-/
namespace Input

open PartialRun

def nevents : Nat := 128

structure InputEvent where
  ctrl : Int
  alt : Int
  data : Int
  deriving DecidableEq

inductive Panic where
  | queueFull
  | queueEmpty
  deriving DecidableEq

structure InputDev where
  events : Nat → InputEvent
  front : Nat
  rear : Nat

def InputDev.isEmpty (dev : InputDev) : Bool := dev.rear == dev.front

/-- push_event between spin_lock and spin_unlock. -/
def pushSection (dev : InputDev) (ev : InputEvent) : Except Panic InputDev :=
  let dev := { dev with events := Function.update dev.events dev.rear ev }
  let dev := { dev with rear := (dev.rear + 1) % nevents }
  if dev.isEmpty then .error .queueFull else .ok dev

def popSection (dev : InputDev) : Except Panic (InputEvent × InputDev) :=
  if dev.isEmpty then .error .queueEmpty
  else
    let idx := dev.front
    let dev := { dev with front := (dev.front + 1) % nevents }
    .ok (dev.events idx, dev)

/-- The tasks inside push_event past their section, and inside pop_event blocked on event_sem or
    past sem_wait. -/
structure System where
  dev : InputDev
  resource : Int
  signalling : List Nat
  sleeping : List Nat
  popping : List Nat
  panic : Option Panic
  pushed : List InputEvent
  popped : List InputEvent

inductive Event where
  | push (task : Nat) (ev : InputEvent)
  | signal (task woken : Nat)
  | wait (task : Nat)
  | pop (task : Nat)

def Idle (s : System) (task : Nat) : Prop :=
  task ∉ s.signalling ∧ task ∉ s.sleeping ∧ task ∉ s.popping

instance (s : System) (task : Nat) : Decidable (Idle s task) := inferInstanceAs (Decidable (_ ∧ _))

def pushEvent (s : System) (task : Nat) (ev : InputEvent) : System :=
  match pushSection s.dev ev with
  | .error e => { s with panic := some e }
  | .ok dev =>
    { s with dev := dev, signalling := task :: s.signalling, pushed := s.pushed ++ [ev] }

/-- kmt->sem_signal(&in->event_sem): a blocked task, if there is one, goes on. -/
def semSignal (s : System) (task woken : Nat) : Option System :=
  let s := { s with resource := s.resource + 1, signalling := s.signalling.erase task }
  if 0 < s.resource then some s
  else if woken ∈ s.sleeping then
    some { s with sleeping := s.sleeping.erase woken, popping := woken :: s.popping }
  else none

def semWait (s : System) (task : Nat) : System :=
  let s := { s with resource := s.resource - 1 }
  if s.resource < 0 then { s with sleeping := task :: s.sleeping }
  else { s with popping := task :: s.popping }

def popEvent (s : System) (task : Nat) : System :=
  match popSection s.dev with
  | .error e => { s with panic := some e }
  | .ok (ev, dev) =>
    { s with dev := dev, popping := s.popping.erase task, popped := s.popped ++ [ev] }

def step (s : System) (e : Event) : Option System :=
  if s.panic ≠ none then none
  else
    match e with
    | .push task ev => if Idle s task then some (pushEvent s task ev) else none
    | .signal task woken => if task ∈ s.signalling then semSignal s task woken else none
    | .wait task => if Idle s task then some (semWait s task) else none
    | .pop task => if task ∈ s.popping then some (popEvent s task) else none

def inputInit (events : Nat → InputEvent) : System :=
  ⟨⟨events, 0, 0⟩, 0, [], [], [], none, [], []⟩

/-- What was popped came out in the order it was pushed in, the rest is in the queue, and no
    assertion failed. -/
structure Delivered (s : System) : Prop where
  order : s.popped <+: s.pushed
  conserved : s.pushed = s.popped ++ Ring.contents nevents s.dev.events s.dev.front s.dev.rear
  running : s.panic = none

/-- A push does not make the queue hold NEVENTS events. -/
def Roomy (s : System) : Event → Prop
  | .push _ _ => s.pushed.length + 1 < s.popped.length + nevents
  | .signal _ _ | .wait _ | .pop _ => True

instance (s : System) (e : Event) : Decidable (Roomy s e) := by
  cases e <;> simp only [Roomy] <;> infer_instance

/-- Events in the queue are matched by the tokens of event_sem, by pushes yet to signal and by
    tasks that have taken a token. -/
structure QueueInv (s : System) (queue : List InputEvent) : Prop where
  ring : Ring.Holds nevents s.dev.events s.dev.front s.dev.rear queue
  conserved : s.pushed = s.popped ++ queue
  running : s.panic = none
  tokens : (queue.length : Int) =
    s.resource + s.sleeping.length + s.signalling.length + s.popping.length
  covered : 0 ≤ s.resource + s.sleeping.length
  blocked : s.sleeping = [] ∨ s.resource + s.sleeping.length = 0

section Sections

variable {dev : InputDev} {queue : List InputEvent}

theorem push_section_ok (holds : Ring.Holds nevents dev.events dev.front dev.rear queue)
    (room : queue.length + 1 < nevents) (ev : InputEvent) :
    ∃ dev', pushSection dev ev = .ok dev' ∧
      Ring.Holds nevents dev'.events dev'.front dev'.rear (queue ++ [ev]) := by
  have pushed := Ring.holds_push holds room ev
  have filled : (dev.rear + 1) % nevents ≠ dev.front := fun same => by
    have none_left := (Ring.holds_empty_iff pushed).mp same
    simp at none_left
  refine ⟨⟨Function.update dev.events dev.rear ev, dev.front, (dev.rear + 1) % nevents⟩, ?_, pushed⟩
  rw [pushSection]
  exact if_neg (by simpa [InputDev.isEmpty] using filled)

theorem pop_section_ok {ev : InputEvent}
    (holds : Ring.Holds nevents dev.events dev.front dev.rear (ev :: queue)) :
    ∃ dev', popSection dev = .ok (ev, dev') ∧
      Ring.Holds nevents dev'.events dev'.front dev'.rear queue := by
  obtain ⟨here, left⟩ := Ring.holds_pop holds
  have filled : dev.rear ≠ dev.front := fun same => by
    cases (Ring.holds_empty_iff holds).mp same
  refine ⟨⟨dev.events, (dev.front + 1) % nevents, dev.rear⟩, ?_, left⟩
  rw [popSection, if_neg (by simpa [InputDev.isEmpty] using filled)]
  simp only [here]

end Sections

section Steps

variable {s s' : System} {queue : List InputEvent}

theorem push_inv (inv : QueueInv s queue) (task : Nat) (ev : InputEvent)
    (roomy : s.pushed.length + 1 < s.popped.length + nevents) :
    QueueInv (pushEvent s task ev) (queue ++ [ev]) := by
  have room : queue.length + 1 < nevents := by
    rw [inv.conserved, List.length_append] at roomy
    omega
  obtain ⟨dev, ran, ring⟩ := push_section_ok inv.ring room ev
  rw [pushEvent, ran]
  have tokens := inv.tokens
  refine ⟨ring, ?_, inv.running, ?_, inv.covered, inv.blocked⟩
  · rw [inv.conserved, List.append_assoc]
  · simp only [List.length_append, List.length_cons, List.length_nil]
    omega

theorem signal_inv {task woken : Nat} (inv : QueueInv s queue) (mem : task ∈ s.signalling)
    (stepped : semSignal s task woken = some s') : QueueInv s' queue := by
  have tokens := inv.tokens
  have covered := inv.covered
  have blocked := inv.blocked
  have signals := List.length_erase_of_mem mem
  have some_signal := List.length_pos_of_mem mem
  simp only [semSignal] at stepped
  split at stepped
  · rename_i spare
    have none_sleep : s.sleeping = [] := by
      rcases blocked with none_sleep | exact_count
      · exact none_sleep
      · exact List.eq_nil_of_length_eq_zero (by omega)
    cases stepped
    refine ⟨inv.ring, inv.conserved, inv.running, ?_, ?_, .inl none_sleep⟩
    · simp only
      omega
    · simp only
      omega
  · split at stepped
    · rename_i sleeper
      cases stepped
      have sleeps := List.length_erase_of_mem sleeper
      have some_sleeper := List.length_pos_of_mem sleeper
      have counted : s.resource + s.sleeping.length = 0 := by
        rcases blocked with none_sleep | exact_count
        · rw [none_sleep] at some_sleeper
          cases some_sleeper
        · exact exact_count
      refine ⟨inv.ring, inv.conserved, inv.running, ?_, ?_, .inr ?_⟩
      · simp only [List.length_cons]
        omega
      · simp only
        omega
      · simp only
        omega
    · cases stepped

theorem wait_inv (inv : QueueInv s queue) (task : Nat) : QueueInv (semWait s task) queue := by
  have tokens := inv.tokens
  have covered := inv.covered
  have blocked := inv.blocked
  simp only [semWait]
  split
  · rename_i short
    refine ⟨inv.ring, inv.conserved, inv.running, ?_, ?_, .inr ?_⟩
    · simp only [List.length_cons]
      omega
    · simp only [List.length_cons]
      omega
    · simp only [List.length_cons]
      rcases blocked with none_sleep | exact_count
      · simp only [none_sleep, List.length_nil] at covered ⊢
        omega
      · omega
  · rename_i enough
    have none_sleep : s.sleeping = [] := by
      rcases blocked with none_sleep | exact_count
      · exact none_sleep
      · exact List.eq_nil_of_length_eq_zero (by omega)
    refine ⟨inv.ring, inv.conserved, inv.running, ?_, ?_, .inl none_sleep⟩
    · simp only [List.length_cons]
      omega
    · simp only
      omega

theorem pop_inv {task : Nat} (inv : QueueInv s queue) (mem : task ∈ s.popping) :
    ∃ left, QueueInv (popEvent s task) left := by
  have tokens := inv.tokens
  have covered := inv.covered
  have poppers := List.length_erase_of_mem mem
  have some_popper := List.length_pos_of_mem mem
  cases queue with
  | nil =>
    simp only [List.length_nil] at tokens
    omega
  | cons ev left =>
    obtain ⟨dev, ran, ring⟩ := pop_section_ok inv.ring
    refine ⟨left, ?_⟩
    rw [popEvent, ran]
    refine ⟨ring, ?_, inv.running, ?_, inv.covered, inv.blocked⟩
    · rw [inv.conserved, List.append_assoc]
      rfl
    · rw [List.length_cons] at tokens
      simp only
      omega

theorem step_inv {e : Event} (inv : QueueInv s queue) (roomy : Roomy s e)
    (stepped : step s e = some s') : ∃ queue', QueueInv s' queue' := by
  rw [step.eq_def, if_neg (by simp [inv.running])] at stepped
  cases e with
  | push task ev =>
    obtain ⟨_, ⟨⟩⟩ := Option.ite_none_right_eq_some.mp stepped
    exact ⟨_, push_inv inv task ev roomy⟩
  | signal task woken =>
    obtain ⟨mem, signalled⟩ := Option.ite_none_right_eq_some.mp stepped
    exact ⟨queue, signal_inv inv mem signalled⟩
  | wait task =>
    obtain ⟨_, ⟨⟩⟩ := Option.ite_none_right_eq_some.mp stepped
    exact ⟨queue, wait_inv inv task⟩
  | pop task =>
    obtain ⟨mem, ⟨⟩⟩ := Option.ite_none_right_eq_some.mp stepped
    exact pop_inv inv mem

theorem init_inv (events : Nat → InputEvent) : QueueInv (inputInit events) [] :=
  ⟨Ring.holds_empty events (Nat.succ_pos 127), rfl, rfl, rfl, Int.le_refl 0, .inl rfl⟩

theorem QueueInv.delivered (inv : QueueInv s queue) : Delivered s := by
  refine ⟨⟨queue, inv.conserved.symm⟩, ?_, inv.running⟩
  rw [Ring.holds_contents inv.ring]
  exact inv.conserved

end Steps

/-- Any tasks, any order of their steps: while the queue has room, events come out once each and
    in order. -/
theorem events_delivered_in_order (cells : Nat → InputEvent) (events : List Event)
    (roomy : EachStep step Roomy (inputInit cells) events) :
    Throughout step Delivered (inputInit cells) events := by
  have kept : Throughout step (fun s => ∃ queue, QueueInv s queue) (inputInit cells) events := by
    refine throughout_of_each_step ?_ events ⟨[], init_inv cells⟩ roomy
    rintro s e s' ⟨queue, inv⟩ here stepped
    exact step_inv inv here stepped
  refine throughout_mono ?_ kept
  rintro s ⟨queue, inv⟩
  exact inv.delivered

/-- A reader that comes first sleeps until the push, and two events come out in order. -/
theorem events_delivered_in_order_sleeping_reader :
    Throughout step Delivered (inputInit fun _ => ⟨0, 0, 0⟩)
      [.wait 1, .push 2 ⟨0, 0, 97⟩, .push 3 ⟨1, 0, 99⟩, .signal 3 1, .pop 1, .signal 2 1, .wait 1,
        .pop 1] :=
  events_delivered_in_order _ _ (by decide)

end Input
