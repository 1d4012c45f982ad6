import JyyOs.Dev.Keyboard
import JyyOs.Dev.Tty

/-!
From the keyboard to the readers of the terminals: scan codes wait in the keyboard controller,
dev_input_task turns them into input events, dev_tty_task gives the events to the terminal that is
shown, and any task reads lines. The sections of the daemons and of the readers come in any order;
the echo of a character on the screen is left out.
-/
namespace Typing

open PartialRun Input Keyboard

/-- dev_input_task: in its polling loop, inside push_event past the section of in->lock (for a key
    or for the timer), before its check of the time, and before its wait for sem_kbdirq. -/
inductive InputPc where
  | polling
  | signalling (timed : Bool)
  | checking
  | waiting
  deriving DecidableEq

/-- dev_tty_task: before its read of the input device, inside pop_event past the operation on
    event_sem, and with an event in hand. -/
inductive TtyPc where
  | reading
  | popping
  | handling (ev : InputEvent)
  deriving DecidableEq

inductive Terminal where
  | tty1
  | tty2
  deriving DecidableEq

/-- `kbdirq` is the count of sem_kbdirq, `shown` the terminal of dev_tty_task. The codes that
    arrived, those that were polled and the events that were handled are recorded. -/
structure System where
  codes : List UInt8
  kbdirq : Nat
  mods : Modifiers
  knownTime : UInt32
  input : Input.System
  daemon : InputPc
  shown : Terminal
  reader : TtyPc
  tty : Terminal → DevTty.Tty
  received : List UInt8
  polled : List UInt8
  handled : List InputEvent

inductive Event where
  | code (code : UInt8)
  | irq
  | poll
  | signal
  | check (time : UInt32)
  | wake
  | wait
  | pop
  | handle
  | enter (id : Terminal)
  | read (id : Terminal) (count : Int)

def inputTask : Nat := 0

def ttyTask : Nat := 1

def System.push (s : System) (ev : InputEvent) (timed : Bool) : System :=
  { s with input := pushEvent s.input inputTask ev, daemon := .signalling timed }

def pollKey (s : System) : System :=
  match s.codes with
  | [] => { s with daemon := .checking }
  | code :: rest =>
    let s := { s with codes := rest, polled := s.polled ++ [code] }
    let key := inputKeybrd code
    if key.keycode = .none_ then { s with daemon := .checking }
    else
      let (mods, ev) := inputKeydown s.mods key
      match ev with
      | none => { s with mods := mods }
      | some ev => { s with mods := mods }.push ev false

def checkTime (s : System) (time : UInt32) : System :=
  if (time - s.knownTime) / 1000 > 100 ∧ s.input.dev.isEmpty then
    { s with knownTime := time }.push (event false false 0) true
  else { s with daemon := .waiting }

def popKey (s : System) : System :=
  match popSection s.input.dev with
  | .error _ => { s with input := popEvent s.input ttyTask }
  | .ok (ev, _) => { s with input := popEvent s.input ttyTask, reader := .handling ev }

def switched (shown : Terminal) (ev : InputEvent) : Terminal :=
  if ev.alt ≠ 0 then
    if ev.data = 50 then .tty2 else if ev.data = 49 then .tty1 else shown
  else shown

def Plain (ev : InputEvent) : Prop := ev.ctrl = 0 ∧ ev.alt = 0 ∧ ev.data ≠ 0

instance (ev : InputEvent) : Decidable (Plain ev) := inferInstanceAs (Decidable (_ ∧ _ ∧ _))

def charOf (ev : InputEvent) : UInt8 := UInt8.ofNat ev.data.toNat

def handleEvent (s : System) (ev : InputEvent) : Option System :=
  let s := { s with shown := switched s.shown ev, reader := .reading, handled := s.handled ++ [ev] }
  if Plain ev then
    (DevTty.step (s.tty s.shown) (.cook (charOf ev))).map fun tty =>
      { s with tty := Function.update s.tty s.shown tty }
  else some s

def ttyStep (s : System) (id : Terminal) (e : DevTty.Event) : Option System :=
  (DevTty.step (s.tty id) e).map fun tty => { s with tty := Function.update s.tty id tty }

def step (s : System) (e : Event) : Option System :=
  if s.input.panic ≠ none then none
  else
    match e with
    | .code code => some { s with codes := s.codes ++ [code], received := s.received ++ [code] }
    | .irq => some { s with kbdirq := s.kbdirq + 1 }
    | .poll => if s.daemon = .polling then some (pollKey s) else none
    | .signal =>
      match s.daemon with
      | .signalling timed =>
        (semSignal s.input inputTask ttyTask).map fun input =>
          { s with input := input, daemon := if timed then .waiting else .polling }
      | _ => none
    | .check time => if s.daemon = .checking then some (checkTime s time) else none
    | .wake =>
      if s.daemon = .waiting ∧ s.kbdirq ≠ 0 then
        some { s with kbdirq := s.kbdirq - 1, daemon := .polling }
      else none
    | .wait =>
      if s.reader = .reading then
        some { s with input := semWait s.input ttyTask, reader := .popping }
      else none
    | .pop =>
      if s.reader = .popping ∧ ttyTask ∈ s.input.popping then some (popKey s) else none
    | .handle =>
      match s.reader with
      | .handling ev => handleEvent s ev
      | _ => none
    | .enter id => ttyStep s id .enter
    | .read id count => ttyStep s id (.read count)

/-- After the initializers, on an event array and line buffers with any contents. -/
def boot (cells : Nat → InputEvent) (bufs : Terminal → Nat → UInt8) (time : UInt32) : System where
  codes := []
  kbdirq := 0
  mods := noModifiers
  knownTime := time
  input := inputInit cells
  daemon := .polling
  shown := .tty1
  reader := .reading
  tty id := DevTty.ttyInit (bufs id)
  received := []
  polled := []
  handled := []

def keysOf (codes : List UInt8) : List KeyEvent :=
  (codes.map inputKeybrd).filter (·.keycode ≠ .none_)

def Real (ev : InputEvent) : Bool := ev.data ≠ 0

/-- What was typed on each of the two terminals, and which of them is shown. -/
structure Desk where
  shown : Terminal
  text : Terminal → List UInt8

/-- Alt with a digit shows a terminal, and a character without control and alt is typed on the
    terminal shown. -/
def Desk.take (desk : Desk) (ev : InputEvent) : Desk :=
  if ev.alt ≠ 0 then
    if ev.data = 49 then { desk with shown := .tty1 }
    else if ev.data = 50 then { desk with shown := .tty2 }
    else desk
  else if ev.ctrl ≠ 0 then desk
  else
    { desk with text := Function.update desk.text desk.shown (desk.text desk.shown ++ [charOf ev]) }

def typedOn (events : List InputEvent) : Desk := events.foldl Desk.take ⟨.tty1, fun _ => []⟩

def linesOf (text : List UInt8) : List (List UInt8) := (text.foldl DevTty.typeChar ([], [])).1

def System.inHand (s : System) : List InputEvent :=
  match s.reader with
  | .handling ev => [ev]
  | _ => []

def System.taken (s : System) : List InputEvent := s.handled.filter Real

def System.ahead (s : System) : List InputEvent :=
  (s.inHand ++ Ring.contents nevents s.input.dev.events s.input.dev.front s.input.dev.rear).filter
    Real

def InputPc.tasks : InputPc → List Nat
  | .signalling _ => [inputTask]
  | _ => []

def TtyPc.tasks : TtyPc → List Nat
  | .popping => [ttyTask]
  | _ => []

/-- Every scan code and every keystroke is accounted for once and in order, the keystrokes that
    were handled make up the texts of the two terminals, and the k-th read from a terminal
    returned the start of the k-th line of its text. No wake-up is lost: a signal goes through,
    and dev_tty_task sleeps with no signal under way only when nothing is left to handle. -/
structure Delivers (s : System) : Prop where
  codes : s.received = s.polled ++ s.codes
  keystrokes : strokes (keysOf s.polled) = s.taken ++ s.ahead
  shown : s.shown = (typedOn s.taken).shown
  texts : ∀ id, (s.tty id).typed = (typedOn s.taken).text id
  reads : ∀ (id : Terminal) (k : Nat) (count : Int) (buf : List UInt8),
    (s.tty id).reads[k]? = some (count, buf) →
      ∃ line : List UInt8, (linesOf ((typedOn s.taken).text id))[k]? = some line ∧
        buf = line.take count.toNat
  signals : ∀ timed, s.daemon = .signalling timed → step s .signal ≠ none
  wakes : s.reader = .popping → ttyTask ∉ s.input.popping → s.daemon.tasks = [] → s.ahead = []
  running : s.input.panic = none

def polledEvent (s : System) : Option InputEvent :=
  match s.codes with
  | [] => none
  | code :: _ =>
    if (inputKeybrd code).keycode = .none_ then none
    else (inputKeydown s.mods (inputKeybrd code)).2

/-- A poll that pushes does not make the queue hold NEVENTS events, and a backspace comes on an
    empty line before the first newline of a terminal only if the last byte of its buffer is
    NUL. -/
def Proper (s : System) : Event → Prop
  | .poll => polledEvent s ≠ none → s.input.pushed.length + 1 < s.input.popped.length + nevents
  | .handle => s.inHand.any (fun ev => Plain ev ∧ charOf ev = DevTty.backspace) →
      (s.tty s.shown).current = [] → (s.tty s.shown).completed = [] →
        (s.tty s.shown).queue.buf (DevTty.ttyCookBufSz - 1) = 0
  | _ => True

instance (s : System) (e : Event) : Decidable (Proper s e) := by
  cases e <;> simp only [Proper] <;> infer_instance

structure TypingInv (s : System) (queue : List InputEvent) (unread : Terminal → List (List UInt8))
    (due : List InputEvent) : Prop where
  queue : QueueInv s.input queue
  lines : ∀ id, DevTty.LineInv (s.tty id) (unread id)
  codes : s.received = s.polled ++ s.codes
  follows : Follows s.mods (keysOf s.polled)
  pushed : s.input.pushed.filter Real ++ due = strokes (keysOf s.polled)
  popped : s.input.popped = s.handled ++ s.inHand
  shown : s.shown = (typedOn s.taken).shown
  texts : ∀ id, (s.tty id).typed = (typedOn s.taken).text id
  signalling : s.input.signalling = s.daemon.tasks
  waiting : s.input.sleeping ++ s.input.popping = s.reader.tasks

section Queue

variable {s s' : Input.System} {queue : List InputEvent} {task woken : Nat} {ev : InputEvent}

structure Recorded (s s' : Input.System) (pushed popped : List InputEvent) (signalling : List Nat)
    (waiting : List Nat) : Prop where
  pushed : s'.pushed = s.pushed ++ pushed
  popped : s'.popped = s.popped ++ popped
  signalling : s'.signalling = signalling
  waiting : s'.sleeping ++ s'.popping = waiting

theorem push_records (task : Nat) (ev : InputEvent) (inv : QueueInv s queue)
    (roomy : s.pushed.length + 1 < s.popped.length + nevents) :
    Recorded s (pushEvent s task ev) [ev] [] (task :: s.signalling)
      (s.sleeping ++ s.popping) := by
  have room : queue.length + 1 < nevents := by
    rw [inv.conserved, List.length_append] at roomy
    omega
  obtain ⟨dev, ran, _⟩ := push_section_ok inv.ring room ev
  unfold pushEvent
  rw [ran]
  exact ⟨rfl, (List.append_nil _).symm, rfl, rfl⟩

theorem signal_records (once : (s.sleeping ++ s.popping).length ≤ 1)
    (stepped : semSignal s task woken = some s') :
    Recorded s s' [] [] (s.signalling.erase task) (s.sleeping ++ s.popping) := by
  unfold semSignal at stepped
  simp only at stepped
  split at stepped
  · cases stepped
    exact ⟨(List.append_nil _).symm, (List.append_nil _).symm, rfl, rfl⟩
  · split at stepped
    · rename_i sleeper
      cases stepped
      have alone : s.sleeping = [woken] ∧ s.popping = [] := by
        have some_sleeper := List.length_pos_of_mem sleeper
        rw [List.length_append] at once
        constructor
        · obtain ⟨first, here⟩ := List.length_eq_one_iff.mp (show s.sleeping.length = 1 by omega)
          rw [here, List.mem_singleton] at sleeper
          rw [here, sleeper]
        · exact List.eq_nil_of_length_eq_zero (by omega)
      refine ⟨(List.append_nil _).symm, (List.append_nil _).symm, rfl, ?_⟩
      simp [alone.1, alone.2]
    · cases stepped

theorem wait_records (task : Nat) (idle : s.sleeping ++ s.popping = []) :
    Recorded s (semWait s task) [] [] s.signalling [task] := by
  obtain ⟨awake, none_popping⟩ := List.append_eq_nil_iff.mp idle
  unfold semWait
  simp only
  split
  · refine ⟨(List.append_nil _).symm, (List.append_nil _).symm, rfl, ?_⟩
    simp [awake, none_popping]
  · refine ⟨(List.append_nil _).symm, (List.append_nil _).symm, rfl, ?_⟩
    simp [awake, none_popping]

theorem pop_records (inv : QueueInv s queue) (mem : task ∈ s.popping)
    (alone : s.sleeping ++ s.popping = [task]) :
    ∃ ev dev, popSection s.dev = .ok (ev, dev) ∧
      Recorded s (popEvent s task) [] [ev] s.signalling [] := by
  have tokens := inv.tokens
  have covered := inv.covered
  have some_popper := List.length_pos_of_mem mem
  cases queue with
  | nil =>
    simp only [List.length_nil] at tokens
    omega
  | cons ev left =>
    obtain ⟨dev, ran, _⟩ := pop_section_ok inv.ring
    have awake : s.sleeping = [] := by
      have count_ := congrArg List.length alone
      rw [List.length_append, List.length_singleton] at count_
      exact List.eq_nil_of_length_eq_zero (by omega)
    rw [awake, List.nil_append] at alone
    refine ⟨ev, dev, ran, ?_⟩
    unfold popEvent
    rw [ran]
    refine ⟨(List.append_nil _).symm, rfl, rfl, ?_⟩
    simp [awake, alone]

theorem empty_roomy (inv : QueueInv s queue) (empty : s.dev.isEmpty = true) :
    s.pushed.length + 1 < s.popped.length + nevents := by
  have none_queued : queue = [] := by
    refine (Ring.holds_empty_iff inv.ring).mp ?_
    exact beq_iff_eq.mp empty
  rw [inv.conserved, none_queued, List.append_nil]
  exact Nat.add_lt_add_left (by decide) _

end Queue

section Texts

variable {ev : InputEvent}

theorem keys_of_concat (codes : List UInt8) (code : UInt8) :
    keysOf (codes ++ [code]) = keysOf codes ++
      (if (inputKeybrd code).keycode = .none_ then [] else [inputKeybrd code]) := by
  unfold keysOf
  rw [List.map_append, List.filter_append]
  by_cases unmapped : (inputKeybrd code).keycode = .none_
  · simp [unmapped]
  · simp [unmapped]

theorem cook_typed {tty tty' : DevTty.Tty} {ch : UInt8}
    (stepped : DevTty.step tty (.cook ch) = some tty') :
    tty'.typed = tty.typed ++ [ch] := by
  obtain ⟨_, cooked⟩ := Option.ite_none_left_eq_some.mp stepped
  simp only [DevTty.ttyCook] at cooked
  split at cooked
  · split at cooked
    · cases cooked
    · split at cooked
      · cases cooked
      · cases cooked
        rfl
  · split at cooked
    · cases cooked
      rfl
    · split at cooked
      · cases cooked
      · cases cooked
        rfl

theorem enter_typed {tty tty' : DevTty.Tty} (stepped : DevTty.step tty .enter = some tty') :
    tty'.typed = tty.typed := by
  obtain ⟨_, entered⟩ := Option.ite_none_left_eq_some.mp stepped
  cases entered
  rfl

theorem read_typed {tty tty' : DevTty.Tty} {count : Int}
    (stepped : DevTty.step tty (.read count) = some tty') : tty'.typed = tty.typed := by
  obtain ⟨_, ran⟩ := Option.ite_none_left_eq_some.mp stepped
  unfold DevTty.ttyRead at ran
  split at ran
  · cases ran
  · cases ran
    rfl

theorem silent_event (silent : Real ev = false) (shown : Terminal) :
    switched shown ev = shown := by
  have zero : ev.data = 0 := by simpa [Real] using silent
  simp [switched, zero]

theorem take_event (desk : Desk) (real : Real ev = true) :
    (desk.take ev).shown = switched desk.shown ev ∧
      (desk.take ev).text = if Plain ev then
        Function.update desk.text (switched desk.shown ev)
          (desk.text (switched desk.shown ev) ++ [charOf ev]) else desk.text := by
  have some_char : ev.data ≠ 0 := by simpa [Real] using real
  unfold Desk.take switched
  by_cases alt : ev.alt = 0
  · by_cases ctrl : ev.ctrl = 0
    · have plain : Plain ev := ⟨ctrl, alt, some_char⟩
      simp [alt, ctrl, plain]
    · have command : ¬ Plain ev := fun plain => ctrl plain.1
      simp [alt, ctrl, command]
  · have command : ¬ Plain ev := fun plain => alt plain.2.1
    rw [if_pos alt, if_pos alt, if_neg command]
    by_cases one : ev.data = 49
    · simp [one]
    · by_cases two : ev.data = 50
      · simp [two]
      · simp [one, two]

theorem typed_on_concat (events : List InputEvent) :
    typedOn (events ++ [ev]) = (typedOn events).take ev := by
  unfold typedOn
  rw [List.foldl_append]
  rfl

end Texts

section Steps

variable {s s' : System} {ev : InputEvent} {queue : List InputEvent}
  {unread : Terminal → List (List UInt8)}

theorem push_inv {timed : Bool} (inv : TypingInv s queue unread ([ev].filter Real))
    (quiet : s.daemon.tasks = [])
    (roomy : s.input.pushed.length + 1 < s.input.popped.length + nevents) :
    TypingInv (s.push ev timed) (queue ++ [ev]) unread [] := by
  have records := push_records inputTask ev inv.queue roomy
  have input : (s.push ev timed).input = pushEvent s.input inputTask ev := rfl
  constructor
  · exact Input.push_inv inv.queue inputTask ev roomy
  · exact inv.lines
  · exact inv.codes
  · exact inv.follows
  · rw [input, records.pushed, List.filter_append, List.append_nil]
    exact inv.pushed
  · rw [input, records.popped, List.append_nil]
    exact inv.popped
  · exact inv.shown
  · exact inv.texts
  · rw [input, records.signalling, inv.signalling, quiet]
    rfl
  · rw [input, records.waiting]
    exact inv.waiting

theorem poll_inv (inv : TypingInv s queue unread []) (polling : s.daemon = .polling)
    (roomy : polledEvent s ≠ none → s.input.pushed.length + 1 < s.input.popped.length + nevents) :
    ∃ queue', TypingInv (pollKey s) queue' unread [] := by
  have quiet : s.input.signalling = [] := by
    rw [inv.signalling, polling]
    rfl
  unfold pollKey
  unfold polledEvent at roomy
  split
  · exact ⟨queue, { inv with signalling := quiet }⟩
  · rename_i code rest waiting
    rw [waiting] at roomy
    have codes : s.received = (s.polled ++ [code]) ++ rest := by
      rw [inv.codes, waiting, List.append_assoc]
      rfl
    simp only at roomy ⊢
    split
    · rename_i unmapped
      have keys : keysOf (s.polled ++ [code]) = keysOf s.polled := by
        rw [keys_of_concat, if_pos unmapped, List.append_nil]
      exact ⟨queue, { inv with
        codes := codes
        follows := keys ▸ inv.follows
        pushed := keys ▸ inv.pushed
        signalling := quiet }⟩
    · rename_i mapped
      rw [if_neg mapped] at roomy
      have keys : keysOf (s.polled ++ [code]) = keysOf s.polled ++ [inputKeybrd code] := by
        rw [keys_of_concat, if_neg mapped]
      obtain ⟨follows, typed⟩ := keydown_follows inv.follows (inputKeybrd code)
      rw [← keys] at follows
      have pushed : s.input.pushed.filter Real ++
          (inputKeydown s.mods (inputKeybrd code)).2.toList =
          strokes (keysOf (s.polled ++ [code])) := by
        rw [keys, strokes_concat, ← inv.pushed, List.append_nil, typed]
        split <;> rfl
      split
      · rename_i silent
        rw [silent] at pushed
        exact ⟨queue, { inv with codes := codes, follows := follows, pushed := pushed }⟩
      · rename_i ev pressed
        have real : Real ev = true := by
          rw [pressed] at typed
          split at typed
          · exact decide_eq_true (stroke_typed typed.symm)
          · cases typed
        have due : [ev].filter Real = [ev] := by
          rw [List.filter_singleton, real]
          rfl
        rw [pressed] at pushed roomy
        refine ⟨queue ++ [ev], push_inv ?_ ?_ (roomy (Option.some_ne_none ev))⟩
        · rw [due]
          exact { inv with codes := codes, follows := follows, pushed := pushed }
        · exact congrArg InputPc.tasks polling

theorem check_inv (inv : TypingInv s queue unread []) (checking : s.daemon = .checking)
    (time : UInt32) : ∃ queue', TypingInv (checkTime s time) queue' unread [] := by
  unfold checkTime
  split
  · rename_i due
    refine ⟨queue ++ [event false false 0], push_inv ?_ ?_ (empty_roomy inv.queue due.2)⟩
    · exact { inv with }
    · exact congrArg InputPc.tasks checking
  · refine ⟨queue, { inv with signalling := ?_ }⟩
    rw [inv.signalling, checking]
    rfl

theorem pop_inv (inv : TypingInv s queue unread []) (at_pop : s.reader = .popping)
    (mem : ttyTask ∈ s.input.popping) : ∃ queue', TypingInv (popKey s) queue' unread [] := by
  have alone : s.input.sleeping ++ s.input.popping = [ttyTask] := by
    rw [inv.waiting, at_pop]
    rfl
  obtain ⟨ev, dev, ran, records⟩ := pop_records inv.queue mem alone
  obtain ⟨left, queue'⟩ := Input.pop_inv inv.queue mem
  have in_hand : s.inHand = [] := by
    unfold System.inHand
    rw [at_pop]
  unfold popKey
  rw [ran]
  refine ⟨left, { inv with
    queue := queue', pushed := ?_, popped := ?_, signalling := ?_, waiting := ?_ }⟩
  · have pushed := records.pushed
    rw [List.append_nil] at pushed
    simp only
    rw [pushed]
    exact inv.pushed
  · change (popEvent s.input ttyTask).popped = s.handled ++ [ev]
    rw [records.popped, inv.popped, in_hand, List.append_nil]
  · exact records.signalling.trans inv.signalling
  · exact records.waiting

theorem lines_update {id : Terminal} {tty : DevTty.Tty} {left : List (List UInt8)}
    (lines : ∀ id, DevTty.LineInv (s.tty id) (unread id)) (here : DevTty.LineInv tty left) :
    ∀ c, DevTty.LineInv (Function.update s.tty id tty c) (Function.update unread id left c) := by
  intro c
  by_cases same : c = id
  · subst same
    rw [Function.update_self, Function.update_self]
    exact here
  · rw [Function.update_of_ne same, Function.update_of_ne same]
    exact lines c

theorem handle_inv (inv : TypingInv s queue unread []) (at_hand : s.reader = .handling ev)
    (clean : Plain ev → charOf ev = DevTty.backspace → (s.tty s.shown).current = [] →
      (s.tty s.shown).completed = [] → (s.tty s.shown).queue.buf (DevTty.ttyCookBufSz - 1) = 0)
    (stepped : handleEvent s ev = some s') :
    ∃ unread', TypingInv s' queue unread' [] := by
  have in_hand : s.inHand = [ev] := by
    unfold System.inHand
    rw [at_hand]
  have popped : s.input.popped = s.handled ++ [ev] ++ [] := by
    rw [List.append_nil, inv.popped, in_hand]
  have waiting : s.input.sleeping ++ s.input.popping = TtyPc.reading.tasks := by
    rw [inv.waiting, at_hand]
    rfl
  have taken : (s.handled ++ [ev]).filter Real = s.taken ++ [ev].filter Real :=
    List.filter_append ..
  have next : Real ev = true →
      typedOn ((s.handled ++ [ev]).filter Real) = (typedOn s.taken).take ev := by
    intro real
    rw [taken, ← typed_on_concat, List.filter_singleton, real]
    rfl
  unfold handleEvent at stepped
  simp only at stepped
  split at stepped
  · rename_i plain
    have real : Real ev = true := decide_eq_true plain.2.2
    have same : switched s.shown ev = s.shown := by
      unfold switched
      rw [if_neg (not_not_intro plain.2.1)]
    obtain ⟨tty, cooked, ⟨⟩⟩ := Option.map_eq_some_iff.mp stepped
    obtain ⟨desk_shown, desk_text⟩ := take_event (typedOn s.taken) real
    rw [same] at cooked
    have start : DevTty.CleanStart (s.tty s.shown) (.cook (charOf ev)) := by
      intro erases
      exact clean plain (DevTty.Event.cook.inj erases)
    obtain ⟨left, here⟩ := (DevTty.step_inv (inv.lines s.shown) start cooked).1
    refine ⟨Function.update unread s.shown left, { inv with
      lines := ?_, popped := popped, shown := ?_, texts := ?_, waiting := waiting }⟩
    · rw [same]
      exact lines_update inv.lines here
    · change switched s.shown ev = (typedOn ((s.handled ++ [ev]).filter Real)).shown
      rw [next real, desk_shown, inv.shown]
    · intro id
      change (Function.update s.tty (switched s.shown ev) tty id).typed =
        (typedOn ((s.handled ++ [ev]).filter Real)).text id
      rw [next real, desk_text, if_pos plain, ← inv.shown, same]
      by_cases at_id : id = s.shown
      · subst at_id
        rw [Function.update_self, Function.update_self, cook_typed cooked, inv.texts]
      · rw [Function.update_of_ne at_id, Function.update_of_ne at_id]
        exact inv.texts id
  · rename_i other
    cases stepped
    refine ⟨unread, { inv with popped := popped, shown := ?_, texts := ?_, waiting := waiting }⟩
    · change switched s.shown ev = (typedOn ((s.handled ++ [ev]).filter Real)).shown
      cases real : Real ev with
      | false =>
        rw [taken, List.filter_singleton, real, silent_event real]
        exact (List.append_nil s.taken).symm ▸ inv.shown
      | true =>
        rw [next real, (take_event _ real).1, inv.shown]
    · intro id
      change (s.tty id).typed = (typedOn ((s.handled ++ [ev]).filter Real)).text id
      cases real : Real ev with
      | false =>
        rw [taken, List.filter_singleton, real]
        exact (List.append_nil s.taken).symm ▸ inv.texts id
      | true =>
        rw [next real, (take_event _ real).2, if_neg other]
        exact inv.texts id

theorem tty_inv {id : Terminal} {e : DevTty.Event} (inv : TypingInv s queue unread [])
    (reader : DevTty.CleanStart (s.tty id) e)
    (typed : ∀ tty, DevTty.step (s.tty id) e = some tty → tty.typed = (s.tty id).typed)
    (stepped : ttyStep s id e = some s') : ∃ unread', TypingInv s' queue unread' [] := by
  obtain ⟨tty, ran, ⟨⟩⟩ := Option.map_eq_some_iff.mp stepped
  obtain ⟨left, here⟩ := (DevTty.step_inv (inv.lines id) reader ran).1
  refine ⟨Function.update unread id left, { inv with
    lines := lines_update inv.lines here, texts := ?_ }⟩
  intro c
  change (Function.update s.tty id tty c).typed = (typedOn s.taken).text c
  by_cases same : c = id
  · subst same
    rw [Function.update_self, typed tty ran, inv.texts]
  · rw [Function.update_of_ne same, inv.texts]

theorem TypingInv.only_reader (inv : TypingInv s queue unread []) :
    s.input.sleeping ++ s.input.popping ⊆ [ttyTask] ∧
      (s.input.sleeping ++ s.input.popping).length ≤ 1 := by
  rw [inv.waiting]
  cases s.reader with
  | reading => exact ⟨List.nil_subset _, Nat.zero_le _⟩
  | popping => exact ⟨List.Subset.refl _, Nat.le_refl _⟩
  | handling ev => exact ⟨List.nil_subset _, Nat.zero_le _⟩

theorem signal_inv {timed : Bool} {input : Input.System} (inv : TypingInv s queue unread [])
    (at_signal : s.daemon = .signalling timed)
    (signalled : semSignal s.input inputTask ttyTask = some input) :
    TypingInv { s with input := input, daemon := if timed then .waiting else .polling } queue
      unread [] := by
  have inside : s.input.signalling = [inputTask] := by
    rw [inv.signalling, at_signal]
    rfl
  have mem : inputTask ∈ s.input.signalling := by
    rw [inside]
    exact List.mem_singleton_self _
  have records := signal_records inv.only_reader.2 signalled
  refine { inv with queue := Input.signal_inv inv.queue mem signalled, pushed := ?_, popped := ?_,
                    signalling := ?_, waiting := ?_ }
  · simp only
    rw [records.pushed, List.append_nil s.input.pushed]
    exact inv.pushed
  · change input.popped = s.handled ++ s.inHand
    rw [records.popped, List.append_nil]
    exact inv.popped
  · simp only
    rw [records.signalling, inside]
    cases timed <;> rfl
  · exact records.waiting.trans inv.waiting

theorem wait_inv (inv : TypingInv s queue unread []) (at_read : s.reader = .reading) :
    TypingInv { s with input := semWait s.input ttyTask, reader := .popping } queue unread [] := by
  have idle : s.input.sleeping ++ s.input.popping = [] := by
    rw [inv.waiting, at_read]
    rfl
  have in_hand : s.inHand = [] := by
    unfold System.inHand
    rw [at_read]
  have records := wait_records ttyTask idle
  refine { inv with queue := Input.wait_inv inv.queue ttyTask, pushed := ?_, popped := ?_,
                    signalling := records.signalling.trans inv.signalling,
                    waiting := records.waiting }
  · simp only
    rw [records.pushed, List.append_nil s.input.pushed]
    exact inv.pushed
  · change (semWait s.input ttyTask).popped = s.handled ++ []
    rw [records.popped, inv.popped, in_hand, List.append_nil]

theorem step_inv {e : Event} (inv : TypingInv s queue unread []) (proper : Proper s e)
    (stepped : step s e = some s') : ∃ queue' unread', TypingInv s' queue' unread' [] := by
  unfold step at stepped
  rw [if_neg (not_not_intro inv.queue.running)] at stepped
  cases e with
  | code code =>
    cases stepped
    refine ⟨queue, unread, { inv with codes := ?_ }⟩
    change s.received ++ [code] = s.polled ++ (s.codes ++ [code])
    rw [inv.codes, List.append_assoc]
  | irq =>
    cases stepped
    exact ⟨queue, unread, { inv with }⟩
  | poll =>
    obtain ⟨polling, ⟨⟩⟩ := Option.ite_none_right_eq_some.mp stepped
    obtain ⟨queue', inv'⟩ := poll_inv inv polling proper
    exact ⟨queue', unread, inv'⟩
  | signal =>
    simp only at stepped
    split at stepped
    · rename_i timed at_signal
      obtain ⟨input, signalled, ⟨⟩⟩ := Option.map_eq_some_iff.mp stepped
      exact ⟨queue, unread, signal_inv inv at_signal signalled⟩
    · cases stepped
  | check time =>
    obtain ⟨checking, ⟨⟩⟩ := Option.ite_none_right_eq_some.mp stepped
    obtain ⟨queue', inv'⟩ := check_inv inv checking time
    exact ⟨queue', unread, inv'⟩
  | wake =>
    obtain ⟨⟨asleep, _⟩, ⟨⟩⟩ := Option.ite_none_right_eq_some.mp stepped
    refine ⟨queue, unread, { inv with signalling := ?_ }⟩
    rw [inv.signalling, asleep]
    rfl
  | wait =>
    obtain ⟨at_read, ⟨⟩⟩ := Option.ite_none_right_eq_some.mp stepped
    exact ⟨queue, unread, wait_inv inv at_read⟩
  | pop =>
    obtain ⟨⟨at_pop, mem⟩, ⟨⟩⟩ := Option.ite_none_right_eq_some.mp stepped
    obtain ⟨queue', inv'⟩ := pop_inv inv at_pop mem
    exact ⟨queue', unread, inv'⟩
  | handle =>
    simp only at stepped
    split at stepped
    · rename_i ev at_hand
      have clean : Plain ev → charOf ev = DevTty.backspace → (s.tty s.shown).current = [] →
          (s.tty s.shown).completed = [] →
            (s.tty s.shown).queue.buf (DevTty.ttyCookBufSz - 1) = 0 := by
        intro plain erases
        refine proper ?_
        unfold System.inHand
        simp [at_hand, plain, erases]
      obtain ⟨unread', inv'⟩ := handle_inv inv at_hand clean stepped
      exact ⟨queue, unread', inv'⟩
    · cases stepped
  | enter id =>
    obtain ⟨unread', inv'⟩ := tty_inv inv (by nofun) (fun _ => enter_typed) stepped
    exact ⟨queue, unread', inv'⟩
  | read id count =>
    obtain ⟨unread', inv'⟩ := tty_inv inv (by nofun) (fun _ => read_typed) stepped
    exact ⟨queue, unread', inv'⟩

theorem boot_inv (cells : Nat → InputEvent) (bufs : Terminal → Nat → UInt8) (time : UInt32) :
    TypingInv (boot cells bufs time) [] (fun _ => []) [] where
  queue := Input.init_inv cells
  lines id := DevTty.init_inv (bufs id)
  codes := rfl
  follows := ⟨rfl, rfl, rfl, rfl⟩
  pushed := rfl
  popped := rfl
  shown := rfl
  texts _ := rfl
  signalling := rfl
  waiting := rfl

theorem TypingInv.keystrokes (inv : TypingInv s queue unread []) :
    strokes (keysOf s.polled) = s.taken ++ s.ahead := by
  unfold System.taken System.ahead
  rw [← inv.pushed, inv.queue.conserved, inv.popped, Ring.holds_contents inv.queue.ring,
    List.append_nil, ← List.filter_append, List.append_assoc]

/-- A signal finds a count above zero or the task that sleeps. -/
theorem TypingInv.signal_possible (inv : TypingInv s queue unread []) :
    ∃ input, semSignal s.input inputTask ttyTask = some input := by
  unfold semSignal
  simp only
  split
  · exact ⟨_, rfl⟩
  · rename_i low
    have covered := inv.queue.covered
    have sleeper : ttyTask ∈ s.input.sleeping := by
      have some_sleeper : s.input.sleeping ≠ [] := by
        intro awake
        rw [awake] at covered
        simp only [List.length_nil] at covered
        omega
      obtain ⟨task, mem⟩ := List.exists_mem_of_ne_nil _ some_sleeper
      have here := inv.only_reader.1 (List.mem_append_left _ mem)
      rw [← List.mem_singleton.mp here]
      exact mem
    rw [if_pos sleeper]
    exact ⟨_, rfl⟩

theorem TypingInv.signals (inv : TypingInv s queue unread []) {timed : Bool}
    (at_signal : s.daemon = .signalling timed) : step s .signal ≠ none := by
  obtain ⟨input, signalled⟩ := inv.signal_possible
  unfold step
  rw [if_neg (not_not_intro inv.queue.running), at_signal]
  simp only
  rw [signalled]
  exact Option.some_ne_none _

theorem TypingInv.wakes (inv : TypingInv s queue unread []) (at_pop : s.reader = .popping)
    (asleep : ttyTask ∉ s.input.popping) (quiet : s.daemon.tasks = []) : s.ahead = [] := by
  have tokens := inv.queue.tokens
  have waiting : s.input.sleeping ++ s.input.popping = [ttyTask] := by
    rw [inv.waiting, at_pop]
    rfl
  have none_popping : s.input.popping = [] := by
    refine List.eq_nil_iff_forall_not_mem.mpr fun task mem => asleep ?_
    have here := inv.only_reader.1 (List.mem_append_right _ mem)
    rw [← List.mem_singleton.mp here]
    exact mem
  have sleeper : s.input.sleeping = [ttyTask] := by
    rw [none_popping, List.append_nil] at waiting
    exact waiting
  have none_queued : queue = [] := by
    have blocked := inv.queue.blocked
    rw [none_popping, inv.signalling, quiet] at tokens
    rw [sleeper] at tokens blocked
    simp only [List.length_nil, List.length_singleton] at tokens blocked
    refine List.eq_nil_of_length_eq_zero ?_
    rcases blocked with awake | full
    · cases awake
    · omega
  have in_hand : s.inHand = [] := by
    unfold System.inHand
    rw [at_pop]
  unfold System.ahead
  rw [Ring.holds_contents inv.queue.ring, in_hand, none_queued]
  rfl

theorem TypingInv.delivers (inv : TypingInv s queue unread []) : Delivers s where
  codes := inv.codes
  keystrokes := inv.keystrokes
  shown := inv.shown
  texts := inv.texts
  reads id k count buf found := by
    rw [← inv.texts id]
    exact (inv.lines id).reads k count buf found
  signals _ := inv.signals
  wakes := inv.wakes
  running := inv.queue.running

end Steps

/-- From scan codes to lines read, in every order of the daemons' and the readers' steps. -/
theorem keystrokes_delivered (cells : Nat → InputEvent) (bufs : Terminal → Nat → UInt8)
    (time : UInt32) (events : List Event)
    (proper : EachStep step Proper (boot cells bufs time) events) :
    Throughout step Delivers (boot cells bufs time) events := by
  have kept : Throughout step (fun s => ∃ queue unread, TypingInv s queue unread [])
      (boot cells bufs time) events := by
    refine throughout_of_each_step ?_ events ⟨[], _, boot_inv cells bufs time⟩ proper
    intro s e s' inv here stepped
    obtain ⟨queue, unread, inv⟩ := inv
    exact step_inv inv here stepped
  refine throughout_mono ?_ kept
  intro s inv
  obtain ⟨queue, unread, inv⟩ := inv
  exact inv.delivers

/-- Shift and a, return, alt and 2, then b on the other terminal, while a reader of the first one
    waits for its line. -/
def twoTerminals : List Event :=
  [.wait, .code 0x2a, .code 0x1e, .poll, .poll, .code 0xaa, .signal, .pop, .code 0x1c, .handle,
    .poll, .poll, .wait, .signal, .pop, .handle, .enter .tty1, .code 0x38, .code 0x03, .poll, .poll,
    .signal, .wait, .pop, .code 0xb8, .handle, .read .tty1 80, .code 0x30, .poll, .poll, .signal,
    .wait, .pop, .handle, .poll, .check 50]

theorem keystrokes_delivered_two_terminals :
    Throughout step Delivers (boot (fun _ => ⟨0, 0, 0⟩) (fun _ _ => 0) 0) twoTerminals :=
  keystrokes_delivered _ _ _ _ (by decide)

example : ((run step (boot (fun _ => ⟨0, 0, 0⟩) (fun _ _ => 0) 0) twoTerminals).map fun s =>
    ((s.tty .tty1).reads, (s.tty .tty2).typed)) = some ([(80, [65, 10])], [98]) := by decide

end Typing
