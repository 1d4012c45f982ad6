import JyyOs.Kmt.Sched
import Mathlib.Data.List.Sort

/-!
os.c: the list of interrupt handlers and os_trap. A handler that does not return is `none`; a
context is a token, `none` is NULL. The nodes of the list are never freed, so it is a list.
-/
namespace Os
open Kmt

abbrev Event := Nat

abbrev eventNull : Event := 0
abbrev eventYield : Event := 1
abbrev eventSyscall : Event := 2
abbrev eventPagefault : Event := 3

abbrev minSeq : Int := 0
abbrev maxSeq : Int := 10000

/-- What a handler returns and the state it leaves. -/
abbrev Handler (σ : Type) := Event → Nat → σ → Option (Context × σ)

structure Irq (σ : Type) where
  seq : Int
  event : Event
  handler : Handler σ

variable {σ : Type}

/-- The loop of os_on_irq, which looks at the node behind `cur`. -/
def insertBehind (new cur : Irq σ) : List (Irq σ) → List (Irq σ)
  | [] => [cur, new]
  | next :: rest =>
    if next.seq ≥ new.seq then cur :: new :: next :: rest
    else cur :: insertBehind new next rest

def osOnIrq (irqHead : List (Irq σ)) (new : Irq σ) : List (Irq σ) :=
  match irqHead with
  | [] => [new]
  | head :: rest =>
    if head.seq ≥ new.seq then new :: head :: rest else insertBehind new head rest

def register (regs : List (Irq σ)) : List (Irq σ) := regs.foldl osOnIrq []

inductive Outcome (σ : Type) where
  | returns (next : Nat) (s : σ)
  | panics (message : String)
  | nullTask
  | stuck

structure Trapped (σ : Type) where
  calls : List (Irq σ)
  outcome : Outcome σ

def trapLoop (ev : Event) (context : Nat) : List (Irq σ) → Context → σ → Trapped σ
  | [], next, s =>
    match next with
    | none => ⟨[], .panics "returning NULL context"⟩
    | some next => ⟨[], .returns next s⟩
  | irq :: rest, next, s =>
    if irq.event = eventNull ∨ irq.event = ev then
      match irq.handler ev context s with
      | none => ⟨[irq], .stuck⟩
      | some (r, s) =>
        if ev = eventSyscall then ⟨[irq], .returns context s⟩
        else if r.isSome ∧ next.isSome then ⟨[irq], .panics "returning multiple contexts"⟩
        else
          let later := trapLoop ev context rest (if r.isSome then r else next) s
          { later with calls := irq :: later.calls }
    else trapLoop ev context rest next s

/-- The current task of the CPU, whether it was killed, and uproc->exit of it. -/
structure Tasks (σ : Type) where
  killed : σ → Option Bool
  exit : σ → Option σ

def osTrap (tasks : Tasks σ) (irqHead : List (Irq σ)) (ev : Event) (context : Nat) (s : σ) :
    Trapped σ :=
  match tasks.killed s with
  | none => ⟨[], .nullTask⟩
  | some killed =>
    match if killed then tasks.exit s else some s with
    | none => ⟨[], .stuck⟩
    | some s =>
      match irqHead with
      | [] => ⟨[], .panics "no irq handler"⟩
      | irqs => trapLoop ev context irqs none s

/-- The loop of kmt_schedule; `rand` are the results of rand(). -/
def scheduleLoop (cpu : Nat) (rand : Nat → Nat) : Nat → Nat → State → Option (Bool × State)
  | 0, _, s => some (false, s)
  | rounds + 1, i, s =>
    match kmtScheduleExamine s cpu i (rand i) with
    | none => none
    | some s => if s.mode cpu = .picked then some (true, s) else scheduleLoop cpu rand rounds (i + 1) s

def kmtSchedule (s : State) (cpu : Nat) (rand : Nat → Nat) : Option (Context × State) :=
  let s := kmtScheduleEnter s cpu
  match scheduleLoop cpu rand (s.taskCnt * 10) 0 s with
  | none => none
  | some (fineTask, s) => (kmtScheduleReturn s cpu fineTask).map fun r => (r.2.1, r.2.2)

def returnsNull (body : Event → Nat → σ → Option σ) : Handler σ :=
  fun ev c s => (body ev c s).map fun s => (none, s)

section Handlers

variable {τ : Type} (cpu : Nat) (rand : State × τ → Nat → Nat)

def saveHandler : Handler (State × τ) :=
  returnsNull fun _ c m => (kmtContextSave m.1 cpu (some c)).map fun s => (s, m.2)

def scheduleHandler : Handler (State × τ) :=
  fun _ _ m => (kmtSchedule m.1 cpu (rand m)).map fun r => (r.1, (r.2, m.2))

def kmtIrqs : List (Irq (State × τ)) :=
  [⟨minSeq, eventNull, saveHandler cpu⟩, ⟨maxSeq, eventNull, scheduleHandler cpu rand⟩]

def uprocIrqs (syscall pageFault : Event → Nat → σ → Option σ) : List (Irq σ) :=
  [⟨0, eventSyscall, returnsNull syscall⟩, ⟨0, eventPagefault, returnsNull pageFault⟩]

end Handlers

section Order

/-- Before in the list: ties keep the new handler in front. -/
def Before (a b : Irq σ) : Prop := a.seq ≤ b.seq

instance : DecidableRel (Before (σ := σ)) := fun a b => inferInstanceAs (Decidable (a.seq ≤ b.seq))

theorem insert_behind_eq (new cur : Irq σ) (rest : List (Irq σ)) :
    insertBehind new cur rest = cur :: rest.orderedInsert Before new := by
  induction rest generalizing cur with
  | nil => rfl
  | cons next rest ih =>
    unfold insertBehind
    rw [List.orderedInsert_cons]
    by_cases less : Before new next
    · rw [if_pos less]
      exact if_pos less
    · rw [if_neg less, ← ih]
      exact if_neg less

theorem os_on_irq_eq (irqs : List (Irq σ)) (new : Irq σ) :
    osOnIrq irqs new = irqs.orderedInsert Before new := by
  cases irqs with
  | nil => rfl
  | cons head rest =>
    rw [List.orderedInsert_cons, ← insert_behind_eq]
    rfl

instance : IsTrans (Irq σ) Before := ⟨fun _ _ _ first second => Int.le_trans first second⟩

instance : Std.Total (Before (σ := σ)) := ⟨fun a b => Int.le_total a.seq b.seq⟩

theorem register_keeps (irqs regs : List (Irq σ)) (sorted : irqs.Pairwise Before) :
    (regs.foldl osOnIrq irqs).Perm (regs ++ irqs) ∧ (regs.foldl osOnIrq irqs).Pairwise Before := by
  induction regs generalizing irqs with
  | nil => exact ⟨.refl _, sorted⟩
  | cons new rest ih =>
    have one : (osOnIrq irqs new).Perm (new :: irqs) := by
      rw [os_on_irq_eq]
      exact List.perm_orderedInsert ..
    have sorted' : (osOnIrq irqs new).Pairwise Before := by
      rw [os_on_irq_eq]
      exact sorted.orderedInsert new irqs
    obtain ⟨perm, sorted''⟩ := ih _ sorted'
    refine ⟨?_, sorted''⟩
    exact perm.trans ((one.append_left rest).trans List.perm_middle)

theorem register_sorted (regs : List (Irq σ)) :
    (register regs).Perm regs ∧ (register regs).Pairwise Before := by
  have kept := register_keeps [] regs .nil
  rwa [List.append_nil] at kept

end Order

section Dispatch

variable {ev : Event} {context : Nat} {irqs : List (Irq σ)} {s s' : σ}

def matching (ev : Event) (irqs : List (Irq σ)) : List (Irq σ) :=
  irqs.filter fun irq => irq.event = eventNull ∨ irq.event = ev

/-- Each handler called once; what they return, or `none` when one of them does not. -/
def callEach (ev : Event) (context : Nat) : List (Irq σ) → σ → Option (List Context × σ)
  | [], s => some ([], s)
  | irq :: rest, s =>
    match irq.handler ev context s with
    | none => none
    | some (r, s) => (callEach ev context rest s).map fun (rs, s) => (r :: rs, s)

def contexts (rs : List Context) : List Nat := rs.filterMap fun r => r

def outcomeOf (rs : List Context) (s : σ) : Outcome σ :=
  match contexts rs with
  | [] => .panics "returning NULL context"
  | next :: _ => .returns next s

@[simp] theorem contexts_none (rs : List Context) : contexts (none :: rs) = contexts rs := rfl

@[simp] theorem contexts_some (next : Nat) (rs : List Context) :
    contexts (some next :: rs) = next :: contexts rs := rfl

theorem contexts_append (rs rs' : List Context) :
    contexts (rs ++ rs') = contexts rs ++ contexts rs' :=
  List.filterMap_append

theorem contexts_cons (r : Context) (rs : List Context) :
    contexts (r :: rs) = contexts [r] ++ contexts rs :=
  contexts_append [r] rs

theorem call_each_cons {irq : Irq σ} {rest : List (Irq σ)} {rs : List Context}
    (called : callEach ev context (irq :: rest) s = some (rs, s')) :
    ∃ r m rs', irq.handler ev context s = some (r, m) ∧
      callEach ev context rest m = some (rs', s') ∧ rs = r :: rs' := by
  unfold callEach at called
  split at called
  · simp at called
  · rename_i r m one
    obtain ⟨⟨rs', m'⟩, later, same⟩ := Option.map_eq_some_iff.mp called
    obtain ⟨rfl, rfl⟩ := Prod.mk.inj same
    exact ⟨r, m, rs', one, later, rfl⟩

theorem trap_loop_calls (other : ev ≠ eventSyscall) {next : Context} {rs : List Context}
    (called : callEach ev context (matching ev irqs) s = some (rs, s'))
    (few : (contexts (next :: rs)).length ≤ 1) :
    trapLoop ev context irqs next s = ⟨matching ev irqs, outcomeOf (next :: rs) s'⟩ := by
  induction irqs generalizing next s rs with
  | nil =>
    obtain ⟨rfl, rfl⟩ := Prod.mk.inj (Option.some.inj called)
    cases next with
    | none => rfl
    | some next => rfl
  | cons irq rest ih =>
    unfold trapLoop
    by_cases here : irq.event = eventNull ∨ irq.event = ev
    · have first : matching ev (irq :: rest) = irq :: matching ev rest :=
        List.filter_cons_of_pos (by simpa using here)
      rw [first] at called ⊢
      obtain ⟨r, m, rs', one, later, rfl⟩ := call_each_cons called
      simp only [if_pos here, one, if_neg other]
      cases r with
      | none =>
        have same : outcomeOf (next :: none :: rs') s' = outcomeOf (next :: rs') s' := by
          cases next <;> rfl
        have few' : (contexts (next :: rs')).length ≤ 1 := by
          cases next <;> simpa using few
        rw [same]
        simp [ih later few']
      | some found =>
        cases next with
        | some before =>
          simp at few
        | none =>
          simp only [contexts_none] at few
          simp [ih later few, outcomeOf]
    · have skipped : matching ev (irq :: rest) = matching ev rest :=
        List.filter_cons_of_neg (by simpa using here)
      rw [skipped] at called ⊢
      rw [if_neg here]
      exact ih called few

end Dispatch

section Booted

variable {τ : Type} {cpu : Nat} {rand : State × τ → Nat → Nat}
variable {ev : Event} {context : Nat}

def Silent (irq : Irq σ) : Prop := ∃ body, irq.handler = returnsNull body

theorem silent_calls {irqs : List (Irq σ)} {s s' : σ} {rs : List Context}
    (silent : ∀ irq ∈ irqs, Silent irq)
    (called : callEach ev context irqs s = some (rs, s')) : contexts rs = [] := by
  induction irqs generalizing s rs with
  | nil =>
    obtain ⟨rfl, rfl⟩ := Prod.mk.inj (Option.some.inj called)
    rfl
  | cons irq rest ih =>
    obtain ⟨r, m, rs', one, later, rfl⟩ := call_each_cons called
    obtain ⟨body, is⟩ := silent irq List.mem_cons_self
    rw [is] at one
    obtain ⟨m', _, same⟩ := Option.map_eq_some_iff.mp one
    obtain ⟨rfl, _⟩ := Prod.mk.inj same
    rw [contexts_none]
    exact ih (fun irq mem => silent irq (List.mem_cons_of_mem _ mem)) later

theorem call_each_append {front rest : List (Irq σ)} {s s' : σ} {rs : List Context}
    (called : callEach ev context (front ++ rest) s = some (rs, s')) :
    ∃ rs₁ m rs₂, callEach ev context front s = some (rs₁, m) ∧
      callEach ev context rest m = some (rs₂, s') ∧ rs = rs₁ ++ rs₂ := by
  induction front generalizing s rs with
  | nil => exact ⟨[], s, rs, rfl, called, rfl⟩
  | cons irq front ih =>
    obtain ⟨r, m, rs', one, later, rfl⟩ := call_each_cons called
    obtain ⟨rs₁, m', rs₂, first, second, rfl⟩ := ih later
    refine ⟨r :: rs₁, m', rs₂, ?_, second, rfl⟩
    simp [callEach, one, first]

/-- What the kernel and the devices registered later put in the list. -/
def bootedIrqs (cpu : Nat) (rand : State × τ → Nat → Nat)
    (syscall pageFault : Event → Nat → State × τ → Option (State × τ))
    (devices : List (Irq (State × τ))) : List (Irq (State × τ)) :=
  register (kmtIrqs cpu rand ++ uprocIrqs syscall pageFault ++ devices)

/-- The list splits at kmt_schedule; kmt_context_save comes before it and nothing else returns a
    context. -/
theorem booted_split (cpu : Nat) (rand : State × τ → Nat → Nat)
    (syscall pageFault : Event → Nat → State × τ → Option (State × τ))
    {devices : List (Irq (State × τ))} (silent : ∀ d ∈ devices, Silent d) :
    ∃ a b rest, matching ev (bootedIrqs cpu rand syscall pageFault devices) =
        a ++ ⟨minSeq, eventNull, saveHandler cpu⟩ :: b ++
          ⟨maxSeq, eventNull, scheduleHandler cpu rand⟩ :: rest ∧
      (∀ irq ∈ a ++ ⟨minSeq, eventNull, saveHandler cpu⟩ :: b, Silent irq) ∧
      ∀ irq ∈ rest, Silent irq := by
  let save : Irq (State × τ) := ⟨minSeq, eventNull, saveHandler cpu⟩
  let schedule : Irq (State × τ) := ⟨maxSeq, eventNull, scheduleHandler cpu rand⟩
  obtain ⟨perm, sorted⟩ := register_sorted
    (kmtIrqs cpu rand ++ uprocIrqs syscall pageFault ++ devices)
  let others := matching ev (uprocIrqs syscall pageFault ++ devices)
  have quiet : ∀ irq ∈ others, Silent irq := by
    intro irq mem
    rcases List.mem_append.mp (List.mem_filter.mp mem).1 with uproc | device
    · simp only [uprocIrqs, List.mem_cons, List.not_mem_nil, or_false] at uproc
      rcases uproc with rfl | rfl
      · exact ⟨syscall, rfl⟩
      · exact ⟨pageFault, rfl⟩
    · exact silent irq device
  have found : (matching ev (bootedIrqs cpu rand syscall pageFault devices)).Perm
      (schedule :: save :: others) := by
    have kept := perm.filter fun irq => irq.event = eventNull ∨ irq.event = ev
    rw [List.append_assoc, List.filter_append] at kept
    exact kept.trans (List.Perm.swap ..)
  have order : (matching ev (bootedIrqs cpu rand syscall pageFault devices)).Pairwise Before :=
    sorted.filter _
  obtain ⟨front, rest, split⟩ :=
    List.append_of_mem (found.mem_iff.mpr (List.mem_cons_self : schedule ∈ schedule :: _))
  rw [split] at found order
  have remaining : (front ++ rest).Perm (save :: others) :=
    (List.perm_middle.symm.trans found).cons_inv
  have quiet' : ∀ irq ∈ front ++ rest, Silent irq := by
    intro irq mem
    rcases List.mem_cons.mp (remaining.mem_iff.mp mem) with rfl | mem
    · exact ⟨_, rfl⟩
    · exact quiet irq mem
  have late : save ∉ rest := by
    intro mem
    have behind := List.rel_of_pairwise_cons (List.pairwise_append.mp order).2.1 mem
    have wrong : maxSeq ≤ minSeq := behind
    exact absurd wrong (by decide)
  have early : save ∈ front := by
    have mem := remaining.mem_iff.mpr List.mem_cons_self
    exact (List.mem_append.mp mem).resolve_right late
  obtain ⟨a, b, rfl⟩ := List.append_of_mem early
  refine ⟨a, b, rest, ?_, fun irq mem => ?_, fun irq mem => ?_⟩
  · exact split
  · exact quiet' irq (List.mem_append_left _ mem)
  · exact quiet' irq (List.mem_append_right _ mem)

/-- os_trap up to its loop: the CPU has a task, and uproc->exit of a killed one returns. -/
def Ready (tasks : Tasks σ) (s s' : σ) : Prop :=
  ∃ killed, tasks.killed s = some killed ∧ (if killed then tasks.exit s else some s) = some s'

theorem os_trap_ready {tasks : Tasks σ} {irqs : List (Irq σ)} {s s' : σ}
    (ready : Ready tasks s s') (some_irq : irqs ≠ []) :
    osTrap tasks irqs ev context s = trapLoop ev context irqs none s' := by
  obtain ⟨killed, current, left⟩ := ready
  unfold osTrap
  rw [current]
  simp only [left]

theorem matching_nonempty {irqs : List (Irq σ)} (some_one : matching ev irqs ≠ []) :
    irqs ≠ [] := by
  rintro rfl
  exact some_one rfl

/-- The list holds every registered handler once and in order, os_trap calls those for the event
    once and in order while no two return a context, and with the handlers of the kernel and any
    devices that return NULL it saves the context, later calls kmt_schedule and returns what
    kmt_schedule chose. -/
theorem handlers_run_in_order (regs : List (Irq σ)) (tasks : Tasks σ)
    (bootTasks : Tasks (State × τ)) (cpu : Nat) (rand : State × τ → Nat → Nat)
    (syscall pageFault : Event → Nat → State × τ → Option (State × τ)) :
    ((register regs).Perm regs ∧ (register regs).Pairwise Before) ∧
    (∀ ev context s s₀ rs s', ev ≠ eventSyscall → Ready tasks s s₀ → regs ≠ [] →
      callEach ev context (matching ev (register regs)) s₀ = some (rs, s') →
      (contexts rs).length ≤ 1 →
      osTrap tasks (register regs) ev context s =
        ⟨matching ev (register regs), outcomeOf rs s'⟩) ∧
    ∀ devices, (∀ d ∈ devices, Silent d) → ∀ ev context s s₀ rs s', ev ≠ eventSyscall →
      Ready bootTasks s s₀ →
      let irqs := bootedIrqs cpu rand syscall pageFault devices
      callEach ev context (matching ev irqs) s₀ = some (rs, s') →
      ∃ a b rest rs₁ m chosen next,
        matching ev irqs = a ++ ⟨minSeq, eventNull, saveHandler cpu⟩ :: b ++
          ⟨maxSeq, eventNull, scheduleHandler cpu rand⟩ :: rest ∧
        callEach ev context (a ++ ⟨minSeq, eventNull, saveHandler cpu⟩ :: b) s₀ =
          some (rs₁, m) ∧
        kmtSchedule m.1 cpu (rand m) = some (chosen, next) ∧
        osTrap bootTasks irqs ev context s = ⟨matching ev irqs, outcomeOf [chosen] s'⟩ := by
  obtain ⟨perm, sorted⟩ := register_sorted regs
  refine ⟨⟨perm, sorted⟩, ?_, ?_⟩
  · intro ev context s s₀ rs s' other ready some_irq called few
    have some_node : register regs ≠ [] := by
      intro empty
      rw [empty] at perm
      exact some_irq perm.symm.eq_nil
    rw [os_trap_ready ready some_node]
    exact trap_loop_calls other called few
  · intro devices silent ev context s s₀ rs s' other ready irqs called
    obtain ⟨a, b, rest, split, quiet, quiet'⟩ :=
      booted_split cpu rand syscall pageFault silent
    have parts := called
    rw [split] at parts
    obtain ⟨rs₁, m, rs₂, first, second, rfl⟩ := call_each_append parts
    obtain ⟨chosen, m', rs₃, one, later, rfl⟩ := call_each_cons second
    obtain ⟨⟨chosen', next⟩, scheduled, same⟩ := Option.map_eq_some_iff.mp one
    obtain ⟨rfl, rfl⟩ := Prod.mk.inj same
    have only : contexts (rs₁ ++ chosen' :: rs₃) = contexts [chosen'] := by
      have before := silent_calls quiet first
      have after_ := silent_calls quiet' later
      rw [contexts_append, before, contexts_cons, after_, List.nil_append, List.append_nil]
    have few : (contexts (none :: (rs₁ ++ chosen' :: rs₃))).length ≤ 1 := by
      rw [contexts_none, only]
      cases chosen' <;> simp [contexts]
    have some_node : irqs ≠ [] := by
      apply matching_nonempty
      rw [split]
      simp
    refine ⟨a, b, rest, rs₁, m, chosen', next, split, first, scheduled, ?_⟩
    rw [os_trap_ready ready some_node, trap_loop_calls other called few]
    unfold outcomeOf
    rw [contexts_none, only]

/-- A yield of the idle thread resumes the first task, in its context 7. -/
theorem handlers_run_in_order_first_yield :
    let s : State × Unit := (createTasks (kmtInit fun _ => 0) [7], ())
    let tasks : Tasks (State × Unit) := ⟨fun _ => some false, some⟩
    let irqs := bootedIrqs 0 (fun _ _ => 0) (fun _ _ m => some m) (fun _ _ m => some m) []
    ∃ s', osTrap tasks irqs eventYield 5 s = ⟨matching eventYield irqs, .returns 7 s'⟩ := by
  intro s tasks irqs
  have ready : Ready tasks s s := ⟨false, rfl, rfl⟩
  obtain ⟨s', called⟩ : ∃ s', callEach eventYield 5 (matching eventYield irqs) s =
      some ([none, some 7], s') := ⟨_, rfl⟩
  obtain ⟨_, calls, _⟩ := handlers_run_in_order (kmtIrqs 0 (fun _ _ => 0) ++ uprocIrqs
    (fun _ _ m => some m) (fun _ _ m => some m) ++ []) tasks tasks 0 (fun _ _ => 0)
    (fun _ _ m => some m) fun _ _ m => some m
  exact ⟨s', calls eventYield 5 s s _ s' (by decide) ready (by simp [kmtIrqs]) called (by decide)⟩

/-- Three handlers that each return a context: os_trap panics at the second. -/
theorem third_handler_not_called :
    ¬ ∀ (regs : List (Irq Unit)) (ev : Event) (context : Nat), ev ≠ eventSyscall →
        (osTrap ⟨fun _ => some false, some⟩ (register regs) ev context ()).calls =
          matching ev (register regs) := by
  intro each
  let irq : Irq Unit := ⟨0, eventNull, fun _ c s => some (some c, s)⟩
  have lengths := congrArg List.length (each [irq, irq, irq] eventYield 5 (by decide))
  exact absurd lengths (by decide)

end Booted

end Os
