import JyyOs.Library.PartialRun
import Mathlib.Logic.Function.Basic
import Mathlib.Data.Int.Basic
import Mathlib.Tactic.Common

/-!
kmt_spin_lock, kmt_spin_unlock, holding, push_off and pop_off, one access to shared or per-CPU
memory at a time, on any number of CPUs and locks. `held` are the locks a CPU took and did not
give back, `before` is its interrupt flag when it took the first of them.
-/
namespace Spin

open PartialRun

inductive Caller where
  | spinLock (lk : Nat)
  | holding (lk : Nat) (unlocking : Bool)
  deriving DecidableEq, Repr

/-- What follows pop_off: holding returns `r`, or kmt_spin_unlock returns. -/
inductive Popping where
  | holding (lk : Nat) (unlocking r : Bool)
  | unlocked
  deriving DecidableEq, Repr

inductive Pc where
  | outside
  | pushRead (caller : Caller)
  | pushDisable (caller : Caller) (old : Bool)
  | pushSave (caller : Caller) (old : Bool)
  | pushCount (caller : Caller)
  | exchange (lk : Nat)
  | own (lk : Nat)
  | readLock (lk : Nat) (unlocking : Bool)
  | readCpuNum (lk : Nat) (unlocking : Bool)
  | popCount (next : Popping)
  | popEnable (next : Popping)
  | returned (lk : Nat) (unlocking r : Bool)
  | disown (lk : Nat)
  | release (lk : Nat)
  | releasePanic (lk : Nat)
  | popPanic
  deriving DecidableEq, Repr

structure Cpu where
  ienabled : Bool
  noff : Int
  intena : Bool
  pc : Pc
  held : List Nat
  before : Bool

structure State where
  lock : Nat → Nat
  cpuNum : Nat → Int
  cpus : Nat → Cpu

def State.setCpu (s : State) (c : Nat) (k : Cpu) : State :=
  { s with cpus := Function.update s.cpus c k }

def State.exchange (s : State) (lk value : Nat) : State :=
  { s with lock := Function.update s.lock lk value }

def State.setCpuNum (s : State) (lk : Nat) (n : Int) : State :=
  { s with cpuNum := Function.update s.cpuNum lk n }

def Caller.body : Caller → Pc
  | .spinLock lk => .exchange lk
  | .holding lk unlocking => .readLock lk unlocking

def Popping.next : Popping → Pc
  | .holding lk unlocking r => .returned lk unlocking r
  | .unlocked => .outside

def go (s : State) (c : Nat) : Option State :=
  let k := s.cpus c
  match k.pc with
  | .outside => none
  | .pushRead caller => some (s.setCpu c { k with pc := .pushDisable caller k.ienabled })
  | .pushDisable caller old =>
    some (s.setCpu c { k with ienabled := false, pc := .pushSave caller old })
  | .pushSave caller old =>
    some (s.setCpu c
      { k with intena := if k.noff = 0 then old else k.intena, pc := .pushCount caller })
  | .pushCount caller => some (s.setCpu c { k with noff := k.noff + 1, pc := caller.body })
  | .exchange lk =>
    if s.lock lk = 0 then
      some ((s.exchange lk 1).setCpu c { k with pc := .own lk, held := lk :: k.held })
    else some (s.exchange lk 1)
  | .own lk => some ((s.setCpuNum lk c).setCpu c { k with pc := .outside })
  | .readLock lk unlocking =>
    some (s.setCpu c
      { k with pc := if s.lock lk = 0 then .popCount (.holding lk unlocking false)
          else .readCpuNum lk unlocking })
  | .readCpuNum lk unlocking =>
    some (s.setCpu c { k with pc := .popCount (.holding lk unlocking (s.cpuNum lk = c)) })
  | .popCount next =>
    if k.ienabled = true ∨ k.noff < 1 then some (s.setCpu c { k with pc := .popPanic })
    else some (s.setCpu c { k with noff := k.noff - 1, pc := .popEnable next })
  | .popEnable next =>
    some (s.setCpu c
      { k with ienabled := if k.noff = 0 ∧ k.intena = true then true else k.ienabled
               pc := next.next })
  | .returned lk unlocking r =>
    some (s.setCpu c
      { k with pc := if unlocking = false then .outside
          else if r = true then .disown lk else .releasePanic lk })
  | .disown lk => some ((s.setCpuNum lk (-1)).setCpu c { k with pc := .release lk })
  | .release lk =>
    some ((s.exchange lk 0).setCpu c
      { k with pc := .popCount .unlocked, held := k.held.erase lk })
  | .releasePanic _ => none
  | .popPanic => none

inductive Action where
  | spinLock (lk : Nat)
  | spinUnlock (lk : Nat)
  | holding (lk : Nat)
  | go

structure Event where
  cpu : Nat
  action : Action

def call (s : State) (c : Nat) (caller : Caller) : Option State :=
  let k := s.cpus c
  if k.pc = .outside then some (s.setCpu c { k with pc := .pushRead caller }) else none

def step (s : State) (e : Event) : Option State :=
  match e.action with
  | .spinLock lk =>
    let k := s.cpus e.cpu
    if lk ∈ k.held then none
    else
      let before := if k.held = [] then k.ienabled else k.before
      call (s.setCpu e.cpu { k with before := before }) e.cpu (.spinLock lk)
  | .spinUnlock lk => call s e.cpu (.holding lk true)
  | .holding lk => call s e.cpu (.holding lk false)
  | .go => go s e.cpu

/-- After kmt_spin_init of every lock, with any interrupt flags. -/
def spinInit (enabled : Nat → Bool) : State where
  lock _ := 0
  cpuNum _ := -1
  cpus c := ⟨enabled c, 0, false, .outside, [], enabled c⟩

section Local

/-- push_off calls that are not yet matched by their pop_off, apart from the held locks. -/
def Pc.pending : Pc → Int
  | .exchange _ | .readLock _ _ | .readCpuNum _ _ | .popCount _ => 1
  | _ => 0

/-- Between push_off and pop_off, where interrupts are off whatever is held. -/
def Pc.masked : Pc → Prop
  | .pushSave _ _ | .pushCount _ | .exchange _ | .own _ | .readLock _ _ | .readCpuNum _ _
  | .popCount _ | .popEnable _ => True
  | _ => False

def Pc.saved : Pc → Prop
  | .pushCount _ | .exchange _ | .own _ | .readLock _ _ | .readCpuNum _ _ | .popCount _
  | .popEnable _ => True
  | _ => False

def Caller.Fits (held : List Nat) : Caller → Prop
  | .spinLock lk => lk ∉ held
  | .holding _ _ => True

def Popping.Fits (held : List Nat) : Popping → Prop
  | .holding lk _ r => r = true ↔ lk ∈ held
  | .unlocked => True

def Cpu.quiet (k : Cpu) : Bool := k.held.isEmpty && k.before

/-- What the access of a CPU knows of the locks it holds. -/
def Cpu.Fits (k : Cpu) : Prop :=
  match k.pc with
  | .outside => True
  | .pushRead caller | .pushCount caller => caller.Fits k.held
  | .pushDisable caller old | .pushSave caller old => caller.Fits k.held ∧ old = k.quiet
  | .exchange lk => lk ∉ k.held
  | .own lk => lk ∈ k.held
  | .readLock _ _ | .readCpuNum _ _ => True
  | .popCount next | .popEnable next => next.Fits k.held
  | .returned lk _ r => r = true ↔ lk ∈ k.held
  | .disown lk | .release lk => lk ∈ k.held
  | .releasePanic lk => lk ∉ k.held
  | .popPanic => False

attribute [grind =] Pc.pending Pc.masked Pc.saved Cpu.Fits

structure CpuOk (k : Cpu) : Prop where
  distinct : k.held.Nodup
  depth : k.noff = k.held.length + k.pc.pending
  off : k.pc.masked → k.ienabled = false
  flag : ¬k.pc.masked → k.ienabled = k.quiet
  saved : k.held ≠ [] ∨ k.pc.saved → k.intena = k.before
  fits : k.Fits

theorem CpuOk.disabled {k : Cpu} (ok : CpuOk k) (holds : k.held ≠ []) : k.ienabled = false := by
  by_cases masked : k.pc.masked
  · exact ok.off masked
  · rw [ok.flag masked, Cpu.quiet]
    simp [holds]

theorem CpuOk.depth_zero {k : Cpu} (ok : CpuOk k) (none : k.pc.pending = 0) :
    k.noff = 0 ↔ k.held = [] := by
  rw [ok.depth, none, ← List.length_eq_zero_iff]
  omega

variable {k : Cpu} {caller : Caller} {lk : Nat}

theorem push_read_ok (ok : CpuOk k) (pc : k.pc = .pushRead caller) :
    CpuOk { k with pc := .pushDisable caller k.ienabled } := by
  obtain ⟨distinct, depth, off, flag, saved, fits⟩ := ok
  simp only [pc, Pc.pending, Pc.masked, Pc.saved, Cpu.Fits] at depth flag saved fits
  exact ⟨distinct, depth, nofun, flag, saved, fits, flag nofun⟩

theorem push_disable_ok {old : Bool} (ok : CpuOk k) (pc : k.pc = .pushDisable caller old) :
    CpuOk { k with ienabled := false, pc := .pushSave caller old } := by
  obtain ⟨distinct, depth, off, flag, saved, fits⟩ := ok
  simp only [pc, Pc.pending, Pc.saved, Cpu.Fits] at depth saved fits
  exact ⟨distinct, depth, fun _ => rfl, fun other => absurd trivial other, saved, fits⟩

theorem push_save_ok {old : Bool} (ok : CpuOk k) (pc : k.pc = .pushSave caller old) :
    CpuOk { k with intena := if k.noff = 0 then old else k.intena, pc := .pushCount caller } := by
  have first := ok.depth_zero (by rw [pc]; rfl)
  obtain ⟨distinct, depth, off, flag, saved, fits⟩ := ok
  simp only [pc, Pc.pending, Pc.masked, Pc.saved, Cpu.Fits] at depth off saved fits
  refine ⟨distinct, depth, off, fun other => absurd trivial other, fun _ => ?_, fits.1⟩
  by_cases none : k.held = []
  · simp only [if_pos (first.mpr none), fits.2, Cpu.quiet, none, List.isEmpty_nil,
      Bool.true_and]
  · simp only [if_neg (mt first.mp none)]
    exact saved (.inl none)

theorem push_count_ok (ok : CpuOk k) (pc : k.pc = .pushCount caller) :
    CpuOk { k with noff := k.noff + 1, pc := caller.body } := by
  obtain ⟨distinct, depth, off, flag, saved, fits⟩ := ok
  simp only [pc, Pc.pending, Pc.masked, Pc.saved, Cpu.Fits] at depth off saved fits
  have restore := saved (.inr trivial)
  cases caller with
  | spinLock lk =>
    exact ⟨distinct, by simp only [Caller.body, Pc.pending]; omega, off,
      fun other => absurd trivial other, fun _ => restore, fits⟩
  | holding lk unlocking =>
    exact ⟨distinct, by simp only [Caller.body, Pc.pending]; omega, off,
      fun other => absurd trivial other, fun _ => restore, trivial⟩

theorem exchange_ok (ok : CpuOk k) (pc : k.pc = .exchange lk) :
    CpuOk { k with pc := .own lk, held := lk :: k.held } := by
  obtain ⟨distinct, depth, off, flag, saved, fits⟩ := ok
  simp only [pc, Pc.pending, Pc.masked, Pc.saved, Cpu.Fits] at depth off saved fits
  refine ⟨List.nodup_cons.mpr ⟨fits, distinct⟩, ?_, off, fun other => absurd trivial other,
    fun _ => saved (.inr trivial), List.mem_cons_self⟩
  simp only [Pc.pending, List.length_cons]
  omega

theorem own_ok (ok : CpuOk k) (pc : k.pc = .own lk) : CpuOk { k with pc := .outside } := by
  obtain ⟨distinct, depth, off, flag, saved, fits⟩ := ok
  simp only [pc, Pc.pending, Pc.masked, Pc.saved, Cpu.Fits] at depth off saved fits
  have some_held : k.held ≠ [] := List.ne_nil_of_mem fits
  refine ⟨distinct, depth, nofun, fun _ => ?_, fun _ => saved (.inr trivial), trivial⟩
  simp only [Cpu.quiet, off trivial, List.isEmpty_eq_false_iff.mpr some_held, Bool.false_and]

theorem reading_ok {pc' : Pc} (ok : CpuOk k) (pending : k.pc.pending = 1) (masked : k.pc.masked)
    (saved : k.pc.saved) (pending' : pc'.pending = 1) (masked' : pc'.masked)
    (fits : Cpu.Fits { k with pc := pc' }) : CpuOk { k with pc := pc' } :=
  ⟨ok.distinct, by rw [ok.depth, pending, pending'], fun _ => ok.off masked,
    fun other => absurd masked' other, fun _ => ok.saved (.inr saved), fits⟩

theorem pop_count_ok {next : Popping} (ok : CpuOk k) (pc : k.pc = .popCount next) :
    ¬(k.ienabled = true ∨ k.noff < 1) ∧
      CpuOk { k with noff := k.noff - 1, pc := .popEnable next } := by
  obtain ⟨distinct, depth, off, flag, saved, fits⟩ := ok
  simp only [pc, Pc.pending, Pc.masked, Pc.saved, Cpu.Fits] at depth off saved fits
  have restore := saved (.inr trivial)
  refine ⟨?_, distinct, ?_, off, fun other => absurd trivial other, fun _ => restore, fits⟩
  · rintro (enabled | shallow)
    · rw [off trivial] at enabled
      cases enabled
    · omega
  · simp only [Pc.pending]
    omega

theorem pop_enable_ok {next : Popping} (ok : CpuOk k) (pc : k.pc = .popEnable next) :
    CpuOk { k with
      ienabled := if k.noff = 0 ∧ k.intena = true then true else k.ienabled
      pc := next.next } := by
  have last := ok.depth_zero (by rw [pc]; rfl)
  obtain ⟨distinct, depth, off, flag, saved, fits⟩ := ok
  simp only [pc, Pc.pending, Pc.masked, Pc.saved, Cpu.Fits] at depth off saved fits
  have restore := saved (.inr trivial)
  have enabled : (if k.noff = 0 ∧ k.intena = true then true else k.ienabled) = k.quiet := by
    by_cases none : k.held = [] <;> cases old : k.before <;>
      simp [last, none, restore, off trivial, Cpu.quiet, old]
  cases next with
  | holding lk unlocking r =>
    exact ⟨distinct, depth, nofun, fun _ => enabled, fun _ => restore, fits⟩
  | unlocked => exact ⟨distinct, depth, nofun, fun _ => enabled, fun _ => restore, trivial⟩

theorem returned_ok {unlocking r : Bool} (ok : CpuOk k) (pc : k.pc = .returned lk unlocking r) :
    CpuOk { k with pc := if unlocking = false then .outside
      else if r = true then .disown lk else .releasePanic lk } := by
  obtain ⟨distinct, depth, off, flag, saved, fits⟩ := ok
  simp only [pc, Pc.pending, Pc.masked, Pc.saved, Cpu.Fits] at depth flag saved fits
  have quiet := flag nofun
  split
  · exact ⟨distinct, depth, nofun, fun _ => quiet, saved, trivial⟩
  · split
    · rename_i yes
      exact ⟨distinct, depth, nofun, fun _ => quiet, saved, fits.mp yes⟩
    · rename_i no
      exact ⟨distinct, depth, nofun, fun _ => quiet, saved, mt fits.mpr no⟩

theorem disown_ok (ok : CpuOk k) (pc : k.pc = .disown lk) : CpuOk { k with pc := .release lk } := by
  obtain ⟨distinct, depth, off, flag, saved, fits⟩ := ok
  simp only [pc, Pc.pending, Pc.masked, Pc.saved, Cpu.Fits] at depth flag saved fits
  exact ⟨distinct, depth, nofun, fun _ => flag nofun, saved, fits⟩

theorem release_ok (ok : CpuOk k) (pc : k.pc = .release lk) :
    CpuOk { k with pc := .popCount .unlocked, held := k.held.erase lk } := by
  obtain ⟨distinct, depth, off, flag, saved, fits⟩ := ok
  simp only [pc, Pc.pending, Pc.masked, Pc.saved, Cpu.Fits] at depth flag saved fits
  have some_held : k.held ≠ [] := List.ne_nil_of_mem fits
  refine ⟨distinct.erase lk, ?_, fun _ => ?_, fun other => absurd trivial other,
    fun _ => saved (.inl some_held), trivial⟩
  · have := List.length_erase_of_mem fits
    have := List.length_pos_of_mem fits
    simp only [Pc.pending]
    omega
  · simp only [flag nofun, Cpu.quiet, List.isEmpty_eq_false_iff.mpr some_held, Bool.false_and]

end Local

section Shared

variable {s s' : State} {c : Nat}

def Pc.named (pc : Pc) (lk : Nat) : Prop := pc ≠ .own lk ∧ pc ≠ .release lk

structure SpinInv (s : State) : Prop where
  ok : ∀ c, CpuOk (s.cpus c)
  once : ∀ c d lk, lk ∈ (s.cpus c).held → lk ∈ (s.cpus d).held → c = d
  word : ∀ lk, s.lock lk ≠ 0 ↔ ∃ c, lk ∈ (s.cpus c).held
  owner : ∀ (c : Nat) lk, s.cpuNum lk = c ↔
    lk ∈ (s.cpus c).held ∧ (s.cpus c).pc.named lk

@[simp] theorem cpus_set_cpu (k : Cpu) :
    (s.setCpu c k).cpus = Function.update s.cpus c k := rfl

theorem cpu_here (k : Cpu) : (s.setCpu c k).cpus c = k := Function.update_self ..

theorem cpu_other {d : Nat} (k : Cpu) (ne : d ≠ c) : (s.setCpu c k).cpus d = s.cpus d :=
  Function.update_of_ne ne ..

theorem all_ok {k : Cpu} (inv : ∀ d, CpuOk (s.cpus d)) (ok : CpuOk k) (d : Nat) :
    CpuOk (Function.update s.cpus c k d) := by
  by_cases here : d = c
  · rw [here, Function.update_self]
    exact ok
  · rw [Function.update_of_ne here]
    exact inv d

theorem SpinInv.quiet_step {k : Cpu} (inv : SpinInv s) (ok : CpuOk k)
    (held : k.held = (s.cpus c).held)
    (named : ∀ lk ∈ k.held, k.pc.named lk ↔ (s.cpus c).pc.named lk) : SpinInv (s.setCpu c k) := by
  have holds : ∀ d, ((s.setCpu c k).cpus d).held = (s.cpus d).held := by
    intro d
    by_cases here : d = c
    · rw [here, cpu_here, held]
    · rw [cpu_other k here]
  refine ⟨all_ok inv.ok ok, fun d e lk hd he => ?_, fun lk => ?_, fun d lk => ?_⟩
  · rw [holds] at hd he
    exact inv.once d e lk hd he
  · simp only [holds]
    exact inv.word lk
  · rw [holds, show (s.setCpu c k).cpuNum = s.cpuNum from rfl, inv.owner d lk]
    by_cases here : d = c
    · subst here
      rw [cpu_here]
      constructor
      · rintro ⟨mem, name⟩
        exact ⟨mem, (named lk (held ▸ mem)).mpr name⟩
      · rintro ⟨mem, name⟩
        exact ⟨mem, (named lk (held ▸ mem)).mp name⟩
    · rw [cpu_other k here]

theorem SpinInv.taken {lk : Nat} (inv : SpinInv s) (pc : (s.cpus c).pc = .exchange lk)
    (free : s.lock lk = 0) :
    SpinInv ((s.exchange lk 1).setCpu c
      { s.cpus c with pc := .own lk, held := lk :: (s.cpus c).held }) := by
  have nobody : ∀ d, lk ∉ (s.cpus d).held := fun d mem => (inv.word lk).mpr ⟨d, mem⟩ free
  have mem : ∀ d l, l ∈ (Function.update s.cpus c
      { s.cpus c with pc := .own lk, held := lk :: (s.cpus c).held } d).held ↔
        l ∈ (s.cpus d).held ∨ (d = c ∧ l = lk) := by
    intro d l
    by_cases here : d = c
    · subst here
      simp [or_comm]
    · simp [here]
  refine ⟨all_ok inv.ok (exchange_ok (inv.ok c) pc), fun d e l hd he => ?_, fun l => ?_,
    fun d l => ?_⟩
  · rcases (mem d l).mp hd with hd | ⟨at_d, same⟩ <;>
      rcases (mem e l).mp he with he | ⟨at_e, same'⟩
    · exact inv.once d e l hd he
    · exact absurd (same' ▸ hd) (nobody d)
    · exact absurd (same ▸ he) (nobody e)
    · rw [at_d, at_e]
  · simp only [cpus_set_cpu, show (s.exchange lk 1).cpus = s.cpus from rfl, mem]
    by_cases here : l = lk
    · subst here
      simp [State.setCpu, State.exchange]
    · simp [State.setCpu, State.exchange, here, inv.word l]
  · simp only [cpus_set_cpu, show (s.exchange lk 1).cpus = s.cpus from rfl, mem]
    refine (inv.owner d l).trans ?_
    by_cases here : d = c
    · subst here
      by_cases same : l = lk
      · subst same
        simp [nobody d, Pc.named]
      · simp [same, Ne.symm same, Pc.named, pc]
    · simp [here]

theorem SpinInv.contended {lk : Nat} (inv : SpinInv s) (taken : s.lock lk ≠ 0) :
    SpinInv (s.exchange lk 1) := by
  refine ⟨inv.ok, inv.once, fun l => ?_, inv.owner⟩
  by_cases here : l = lk
  · subst here
    simpa [State.exchange] using (inv.word l).mp taken
  · simpa [State.exchange, Function.update_of_ne here] using inv.word l

theorem SpinInv.renamed {lk : Nat} {n : Int} {pc : Pc} (inv : SpinInv s)
    (ok : CpuOk { s.cpus c with pc := pc }) (mine : lk ∈ (s.cpus c).held)
    (others : ∀ l, l ≠ lk → (pc.named l ↔ (s.cpus c).pc.named l))
    (writes : ∀ d : Nat, n = d ↔ d = c ∧ pc.named lk) :
    SpinInv ((s.setCpuNum lk n).setCpu c { s.cpus c with pc := pc }) := by
  have holds : ∀ d, (Function.update s.cpus c { s.cpus c with pc := pc } d).held =
      (s.cpus d).held := by
    intro d
    by_cases here : d = c
    · rw [here, Function.update_self]
    · rw [Function.update_of_ne here]
  refine ⟨all_ok inv.ok ok, fun d e l hd he => ?_, fun l => ?_, fun d l => ?_⟩
  · exact inv.once d e l ((holds d) ▸ hd) ((holds e) ▸ he)
  · simp only [cpus_set_cpu, show (s.setCpuNum lk n).cpus = s.cpus from rfl, holds]
    exact inv.word l
  · simp only [cpus_set_cpu, show (s.setCpuNum lk n).cpus = s.cpus from rfl, holds]
    by_cases same : l = lk
    · subst same
      rw [show ((s.setCpuNum l n).setCpu c _).cpuNum l = n from Function.update_self .., writes d]
      by_cases here : d = c
      · subst here
        simp [mine]
      · have other : l ∉ (s.cpus d).held := fun h => here (inv.once d c l h mine)
        simp [other, here]
    · rw [show ((s.setCpuNum lk n).setCpu c _).cpuNum l = s.cpuNum l from
        Function.update_of_ne same .., inv.owner d l]
      by_cases here : d = c
      · subst here
        rw [Function.update_self, others l same]
      · rw [Function.update_of_ne here]

theorem SpinInv.released {lk : Nat} (inv : SpinInv s) (pc : (s.cpus c).pc = .release lk) :
    SpinInv ((s.exchange lk 0).setCpu c
      { s.cpus c with pc := .popCount .unlocked, held := (s.cpus c).held.erase lk }) := by
  have mine : lk ∈ (s.cpus c).held := by simpa only [Cpu.Fits, pc] using (inv.ok c).fits
  have distinct := (inv.ok c).distinct
  have mem : ∀ d l, l ∈ (Function.update s.cpus c { s.cpus c with
      pc := .popCount .unlocked, held := (s.cpus c).held.erase lk } d).held ↔
        l ∈ (s.cpus d).held ∧ l ≠ lk := by
    intro d l
    by_cases here : d = c
    · subst here
      simp [distinct.mem_erase_iff, and_comm]
    · have other : lk ∉ (s.cpus d).held := fun h => here (inv.once d c lk h mine)
      rw [Function.update_of_ne here]
      exact ⟨fun h => ⟨h, fun same => other (same ▸ h)⟩, And.left⟩
  refine ⟨all_ok inv.ok (release_ok (inv.ok c) pc), fun d e l hd he => ?_, fun l => ?_,
    fun d l => ?_⟩
  · exact inv.once d e l ((mem d l).mp hd).1 ((mem e l).mp he).1
  · simp only [cpus_set_cpu, show (s.exchange lk 0).cpus = s.cpus from rfl, mem]
    by_cases here : l = lk
    · subst here
      simp [State.setCpu, State.exchange]
    · simp [State.setCpu, State.exchange, here, inv.word l]
  · simp only [cpus_set_cpu, show (s.exchange lk 0).cpus = s.cpus from rfl, mem]
    refine (inv.owner d l).trans ?_
    by_cases here : d = c
    · subst here
      by_cases same : l = lk
      · subst same
        simp [Pc.named, pc]
      · simp [same, Ne.symm same, Pc.named, pc]
    · rw [Function.update_of_ne here]
      by_cases same : l = lk
      · subst same
        have other : l ∉ (s.cpus d).held := fun h => here (inv.once d c l h mine)
        simp [other]
      · simp [same]

theorem go_inv (inv : SpinInv s) (taken : go s c = some s') : SpinInv s' := by
  have ok := inv.ok c
  simp only [go] at taken
  split at taken <;> rename_i pc
  case h_1 => cases taken
  case h_2 caller =>
    cases taken
    exact inv.quiet_step (push_read_ok ok pc) rfl fun lk _ => by simp [Pc.named, pc]
  case h_3 caller old =>
    cases taken
    exact inv.quiet_step (push_disable_ok ok pc) rfl fun lk _ => by simp [Pc.named, pc]
  case h_4 caller old =>
    cases taken
    exact inv.quiet_step (push_save_ok ok pc) rfl fun lk _ => by simp [Pc.named, pc]
  case h_5 caller =>
    cases taken
    refine inv.quiet_step (push_count_ok ok pc) rfl fun lk _ => ?_
    cases caller <;> simp [Pc.named, pc, Caller.body]
  case h_6 lk =>
    split at taken <;> rename_i free <;> cases taken
    · exact inv.taken pc free
    · exact inv.contended free
  case h_7 lk =>
    cases taken
    have mine : lk ∈ (s.cpus c).held := by simpa only [Cpu.Fits, pc] using ok.fits
    refine inv.renamed (own_ok ok pc) mine (fun l other => ?_) fun d => ?_
    · simp [Pc.named, pc, Ne.symm other]
    · simp only [Pc.named, ne_eq, reduceCtorEq, not_false_eq_true, and_self, and_true]
      omega
  case h_8 lk unlocking =>
    cases taken
    refine inv.quiet_step ?_ rfl fun l _ => ?_
    · split
      · rename_i free
        refine reading_ok ok (by simp [pc, Pc.pending]) (by simp [pc, Pc.masked])
          (by simp [pc, Pc.saved]) rfl trivial ?_
        exact ⟨nofun, fun mem => absurd free ((inv.word lk).mpr ⟨c, mem⟩)⟩
      · exact reading_ok ok (by simp [pc, Pc.pending]) (by simp [pc, Pc.masked])
          (by simp [pc, Pc.saved]) rfl trivial trivial
    · split <;> simp [Pc.named, pc]
  case h_9 lk unlocking =>
    cases taken
    refine inv.quiet_step ?_ rfl fun l _ => by simp [Pc.named, pc]
    refine reading_ok ok (by simp [pc, Pc.pending]) (by simp [pc, Pc.masked])
      (by simp [pc, Pc.saved]) rfl trivial ?_
    simp [Cpu.Fits, Popping.Fits, inv.owner c lk, Pc.named, pc]
  case h_10 next =>
    obtain ⟨fine, ok'⟩ := pop_count_ok ok pc
    rw [if_neg fine] at taken
    cases taken
    exact inv.quiet_step ok' rfl fun lk _ => by simp [Pc.named, pc]
  case h_11 next =>
    cases taken
    refine inv.quiet_step (pop_enable_ok ok pc) rfl fun lk _ => ?_
    cases next <;> simp [Pc.named, pc, Popping.next]
  case h_12 lk unlocking r =>
    cases taken
    refine inv.quiet_step (returned_ok ok pc) rfl fun l _ => ?_
    cases unlocking <;> cases r <;> simp [Pc.named, pc]
  case h_13 lk =>
    cases taken
    have mine : lk ∈ (s.cpus c).held := by simpa only [Cpu.Fits, pc] using ok.fits
    refine inv.renamed (disown_ok ok pc) mine (fun l other => ?_) fun d => ?_
    · simp [Pc.named, pc, Ne.symm other]
    · simp only [Pc.named, ne_eq, not_true_eq_false, and_false, iff_false]
      omega
  case h_14 lk =>
    cases taken
    exact inv.released pc
  case h_15 => cases taken
  case h_16 => cases taken

theorem call_inv (caller : Caller) (inv : SpinInv s) (fits : caller.Fits (s.cpus c).held)
    (taken : call s c caller = some s') : SpinInv s' := by
  have ok := inv.ok c
  simp only [call] at taken
  split at taken
  · rename_i pc
    cases taken
    refine inv.quiet_step ?_ rfl fun lk _ => by simp [Pc.named, pc]
    obtain ⟨distinct, depth, off, flag, saved, _⟩ := ok
    simp only [pc, Pc.pending, Pc.masked, Pc.saved] at depth flag saved
    exact ⟨distinct, depth, nofun, flag, saved, fits⟩
  · cases taken

theorem remembered {k : Cpu} (ok : CpuOk k) (pc : k.pc = .outside) :
    (if k.held = [] then k.ienabled else k.before) = k.before := by
  split
  · rename_i none
    rw [ok.flag (by simp [pc, Pc.masked]), Cpu.quiet, none, List.isEmpty_nil, Bool.true_and]
  · rfl

theorem step_inv {e : Event} (inv : SpinInv s) (taken : step s e = some s') : SpinInv s' := by
  simp only [step] at taken
  split at taken
  · rename_i lk _
    split at taken
    · cases taken
    · rename_i fresh
      by_cases pc : (s.cpus e.cpu).pc = .outside
      · have same : s.setCpu e.cpu (s.cpus e.cpu) = s := by simp [State.setCpu]
        rw [remembered (inv.ok e.cpu) pc, same] at taken
        exact call_inv (.spinLock lk) inv fresh taken
      · simp only [call, cpu_here, if_neg pc] at taken
        cases taken
  · rename_i lk _
    exact call_inv (.holding lk true) inv trivial taken
  · rename_i lk _
    exact call_inv (.holding lk false) inv trivial taken
  · exact go_inv inv taken

end Shared

section Run

structure SpinSafe (s : State) : Prop where
  exclusive : ∀ lk c d, lk ∈ (s.cpus c).held → lk ∈ (s.cpus d).held → c = d
  holding : ∀ c lk unlocking r, (s.cpus c).pc = .returned lk unlocking r →
    (r = true ↔ lk ∈ (s.cpus c).held)
  panics : ∀ c lk, (s.cpus c).pc = .releasePanic lk → lk ∉ (s.cpus c).held
  popped : ∀ c, (s.cpus c).pc ≠ .popPanic
  disabled : ∀ c, (s.cpus c).held ≠ [] → (s.cpus c).ienabled = false
  restored : ∀ c, (s.cpus c).pc = .outside → (s.cpus c).held = [] →
    (s.cpus c).ienabled = (s.cpus c).before

/-- Behind its call of holding, kmt_spin_unlock panics just when its CPU has not the lock. -/
def UnlockDecides (s : State) (e : Event) : Prop :=
  ∀ lk r s', e.action = .go → (s.cpus e.cpu).pc = .returned lk true r → step s e = some s' →
    ((s'.cpus e.cpu).pc = .releasePanic lk ↔ lk ∉ (s.cpus e.cpu).held)

variable {s s' : State}

theorem SpinInv.safe (inv : SpinInv s) : SpinSafe s := by
  refine ⟨fun lk c d => inv.once c d lk, fun c lk unlocking r pc => ?_, fun c lk pc => ?_,
    fun c pc => ?_, fun c => (inv.ok c).disabled, fun c pc none => ?_⟩
  · simpa only [Cpu.Fits, pc] using (inv.ok c).fits
  · simpa only [Cpu.Fits, pc] using (inv.ok c).fits
  · simpa only [Cpu.Fits, pc] using (inv.ok c).fits
  · rw [(inv.ok c).flag (by simp [pc, Pc.masked]), Cpu.quiet, none, List.isEmpty_nil,
      Bool.true_and]

theorem SpinInv.decides (inv : SpinInv s) (e : Event) : UnlockDecides s e := by
  intro lk r s' action pc taken
  have knows := inv.safe.holding e.cpu lk true r pc
  simp only [step, action, go, pc] at taken
  cases taken
  rw [cpu_here, ← knows]
  cases r <;> simp

theorem spin_init_inv (enabled : Nat → Bool) : SpinInv (spinInit enabled) := by
  refine ⟨fun c => ⟨List.nodup_nil, rfl, nofun, fun _ => ?_, fun busy => ?_, trivial⟩, nofun,
    fun lk => ?_, fun c lk => ?_⟩
  · simp [spinInit, Cpu.quiet]
  · simp [spinInit, Pc.saved] at busy
  · simp [spinInit]
  · simp [spinInit]

/-- Spinlocks exclude, know their holder and restore the interrupt flag in every run. -/
theorem spinlocks_exclude (enabled : Nat → Bool) (events : List Event) :
    Throughout step SpinSafe (spinInit enabled) events ∧
      EachStep step UnlockDecides (spinInit enabled) events := by
  have kept : ∀ s e s', SpinInv s → step s e = some s' → SpinInv s' :=
    fun s e s' inv taken => step_inv inv taken
  have start := spin_init_inv enabled
  exact ⟨throughout_of_invariant kept (fun s inv => inv.safe) events start,
    each_step_of_invariant kept (fun s e inv => inv.decides e) events start⟩

end Run

end Spin
