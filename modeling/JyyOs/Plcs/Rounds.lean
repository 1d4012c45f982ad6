import JyyOs.Library.PartialRun
import JyyOs.Plcs.Parts
import Mathlib.Algebra.BigOperators.Group.Finset.Piecewise
import Mathlib.Order.Interval.Finset.Nat
import Mathlib.Logic.Function.Basic

/-!
Tworker_para_round_by_round, one access to shared memory at a time, in any interleaving of its
threads. A thread that waits takes steps that change nothing.
-/
namespace Plcs

open PartialRun

section Code

/-- The next access of a thread in a round, with its cur_pos and what it has read. -/
inductive Pc where
  | round (r : Nat)
  | skipA (r pos : Nat)
  | skipB (r pos : Nat) (skipA : Int)
  | takeBoth (r pos : Nat) (skipA skipB : Int)
  | store (r pos : Nat) (skipA skipB takeBoth : Int)
  | stop (r : Nat)
  | count (r : Nat)
  | gather (r : Nat)
  | reset (r : Nat)
  | release (r i : Nat)
  | wait (r : Nat)
  | ended
  | abort
  deriving DecidableEq

structure State where
  dpCache : Grid
  finishedThreadNum : Nat
  threadCanRun : Nat → Bool
  pc : Nat → Pc

def State.go (s : State) (id : Nat) (pc : Pc) : State :=
  { s with pc := Function.update s.pc id pc }

def State.canRun (s : State) (i : Nat) (v : Bool) : State :=
  { s with threadCanRun := Function.update s.threadCanRun i v }

def State.store (s : State) (x y v : Int) : State := { s with dpCache := s.dpCache.set x y v }

variable (job : Job)

def Job.fill (r id pos : Nat) : Pc :=
  if pos + (job.part r id).startRow ≤ (job.part r id).endRow then .skipA r pos else .stop r

def Job.row (r id pos : Nat) : Int := (job.part r id).startRow + pos

def goOn (s : State) (id : Nat) : Option State :=
  match s.pc id with
  | .round r =>
    if r < job.rounds then
      if (job.part r id).endRow < (job.part r id).startRow then some (s.go id .abort)
      else if Idle (job.part r id) id then some (s.go id (.stop r))
      else some (s.go id (job.fill r id 0))
    else some (s.go id .ended)
  | .skipA r pos => some (s.go id (.skipB r pos (s.dpCache.at (r - 1) (job.row r id pos))))
  | .skipB r pos skipA =>
    some (s.go id (.takeBoth r pos skipA (s.dpCache.at (r - 1) (job.row r id pos - 1))))
  | .takeBoth r pos skipA skipB =>
    some (s.go id (.store r pos skipA skipB (s.dpCache.at (r - 2) (job.row r id pos - 1) +
      same job.a job.b (job.row r id pos) ((job.part r id).startCol - pos))))
  | .store r pos skipA skipB takeBoth =>
    some ((s.store r (job.row r id pos) (max3 skipA skipB takeBoth)).go id
      (job.fill r id (pos + 1)))
  | .stop r => some ((s.canRun (id - 1) false).go id (.count r))
  | .count r =>
    some ({ s with finishedThreadNum := s.finishedThreadNum + 1 }.go id
      (if id = 1 then .gather r else .wait r))
  | .gather r => if s.finishedThreadNum < job.t then some s else some (s.go id (.reset r))
  | .reset r => some ({ s with finishedThreadNum := 0 }.go id (.release r 0))
  | .release r i =>
    some ((s.canRun i true).go id (if i + 1 < job.t then .release r (i + 1) else .wait r))
  | .wait r => if s.threadCanRun (id - 1) then some (s.go id (.round (r + 1))) else some s
  | .ended => none
  | .abort => none

/-- The step of a thread; their numbers are 1 to T. -/
def step (s : State) (id : Nat) : Option State :=
  if 1 ≤ id ∧ id ≤ job.t then goOn job s id else none

def started : State := ⟨fun _ _ => 0, 0, fun _ => false, fun _ => .round 0⟩

end Code

section Progress

def Pc.done (rounds : Nat) : Pc → Nat
  | .round r | .skipA r _ | .skipB r _ _ | .takeBoth r _ _ _ | .store r _ _ _ _ => r
  | .stop r | .count r | .gather r | .reset r | .release r _ | .wait r => r + 1
  | .ended => rounds
  | .abort => 0

def Pc.finished (rounds : Nat) : Pc → Nat
  | .round r | .skipA r _ | .skipB r _ _ | .takeBoth r _ _ _ | .store r _ _ _ _ | .stop r
  | .count r => r
  | .gather r | .reset r | .release r _ | .wait r => r + 1
  | .ended => rounds
  | .abort => 0

def Pc.Works (r : Nat) : Pc → Prop
  | .round r' | .skipA r' _ | .skipB r' _ _ | .takeBoth r' _ _ _ | .store r' _ _ _ _ | .stop r'
  | .count r' => r' = r
  | _ => False

/-- A thread is at the assertion in the rounds and behind it at most. -/
def Pc.Known (rounds : Nat) : Pc → Prop
  | .round r => r ≤ rounds
  | .skipA r _ | .skipB r _ _ | .takeBoth r _ _ _ | .store r _ _ _ _ | .stop r | .count r
  | .gather r | .reset r | .release r _ | .wait r => r < rounds
  | .ended => True
  | .abort => False

/-- The round the threads go to that thread 1 has released. -/
def Pc.front (rounds : Nat) : Pc → Nat
  | .round r | .skipA r _ | .skipB r _ _ | .takeBoth r _ _ _ | .store r _ _ _ _ | .stop r
  | .count r | .gather r | .reset r => r
  | .release r _ | .wait r => r + 1
  | .ended => rounds
  | .abort => 0

def Pc.counted : Pc → Nat
  | .gather _ | .reset _ => 1
  | _ => 0

def Pc.released (t : Nat) : Pc → Nat
  | .reset _ => 0
  | .release _ i => i
  | _ => t

def Pc.behind : Pc → Nat
  | .reset r | .release r _ => r
  | _ => 0

variable (job : Job)

/-- A thread that has done round `r` and waits. -/
structure Held (s : State) (r id : Nat) : Prop where
  waits : s.pc id = .wait r
  off : s.threadCanRun (id - 1) = false

inductive Ready (s : State) (r id : Nat) : Prop
  | working (works : (s.pc id).Works r) (off : s.pc id = .count r → s.threadCanRun (id - 1) = false)
  | held (held : Held s r id)
  | released {r' : Nat} (next : r = r' + 1) (waits : s.pc id = .wait r')
      (on : s.threadCanRun (id - 1) = true)
  | ends (ended : s.pc id = .ended) (last : r = job.rounds)

def waiting (s : State) (r : Nat) : Finset Nat :=
  (Finset.Icc 2 job.t).filter fun id => s.pc id = .wait r

/-- The threads thread 1 has released are ready for its front, the others held behind it. -/
structure Barrier (s : State) : Prop where
  known : ∀ id, 1 ≤ id → id ≤ job.t → (s.pc id).Known job.rounds
  ready : ∀ id, 2 ≤ id → id ≤ job.t → id ≤ (s.pc 1).released job.t →
    Ready job s ((s.pc 1).front job.rounds) id
  held : ∀ id, 2 ≤ id → id ≤ job.t → (s.pc 1).released job.t < id → Held s (s.pc 1).behind id
  count : s.finishedThreadNum =
    (waiting job s ((s.pc 1).front job.rounds)).card + (s.pc 1).counted
  self : ∀ r, s.pc 1 = .wait r → s.threadCanRun 0 = true
  first : ∀ r i, s.pc 1 = .release r i → i < job.t ∧ (0 < i → s.threadCanRun 0 = true)

variable {job} {s s' : State} {r id u : Nat}

@[simp] theorem go_pc (s : State) (id : Nat) (pc : Pc) :
    (s.go id pc).pc = Function.update s.pc id pc := rfl

@[simp] theorem go_cells (s : State) (id : Nat) (pc : Pc) : (s.go id pc).dpCache = s.dpCache := rfl

@[simp] theorem store_cells (s : State) (x y v : Int) :
    (s.store x y v).dpCache = s.dpCache.set x y v := rfl

@[simp] theorem store_pc (s : State) (x y v : Int) : (s.store x y v).pc = s.pc := rfl

@[simp] theorem go_run (s : State) (id : Nat) (pc : Pc) :
    (s.go id pc).threadCanRun = s.threadCanRun := rfl

@[simp] theorem go_count (s : State) (id : Nat) (pc : Pc) :
    (s.go id pc).finishedThreadNum = s.finishedThreadNum := rfl

@[simp] theorem can_run_pc (s : State) (i : Nat) (v : Bool) : (s.canRun i v).pc = s.pc := rfl

@[simp] theorem can_run_cells (s : State) (i : Nat) (v : Bool) :
    (s.canRun i v).dpCache = s.dpCache := rfl

@[simp] theorem can_run_run (s : State) (i : Nat) (v : Bool) :
    (s.canRun i v).threadCanRun = Function.update s.threadCanRun i v := rfl

@[simp] theorem can_run_count (s : State) (i : Nat) (v : Bool) :
    (s.canRun i v).finishedThreadNum = s.finishedThreadNum := rfl

theorem Held.congr (held : Held s r id) (pc : s'.pc id = s.pc id)
    (run : s'.threadCanRun (id - 1) = s.threadCanRun (id - 1)) : Held s' r id :=
  ⟨pc.trans held.waits, run.trans held.off⟩

theorem Ready.congr (ready : Ready job s r id) (pc : s'.pc id = s.pc id)
    (run : s'.threadCanRun (id - 1) = s.threadCanRun (id - 1)) : Ready job s' r id := by
  cases ready with
  | working works off =>
    apply Ready.working
    · rw [pc]
      exact works
    · intro here
      rw [run]
      exact off (pc ▸ here)
  | held held => exact .held (held.congr pc run)
  | released next waits on => exact .released next (pc.trans waits) (run.trans on)
  | ends ended last => exact .ends (pc.trans ended) last

theorem waiting_congr (same : ∀ v, 2 ≤ v → s'.pc v = s.pc v) (r : Nat) :
    waiting job s' r = waiting job s r := by
  apply Finset.filter_congr
  intro v mem
  rw [same v (Finset.mem_Icc.mp mem).1]

theorem waiting_moved (low : 2 ≤ u) (high : u ≤ job.t) (others : ∀ v, v ≠ u → s'.pc v = s.pc v)
    (r : Nat) : (waiting job s' r).card + (if s.pc u = .wait r then 1 else 0) =
      (waiting job s r).card + if s'.pc u = .wait r then 1 else 0 := by
  have mem : u ∈ Finset.Icc 2 job.t := Finset.mem_Icc.mpr ⟨low, high⟩
  have rest : ∀ v ∈ (Finset.Icc 2 job.t).erase u,
      (if s'.pc v = .wait r then 1 else 0) = if s.pc v = .wait r then 1 else 0 := by
    intro v mem_v
    rw [others v (Finset.ne_of_mem_erase mem_v)]
  rw [waiting, waiting, Finset.card_filter, Finset.card_filter, ← Finset.add_sum_erase _ _ mem,
    ← Finset.add_sum_erase _ _ mem, Finset.sum_congr rfl rest]
  omega

theorem works_unique {pc : Pc} {r r' : Nat} (works : pc.Works r) (works' : pc.Works r') :
    r = r' := by
  cases pc <;> simp_all [Pc.Works]

theorem works_front {pc : Pc} (works : pc.Works r) (rounds t : Nat) :
    pc.front rounds = r ∧ pc.released t = t := by
  cases pc <;> simp_all [Pc.Works, Pc.front, Pc.released]

theorem works_finished {pc : Pc} (works : pc.Works r) (rounds : Nat) : pc.finished rounds = r := by
  cases pc <;> simp_all [Pc.Works, Pc.finished]

theorem finished_done (pc : Pc) (rounds : Nat) : pc.finished rounds ≤ pc.done rounds := by
  cases pc <;> simp [Pc.finished, Pc.done]

theorem Ready.finished (ready : Ready job s r id) : r ≤ (s.pc id).finished job.rounds := by
  cases ready with
  | working works _ => exact Nat.le_of_eq (works_finished works _).symm
  | held held =>
    rw [held.waits]
    exact Nat.le_succ r
  | released next waits _ =>
    rw [waits, next]
    exact Nat.le_refl _
  | ends ended last =>
    rw [ended, last]
    exact Nat.le_refl _

theorem Ready.works (ready : Ready job s r id) {r' : Nat} (works : (s.pc id).Works r') : r' = r := by
  cases ready with
  | working works' _ => exact works_unique works works'
  | held held =>
    rw [held.waits] at works
    cases works
  | released _ waits _ =>
    rw [waits] at works
    cases works
  | ends ended _ =>
    rw [ended] at works
    cases works

theorem Barrier.front_finished (inv : Barrier job s) (real : 1 ≤ id) (high : id ≤ job.t) :
    (s.pc 1).front job.rounds ≤ (s.pc id).finished job.rounds := by
  rcases Nat.eq_or_lt_of_le real with rfl | other
  · cases s.pc 1 <;> simp [Pc.front, Pc.finished]
  · by_cases released : id ≤ (s.pc 1).released job.t
    · exact (inv.ready id other high released).finished
    · have held := inv.held id other high (Nat.lt_of_not_le released)
      rw [held.waits]
      cases first : s.pc 1 <;> simp_all [Pc.front, Pc.behind, Pc.finished, Pc.released]

theorem Barrier.front_done (inv : Barrier job s) (real : 1 ≤ id) (high : id ≤ job.t) :
    (s.pc 1).front job.rounds ≤ (s.pc id).done job.rounds :=
  Nat.le_trans (inv.front_finished real high) (finished_done ..)

theorem Barrier.works_at (inv : Barrier job s) (real : 1 ≤ id) (high : id ≤ job.t)
    (works : (s.pc id).Works r) : r = (s.pc 1).front job.rounds := by
  rcases Nat.eq_or_lt_of_le real with rfl | other
  · exact (works_front works job.rounds job.t).1.symm
  · by_cases released : id ≤ (s.pc 1).released job.t
    · exact (inv.ready id other high released).works works
    · have held := inv.held id other high (Nat.lt_of_not_le released)
      rw [held.waits] at works
      cases works

end Progress

section Barrier

variable {job : Job} {s s' : State} {r id u : Nat}

theorem Barrier.moved (inv : Barrier job s) (low : 2 ≤ u) (high : u ≤ job.t)
    (others : ∀ v, v ≠ u → s'.pc v = s.pc v)
    (runs : ∀ i, i ≠ u - 1 → s'.threadCanRun i = s.threadCanRun i)
    (released : u ≤ (s.pc 1).released job.t) (known : (s'.pc u).Known job.rounds)
    (ready : Ready job s' ((s.pc 1).front job.rounds) u)
    (count : s'.finishedThreadNum +
        (if s.pc u = .wait ((s.pc 1).front job.rounds) then 1 else 0) =
      s.finishedThreadNum + if s'.pc u = .wait ((s.pc 1).front job.rounds) then 1 else 0) :
    Barrier job s' := by
  have first : s'.pc 1 = s.pc 1 := others 1 (by omega)
  have same : ∀ v, 2 ≤ v → v ≠ u → s'.pc v = s.pc v ∧
      s'.threadCanRun (v - 1) = s.threadCanRun (v - 1) :=
    fun v low' other => ⟨others v other, runs (v - 1) (by omega)⟩
  constructor
  · intro v low' high'
    by_cases here : v = u
    · rw [here]
      exact known
    · rw [others v here]
      exact inv.known v low' high'
  · intro v low' high' upto
    rw [first] at upto ⊢
    by_cases here : v = u
    · rw [here]
      exact ready
    · exact (inv.ready v low' high' upto).congr (same v low' here).1 (same v low' here).2
  · intro v low' high' behind
    rw [first] at behind ⊢
    have other : v ≠ u := by omega
    exact (inv.held v low' high' behind).congr (same v low' other).1 (same v low' other).2
  · have moved := waiting_moved low high others ((s.pc 1).front job.rounds)
    have before := inv.count
    rw [first]
    omega
  · intro r waits
    rw [runs 0 (by omega)]
    exact inv.self r (first ▸ waits)
  · intro r i releases
    rw [runs 0 (by omega)]
    exact inv.first r i (first ▸ releases)

theorem Barrier.first_moved (inv : Barrier job s) (others : ∀ v, v ≠ 1 → s'.pc v = s.pc v)
    (runs : ∀ i, i ≠ 0 → s'.threadCanRun i = s.threadCanRun i)
    (known : (s'.pc 1).Known job.rounds)
    (front : (s'.pc 1).front job.rounds = (s.pc 1).front job.rounds)
    (all : (s.pc 1).released job.t = job.t) (all' : (s'.pc 1).released job.t = job.t)
    (count : s'.finishedThreadNum + (s.pc 1).counted =
      s.finishedThreadNum + (s'.pc 1).counted)
    (self : ∀ r, s'.pc 1 ≠ .wait r) (first : ∀ r i, s'.pc 1 ≠ .release r i) :
    Barrier job s' := by
  constructor
  · intro v low high
    by_cases here : v = 1
    · rw [here]
      exact known
    · rw [others v here]
      exact inv.known v low high
  · intro v low high _
    rw [front]
    have ready := inv.ready v low high (by omega)
    exact ready.congr (others v (by omega)) (runs (v - 1) (by omega))
  · intro v low high behind
    omega
  · have before := inv.count
    rw [front, waiting_congr (fun v low => others v (by omega))]
    omega
  · intro r waits
    exact absurd waits (self r)
  · intro r i releases
    exact absurd releases (first r i)

theorem fill_cases (job : Job) (r id pos : Nat) :
    job.fill r id pos = .skipA r pos ∧ job.row r id pos ≤ (job.part r id).endRow ∨
      job.fill r id pos = .stop r ∧ (job.part r id).endRow < job.row r id pos := by
  rw [Job.fill, Job.row, Int.add_comm (job.part r id).startRow]
  split
  · rename_i more
    exact .inl ⟨rfl, more⟩
  · rename_i ends
    exact .inr ⟨rfl, not_le.mp ends⟩

theorem fill_works (id pos : Nat) (known : r < job.rounds) : (job.fill r id pos).Works r ∧
    (job.fill r id pos).Known job.rounds ∧ job.fill r id pos ≠ .count r := by
  rcases fill_cases job r id pos with ⟨next, _⟩ | ⟨next, _⟩
  · rw [next]
    exact ⟨rfl, known, nofun⟩
  · rw [next]
    exact ⟨rfl, known, nofun⟩

structure Worked (job : Job) (s s' : State) (r id : Nat) : Prop where
  others : ∀ v, v ≠ id → s'.pc v = s.pc v
  run : s'.threadCanRun = s.threadCanRun
  count : s'.finishedThreadNum = s.finishedThreadNum
  next : (s'.pc id).Works r ∧ (s'.pc id).Known job.rounds ∧ s'.pc id ≠ .count r ∨
    s'.pc id = .ended ∧ r = job.rounds

theorem worked_go (pc : Pc) (works : pc.Works r) (known : pc.Known job.rounds)
    (quiet : pc ≠ .count r) {g : Grid} : Worked job s ({ s with dpCache := g }.go id pc) r id where
  others := fun v other => Function.update_of_ne other ..
  run := rfl
  count := rfl
  next := by
    rw [go_pc, Function.update_self]
    exact .inl ⟨works, known, quiet⟩

theorem work_step (real : 1 ≤ id) (known : (s.pc id).Known job.rounds)
    (works : (s.pc id).Works r) (here : s.pc id ≠ .stop r) (quiet : s.pc id ≠ .count r)
    (taken : goOn job s id = some s') : Worked job s s' r id := by
  unfold goOn at taken
  cases pc : s.pc id with
  | round r' =>
    rw [pc] at works known taken
    obtain rfl : r' = r := works
    dsimp only at taken
    split at taken
    · rename_i more
      rw [if_neg (Int.not_lt.mpr (part_ordered more real))] at taken
      split at taken
      · cases taken
        exact worked_go (.stop r') rfl more nofun
      · cases taken
        obtain ⟨works, known, quiet⟩ := fill_works id 0 more
        exact worked_go _ works known quiet
    · rename_i last
      cases taken
      have known' : r' ≤ job.rounds := known
      refine ⟨fun v other => Function.update_of_ne other .., rfl, rfl, .inr ⟨?_, by omega⟩⟩
      exact Function.update_self ..
  | skipA r' pos =>
    rw [pc] at works known taken
    obtain rfl : r' = r := works
    cases taken
    exact worked_go (.skipB ..) rfl known nofun
  | skipB r' pos skipA =>
    rw [pc] at works known taken
    obtain rfl : r' = r := works
    cases taken
    exact worked_go (.takeBoth ..) rfl known nofun
  | takeBoth r' pos skipA skipB =>
    rw [pc] at works known taken
    obtain rfl : r' = r := works
    cases taken
    exact worked_go (.store ..) rfl known nofun
  | store r' pos skipA skipB takeBoth =>
    rw [pc] at works known taken
    obtain rfl : r' = r := works
    cases taken
    obtain ⟨works, known, quiet⟩ := fill_works id (pos + 1) known
    exact worked_go _ works known quiet
  | stop r' =>
    rw [pc] at works here
    obtain rfl : r' = r := works
    exact absurd rfl here
  | count r' =>
    rw [pc] at works quiet
    obtain rfl : r' = r := works
    exact absurd rfl quiet
  | gather => rw [pc] at works; cases works
  | reset => rw [pc] at works; cases works
  | release => rw [pc] at works; cases works
  | wait => rw [pc] at works; cases works
  | ended => rw [pc] at works; cases works
  | abort => rw [pc] at works; cases works

theorem works_not_wait {pc : Pc} (works : pc.Works r) (r' : Nat) : pc ≠ .wait r' := by
  rintro rfl
  cases works

theorem Barrier.other_step (inv : Barrier job s) (low : 2 ≤ u) (high : u ≤ job.t)
    (taken : goOn job s u = some s') : Barrier job s' := by
  by_cases released : u ≤ (s.pc 1).released job.t
  · have known := inv.known u (by omega) high
    cases inv.ready u low high released with
    | working works off =>
      have unlisted := works_not_wait works ((s.pc 1).front job.rounds)
      by_cases stops : s.pc u = .stop ((s.pc 1).front job.rounds)
      · have before : (Pc.stop ((s.pc 1).front job.rounds)).Known job.rounds := stops ▸ known
        simp only [goOn, stops] at taken
        cases taken
        refine inv.moved low high (fun v other => ?_) (fun i other => ?_) released ?_ ?_ ?_
        · exact Function.update_of_ne other ..
        · exact Function.update_of_ne other ..
        · simpa [Pc.Known] using before
        · refine .working ?_ fun _ => ?_
          · simp [Pc.Works]
          · simp
        · simp [stops]
      · by_cases counts : s.pc u = .count ((s.pc 1).front job.rounds)
        · have before : (Pc.count ((s.pc 1).front job.rounds)).Known job.rounds := counts ▸ known
          have other : ¬u = 1 := by omega
          simp only [goOn, counts, if_neg other] at taken
          cases taken
          refine inv.moved low high (fun v other => ?_) (fun i other => rfl) released ?_ ?_ ?_
          · exact Function.update_of_ne other ..
          · simpa [Pc.Known] using before
          · refine .held ⟨?_, ?_⟩
            · simp
            · exact off counts
          · simp [counts]
        · obtain ⟨others, run, count, next⟩ := work_step (by omega) known works stops counts taken
          rcases next with ⟨works', known', quiet⟩ | ⟨ends, last⟩
          · refine inv.moved low high others (fun i _ => by rw [run]) released known'
              (.working works' fun counts => absurd counts quiet) ?_
            rw [if_neg unlisted, if_neg (works_not_wait works' _), count]
          · refine inv.moved low high others (fun i _ => by rw [run]) released ?_
              (.ends ends last) ?_
            · rw [ends]
              trivial
            · rw [if_neg unlisted, ends, if_neg nofun, count]
    | held held =>
      simp only [goOn, held.waits, held.off, Bool.false_eq_true, if_false] at taken
      cases taken
      exact inv
    | @released r next waits on =>
      have before : (Pc.wait r).Known job.rounds := waits ▸ known
      simp only [goOn, waits, on, if_true] at taken
      cases taken
      have other : r ≠ (s.pc 1).front job.rounds := by omega
      refine inv.moved low high (fun v other => ?_) (fun i other => rfl) released ?_ ?_ ?_
      · exact Function.update_of_ne other ..
      · simpa [Pc.Known] using Nat.succ_le_of_lt before
      · refine .working ?_ fun counts => ?_
        · simp [Pc.Works, next]
        · simp at counts
      · simp [waits, other]
    | ends ended last =>
      simp only [goOn, ended] at taken
      cases taken
  · have held := inv.held u low high (Nat.lt_of_not_le released)
    simp only [goOn, held.waits, held.off, Bool.false_eq_true, if_false] at taken
    cases taken
    exact inv

theorem Barrier.gathered (inv : Barrier job s) (gathers : s.pc 1 = .gather r)
    (all : job.t ≤ s.finishedThreadNum) (low : 2 ≤ id) (high : id ≤ job.t) : Held s r id := by
  have count := inv.count
  simp only [gathers, Pc.front, Pc.counted] at count
  have others : (Finset.Icc 2 job.t).card = job.t - 1 := by
    rw [Nat.card_Icc]
    omega
  have whole : waiting job s r = Finset.Icc 2 job.t := by
    apply Finset.eq_of_subset_of_card_le (Finset.filter_subset ..)
    have enough : job.t - 1 ≤ (waiting job s r).card := by omega
    rw [others]
    exact enough
  have mem : id ∈ waiting job s r := whole ▸ Finset.mem_Icc.mpr ⟨low, high⟩
  have waits := (Finset.mem_filter.mp mem).2
  have ready := inv.ready id low high (by rw [gathers]; exact high)
  rw [gathers, Pc.front] at ready
  cases ready with
  | working works _ => exact absurd waits (works_not_wait works r)
  | held held => exact held
  | released next waits' _ =>
    rw [waits] at waits'
    cases waits'
    omega
  | ends ended _ =>
    rw [waits] at ended
    cases ended

theorem Barrier.resets (inv : Barrier job s) (gathers : s.pc 1 = .gather r)
    (all : job.t ≤ s.finishedThreadNum) : Barrier job (s.go 1 (.reset r)) := by
  have known : (Pc.gather r).Known job.rounds :=
    gathers ▸ inv.known 1 (Nat.le_refl 1) (by have := job.threads; omega)
  have count := inv.count
  simp only [gathers, Pc.front, Pc.counted] at count
  have held : ∀ v, 2 ≤ v → v ≤ job.t → Held (s.go 1 (.reset r)) r v := by
    intro v low high
    apply (inv.gathered gathers all low high).congr
    · exact Function.update_of_ne (by omega) ..
    · rfl
  constructor
  · intro v low high
    by_cases here : v = 1
    · rw [here]
      simpa [Pc.Known] using known
    · rw [go_pc, Function.update_of_ne here]
      exact inv.known v low high
  · intro v low high upto
    simp [Pc.released] at upto
    omega
  · intro v low high _
    simpa [Pc.behind] using held v low high
  · simp only [go_pc, Function.update_self, Pc.front, Pc.counted, go_count]
    have same : waiting job (s.go 1 (.reset r)) r = waiting job s r :=
      waiting_congr (fun v low => Function.update_of_ne (by omega) ..) r
    rw [count, same]
  · simp
  · simp

theorem Barrier.starts_release (inv : Barrier job s) (resets : s.pc 1 = .reset r) :
    Barrier job ({ s with finishedThreadNum := 0 }.go 1 (.release r 0)) := by
  have threads := job.threads
  have known : (Pc.reset r).Known job.rounds := resets ▸ inv.known 1 (Nat.le_refl 1) (by omega)
  have held : ∀ v, 2 ≤ v → v ≤ job.t → Held s r v := by
    intro v low high
    have held := inv.held v low high (by rw [resets, Pc.released]; omega)
    rwa [resets] at held
  constructor
  · intro v low high
    by_cases here : v = 1
    · rw [here]
      simpa [Pc.Known] using known
    · rw [go_pc, Function.update_of_ne here]
      exact inv.known v low high
  · intro v low high upto
    simp [Pc.released] at upto
    omega
  · intro v low high _
    simp only [go_pc, Function.update_self, Pc.behind]
    apply (held v low high).congr
    · exact Function.update_of_ne (by omega) ..
    · rfl
  · simp only [go_pc, Function.update_self, Pc.front, Pc.counted, go_count]
    rw [waiting_congr (s := s) (fun v low => Function.update_of_ne (by omega) ..), eq_comm,
      Nat.add_zero, Finset.card_eq_zero, waiting, Finset.filter_eq_empty_iff]
    intro v mem
    obtain ⟨low, high⟩ := Finset.mem_Icc.mp mem
    rw [(held v low high).waits]
    simp
  · simp
  · intro r' i releases
    simp at releases
    omega

theorem Barrier.releases {i : Nat} (inv : Barrier job s) (releases : s.pc 1 = .release r i) :
    Barrier job ((s.canRun i true).go 1
      (if i + 1 < job.t then .release r (i + 1) else .wait r)) := by
  have threads := job.threads
  have known : (Pc.release r i).Known job.rounds :=
    releases ▸ inv.known 1 (Nat.le_refl 1) (by omega)
  obtain ⟨inside, on⟩ := inv.first r i releases
  obtain ⟨pc, pc_eq⟩ : ∃ pc, pc = if i + 1 < job.t then Pc.release r (i + 1) else .wait r :=
    ⟨_, rfl⟩
  rw [← pc_eq]
  have front : pc.front job.rounds = r + 1 ∧ pc.counted = 0 ∧ pc.Known job.rounds ∧
      ∀ v, v ≤ job.t → (v ≤ pc.released job.t ↔ v ≤ i + 1) := by
    rw [pc_eq]
    split
    · exact ⟨rfl, rfl, known, fun v high => Iff.rfl⟩
    · exact ⟨rfl, rfl, known, fun v high => ⟨fun _ => by omega, fun _ => high⟩⟩
  obtain ⟨front, counted, known', released⟩ := front
  have others : ∀ v, v ≠ 1 → ((s.canRun i true).go 1 pc).pc v = s.pc v :=
    fun v other => Function.update_of_ne other ..
  have runs : ∀ j, j ≠ i → ((s.canRun i true).go 1 pc).threadCanRun j = s.threadCanRun j :=
    fun j other => Function.update_of_ne other ..
  have run_here : ((s.canRun i true).go 1 pc).threadCanRun i = true := Function.update_self ..
  have first : ((s.canRun i true).go 1 pc).pc 1 = pc := by
    rw [go_pc, Function.update_self]
  have zero : ((s.canRun i true).go 1 pc).threadCanRun 0 = true := by
    by_cases here : i = 0
    · rw [← here]
      exact run_here
    · rw [runs 0 (Ne.symm here)]
      exact on (Nat.pos_of_ne_zero here)
  constructor
  · intro v low high
    by_cases here : v = 1
    · rw [here, first]
      exact known'
    · rw [others v here]
      exact inv.known v low high
  · intro v low high upto
    rw [first] at upto ⊢
    rw [front]
    rw [released v high] at upto
    rcases Nat.lt_or_eq_of_le upto with before | here
    · have ready := inv.ready v low high (by rw [releases, Pc.released]; omega)
      rw [releases, Pc.front] at ready
      exact ready.congr (others v (by omega)) (runs (v - 1) (by omega))
    · have held := inv.held v low high (by rw [releases, Pc.released]; omega)
      rw [releases, Pc.behind] at held
      apply Ready.released rfl
      · rw [others v (by omega)]
        exact held.waits
      · have index : v - 1 = i := by omega
        rw [index]
        exact run_here
  · intro v low high behind
    rw [first] at behind ⊢
    have more : ¬v ≤ i + 1 := fun upto => by
      have := (released v high).mpr upto
      omega
    have held := inv.held v low high (by rw [releases, Pc.released]; omega)
    rw [releases, Pc.behind] at held
    have round : pc.behind = r := by
      rw [pc_eq, if_pos (by omega), Pc.behind]
    rw [round]
    exact held.congr (others v (by omega)) (runs (v - 1) (by omega))
  · have count := inv.count
    simp only [releases, Pc.front, Pc.counted] at count
    rw [first, front, counted, waiting_congr (fun v low => others v (by omega))]
    exact count
  · intro r' _
    exact zero
  · intro r' j later
    rw [first, pc_eq] at later
    split at later
    · cases later
      exact ⟨by assumption, fun _ => zero⟩
    · cases later

theorem Barrier.first_step (inv : Barrier job s) (taken : goOn job s 1 = some s') :
    Barrier job s' := by
  have threads := job.threads
  have known := inv.known 1 (Nat.le_refl 1) (by omega)
  by_cases working : ∃ r, (s.pc 1).Works r
  · obtain ⟨r, works⟩ := working
    obtain ⟨front, released⟩ := works_front works job.rounds job.t
    by_cases stops : s.pc 1 = .stop r
    · rw [stops] at known
      simp only [goOn, stops] at taken
      cases taken
      apply inv.first_moved
      · intro v other
        exact Function.update_of_ne other ..
      · intro i other
        exact Function.update_of_ne other ..
      · simpa [Pc.Known] using known
      · simp [stops, Pc.front]
      · exact released
      · simp [Pc.released]
      · simp [stops, Pc.counted]
      · simp
      · simp
    · by_cases counts : s.pc 1 = .count r
      · rw [counts] at known
        simp only [goOn, counts, if_true] at taken
        cases taken
        apply inv.first_moved
        · intro v other
          exact Function.update_of_ne other ..
        · intro i other
          rfl
        · simpa [Pc.Known] using known
        · simp [counts, Pc.front]
        · exact released
        · simp [Pc.released]
        · simp [counts, Pc.counted]
        · simp
        · simp
      · obtain ⟨others, run, count, next⟩ := work_step (Nat.le_refl 1) known works stops counts taken
        have counted : (s.pc 1).counted = 0 := by
          cases pc : s.pc 1 <;> simp_all [Pc.Works, Pc.counted]
        rcases next with ⟨works', known', quiet⟩ | ⟨ends, last⟩
        · obtain ⟨front', released'⟩ := works_front works' job.rounds job.t
          have counted' : (s'.pc 1).counted = 0 := by
            cases pc : s'.pc 1 <;> simp_all [Pc.Works, Pc.counted]
          apply inv.first_moved others (fun i _ => by rw [run]) known' (front'.trans front.symm)
            released released'
          · rw [count, counted, counted']
          · exact works_not_wait works'
          · intro r' i releases
            rw [releases] at works'
            cases works'
        · apply inv.first_moved others (fun i _ => by rw [run])
          · rw [ends]
            trivial
          · rw [ends, front, last]
            rfl
          · exact released
          · rw [ends]
            rfl
          · rw [count, counted, ends]
            rfl
          · rw [ends]
            simp
          · rw [ends]
            simp
  · cases pc : s.pc 1 with
    | gather r =>
      simp only [goOn, pc] at taken
      split at taken
      · cases taken
        exact inv
      · rename_i all
        cases taken
        exact inv.resets pc (Nat.le_of_not_lt all)
    | reset r =>
      simp only [goOn, pc] at taken
      cases taken
      exact inv.starts_release pc
    | release r i =>
      simp only [goOn, pc] at taken
      cases taken
      exact inv.releases pc
    | wait r =>
      rw [pc] at known
      have on : s.threadCanRun (1 - 1) = true := inv.self r pc
      simp only [goOn, pc, on, if_true] at taken
      cases taken
      apply inv.first_moved
      · intro v other
        exact Function.update_of_ne other ..
      · intro i other
        rfl
      · simpa [Pc.Known] using Nat.succ_le_of_lt known
      · simp [pc, Pc.front]
      · simp [pc, Pc.released]
      · simp [Pc.released]
      · simp [pc, Pc.counted]
      · simp
      · simp
    | ended =>
      simp only [goOn, pc] at taken
      cases taken
    | abort =>
      simp only [goOn, pc] at taken
      cases taken
    | round r => exact absurd ⟨r, pc ▸ rfl⟩ working
    | skipA r => exact absurd ⟨r, pc ▸ rfl⟩ working
    | skipB r => exact absurd ⟨r, pc ▸ rfl⟩ working
    | takeBoth r => exact absurd ⟨r, pc ▸ rfl⟩ working
    | store r => exact absurd ⟨r, pc ▸ rfl⟩ working
    | stop r => exact absurd ⟨r, pc ▸ rfl⟩ working
    | count r => exact absurd ⟨r, pc ▸ rfl⟩ working

theorem barrier_step (inv : Barrier job s) (taken : step job s id = some s') :
    Barrier job s' := by
  unfold step at taken
  split at taken
  · rename_i real
    rcases Nat.eq_or_lt_of_le real.1 with first | other
    · rw [← first] at taken
      exact inv.first_step taken
    · exact inv.other_step other real.2 taken
  · cases taken

theorem barrier_started (job : Job) : Barrier job started := by
  have none_waits : (waiting job started 0).card = 0 := by
    rw [Finset.card_eq_zero, waiting, Finset.filter_eq_empty_iff]
    intro v _
    simp [started]
  constructor
  · intro v _ _
    exact Nat.zero_le _
  · intro v _ _ _
    refine .working rfl ?_
    simp [started]
  · intro v low high behind
    simp [started, Pc.released] at behind
    omega
  · have front : (started.pc 1).front job.rounds = 0 := rfl
    rw [front, none_waits]
    rfl
  · simp [started]
  · simp [started]

end Barrier

end Plcs
