import JyyOs.Plcs.Rounds

/-!
The threads of Tworker_para_round_by_round leave the table of Tworker, diagonal by diagonal, and
one of them can always go on.
-/
namespace Plcs

open PartialRun

section Cells

variable (job : Job)

/-- The table by diagonals that dp_cache ends as. -/
def Job.final : Grid := finalCell job.a job.b

structure AtRow (dp : Grid) (r id pos : Nat) : Prop where
  known : r < job.rounds
  mine : job.Mine r id (job.row r id pos)
  front : ∀ y, (job.part r id).startRow ≤ y → y < job.row r id pos → dp r y = job.final r y

def WorkOk (s : State) (id : Nat) : Prop :=
  match s.pc id with
  | .skipA r pos => AtRow job s.dpCache r id pos
  | .skipB r pos skipA => AtRow job s.dpCache r id pos ∧ skipA = job.final.at (r - 1) (job.row r id pos)
  | .takeBoth r pos skipA skipB => AtRow job s.dpCache r id pos ∧
    skipA = job.final.at (r - 1) (job.row r id pos) ∧
    skipB = job.final.at (r - 1) (job.row r id pos - 1)
  | .store r pos skipA skipB takeBoth => AtRow job s.dpCache r id pos ∧
    skipA = job.final.at (r - 1) (job.row r id pos) ∧
    skipB = job.final.at (r - 1) (job.row r id pos - 1) ∧
    takeBoth = job.final.at (r - 2) (job.row r id pos - 1) +
      same job.a job.b (job.row r id pos) (r - job.row r id pos)
  | _ => True

structure Cells (s : State) : Prop where
  zero : ∀ x y, ¬OnDiagonal job.a job.b x y → s.dpCache x y = 0
  done : ∀ id, 1 ≤ id → id ≤ job.t → ∀ r, r < (s.pc id).done job.rounds → r < job.rounds →
    ∀ y, job.Mine r id y → s.dpCache r y = job.final r y
  work : ∀ id, 1 ≤ id → id ≤ job.t → WorkOk job s id

variable {job} {s s' : State} {r id pos : Nat}

def Keeps (job : Job) (s s' : State) : Prop :=
  ∀ x y, s.dpCache x y = job.final x y → s'.dpCache x y = job.final x y

theorem keeps_same (cells : s'.dpCache = s.dpCache) : Keeps job s s' := by
  intro x y final
  rw [cells]
  exact final

theorem AtRow.keeps (at_row : AtRow job s.dpCache r id pos) (keeps : Keeps job s s') :
    AtRow job s'.dpCache r id pos :=
  ⟨at_row.known, at_row.mine, fun y low high => keeps _ _ (at_row.front y low high)⟩

theorem WorkOk.keeps (work : WorkOk job s id) (keeps : Keeps job s s')
    (pc : s'.pc id = s.pc id) : WorkOk job s' id := by
  unfold WorkOk at work ⊢
  rw [pc]
  split at work
  · exact work.keeps keeps
  · exact ⟨work.1.keeps keeps, work.2⟩
  · exact ⟨work.1.keeps keeps, work.2⟩
  · exact ⟨work.1.keeps keeps, work.2⟩
  · trivial

theorem Cells.moved (cells : Cells job s) (others : ∀ v, v ≠ id → s'.pc v = s.pc v)
    (keeps : Keeps job s s')
    (zero : ∀ x y, ¬OnDiagonal job.a job.b x y → s'.dpCache x y = s.dpCache x y)
    (done : ∀ r, r < (s'.pc id).done job.rounds → r < job.rounds → ∀ y, job.Mine r id y →
      s'.dpCache r y = job.final r y)
    (work : WorkOk job s' id) : Cells job s' := by
  constructor
  · intro x y outside
    rw [zero x y outside]
    exact cells.zero x y outside
  · intro v low high r before known y mine
    by_cases here : v = id
    · subst here
      exact done r before known y mine
    · rw [others v here] at before
      exact keeps _ _ (cells.done v low high r before known y mine)
  · intro v low high
    by_cases here : v = id
    · rw [here]
      exact work
    · exact (cells.work v low high).keeps keeps (others v here)

theorem Cells.past (cells : Cells job s) (inv : Barrier job s) {x : Int}
    (before : x < ((s.pc 1).front job.rounds : Nat)) (known : x < (job.rounds : Nat)) (y : Int) :
    s.dpCache x y = job.final x y := by
  by_cases cell : OnDiagonal job.a job.b x y
  · obtain ⟨n, rfl⟩ : ∃ n : Nat, x = n := ⟨x.toNat, by unfold OnDiagonal at cell; omega⟩
    have known' : n < job.rounds := by omega
    obtain ⟨id, low, high, mine⟩ := mine_covers known' cell
    have ahead := inv.front_done low high
    exact cells.done id low high n (by omega) known' y mine
  · rw [cells.zero x y cell]
    exact (final_cell_zero cell).symm

theorem Cells.past_at (cells : Cells job s) (inv : Barrier job s) (low : 1 ≤ id)
    (high : id ≤ job.t) (works : (s.pc id).Works r) (known : r < job.rounds) {x : Int}
    (before : x < r) (y : Int) : s.dpCache.at x y = job.final.at x y := by
  have front := inv.works_at low high works
  unfold Grid.at
  rw [cells.past inv (by omega) (by omega)]

theorem stored_final (real : 1 ≤ id) (at_row : AtRow job s.dpCache r id pos) :
    job.final r (job.row r id pos) =
      max3 (job.final.at (r - 1) (job.row r id pos)) (job.final.at (r - 1) (job.row r id pos - 1))
        (job.final.at (r - 2) (job.row r id pos - 1) +
          same job.a job.b (job.row r id pos) (r - job.row r id pos)) :=
  final_cell_follows (mine_inside at_row.known real at_row.mine).1

theorem Cells.fills (cells : Cells job s) (low : 1 ≤ id) (high : id ≤ job.t)
    (known : r < job.rounds) (busy : ¬Idle (job.part r id) id)
    (here : (s.pc id).done job.rounds = r) (pcs : s'.pc = s.pc) (keeps : Keeps job s s')
    (zero : ∀ x y, ¬OnDiagonal job.a job.b x y → s'.dpCache x y = s.dpCache x y)
    (front : ∀ y, (job.part r id).startRow ≤ y → y < job.row r id pos →
      s'.dpCache r y = job.final r y) : Cells job (s'.go id (job.fill r id pos)) := by
  have start : (job.part r id).startRow ≤ job.row r id pos := by
    unfold Job.row
    omega
  have done : ∀ r', r' < r → r' < job.rounds → ∀ y, job.Mine r' id y →
      s'.dpCache r' y = job.final r' y := fun r' before known' y mine =>
    keeps _ _ (cells.done id low high r' (by rwa [here]) known' y mine)
  have others : ∀ v, v ≠ id → (s'.go id (job.fill r id pos)).pc v = s.pc v := by
    intro v other
    rw [go_pc, Function.update_of_ne other, pcs]
  refine cells.moved others keeps zero ?_ ?_
  · rw [go_pc, Function.update_self, go_cells]
    intro r' upto known' y mine
    rcases fill_cases job r id pos with ⟨next, more⟩ | ⟨next, ends⟩
    · rw [next] at upto
      exact done r' upto known' y mine
    · rw [next] at upto
      rcases Nat.lt_or_eq_of_le (Nat.le_of_lt_succ upto) with before | rfl
      · exact done r' before known' y mine
      · exact front y mine.2.1 (Int.lt_of_le_of_lt mine.2.2 ends)
  · rcases fill_cases job r id pos with ⟨next, more⟩ | ⟨next, ends⟩
    · simp only [WorkOk, go_pc, Function.update_self, next]
      exact ⟨known, ⟨busy, start, more⟩, front⟩
    · simp [WorkOk, next]

theorem keeps_stored {x y v : Int} (final : v = job.final x y) : Keeps job s (s.store x y v) := by
  intro x' y' before
  rw [store_cells]
  by_cases here : x' = x ∧ y' = y
  · obtain ⟨rfl, rfl⟩ := here
    rw [set_here]
    exact final
  · rw [set_other here]
    exact before

theorem Cells.moves (cells : Cells job s) (low : 1 ≤ id) (high : id ≤ job.t)
    (others : ∀ v, v ≠ id → s'.pc v = s.pc v) (same : s'.dpCache = s.dpCache)
    (done : (s'.pc id).done job.rounds ≤ (s.pc id).done job.rounds) (work : WorkOk job s' id) :
    Cells job s' := by
  refine cells.moved others (keeps_same same) (fun x y _ => by rw [same]) ?_ work
  intro r before known y mine
  rw [same]
  exact cells.done id low high r (Nat.lt_of_lt_of_le before done) known y mine

theorem cells_step (inv : Barrier job s) (cells : Cells job s) (low : 1 ≤ id) (high : id ≤ job.t)
    (taken : goOn job s id = some s') : Cells job s' := by
  have known := inv.known id low high
  have work := cells.work id low high
  have done := cells.done id low high
  have past := fun r works => cells.past_at (r := r) inv low high works
  unfold WorkOk at work
  cases pc : s.pc id with
  | round r =>
    simp only [pc] at known work done past
    simp only [goOn, pc] at taken
    split at taken
    · rename_i more
      rw [if_neg (Int.not_lt.mpr (part_ordered more low))] at taken
      split at taken
      · rename_i idle
        cases taken
        refine cells.moved (fun v other => Function.update_of_ne other ..) (keeps_same rfl)
          (fun x y _ => rfl) ?_ ?_
        · intro r' upto known' y mine
          simp only [go_pc, Function.update_self, Pc.done] at upto
          rcases Nat.lt_or_eq_of_le (Nat.le_of_lt_succ upto) with before | rfl
          · exact done r' before known' y mine
          · exact absurd idle mine.1
        · simp [WorkOk]
      · rename_i busy
        cases taken
        refine cells.fills low high more busy (by rw [pc]; rfl) rfl (keeps_same rfl)
          (fun x y _ => rfl) fun y first before => ?_
        unfold Job.row at before
        omega
    · rename_i last
      cases taken
      refine cells.moves low high (fun v other => Function.update_of_ne other ..) rfl ?_ ?_
      · simp only [go_pc, Function.update_self, pc, Pc.done]
        omega
      · simp [WorkOk]
  | skipA r pos =>
    simp only [pc] at work past
    simp only [goOn, pc] at taken
    cases taken
    refine cells.moves low high (fun v other => Function.update_of_ne other ..) rfl ?_ ?_
    · simp [pc, Pc.done]
    · simp only [WorkOk, go_pc, Function.update_self]
      exact ⟨work, past r rfl work.known (by omega) _⟩
  | skipB r pos skipA =>
    simp only [pc] at work past
    simp only [goOn, pc] at taken
    cases taken
    refine cells.moves low high (fun v other => Function.update_of_ne other ..) rfl ?_ ?_
    · simp [pc, Pc.done]
    · simp only [WorkOk, go_pc, Function.update_self]
      exact ⟨work.1, work.2, past r rfl work.1.known (by omega) _⟩
  | takeBoth r pos skipA skipB =>
    simp only [pc] at work past
    simp only [goOn, pc] at taken
    cases taken
    refine cells.moves low high (fun v other => Function.update_of_ne other ..) rfl ?_ ?_
    · simp [pc, Pc.done]
    · simp only [WorkOk, go_pc, Function.update_self]
      have sum := (mine_inside work.1.known low work.1.mine).2
      have column : (job.part r id).startCol - pos = r - job.row r id pos := by
        unfold Job.row
        omega
      refine ⟨work.1, work.2.1, work.2.2, ?_⟩
      rw [column, past r rfl work.1.known (by omega)]
  | store r pos skipA skipB takeBoth =>
    simp only [pc] at work done
    obtain ⟨at_row, read_a, read_b, read_both⟩ := work
    have final : max3 skipA skipB takeBoth = job.final r (job.row r id pos) := by
      rw [stored_final low at_row, read_a, read_b, read_both]
    simp only [goOn, pc] at taken
    cases taken
    have keeps : Keeps job s (s.store r (job.row r id pos) (max3 skipA skipB takeBoth)) :=
      keeps_stored final
    refine cells.fills low high at_row.known at_row.mine.1 (by rw [pc]; rfl) rfl keeps ?_ ?_
    · intro x y outside
      refine set_other fun here => outside ?_
      rw [here.1, here.2]
      exact (mine_inside at_row.known low at_row.mine).1
    · intro y first before
      by_cases here : y = job.row r id pos
      · rw [here, store_cells, set_here]
        exact final
      · refine keeps _ _ (at_row.front y first ?_)
        unfold Job.row at before here ⊢
        omega
  | stop r =>
    simp only [goOn, pc] at taken
    cases taken
    refine cells.moves low high (fun v other => Function.update_of_ne other ..) rfl ?_ ?_
    · simp [pc, Pc.done]
    · simp [WorkOk]
  | count r =>
    simp only [goOn, pc] at taken
    cases taken
    refine cells.moves low high (fun v other => Function.update_of_ne other ..) rfl ?_ ?_
    · simp only [go_pc, Function.update_self, pc]
      split <;> exact Nat.le_refl _
    · simp only [WorkOk, go_pc, Function.update_self]
      by_cases next : id = 1
      · simp [next]
      · simp [next]
  | gather r =>
    simp only [goOn, pc] at taken
    split at taken
    · cases taken
      exact cells
    · cases taken
      refine cells.moves low high (fun v other => Function.update_of_ne other ..) rfl ?_ ?_
      · simp [pc, Pc.done]
      · simp [WorkOk]
  | reset r =>
    simp only [goOn, pc] at taken
    cases taken
    refine cells.moves low high (fun v other => Function.update_of_ne other ..) rfl ?_ ?_
    · simp [pc, Pc.done]
    · simp [WorkOk]
  | release r i =>
    simp only [goOn, pc] at taken
    cases taken
    refine cells.moves low high (fun v other => Function.update_of_ne other ..) rfl ?_ ?_
    · simp only [go_pc, Function.update_self, pc]
      split <;> exact Nat.le_refl _
    · simp only [WorkOk, go_pc, Function.update_self]
      by_cases next : i + 1 < job.t
      · simp [next]
      · simp [next]
  | wait r =>
    simp only [goOn, pc] at taken
    split at taken
    · cases taken
      refine cells.moves low high (fun v other => Function.update_of_ne other ..) rfl ?_ ?_
      · simp [pc, Pc.done]
      · simp [WorkOk]
    · cases taken
      exact cells
  | ended =>
    simp only [goOn, pc] at taken
    cases taken
  | abort =>
    simp only [goOn, pc] at taken
    cases taken

theorem cells_started (job : Job) : Cells job started := by
  constructor
  · intro x y _
    rfl
  · intro id _ _ r before
    exact absurd before (Nat.not_lt_zero r)
  · intro id _ _
    trivial

end Cells

section Safe

variable (job : Job)

/-- What the threads can rely on, and what they leave. -/
structure ParaSafe (s : State) : Prop where
  asserted : ∀ id, 1 ≤ id → id ≤ job.t → s.pc id ≠ .abort
  before : ∀ id r, 1 ≤ id → id ≤ job.t → (s.pc id).Works r →
    ∀ x y : Int, x < r → s.dpCache x y = finalCell job.a job.b x y
  order : ∀ id v r, 1 ≤ id → id ≤ job.t → 1 ≤ v → v ≤ job.t → (s.pc id).Works (r + 1) →
    r < (s.pc v).finished job.rounds
  table : (∀ id, 1 ≤ id → id ≤ job.t → s.pc id = .ended) → s.dpCache = finalCell job.a job.b
  result : (∀ id, 1 ≤ id → id ≤ job.t → s.pc id = .ended) →
    s.dpCache (job.a.length + job.b.length - 2) (job.a.length - 1) =
      tworker job.a job.b (job.a.length - 1) (job.b.length - 1)

variable {job} {s s' : State} {r id : Nat}

theorem works_known {pc : Pc} {rounds : Nat} (known : pc.Known rounds) (works : pc.Works r) :
    r ≤ rounds := by
  cases pc <;> simp_all [Pc.Known, Pc.Works] <;> omega

theorem para_safe (inv : Barrier job s) (cells : Cells job s) : ParaSafe job s := by
  have table : (∀ id, 1 ≤ id → id ≤ job.t → s.pc id = .ended) →
      s.dpCache = finalCell job.a job.b := by
    intro ends
    have threads := job.threads
    have front : (s.pc 1).front job.rounds = job.rounds := by
      rw [ends 1 (Nat.le_refl 1) (by omega)]
      rfl
    funext x y
    by_cases cell : OnDiagonal job.a job.b x y
    · have known : x < (job.rounds : Nat) := by
        unfold OnDiagonal at cell
        unfold Job.rounds
        omega
      exact cells.past inv (by omega) known y
    · rw [cells.zero x y cell, final_cell_zero cell]
  constructor
  · intro id low high aborts
    have known := inv.known id low high
    rw [aborts] at known
    exact known
  · intro id r low high works x y before
    have front := inv.works_at low high works
    have known := works_known (inv.known id low high) works
    exact cells.past inv (by omega) (by omega) y
  · intro id v r low high low' high' works
    rw [← Nat.succ_le_iff, Nat.succ_eq_add_one, inv.works_at low high works]
    exact inv.front_finished low' high'
  · exact table
  · intro ends
    have column : (job.a.length : Int) + job.b.length - 2 - (job.a.length - 1) =
        job.b.length - 1 := by omega
    rw [table ends, finalCell, column]

theorem para_step (safe : Barrier job s ∧ Cells job s) (taken : step job s id = some s') :
    Barrier job s' ∧ Cells job s' := by
  refine ⟨barrier_step safe.1 taken, ?_⟩
  unfold step at taken
  split at taken
  · rename_i real
    exact cells_step safe.1 safe.2 real.1 real.2 taken
  · cases taken

/-- Tworker_para_round_by_round computes what Tworker does, however its threads interleave. -/
theorem para_agrees_with_serial (job : Job) (schedule : List Nat) :
    Throughout (step job) (ParaSafe job) started schedule :=
  throughout_of_invariant (fun _ _ _ safe taken => para_step safe taken)
    (fun _ safe => para_safe safe.1 safe.2) schedule ⟨barrier_started job, cells_started job⟩

example : (run (step ⟨[65], [65], 2, by decide, by decide, by decide, by decide, by decide,
    by decide⟩) started [1, 1, 1, 1, 1, 1, 1, 2, 2, 2, 1, 1, 1, 1, 2, 2, 1, 1]).map
    (fun s => (s.pc 1, s.pc 2, s.dpCache 0 0)) = some (.ended, .ended, 1) := by decide

end Safe

section Stuck

variable {job : Job} {s : State} {r id : Nat}

def Moves (job : Job) (s : State) (id : Nat) : Prop :=
  ∃ s', goOn job s id = some s' ∧ s'.pc id ≠ s.pc id

theorem fill_not_store (pos pos' : Nat) (skipA skipB takeBoth : Int) :
    job.fill r id pos' ≠ .store r pos skipA skipB takeBoth := by
  unfold Job.fill
  split <;> exact Pc.noConfusion

theorem works_moves (works : (s.pc id).Works r) : Moves job s id := by
  cases pc : s.pc id with
  | round r =>
    by_cases more : r < job.rounds
    · by_cases wrong : (job.part r id).endRow < (job.part r id).startRow
      · exact ⟨_, by simp [goOn, pc, more, wrong]; rfl, by simp [pc]⟩
      · by_cases idle : Idle (job.part r id) id
        · exact ⟨_, by simp [goOn, pc, more, wrong, idle]; rfl, by simp [pc]⟩
        · refine ⟨s.go id (job.fill r id 0), by simp [goOn, pc, more, wrong, idle], ?_⟩
          simp only [go_pc, Function.update_self, pc, Job.fill]
          split <;> simp
    · exact ⟨_, by simp [goOn, pc, more]; rfl, by simp [pc]⟩
  | skipA r pos => exact ⟨_, by simp [goOn, pc]; rfl, by simp [pc]⟩
  | skipB r pos skipA => exact ⟨_, by simp [goOn, pc]; rfl, by simp [pc]⟩
  | takeBoth r pos skipA skipB => exact ⟨_, by simp [goOn, pc]; rfl, by simp [pc]⟩
  | store r pos skipA skipB takeBoth =>
    refine ⟨_, by simp only [goOn, pc]; rfl, ?_⟩
    simp only [go_pc, Function.update_self, pc]
    exact fill_not_store pos (pos + 1) skipA skipB takeBoth
  | stop r => exact ⟨_, by simp [goOn, pc]; rfl, by simp [pc]⟩
  | count r =>
    refine ⟨_, by simp only [goOn, pc]; rfl, ?_⟩
    simp only [go_pc, Function.update_self, pc]
    split <;> simp
  | gather r => simp [pc, Pc.Works] at works
  | reset r => simp [pc, Pc.Works] at works
  | release r i => simp [pc, Pc.Works] at works
  | wait r => simp [pc, Pc.Works] at works
  | ended => simp [pc, Pc.Works] at works
  | abort => simp [pc, Pc.Works] at works

theorem gather_moves (inv : Barrier job s) (gathers : s.pc 1 = .gather r) :
    ∃ id, 1 ≤ id ∧ id ≤ job.t ∧ Moves job s id := by
  have threads := job.threads
  have known := inv.known 1 (Nat.le_refl 1) (by omega)
  have count := inv.count
  rw [gathers] at known count
  by_cases all : s.finishedThreadNum < job.t
  · obtain ⟨v, mem, out⟩ : ∃ v ∈ Finset.Icc 2 job.t, s.pc v ≠ .wait r := by
      by_contra none
      push Not at none
      have everyone : waiting job s r = Finset.Icc 2 job.t := Finset.filter_true_of_mem none
      simp only [Pc.front, Pc.counted, everyone, Nat.card_Icc] at count
      omega
    obtain ⟨low, high⟩ := Finset.mem_Icc.mp mem
    have ready := inv.ready v low high (by rw [gathers]; exact high)
    rw [gathers] at ready
    refine ⟨v, by omega, high, ?_⟩
    cases ready with
    | working works _ => exact works_moves works
    | held held => exact absurd held.waits out
    | released _ waits on =>
      exact ⟨_, by simp only [goOn, waits, on, if_true]; rfl, by simp [waits]⟩
    | ends _ last => exact absurd last (Nat.ne_of_lt known)
  · exact ⟨1, Nat.le_refl 1, by omega, _, by simp only [goOn, gathers, if_neg all]; rfl,
      by simp [gathers]⟩

theorem some_thread_moves (inv : Barrier job s) (low : 1 ≤ id) (high : id ≤ job.t)
    (runs : s.pc id ≠ .ended) : ∃ v, 1 ≤ v ∧ v ≤ job.t ∧ Moves job s v := by
  have threads := job.threads
  have first : ∀ r, (s.pc 1).Works r → ∃ v, 1 ≤ v ∧ v ≤ job.t ∧ Moves job s v :=
    fun r works => ⟨1, Nat.le_refl 1, by omega, works_moves works⟩
  cases pc : s.pc 1 with
  | round r => exact first r (by rw [pc]; rfl)
  | skipA r pos => exact first r (by rw [pc]; rfl)
  | skipB r pos skipA => exact first r (by rw [pc]; rfl)
  | takeBoth r pos skipA skipB => exact first r (by rw [pc]; rfl)
  | store r pos skipA skipB takeBoth => exact first r (by rw [pc]; rfl)
  | stop r => exact first r (by rw [pc]; rfl)
  | count r => exact first r (by rw [pc]; rfl)
  | gather r => exact gather_moves inv pc
  | reset r =>
    exact ⟨1, Nat.le_refl 1, by omega, _, by simp only [goOn, pc]; rfl, by simp [pc]⟩
  | release r i =>
    refine ⟨1, Nat.le_refl 1, by omega, _, by simp only [goOn, pc]; rfl, ?_⟩
    simp only [go_pc, Function.update_self, pc]
    split <;> simp
  | wait r =>
    have on : s.threadCanRun (1 - 1) = true := inv.self r pc
    exact ⟨1, Nat.le_refl 1, by omega, _, by simp only [goOn, pc, on, if_true]; rfl, by simp [pc]⟩
  | ended =>
    have other : id ≠ 1 := fun here => runs (here ▸ pc)
    have ready := inv.ready id (by omega) high (by rw [pc]; exact high)
    rw [pc] at ready
    refine ⟨id, low, high, ?_⟩
    cases ready with
    | working works _ => exact works_moves works
    | held held =>
      have known := inv.known id low high
      rw [held.waits] at known
      exact absurd known (Nat.lt_irrefl _)
    | released _ waits on =>
      exact ⟨_, by simp only [goOn, waits, on, if_true]; rfl, by simp [waits]⟩
    | ends ended _ => exact absurd ended runs
  | abort =>
    have known := inv.known 1 (Nat.le_refl 1) (by omega)
    rw [pc] at known
    exact known.elim

theorem para_never_stuck (job : Job) (schedule : List Nat) :
    Throughout (step job) (fun s => ∀ id, 1 ≤ id → id ≤ job.t → s.pc id ≠ .ended →
      ∃ v, 1 ≤ v ∧ v ≤ job.t ∧ Moves job s v) started schedule :=
  throughout_of_invariant (fun _ _ _ inv taken => barrier_step inv taken)
    (fun _ inv _ low high runs => some_thread_moves inv low high runs) schedule
    (barrier_started job)

end Stuck

end Plcs
