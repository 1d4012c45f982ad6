import JyyOs.Pmm.SummaryRun

/-!
bbma_alloc and bbma_free on any number of CPUs, one step for each try_lock, each critical
section and each unlock. A search that meets a held lock goes on to the next tree and looks
at no tree twice, so NULL says something about each tree on its own.
-/
namespace Tbma
open BuddyTree PartialRun

inductive BbmaPc where
  | outside
  | tryLock (size i : Nat)
  | inTree (size i : Nat)
  | unlockFull (size i : Nat)
  | unlockFound (size i ptr : Nat)
  | returned (size ptr : Nat)
  | lockTree (t ptr blockSize : Nat)
  | freeSection (t ptr blockSize : Nat)
  | unlockFreed (t : Nat)
deriving DecidableEq

structure Contend where
  trees : TreesState
  treeLocks : Nat → Nat
  pc : Nat → BbmaPc

inductive BbmaEvent where
  | alloc (cpu size : Nat)
  | free (cpu ptr blockSize : Nat)
  | go (cpu : Nat)

def Contend.at (s : Contend) (cpu : Nat) (pc : BbmaPc) : Contend :=
  { s with pc := Function.update s.pc cpu pc }

def bbmaReturn (size ptr : Nat) : Option BbmaPc :=
  if isAlignTo ptr (determineBbmaSize size) then some (.returned size ptr) else none

/-- The loop head of find_available_tree; index -1 makes bbma_alloc return NULL. -/
def nextTree (g : Globals) (size i : Nat) : Option BbmaPc :=
  if i ≤ g.treeNum then some (.tryLock size i) else bbmaReturn size 0

def bbmaAllocEnter (g : Globals) (size : Nat) : Option BbmaPc :=
  if determineBbmaSize size = bbmaRefuse then some (.returned size 0) else nextTree g size 1

def bbmaFreeEnter (g : Globals) (ptr blockSize : Nat) : Option BbmaPc :=
  if ptr = 0 then some .outside
  else
    match determineWhichTree g ptr with
    | none => none
    | some t => if g.allTrees t = 0 then none else some (.lockTree t ptr blockSize)

def allocSection (g : Globals) (s : TreesState) (size i : Nat) : Option (BbmaPc × TreesState) :=
  let bbmaSize := determineBbmaSize size
  if s.mem (g.allTrees i + 1) < bbmaSize then some (.unlockFull size i, s)
  else if g.treeNum < i then none
  else if g.allTrees i = 0 then some (.returned size 0, s)
  else
    match getTheFreeSpaceInTree g s.mem (g.allTrees i) 1 s16M bbmaSize with
    | none => none
    | some (ptr, mem) =>
      some (.unlockFound size i ptr,
        ⟨mem, Function.update s.live i ((ptr, bbmaSize) :: s.live i)⟩)

/-- The next step of `cpu` inside its call; a spinning CPU takes none. -/
def bbmaGo (g : Globals) (s : Contend) (cpu : Nat) : Option Contend :=
  match s.pc cpu with
  | .outside => none
  | .tryLock size i =>
    if s.treeLocks i = 0 then
      some { s.at cpu (.inTree size i) with treeLocks := Function.update s.treeLocks i 1 }
    else
      (nextTree g size (i + 1)).map fun pc =>
        { s.at cpu pc with treeLocks := Function.update s.treeLocks i 1 }
  | .inTree size i =>
    (allocSection g s.trees size i).map fun (pc, trees) => { s.at cpu pc with trees := trees }
  | .unlockFull size i =>
    (nextTree g size (i + 1)).map fun pc =>
      { s.at cpu pc with treeLocks := spinUnlock s.treeLocks i }
  | .unlockFound size i ptr =>
    (bbmaReturn size ptr).map fun pc =>
      { s.at cpu pc with treeLocks := spinUnlock s.treeLocks i }
  | .returned _ _ => some (s.at cpu .outside)
  | .lockTree t ptr blockSize =>
    if s.treeLocks t = 0 then
      some { s.at cpu (.freeSection t ptr blockSize) with
        treeLocks := Function.update s.treeLocks t 1 }
    else none
  | .freeSection t ptr blockSize =>
    (treeStep g s.trees (.free t ptr blockSize)).map fun trees =>
      { s.at cpu (.unlockFreed t) with trees := trees }
  | .unlockFreed t =>
    some { s.at cpu .outside with treeLocks := spinUnlock s.treeLocks t }

/-- `free` is called with a live block; `blockSize` is the class it was allocated with. -/
def bbmaStep (g : Globals) (s : Contend) : BbmaEvent → Option Contend
  | .alloc cpu size =>
    if s.pc cpu = .outside then (bbmaAllocEnter g size).map (s.at cpu) else none
  | .free cpu ptr blockSize =>
    if s.pc cpu = .outside then (bbmaFreeEnter g ptr blockSize).map (s.at cpu) else none
  | .go cpu => bbmaGo g s cpu

def bootContend (mem : Mem) : Contend := ⟨bootTrees mem, fun _ => 0, fun _ => .outside⟩

def BbmaPc.size : BbmaPc → Option Nat
  | .tryLock size _ | .inTree size _ | .unlockFull size _ | .unlockFound size _ _
  | .returned size _ => some size
  | .outside | .lockTree _ _ _ | .freeSection _ _ _ | .unlockFreed _ => none

def BbmaPc.holds : BbmaPc → Option Nat
  | .inTree _ i | .unlockFull _ i | .unlockFound _ i _ => some i
  | .freeSection t _ _ | .unlockFreed t => some t
  | .outside | .tryLock _ _ | .returned _ _ | .lockTree _ _ _ => none

/-- The system under an observer: `seen cpu` says that `moment` held in some state of the
    bbma_alloc call that `cpu` is in. -/
structure Watched where
  sys : Contend
  seen : Nat → Prop

section Observer

variable (g : Globals) (moment : Contend → Nat → Nat → Prop)

def watch (seen : Nat → Prop) (s : Contend) (cpu : Nat) : Prop :=
  match (s.pc cpu).size with
  | none => False
  | some size => seen cpu ∨ moment s cpu size

def watchedStep (w : Watched) (e : BbmaEvent) : Option Watched :=
  (bbmaStep g w.sys e).map fun s => ⟨s, watch moment w.seen s⟩

end Observer

def bootWatched (mem : Mem) : Watched := ⟨bootContend mem, fun _ => False⟩

/-- Every call that returns NULL for a size it serves had its moment. -/
def NullSeen (w : Watched) : Prop :=
  ∀ cpu size, w.sys.pc cpu = .returned size 0 → size ≤ 2 ^ 24 → w.seen cpu

/-- No tree contains a wholly free aligned block of the class of `size`. -/
def Exhausted (g : Globals) (s : Contend) (_cpu size : Nat) : Prop :=
  ∀ t, TreeIndex g t → ¬ Room (s.trees.live t) (windowOf g t) 24 (determineBbmaSize size)

/-- Another CPU is in tree `t`, or its root shows less than the class of `size`; then there is
    no such block, unless the root hides one. -/
def Refused (g : Globals) (t : Nat) (s : Contend) (cpu size : Nat) : Prop :=
  (∃ d, d ≠ cpu ∧ (s.pc d).holds = some t) ∨
    s.trees.mem (g.allTrees t + 1) < determineBbmaSize size ∧
      (ExactAt g s.trees.mem (g.allTrees t) (s.trees.live t) 1 →
        ¬ Room (s.trees.live t) (windowOf g t) 24 (determineBbmaSize size))

section Invariant

def BbmaPc.Fits (g : Globals) : BbmaPc → Prop
  | .tryLock size i | .inTree size i | .unlockFull size i => size ≤ 2 ^ 24 ∧ TreeIndex g i
  | .unlockFound _ _ ptr => ptr ≠ 0
  | .outside | .returned _ _ | .lockTree _ _ _ | .freeSection _ _ _ | .unlockFreed _ => True

def BbmaPc.Passed (t : Nat) : BbmaPc → Prop
  | .tryLock _ i | .inTree _ i => t < i
  | .unlockFull _ i => t ≤ i
  | .returned size ptr => ptr = 0 ∧ size ≤ 2 ^ 24
  | .outside | .unlockFound _ _ _ | .lockTree _ _ _ | .freeSection _ _ _ | .unlockFreed _ => False

structure ContendInv (g : Globals) (t : Nat) (w : Watched) : Prop where
  trees : ∃ shape, TreeInv g w.sys.trees shape
  held : ∀ u, w.sys.treeLocks u ≠ 0 → ∃ d, (w.sys.pc d).holds = some u
  fits : ∀ cpu, (w.sys.pc cpu).Fits g
  passed : ∀ cpu, (w.sys.pc cpu).Passed t → w.seen cpu

variable {g : Globals} {t : Nat} {w : Watched} {s' : Contend} {cpu : Nat} {pc' : BbmaPc}

theorem passed_in_call {pc : BbmaPc} (passed : pc.Passed t) : ∃ size, pc.size = some size := by
  cases pc <;> first | exact ⟨_, rfl⟩ | exact absurd passed id

theorem watch_seen {moment : Contend → Nat → Nat → Prop} {seen : Nat → Prop} {size : Nat}
    (in_call : (s'.pc cpu).size = some size) (h : seen cpu ∨ moment s' cpu size) :
    watch moment seen s' cpu := by
  rw [watch, in_call]
  exact h

/-- What a step of `cpu` has to show; the other CPUs stay where they are. -/
theorem ContendInv.advance (inv : ContendInv g t w) (pcs : s'.pc = Function.update w.sys.pc cpu pc')
    (trees : ∃ shape, TreeInv g s'.trees shape)
    (held : ∀ u, s'.treeLocks u ≠ 0 →
      pc'.holds = some u ∨ w.sys.treeLocks u ≠ 0 ∧ (w.sys.pc cpu).holds ≠ some u)
    (fits : pc'.Fits g)
    (passed : ∀ size, pc'.size = some size → pc'.Passed t →
      w.seen cpu ∨ Refused g t s' cpu size) :
    ContendInv g t ⟨s', watch (Refused g t) w.seen s'⟩ := by
  have here : s'.pc cpu = pc' := by rw [pcs, Function.update_self]
  have others : ∀ d, d ≠ cpu → s'.pc d = w.sys.pc d := fun d ne => by
    rw [pcs, Function.update_of_ne ne]
  refine ⟨trees, fun u locked => ?_, fun d => ?_, fun d gone => ?_⟩
  · rcases held u locked with mine | ⟨before, released⟩
    · exact ⟨cpu, by rw [here]; exact mine⟩
    · obtain ⟨d, holder⟩ := inv.held u before
      refine ⟨d, ?_⟩
      rw [others d fun same => released (same ▸ holder)]
      exact holder
  · by_cases at_cpu : d = cpu
    · rw [at_cpu, here]
      exact fits
    · rw [others d at_cpu]
      exact inv.fits d
  · obtain ⟨size, in_call⟩ := passed_in_call gone
    refine watch_seen in_call ?_
    by_cases at_cpu : d = cpu
    · subst at_cpu
      rw [here] at gone in_call
      exact passed size in_call gone
    · rw [others d at_cpu] at gone
      exact .inl (inv.passed d gone)

theorem next_tree_cases {size i : Nat} (first : 1 ≤ i) (small : size ≤ 2 ^ 24)
    (next : nextTree g size i = some pc') :
    pc'.Fits g ∧ pc'.holds = none ∧ pc'.size = some size ∧
      (TreeIndex g t → pc'.Passed t → t < i) := by
  unfold nextTree at next
  split at next
  · rename_i more
    cases next
    exact ⟨⟨small, first, more⟩, rfl, rfl, fun _ => id⟩
  · unfold bbmaReturn at next
    split at next
    · cases next
      exact ⟨trivial, rfl, rfl, fun valid _ => by have := valid.2; omega⟩
    · cases next

theorem served_size {size : Nat} (accepted : determineBbmaSize size ≠ bbmaRefuse) :
    size ≤ 2 ^ 24 := by
  by_contra large
  exact accepted (determine_bbma_size_refuse (Nat.lt_of_not_le large))

theorem unlock_other {locks : Nat → Nat} {i u : Nat} (locked : spinUnlock locks i u ≠ 0) :
    locks u ≠ 0 ∧ some i ≠ some u := by
  have ne : u ≠ i := by
    rintro rfl
    exact locked (Function.update_self ..)
  rw [spinUnlock, Function.update_of_ne ne] at locked
  exact ⟨locked, fun same => ne (Option.some.inj same).symm⟩

theorem lock_other {locks : Nat → Nat} {i u : Nat}
    (locked : Function.update locks i 1 u ≠ 0) : i = u ∨ locks u ≠ 0 := by
  by_cases same : u = i
  · exact .inl same.symm
  · rw [Function.update_of_ne same] at locked
    exact .inr locked

/-- A root below the class means that the tree has no such block or hides it. -/
theorem refused_below {size : Nat} (laid : Laid g) (valid : TreeIndex g t) (small : size ≤ 2 ^ 24)
    (below : s'.trees.mem (g.allTrees t + 1) < determineBbmaSize size) :
    Refused g t s' cpu size := by
  refine .inr ⟨below, fun shown room => ?_⟩
  have root := (exact_at_placed (root_placed laid valid)).mp shown
  have least := (determine_bbma_size_spec small).1
  have enough := (root (room_not_covered room) _ least).mpr room
  omega

theorem alloc_section_cases {s : TreesState} {size i : Nat} {trees' : TreesState} (laid : Laid g)
    (inv : ∃ shape, TreeInv g s shape) (small : size ≤ 2 ^ 24) (valid : TreeIndex g i)
    (ran : allocSection g s size i = some (pc', trees')) :
    (∃ shape, TreeInv g trees' shape) ∧
      (pc' = .unlockFull size i ∧ trees' = s ∧
          s.mem (g.allTrees i + 1) < determineBbmaSize size ∨
        ∃ ptr, pc' = .unlockFound size i ptr ∧ ptr ≠ 0) := by
  unfold allocSection at ran
  by_cases below : s.mem (g.allTrees i + 1) < determineBbmaSize size
  · simp only [below, ↓reduceIte] at ran
    cases ran
    exact ⟨inv, .inl ⟨rfl, rfl, below⟩⟩
  · obtain ⟨shape, inv⟩ := inv
    have real := (determine_bbma_size_spec small).1
    obtain ⟨a, mem', b', effect, trees⟩ :=
      alloc_in_trees laid valid inv.trees real (Nat.le_of_not_lt below)
    have run := effect.run
    have positive := laid.positive
    have array := laid.arrays i valid.1 valid.2
    simp only [s16M, show (12 : Nat) + 12 = 24 from rfl] at run ran
    rw [if_neg below, if_neg (Nat.not_lt.mpr valid.2), if_neg (by omega), run] at ran
    cases ran
    refine ⟨⟨_, trees, live_update inv.live ?_⟩, .inr ⟨a, rfl, ?_⟩⟩
    · exact ((inv.live i valid).cons _).trans (take_blocks effect.take).symm
    · have := take_address effect.take
      have := window_positive laid i
      omega

theorem contend_go_inv {s' : Contend} (laid : Laid g) (valid : TreeIndex g t)
    (inv : ContendInv g t w) (taken : bbmaGo g w.sys cpu = some s') :
    ContendInv g t ⟨s', watch (Refused g t) w.seen s'⟩ := by
  have fits := inv.fits cpu
  have passed := inv.passed cpu
  unfold bbmaGo at taken
  cases pc : w.sys.pc cpu with
  | outside => simp [pc] at taken
  | tryLock size i =>
    simp only [pc] at taken fits passed
    split at taken
    · rename_i free
      cases taken
      refine inv.advance rfl inv.trees (fun u locked => ?_) fits fun _ _ gone => .inl (passed gone)
      rcases lock_other locked with same | before
      · exact .inl (congrArg some same)
      · exact .inr ⟨before, by rw [pc]; nofun⟩
    · rename_i busy
      obtain ⟨pc', next, rfl⟩ := Option.map_eq_some_iff.mp taken
      obtain ⟨fits', _, _, reach⟩ := next_tree_cases (t := t) (by omega) fits.1 next
      refine inv.advance rfl inv.trees (fun u locked => .inr ⟨?_, by rw [pc]; nofun⟩) fits'
        fun _ _ gone => ?_
      · rcases lock_other locked with rfl | before
        · exact busy
        · exact before
      · rcases Nat.lt_or_eq_of_le (Nat.le_of_lt_succ (reach valid gone)) with before | rfl
        · exact .inl (passed before)
        · obtain ⟨d, holder⟩ := inv.held t busy
          have other : d ≠ cpu := by
            rintro rfl
            rw [pc] at holder
            cases holder
          refine .inr (.inl ⟨d, other, ?_⟩)
          simp only [Contend.at, Function.update_of_ne other]
          exact holder
  | inTree size i =>
    simp only [pc] at taken fits passed
    obtain ⟨⟨pc', trees⟩, ran, rfl⟩ := Option.map_eq_some_iff.mp taken
    obtain ⟨trees', ⟨rfl, rfl, below⟩ | ⟨ptr, rfl, found⟩⟩ :=
      alloc_section_cases laid inv.trees fits.1 fits.2 ran
    · refine inv.advance rfl trees' (fun u locked => ?_) fits fun size' same gone => ?_
      · by_cases mine : i = u
        · exact .inl (congrArg some mine)
        · exact .inr ⟨locked, by rw [pc]; simpa [BbmaPc.holds] using mine⟩
      · cases same
        rcases Nat.lt_or_eq_of_le gone with before | rfl
        · exact .inl (passed before)
        · exact .inr (refused_below laid valid fits.1 below)
    · refine inv.advance rfl trees' (fun u locked => ?_) found fun _ _ gone => absurd gone id
      by_cases mine : i = u
      · exact .inl (congrArg some mine)
      · exact .inr ⟨locked, by rw [pc]; simpa [BbmaPc.holds] using mine⟩
  | unlockFull size i =>
    simp only [pc] at taken fits passed
    obtain ⟨pc', next, rfl⟩ := Option.map_eq_some_iff.mp taken
    obtain ⟨fits', _, _, reach⟩ := next_tree_cases (t := t) (by omega) fits.1 next
    refine inv.advance rfl inv.trees (fun u locked => .inr ?_) fits' fun _ _ gone => ?_
    · rw [pc]
      exact unlock_other locked
    · exact .inl (passed (Nat.le_of_lt_succ (reach valid gone)))
  | unlockFound size i ptr =>
    simp only [pc] at taken fits
    obtain ⟨pc', next, rfl⟩ := Option.map_eq_some_iff.mp taken
    unfold bbmaReturn at next
    split at next
    · cases next
      refine inv.advance rfl inv.trees (fun u locked => .inr ?_) trivial
        fun _ _ gone => absurd gone.1 fits
      rw [pc]
      exact unlock_other locked
    · cases next
  | returned size ptr =>
    simp only [pc] at taken
    cases taken
    exact inv.advance rfl inv.trees (fun u locked => .inr ⟨locked, by rw [pc]; nofun⟩) trivial
      fun _ _ gone => absurd gone id
  | lockTree u ptr blockSize =>
    simp only [pc] at taken
    split at taken
    · cases taken
      refine inv.advance rfl inv.trees (fun u locked => ?_) trivial
        fun _ _ gone => absurd gone id
      rcases lock_other locked with same | before
      · exact .inl (congrArg some same)
      · exact .inr ⟨before, by rw [pc]; nofun⟩
    · cases taken
  | freeSection u ptr blockSize =>
    simp only [pc] at taken
    obtain ⟨trees, ran, rfl⟩ := Option.map_eq_some_iff.mp taken
    refine inv.advance rfl (tree_step_inv laid inv.trees ran) (fun v locked => ?_) trivial
      fun _ _ gone => absurd gone id
    by_cases mine : u = v
    · exact .inl (congrArg some mine)
    · exact .inr ⟨locked, by rw [pc]; simpa [BbmaPc.holds] using mine⟩
  | unlockFreed u =>
    simp only [pc] at taken
    cases taken
    refine inv.advance rfl inv.trees (fun v locked => .inr ?_) trivial
      fun _ _ gone => absurd gone id
    rw [pc]
    exact unlock_other locked

theorem contend_step_inv {w' : Watched} {e : BbmaEvent} (laid : Laid g) (valid : TreeIndex g t)
    (inv : ContendInv g t w) (taken : watchedStep g (Refused g t) w e = some w') :
    ContendInv g t w' := by
  obtain ⟨s', ran, rfl⟩ := Option.map_eq_some_iff.mp taken
  cases e with
  | alloc cpu size =>
    simp only [bbmaStep] at ran
    split at ran
    · rename_i out
      obtain ⟨pc', enter, rfl⟩ := Option.map_eq_some_iff.mp ran
      unfold bbmaAllocEnter at enter
      split at enter
      · rename_i refused
        cases enter
        refine inv.advance rfl inv.trees (fun u locked => .inr ⟨locked, by rw [out]; nofun⟩)
          trivial fun _ _ gone => ?_
        have served := (determine_bbma_size_spec gone.2).2.1
        rw [refused] at served
        exact absurd served (by decide)
      · rename_i accepted
        obtain ⟨fits, _, _, reach⟩ := next_tree_cases (t := t) (Nat.le_refl 1)
          (served_size accepted) enter
        refine inv.advance rfl inv.trees (fun u locked => .inr ⟨locked, by rw [out]; nofun⟩)
          fits fun _ _ gone => ?_
        have first := valid.1
        have before := reach valid gone
        omega
    · cases ran
  | free cpu ptr blockSize =>
    simp only [bbmaStep] at ran
    split at ran
    · rename_i out
      obtain ⟨pc', enter, rfl⟩ := Option.map_eq_some_iff.mp ran
      have quiet : pc' = .outside ∨ ∃ u, pc' = .lockTree u ptr blockSize := by
        unfold bbmaFreeEnter at enter
        split at enter
        · cases enter
          exact .inl rfl
        · split at enter
          · cases enter
          · split at enter
            · cases enter
            · cases enter
              exact .inr ⟨_, rfl⟩
      refine inv.advance rfl inv.trees (fun u locked => .inr ⟨locked, by rw [out]; nofun⟩)
        ?_ fun _ _ gone => ?_ <;>
        rcases quiet with rfl | ⟨u, rfl⟩
      · trivial
      · trivial
      · exact absurd gone id
      · exact absurd gone id
    · cases ran
  | go cpu => exact contend_go_inv laid valid inv ran

end Invariant

/-- From bbma_init on, a call that returns NULL has been refused by every tree. -/
theorem null_return_refused_by_each_tree (heap : HeapRange) (mem : Mem) (t : Nat)
    (valid : TreeIndex (bbmaInit mem (alignTo heap.start s16M) heap.stop).2 t)
    (events : List BbmaEvent) :
    let init := bbmaInit mem (alignTo heap.start s16M) heap.stop
    Throughout (watchedStep init.2 (Refused init.2 t)) NullSeen (bootWatched init.1) events := by
  intro init
  obtain ⟨laid, trees⟩ := heap_init_spec heap mem
  have preserved : ∀ w e w', ContendInv init.2 t w →
      watchedStep init.2 (Refused init.2 t) w e = some w' → ContendInv init.2 t w' :=
    fun w e w' inv taken => contend_step_inv laid valid inv taken
  refine throughout_of_invariant preserved (fun w inv cpu size null small => ?_) events ?_
  · refine inv.passed cpu ?_
    rw [null]
    exact ⟨rfl, small⟩
  · exact ⟨⟨_, boot_trees_inv trees⟩, fun u locked => absurd rfl locked, fun _ => trivial,
      fun _ gone => absurd gone id⟩

/-- While CPU 0 is inside the only tree, CPU 1 is told that there is no 4KiB block. -/
def meetInTree : List BbmaEvent := [.alloc 0 4096, .go 0, .alloc 1 4096, .go 1]

theorem null_return_refused_by_only_tree :
    Throughout (watchedStep (bbmaInit (freshNodes (2 ^ 24)) (alignTo oneWindow.start s16M)
          oneWindow.stop).2
        (Refused (bbmaInit (freshNodes (2 ^ 24)) (alignTo oneWindow.start s16M)
          oneWindow.stop).2 1)) NullSeen
      (bootWatched (bbmaInit (freshNodes (2 ^ 24)) (alignTo oneWindow.start s16M)
        oneWindow.stop).1) meetInTree :=
  null_return_refused_by_each_tree oneWindow (freshNodes (2 ^ 24)) 1
    (by rw [init_one_window]; exact ⟨by decide, by decide⟩) meetInTree

/-- Nothing was allocated at all when CPU 1 got NULL. -/
theorem null_while_memory_is_free :
    ¬ Throughout (watchedStep (bbmaInit (freshNodes (2 ^ 24)) (alignTo oneWindow.start s16M)
          oneWindow.stop).2
        (Exhausted (bbmaInit (freshNodes (2 ^ 24)) (alignTo oneWindow.start s16M)
          oneWindow.stop).2)) NullSeen
      (bootWatched (bbmaInit (freshNodes (2 ^ 24)) (alignTo oneWindow.start s16M)
        oneWindow.stop).1) meetInTree := by
  rw [init_one_window]
  intro all
  have final : run (watchedStep oneTree (Exhausted oneTree)) (bootWatched (freshNodes (2 ^ 24)))
      meetInTree = some _ := rfl
  have seen := throughout_of_run all final 1 4096 rfl (by decide)
  have never : ∀ s : Contend, s.trees.live 1 = [] → ¬ Exhausted oneTree s 1 4096 := by
    intro s empty exhausted
    refine exhausted 1 ⟨by decide, by decide⟩ ?_
    rw [empty]
    exact ⟨2 ^ 25, by decide, by decide, by decide, by simp⟩
  rcases (seen : (False ∨ Exhausted oneTree _ 1 4096) ∨ Exhausted oneTree _ 1 4096) with
    (none | before) | after
  · exact none
  · exact never _ rfl before
  · exact never _ rfl after


end Tbma
