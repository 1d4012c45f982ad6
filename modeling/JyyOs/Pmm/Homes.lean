import JyyOs.Pmm.PmmRun

/-!
Where kalloc takes a block from and where kfree brings it: a slab page, or a tree and one of
its nodes. Both follow the functions of tbma.c and slab.c and only name what those hold in
local variables.
-/
namespace Tbma
open BuddyTree LinkedList

inductive Home where
  | page (slabStick : Nat)
  | node (treeIndex index : Nat)
  deriving DecidableEq

def takenNode (mem : Mem) (tree reqSize : Nat) : Nat → Nat → Nat
  | 0, index => index
  | childSize + 1, index =>
    if childSize + 1 = reqSize then index
    else takenNode mem tree reqSize childSize
      (if reqSize ≤ mem (tree + leftChild index) then leftChild index else rightChild index)

def freedNode (g : Globals) (mem : Mem) (tree ptr : Nat) : Nat → Nat → Option Nat
  | curSize, index =>
    match convertIndexToAddr g tree index curSize with
    | none => none
    | some curAddr =>
      if curAddr = ptr ∧ mem (tree + index) = fullUsed then some index
      else
        match curSize with
        | 0 => none
        | childSize + 1 => freedNode g mem tree ptr childSize
          (if curAddr = ptr then leftChild index
            else if ptr < curAddr + 1 <<< childSize then leftChild index
            else rightChild index)

def bbmaHome (p : Pmm) (bbmaSize : Nat) : Option Home :=
  (findAvailableTree p bbmaSize).1.map fun t =>
    .node t (takenNode p.mem (p.g.allTrees t) bbmaSize s16M 1)

/-- The page the slab allocator takes from: one of the CPU's, or a new one. -/
def slabHome (p : Pmm) (cpuNum slabSize : Nat) : Option Home :=
  match findTheAvaliablePageInSlabAndLock p cpuNum slabSize with
  | none => none
  | some (freeSpace, mem) =>
    if freeSpace ≠ 0 then some (.page freeSpace)
    else
      match withNewPage { p with mem := mem } cpuNum slabSize with
      | none => none
      | some p =>
        (findTheAvaliablePageInSlabAndLock p cpuNum slabSize).map fun found => .page found.1

def kallocHome (p : Pmm) (cpuNum size : Nat) : Option Home :=
  let slabSize := determineSlabSize size
  if slabSize = slabRefuse then bbmaHome p (determineBbmaSize size)
  else slabHome p cpuNum slabSize

def kfreeHome (p : Pmm) (ptr : Nat) : Option Home :=
  if isAlignTo ptr 12 then
    (determineWhichTree p.g ptr).bind fun t =>
      (freedNode p.g p.mem (p.g.allTrees t) ptr s16M 1).map (.node t)
  else some (.page (slabAlignTo4kb ptr))

/-- The home of a block (address, class), told by the address alone. -/
def HomeOf (g : Globals) (x : Nat × Nat) : Home → Prop
  | .page a => x.2 ≤ 11 ∧ a = slabAlignTo4kb x.1
  | .node t j => 12 ≤ x.2 ∧ TreeIndex g t ∧ windowOf g t ≤ x.1 ∧ x.1 < windowOf g t + memGap ∧
      Placed g (g.allTrees t) (x.2 - 12) j x.1

section Nodes

variable {g : Globals} {tree : Nat}

theorem home_unique {x : Nat × Nat} {h h' : Home} (first : HomeOf g x h)
    (second : HomeOf g x h') : h = h' := by
  cases h with
  | page a =>
    cases h' with
    | page b => exact congrArg _ (first.2.trans second.2.symm)
    | node t j => exact absurd first.1 (by have := second.1; omega)
  | node t j =>
    cases h' with
    | page b => exact absurd second.1 (by have := first.1; omega)
    | node u k =>
      obtain ⟨_, valid, lower, upper, placed⟩ := first
      obtain ⟨_, valid', lower', upper', placed'⟩ := second
      have tree : t = u := by
        by_contra other
        have := windows_apart valid valid' other
        omega
      subst tree
      rw [placed_unique placed placed']

theorem taken_node {d : Nat} (b : Buddy d) {mem mem' : Mem} {i addr req a : Nat} {b' : Buddy d}
    (placed : Placed g tree d i addr) (notNull : 0 < addr) (rep : Rep mem tree i b)
    (real : 12 ≤ req) (enough : req ≤ mem (tree + i))
    (taken : Taken g tree mem i addr req b a mem' b') :
    Placed g tree (req - 12) (takenNode mem tree req (12 + d) i) a := by
  induction d generalizing mem' i addr a with
  | zero =>
    have atMost := (rep_value rep).1
    have size : req = 12 + 0 := by omega
    subst size
    have isFree := rep_free rep (by omega)
    subst isFree
    have run := (taken_here placed (rep_free_iff.mp rep)).run.symm.trans taken.run
    simp only [Option.some.injEq, Prod.mk.injEq] at run
    rw [takenNode, if_pos rfl, ← run.1]
    exact placed
  | succ d ih =>
    have atMost := (rep_value rep).1
    rw [← Nat.add_assoc, takenNode]
    by_cases whole : req = 12 + (d + 1)
    · have isFree := rep_free rep (by omega)
      subst isFree whole
      have run := (taken_here placed (rep_free_iff.mp rep)).run.symm.trans taken.run
      simp only [Option.some.injEq, Prod.mk.injEq] at run
      rw [if_pos (by omega), ← run.1, Nat.add_sub_cancel_left]
      exact placed
    · have below : req ≤ 12 + d := by omega
      rw [if_neg (by omega)]
      obtain ⟨l, r, left, right, halves, value⟩ := open_node rep real enough
      obtain ⟨placedLeft, placedRight⟩ := placed_children placed
      by_cases goLeft : req ≤ mem (tree + leftChild i)
      · rw [if_pos goLeft]
        obtain ⟨a', mem1, l', inner⟩ := get_refines_take l placedLeft notNull left real goLeft
        have run := (taken_left placed notNull rep right halves value real below enough goLeft
          inner).run.symm.trans taken.run
        simp only [Option.some.injEq, Prod.mk.injEq] at run
        rw [← run.1]
        exact ih l placedLeft notNull left goLeft inner
      · rw [if_neg goLeft]
        have goRight : req ≤ mem (tree + rightChild i) := by omega
        have notNull' : 0 < addr + 2 ^ (12 + d) := Nat.add_pos_left notNull _
        obtain ⟨a', mem1, r', inner⟩ :=
          get_refines_take r placedRight notNull' right real goRight
        have run := (taken_right placed rep left halves value below enough goLeft
          inner).run.symm.trans taken.run
        simp only [Option.some.injEq, Prod.mk.injEq] at run
        rw [← run.1]
        exact ih r placedRight notNull' right goRight inner

theorem freed_node {d : Nat} (b : Buddy d) {mem : Mem} {i addr a k : Nat}
    (placed : Placed g tree d i addr) (rep : Rep mem tree i b)
    (live : (a, k) ∈ blocks 12 addr b) :
    ∃ j, freedNode g mem tree a (12 + d) i = some j ∧ Placed g tree (k - 12) j a := by
  induction b generalizing i addr with
  | free => simp [blocks] at live
  | used =>
    simp only [blocks, List.mem_singleton, Prod.mk.injEq] at live
    obtain ⟨rfl, rfl⟩ := live
    have value := (rep_used_iff.mp rep).1
    refine ⟨i, ?_, by rw [Nat.add_sub_cancel_left]; exact placed⟩
    rw [freedNode.eq_def]
    simp [convert_placed placed, value]
  | @split d l r hl hr =>
    obtain ⟨placedLeft, placedRight⟩ := placed_children placed
    have value : mem (tree + i) ≠ 0 := fun h => by simpa using (rep_value rep).2.2.mp h
    have notHere : ¬ (addr = a ∧ mem (tree + i) = fullUsed) := fun h => value h.2
    have size : 0 < 2 ^ k := Nat.two_pow_pos _
    have half : 0 < 2 ^ (12 + d) := Nat.two_pow_pos _
    have convert := convert_placed placed
    simp only [blocks, List.mem_append] at live
    rw [freedNode.eq_def]
    simp only [convert, if_neg notHere]
    simp only [Nat.add_eq, Nat.one_shiftLeft]
    rcases live with inLeft | inRight
    · have upper : a + 2 ^ k ≤ addr + 2 ^ (12 + d) := (block_bounds l inLeft).2
      have down : (if addr = a then leftChild i
          else if a < addr + 2 ^ (12 + d) then leftChild i else rightChild i) = leftChild i := by
        split
        · rfl
        · rw [if_pos (by omega)]
      rw [down]
      exact hl placedLeft rep.1 inLeft
    · have lower : addr + 2 ^ (12 + d) ≤ a := (block_bounds r inRight).1
      rw [if_neg (by omega), if_neg (by omega)]
      exact hr placedRight rep.2.1 inRight

end Nodes

section Calls

variable {p p' : Pmm} {gh : Ghost} {live : List (Nat × Nat)}

theorem tree_block_home {t a req : Nat} {b' : Buddy 12} {mem' : Mem} (laid : Laid p.g)
    (trees : Trees p.g p.mem gh.shape) (valid : TreeIndex p.g t) (real : 12 ≤ req)
    (taken : Taken p.g (p.g.allTrees t) p.mem 1 (windowOf p.g t) req (gh.shape t) a mem' b')
    (enough : req ≤ p.mem (p.g.allTrees t + 1)) :
    HomeOf p.g (a, req) (.node t (takenNode p.mem (p.g.allTrees t) req s16M 1)) := by
  have live := (take_blocks taken.take).mem_iff.mpr List.mem_cons_self
  have bounds := block_bounds b' live
  have gap := mem_gap_value
  have size : 0 < 2 ^ req := Nat.two_pow_pos _
  simp only at bounds
  exact ⟨real, valid, bounds.1, by simp only; omega, taken_node (gh.shape t) (root_placed laid valid)
    (window_positive laid t) (trees t valid) real enough taken⟩

theorem bbma_alloc_home (inv : PmmInv p gh live) {size r : Nat} (found : r ≠ 0)
    (ran : bbmaAlloc p size = some (r, p')) :
    ∃ h, bbmaHome p (determineBbmaSize size) = some h ∧
      HomeOf p.g (r, determineBbmaSize size) h := by
  by_cases fits : size ≤ 2 ^ 24
  · obtain ⟨real, small, _, _⟩ := determine_bbma_size_spec fits
    have accepted : determineBbmaSize size ≠ 25 := by omega
    have search := find_available_in_spec (determineBbmaSize size) (List.range' 1 p.g.treeNum) p
      fun t h => inv.locks t (tree_index_range.mp h)
    rcases search with ⟨run, _⟩ | ⟨t, inside, enough, run⟩
    · simp [bbmaAlloc, findTheFreeSpaceInBbmaSystem, findAvailableTree, accepted, run,
        isAlignTo, eq_comm, found] at ran
    · have valid := tree_index_range.mp inside
      obtain ⟨a, mem', b', taken, _⟩ := alloc_in_trees inv.laid valid inv.trees real enough
      have home := tree_block_home inv.laid inv.trees valid real taken enough
      refine ⟨_, by rw [bbmaHome, findAvailableTree, run]; rfl, ?_⟩
      have get := taken.run
      rw [show (12 : Nat) + 12 = 24 from rfl] at get
      have last := valid.2
      have stored : p.g.allTrees t ≠ 0 := by
        have := inv.laid.positive
        rw [inv.laid.arrays t valid.1 valid.2]
        omega
      simp only [bbmaAlloc, findTheFreeSpaceInBbmaSystem, findAvailableTree, accepted, run, get,
        stored, Nat.not_lt.mpr last, Nat.not_lt.mpr enough, ↓reduceIte] at ran
      split at ran
      · simp only [Option.some.injEq, Prod.mk.injEq] at ran
        rw [← ran.1]
        exact home
      · cases ran
  · simp [bbmaAlloc, determine_bbma_size_refuse (Nat.lt_of_not_le fits), eq_comm, found] at ran

theorem find_free_space_home (inv : PmmInv p gh live) {cpu k r : Nat} (least : 5 ≤ k)
    (ran : findTheFreeSpaceInSlab p cpu k = some (r, p')) :
    ∃ a mem, findTheAvaliablePageInSlabAndLock p cpu k = some (a, mem) ∧
      (a = 0 ∧ mem = p.mem ∧ r = 0 ∧ p' = p ∨ a ≠ 0 ∧ r ≠ 0 ∧ slabAlignTo4kb r = a) := by
  have chain := inv.chains cpu (k - cpuFindSlabOffset)
  have class' : k - cpuFindSlabOffset + cpuFindSlabOffset = k := by
    simp only [cpuFindSlabOffset]; omega
  unfold findTheFreeSpaceInSlab at ran
  cases search : findTheAvaliablePageInSlabAndLock p cpu k with
  | none => simp [search] at ran
  | some result =>
    obtain ⟨a, mem1⟩ := result
    refine ⟨a, mem1, rfl, ?_⟩
    rcases avaliable_page_spec _ chain.linked (chain_length inv _ _) search with
      ⟨rfl, rfl⟩ | ⟨inChain, real, unlocked, _, rfl⟩
    · simp only [search, ↓reduceIte, Option.some.injEq, Prod.mk.injEq] at ran
      exact Or.inl ⟨rfl, rfl, ran.1.symm, ran.2.symm⟩
    · have page := chain.pages a inChain
      rw [class'] at page
      have before := inv.pages _ page
      have head : Function.update p.mem a 1 (a + freeBlockList) = p.mem (a + freeBlockList) :=
        Function.update_of_ne (by simp only [freeBlockList]; omega) ..
      simp only [search, if_neg real, head] at ran
      split at ran
      · cases ran
      · split at ran
        · cases ran
        · rename_i stored
          simp only [Option.some.injEq, Prod.mk.injEq] at ran
          obtain ⟨rest, taken⟩ := take_slot least before.list stored
          have listed : p.mem (a + freeBlockList) ∈ gh.slots a := by
            rw [taken.head]
            exact List.mem_cons_self
          have inside := slot_inside (before.list.inside _ listed)
          have aligned : a % 4096 = 0 := Nat.mod_eq_zero_of_dvd (page_aligned inv page)
          rw [← ran.1]
          refine Or.inr ⟨real, stored, ?_⟩
          unfold slabAlignTo4kb
          omega

theorem kalloc_home (inv : PmmInv p gh live) {cpu size r : Nat} (found : r ≠ 0)
    (ran : kalloc p cpu size = some (r, p')) :
    ∃ h, kallocHome p cpu size = some h ∧ HomeOf p.g (r, sizeClass size) h := by
  unfold kalloc slabAlloc at ran
  split at ran
  · simp [eq_comm, found] at ran
  · by_cases small : size ≤ 2048
    · obtain ⟨least, most, _⟩ := determine_slab_size_spec small
      have slab : determineSlabSize size ≠ slabRefuse := by simp only [slabRefuse]; omega
      rw [sizeClass, if_pos small]
      simp only [slab, ↓reduceIte] at ran
      cases first : findTheFreeSpaceInSlab p cpu (determineSlabSize size) with
      | none => simp [first] at ran
      | some result =>
        obtain ⟨addr, p1⟩ := result
        simp only [first] at ran
        obtain ⟨a, mem, search, ⟨rfl, rfl, rfl, rfl⟩ | ⟨real, real', home⟩⟩ :=
          find_free_space_home inv least first
        · split at ran
          · cases ran
          · rw [if_pos rfl] at ran
            cases second : requestASlabFromBbma p1 cpu (determineSlabSize size) with
            | none => simp [second] at ran
            | some result =>
              obtain ⟨addr', p2⟩ := result
              simp only [second] at ran
              split at ran
              · simp only [Option.some.injEq, Prod.mk.injEq] at ran
                obtain ⟨rfl, rfl⟩ := ran
                rcases request_a_slab_cases inv least most second with
                  ⟨_, null, _⟩ | ⟨_, _, q, gh2, _, paged, again, inv2, _⟩
                · exact absurd null found
                · obtain ⟨a, mem, search', ⟨_, _, null, _⟩ | ⟨_, _, home⟩⟩ :=
                    find_free_space_home inv2 least again
                  · exact absurd null found
                  · exact ⟨.page a, by simp [kallocHome, slabHome, slab, search, paged, search'],
                      most, home.symm⟩
              · cases ran
        · split at ran
          · cases ran
          · simp only [Option.some.injEq, Prod.mk.injEq] at ran
            rw [← ran.1]
            exact ⟨.page a, by simp [kallocHome, slabHome, slab, search, real], most, home.symm⟩
    · have refused := determine_slab_size_refuse (Nat.lt_of_not_le small)
      rw [sizeClass, if_neg small]
      simp only [refused, ↓reduceIte] at ran
      obtain ⟨h, home, here⟩ := bbma_alloc_home inv found ran
      exact ⟨h, by simp [kallocHome, refused, home], here⟩

theorem kfree_home (inv : PmmInv p gh live) {x : Nat × Nat} (block : x ∈ live)
    (after : x.1 ≠ p.g.beginAllocAddr) :
    ∃ h, kfreeHome p x.1 = some h ∧ HomeOf p.g x h := by
  rcases inv.liveBlocks x block with ⟨a, page, slot, _⟩ | ⟨owned, _⟩
  · refine ⟨.page (slabAlignTo4kb x.1), ?_, (inv.pages _ page).most, rfl⟩
    simp [kfreeHome, slot_not_aligned inv page slot]
  · have area := owned_in_area inv.laid owned
    have even := owned_block_aligned inv.laid owned
    obtain ⟨t, valid, inside⟩ := owned
    have bounds := block_bounds _ inside
    have size : 0 < 2 ^ x.2 := Nat.two_pow_pos _
    have gap := mem_gap_value
    have which := determine_which_tree_window inv.laid valid bounds.1 (by omega)
    have lower := area.lower
    rw [if_pos (by omega)] at which
    obtain ⟨j, stops, placed⟩ :=
      freed_node (gh.shape t) (root_placed inv.laid valid) (inv.trees t valid) inside
    refine ⟨.node t j, ?_, area.size.1, valid, bounds.1, by omega, placed⟩
    rw [show (12 : Nat) + 12 = s16M from rfl] at stops
    simp [kfreeHome, even, which, stops]

end Calls

end Tbma
