import JyyOs.Pmm.PmmRun
import JyyOs.Pmm.Contention

/-!
kalloc and kfree of many CPUs, interleaved at their lock-protected sections: each round of the
page search with its page locked, each section of bbma_alloc and bbma_free, each slab_free.
Linking a new page into the list of its own CPU takes no lock and is one step.
-/
namespace Tbma
open BuddyTree LinkedList PartialRun

/-- Where a CPU is inside kalloc; `again` marks the search of request_a_slab_from_bbma. -/
inductive SlabPc where
  | outside
  | search (slabSize page : Nat) (again : Bool)
  | request (slabSize : Nat)
  | link (slabSize page : Nat)
  | bbma (size : Nat)
deriving DecidableEq

/-- `live` holds (address, log size) of the blocks handed out and not freed since. -/
structure Sections where
  p : Pmm
  pc : Nat → SlabPc
  live : List (Nat × Nat)

inductive SectionEvent where
  | kalloc (cpu size : Nat)
  | initializeArea (cpu i : Nat)
  | go (cpu : Nat) (tree : Option Nat)
  | kfree (cpu ptr k : Nat)
  | store (ptr k : Nat) (content : Mem)

def Sections.at (s : Sections) (cpu : Nat) (pc : SlabPc) : Sections :=
  { s with pc := Function.update s.pc cpu pc }

inductive Round where
  | next (page : Nat)
  | taken (block : Nat)

def searchRound (mem : Mem) (page : Nat) : Option (Round × Mem) :=
  if mem page ≠ 0 then none
  else
    let mem := Function.update mem page 1
    if mem (page + slabFreeSpace) = 0 then
      some (.next (mem (page + nextSlabStick)), Function.update mem page 0)
    else if mem (page + freeBlockList) = 0 then none
    else
      let block := mem (page + freeBlockList)
      let mem := Function.update mem (page + freeBlockList) (mem block)
      let mem := Function.update mem (page + slabFreeSpace) (mem (page + slabFreeSpace) - 1)
      some (.taken block, Function.update mem page 0)

/-- The section of bbma_alloc in the tree its search settled on. The search passes trees that
    other CPUs hold, so the event says which tree it is, or that there is none. -/
def bbmaSection (p : Pmm) (size : Nat) : Option Nat → Option (Nat × Pmm)
  | none => some (0, p)
  | some i =>
    let bbmaSize := determineBbmaSize size
    if bbmaSize = bbmaRefuse ∨ i = 0 ∨ p.g.treeNum < i then none
    else if p.mem (p.g.allTrees i + 1) < bbmaSize then none
    else
      match getTheFreeSpaceInTree p.g p.mem (p.g.allTrees i) 1 s16M bbmaSize with
      | none => none
      | some (ptr, mem) =>
        if isAlignTo ptr bbmaSize then some (ptr, { p with mem := mem }) else none

def Sections.returns (s : Sections) (cpu ptr k : Nat) : Sections :=
  { s.at cpu .outside with live := if ptr = 0 then s.live else (ptr, k) :: s.live }

/-- The unlocked part of request_a_slab_from_bbma, up to its search. -/
def linkPage (p : Pmm) (cpu slabSize page : Nat) : Option Pmm :=
  let i := slabSize - cpuFindSlabOffset
  let mem := Function.update p.mem (page + nextSlabStick) (p.cpuOwnArea cpu i)
  (initializeASlabNewPage mem slabSize page).map fun mem =>
    { p with mem := mem, cpuOwnArea := updateOwnArea p.cpuOwnArea cpu i page }

def sectionGo (s : Sections) (cpu : Nat) (tree : Option Nat) : Option Sections :=
  match s.pc cpu with
  | .outside => none
  | .search slabSize page again =>
    if page = 0 then some (s.at cpu (if again then .outside else .request slabSize))
    else
      match searchRound s.p.mem page with
      | none => none
      | some (.next page, mem) =>
        some { s.at cpu (.search slabSize page again) with p := { s.p with mem := mem } }
      | some (.taken block, mem) =>
        if isAlignTo block slabSize then
          some ({ s with p := { s.p with mem := mem } }.returns cpu block slabSize)
        else none
  | .request slabSize =>
    match bbmaSection s.p slabRequestSpace tree with
    | none => none
    | some (page, p) =>
      if page % slabRequestSpace ≠ 0 then none
      else if page = 0 then some { s.at cpu .outside with p := p }
      else some { s.at cpu (.link slabSize page) with p := p }
  | .link slabSize page =>
    (linkPage s.p cpu slabSize page).map fun p =>
      { s.at cpu (.search slabSize (p.cpuOwnArea cpu (slabSize - cpuFindSlabOffset)) true) with
        p := p }
  | .bbma size =>
    (bbmaSection s.p size tree).map fun (ptr, p) =>
      { s with p := p }.returns cpu ptr (determineBbmaSize size)

def kallocEnter (p : Pmm) (cpu size : Nat) : SlabPc :=
  if size = 0 then .outside
  else
    let slabSize := determineSlabSize size
    if slabSize = slabRefuse then .bbma size
    else .search slabSize (p.cpuOwnArea cpu (slabSize - cpuFindSlabOffset)) false

/-- `initializeArea` is one request of slab_init, whose block stays handed out for good. -/
def sectionStep (s : Sections) : SectionEvent → Option Sections
  | .kalloc cpu size =>
    if s.pc cpu = .outside then some (s.at cpu (kallocEnter s.p cpu size)) else none
  | .initializeArea cpu i =>
    if s.pc cpu = .outside ∧ i < slabNum then
      some (s.at cpu (.request (i + cpuFindSlabOffset)))
    else none
  | .go cpu tree => sectionGo s cpu tree
  | .kfree cpu ptr k =>
    if s.pc cpu = .outside ∧ (ptr, k) ∈ s.live then
      (kfree s.p ptr).map fun p => { s with p := p, live := s.live.erase (ptr, k) }
    else none
  | .store ptr k content =>
    if (ptr, k) ∈ s.live then
      some { s with p := { s.p with mem := fun x =>
        if ptr ≤ x ∧ x < ptr + 2 ^ k then content x else s.p.mem x } }
    else none

def bootSections (heap : HeapRange) (mem : Mem) : Sections :=
  let init := bbmaInit mem (alignTo heap.start s16M) heap.stop
  ⟨⟨init.1, init.2, fun _ => 0, fun _ _ => 0⟩, fun _ => .outside, []⟩

def liveIn (live : List (Nat × Nat)) (a : Nat) : Nat := live.countP fun x => slabAlignTo4kb x.1 = a

def slabCapacity (k : Nat) : Nat := (slabRequestSpace - alignTo slabStickSize k) / 2 ^ k

structure PageSound (mem : Mem) (live : List (Nat × Nat)) (a k : Nat) (slots : List Nat) : Prop where
  list : SlotList mem a k slots
  unused : ∀ x ∈ live, x.1 ∉ slots
  conserved : mem (a + slabFreeSpace) + liveIn live a = slabCapacity k

/-- Every unlocked page on the list of a CPU is sound. -/
def SlabPagesSound (s : Sections) : Prop :=
  ∀ cpu i, ∃ pages, Linked s.p.mem nextSlabStick (s.p.cpuOwnArea cpu i) pages ∧ pages.Nodup ∧
    ∀ a ∈ pages, s.p.mem a = 0 →
      ∃ slots, PageSound s.p.mem s.live a (i + cpuFindSlabOffset) slots

def SlabPc.page : SlabPc → Option Nat
  | .link _ page => some page
  | .outside | .search _ _ _ | .request _ | .bbma _ => none

def SlabPc.Fits (gh : Ghost) (cpu : Nat) : SlabPc → Prop
  | .search k page _ =>
    5 ≤ k ∧ k ≤ 11 ∧ (page = 0 ∨ page ∈ gh.chains cpu (k - cpuFindSlabOffset))
  | .request k | .link k _ => 5 ≤ k ∧ k ≤ 11
  | .outside | .bbma _ => True

/-- `flights` are the pages (CPU, address) between bbma_alloc and their list. -/
structure SectionsInv (s : Sections) (gh : Ghost) (flights : List (Nat × Nat)) : Prop where
  pmm : PmmInv s.p gh (flights.map (fun f => (f.2, 12)) ++ s.live)
  flying : ∀ cpu a, (cpu, a) ∈ flights ↔ (s.pc cpu).page = some a
  once : flights.Nodup
  fits : ∀ cpu, (s.pc cpu).Fits gh cpu
  conserved : ∀ x ∈ gh.pages, (gh.slots x.1).length + liveIn s.live x.1 = slabCapacity x.2

section Facts

variable {p : Pmm} {gh : Ghost} {live : List (Nat × Nat)}

theorem live_in_cons (x : Nat × Nat) (live : List (Nat × Nat)) (a : Nat) :
    liveIn (x :: live) a = liveIn live a + if slabAlignTo4kb x.1 = a then 1 else 0 := by
  simp only [liveIn, List.countP_cons, decide_eq_true_eq]

theorem live_in_perm {live' : List (Nat × Nat)} (perm : live.Perm live') (a : Nat) :
    liveIn live a = liveIn live' a := perm.countP_eq _

theorem slab_capacity {k : Nat} (least : 5 ≤ k) (most : k ≤ 11) :
    (4096 - 2 ^ k) >>> k = slabCapacity k := by
  rw [slabCapacity, stick_size least most, Nat.shiftRight_eq_div_pow]

theorem initialize_blocks_keeps {a k x : Nat} (count addr : Nat) (mem : Mem)
    (list : x ≠ a + freeBlockList) (below : x < addr) :
    initializeBlocks a k count addr mem x = mem x := by
  induction count generalizing addr mem with
  | zero => rfl
  | succ count ih =>
    have size : 0 < 1 <<< k := by rw [Nat.one_shiftLeft]; exact Nat.two_pow_pos k
    rw [initializeBlocks, ih _ _ (by omega), Function.update_of_ne list,
      Function.update_of_ne (by omega)]

theorem initialize_page_count {mem mem' : Mem} {a k : Nat} (least : 5 ≤ k) (most : k ≤ 11)
    (ran : initializeASlabNewPage mem k a = some mem') : mem' (a + slabFreeSpace) = slabCapacity k := by
  have size := class_at_least least
  unfold initializeASlabNewPage at ran
  rw [stick_size least most] at ran
  dsimp only at ran
  split at ran
  · cases ran
  · split at ran
    · cases ran
    · cases ran
      rw [initialize_blocks_keeps _ _ _ (by simp only [slabFreeSpace, freeBlockList]; omega)
        (by simp only [slabFreeSpace]; omega),
        Function.update_of_ne (by simp only [slabFreeSpace, freeBlockList]; omega),
        Function.update_self]
      exact slab_capacity least most

theorem in_page {a s : Nat} (aligned : 4096 ∣ a) : slabAlignTo4kb s = a ↔ a ≤ s ∧ s < a + 4096 := by
  obtain ⟨q, rfl⟩ := aligned
  unfold slabAlignTo4kb
  omega

theorem owned_outside_page (inv : PmmInv p gh live) {x : Nat × Nat} (owned : Owned p.g gh.shape x)
    (notPage : x.1 ∉ gh.pages.map Prod.fst) {y : Nat × Nat} (page : y ∈ gh.pages) :
    slabAlignTo4kb x.1 ≠ y.1 := by
  intro same
  have inside := (in_page (page_aligned inv page)).mp same
  have pos : 0 < 2 ^ x.2 := Nat.two_pow_pos _
  have apart : x.1 + 2 ^ x.2 ≤ y.1 ∨ y.1 + 4096 ≤ x.1 := by
    refine owned_apart owned (inv.pages y page).owned fun h => notPage ?_
    have start : x.1 = y.1 := by rw [h]
    rw [start]
    exact List.mem_map_of_mem page
  omega

theorem search_round_cases (inv : PmmInv p gh live) {a k : Nat} (page : (a, k) ∈ gh.pages)
    {r : Round} {mem' : Mem} (ran : searchRound p.mem a = some (r, mem')) :
    r = .next (p.mem (a + nextSlabStick)) ∧ mem' = p.mem ∨
      ∃ rest, r = .taken (p.mem (a + freeBlockList)) ∧ mem' = takenBlock p.mem a ∧
        p.mem (a + freeBlockList) ≠ 0 ∧
        BlockTaken p gh live a k (p.mem (a + freeBlockList)) rest := by
  unfold searchRound at ran
  split at ran
  · cases ran
  · rename_i unlocked
    have unlocked : p.mem a = 0 := by omega
    have apart : ∀ c, 0 < c → Function.update p.mem a 1 (a + c) = p.mem (a + c) := fun c h =>
      Function.update_of_ne (by omega) ..
    simp only [apart slabFreeSpace (by decide), apart freeBlockList (by decide),
      apart nextSlabStick (by decide)] at ran
    split at ran
    · cases ran
      refine .inl ⟨rfl, ?_⟩
      rw [Function.update_idem, ← unlocked, Function.update_eq_self]
    · split at ran
      · cases ran
      · rename_i stored
        obtain ⟨rest, taken⟩ := take_block_inv inv page stored
        have lower := taken.slot.lower
        have large := class_at_least (inv.pages _ page).least
        simp only at large
        have next : Function.update p.mem a 1 (p.mem (a + freeBlockList)) =
            p.mem (p.mem (a + freeBlockList)) := Function.update_of_ne (by omega) ..
        have counted : Function.update (Function.update p.mem a 1) (a + freeBlockList)
            (p.mem (p.mem (a + freeBlockList))) (a + slabFreeSpace) =
              p.mem (a + slabFreeSpace) := by
          rw [Function.update_of_ne (by simp only [slabFreeSpace, freeBlockList]; omega),
            apart slabFreeSpace (by decide)]
        simp only [next, counted, unlock_page unlocked] at ran
        cases ran
        exact .inr ⟨rest, rfl, rfl, stored, taken⟩

theorem bbma_section_cases (inv : PmmInv p gh live) {size r : Nat} {tree : Option Nat} {p' : Pmm}
    (ran : bbmaSection p size tree = some (r, p')) :
    r = 0 ∧ p' = p ∨ ∃ shape mem', p' = { p with mem := mem' } ∧
      PmmInv p' { gh with shape := shape } live ∧
      Owned p.g shape (r, determineBbmaSize size) ∧ Fresh gh live r := by
  cases tree with
  | none =>
    cases ran
    exact .inl ⟨rfl, rfl⟩
  | some i =>
    simp only [bbmaSection] at ran
    split at ran
    · cases ran
    · rename_i accepted
      split at ran
      · cases ran
      · rename_i enough
        have valid : TreeIndex p.g i := by
          constructor <;> omega
        have real := (determine_bbma_size_spec (served_size fun refused =>
          accepted (.inl refused))).1
        obtain ⟨a, mem', b', taken, trees⟩ :=
          alloc_in_trees inv.laid valid inv.trees real (Nat.le_of_not_lt enough)
        have run := taken.run
        rw [show (12 : Nat) + 12 = s16M from rfl] at run
        simp only [run] at ran
        split at ran
        · cases ran
          obtain ⟨inv', owned, fresh⟩ := taken_block_inv inv valid taken trees
          exact .inr ⟨_, _, rfl, inv', owned, fresh⟩
        · cases ran

end Facts

section Steps

variable {s s' : Sections} {gh gh' : Ghost} {flights : List (Nat × Nat)} {cpu : Nat} {pc' : SlabPc}

theorem fits_chains {pc : SlabPc} (chains : ∀ i, gh.chains cpu i ⊆ gh'.chains cpu i)
    (fits : pc.Fits gh cpu) : pc.Fits gh' cpu := by
  cases pc with
  | search k page again =>
    obtain ⟨least, most, place⟩ := fits
    exact ⟨least, most, place.imp_right fun h => chains _ h⟩
  | outside | request k | link k page | bbma size => exact fits

/-- What a step of `cpu` has to show about the program counters and the pages in flight. -/
theorem SectionsInv.step {flights' : List (Nat × Nat)} (inv : SectionsInv s gh flights)
    (pcs : s'.pc = Function.update s.pc cpu pc')
    (pmm : PmmInv s'.p gh' (flights'.map (fun f => (f.2, 12)) ++ s'.live))
    (here : ∀ a, (cpu, a) ∈ flights' ↔ pc'.page = some a)
    (others : ∀ c a, c ≠ cpu → ((c, a) ∈ flights' ↔ (c, a) ∈ flights))
    (once : flights'.Nodup)
    (chains : ∀ c i, gh.chains c i ⊆ gh'.chains c i) (fits : pc'.Fits gh' cpu)
    (conserved : ∀ x ∈ gh'.pages,
      (gh'.slots x.1).length + liveIn s'.live x.1 = slabCapacity x.2) :
    SectionsInv s' gh' flights' := by
  refine ⟨pmm, fun c a => ?_, once, fun c => ?_, conserved⟩ <;>
    rw [pcs] <;> by_cases at_cpu : c = cpu
  · subst at_cpu
    rw [Function.update_self]
    exact here a
  · rw [Function.update_of_ne at_cpu, others c a at_cpu]
    exact inv.flying c a
  · subst at_cpu
    rw [Function.update_self]
    exact fits
  · rw [Function.update_of_ne at_cpu]
    exact fits_chains (chains c) (inv.fits c)

theorem SectionsInv.grounded (inv : SectionsInv s gh flights)
    (pcs : s'.pc = Function.update s.pc cpu pc')
    (pmm : PmmInv s'.p gh' (flights.map (fun f => (f.2, 12)) ++ s'.live))
    (before : (s.pc cpu).page = none) (after : pc'.page = none)
    (chains : ∀ c i, gh.chains c i ⊆ gh'.chains c i) (fits : pc'.Fits gh' cpu)
    (conserved : ∀ x ∈ gh'.pages,
      (gh'.slots x.1).length + liveIn s'.live x.1 = slabCapacity x.2) :
    SectionsInv s' gh' flights := by
  refine inv.step pcs pmm (fun a => ?_) (fun _ _ _ => Iff.rfl) inv.once chains fits conserved
  rw [inv.flying, before, after]

theorem SectionsInv.moved (inv : SectionsInv s gh flights) (before : (s.pc cpu).page = none)
    (after : pc'.page = none) (fits : pc'.Fits gh cpu) :
    SectionsInv (s.at cpu pc') gh flights :=
  inv.grounded rfl inv.pmm before after (fun _ _ _ h => h) fits inv.conserved

theorem next_stick {pages : List Nat} {mem : Mem} {start a : Nat}
    (linked : Linked mem nextSlabStick start pages) (inside : a ∈ pages) :
    mem (a + nextSlabStick) = 0 ∨ mem (a + nextSlabStick) ∈ pages := by
  obtain ⟨front, back, rfl⟩ := List.append_of_mem inside
  obtain ⟨_, _, later⟩ := linked_after linked
  cases back with
  | nil => exact .inl later
  | cons b rest =>
    refine .inr ?_
    rw [later.1]
    simp

theorem search_step (inv : SectionsInv s gh flights) {k page : Nat} {again : Bool}
    {tree : Option Nat} (pc : s.pc cpu = .search k page again)
    (taken : sectionGo s cpu tree = some s') : ∃ gh', SectionsInv s' gh' flights := by
  have fits := inv.fits cpu
  rw [pc] at fits
  obtain ⟨least, most, place⟩ := fits
  have before : (s.pc cpu).page = none := by rw [pc]; rfl
  simp only [sectionGo, pc] at taken
  split at taken
  · cases taken
    refine ⟨gh, inv.moved before ?_ ?_⟩ <;> cases again
    · rfl
    · rfl
    · exact ⟨least, most⟩
    · trivial
  · rename_i real
    have listed := place.resolve_left real
    have chain := inv.pmm.chains cpu (k - cpuFindSlabOffset)
    have inPages := chain.pages page listed
    rw [show k - cpuFindSlabOffset + cpuFindSlabOffset = k by
      simp only [cpuFindSlabOffset]; omega] at inPages
    cases ran : searchRound s.p.mem page with
    | none => simp [ran] at taken
    | some result =>
      obtain ⟨r, mem'⟩ := result
      rcases search_round_cases inv.pmm inPages ran with
        ⟨rfl, rfl⟩ | ⟨rest, rfl, rfl, found, block⟩
      · simp only [ran] at taken
        cases taken
        refine ⟨gh, inv.moved before rfl ⟨least, most, ?_⟩⟩
        exact next_stick chain.linked listed
      · simp only [ran] at taken
        split at taken
        · simp only [Sections.returns, if_neg found, Option.some.injEq] at taken
          subst taken
          refine ⟨_, inv.grounded rfl (live_perm block.inv List.perm_middle.symm) before rfl
            (fun _ _ _ h => h) trivial fun x other => ?_⟩
          have kept := inv.conserved x other
          have home : slabAlignTo4kb (s.p.mem (page + freeBlockList)) = page :=
            (in_page (page_aligned inv.pmm inPages)).mpr (slot_inside block.slot)
          rw [live_in_cons, home]
          dsimp only
          by_cases here : x.1 = page
          · rw [here] at kept ⊢
            rw [block.head, List.length_cons] at kept
            rw [Function.update_self, if_pos rfl]
            omega
          · rw [Function.update_of_ne here, if_neg (Ne.symm here)]
            exact kept
        · cases taken

theorem request_step (inv : SectionsInv s gh flights) {k : Nat} {tree : Option Nat}
    (pc : s.pc cpu = .request k) (taken : sectionGo s cpu tree = some s') :
    ∃ gh' flights', SectionsInv s' gh' flights' := by
  have fits := inv.fits cpu
  rw [pc] at fits
  have before : (s.pc cpu).page = none := by rw [pc]; rfl
  simp only [sectionGo, pc] at taken
  cases ran : bbmaSection s.p slabRequestSpace tree with
  | none => simp [ran] at taken
  | some result =>
    obtain ⟨a, p'⟩ := result
    simp only [ran] at taken
    split at taken
    · cases taken
    · rcases bbma_section_cases inv.pmm ran with
        ⟨rfl, rfl⟩ | ⟨shape, mem', rfl, inv', owned, fresh⟩
      · simp only [↓reduceIte, Option.some.injEq] at taken
        subst taken
        exact ⟨gh, flights, inv.moved before rfl trivial⟩
      · have class' : determineBbmaSize slabRequestSpace = 12 := by decide
        rw [class'] at owned
        split at taken
        · cases taken
          exact ⟨_, flights, inv.grounded rfl inv' before rfl (fun _ _ _ h => h) trivial
            inv.conserved⟩
        · cases taken
          have grown := live_add inv' (.inr ⟨owned, fresh.1⟩) fresh.2
          have absent : ∀ b, (cpu, b) ∉ flights := fun b h => by
            rw [inv.flying, before] at h
            cases h
          refine ⟨_, (cpu, a) :: flights, inv.step rfl grown (fun b => ?_) (fun c b ne => ?_)
            (List.nodup_cons.mpr ⟨absent a, inv.once⟩) (fun _ _ _ h => h) fits inv.conserved⟩
          · rw [List.mem_cons]
            constructor
            · rintro (same | old)
              · cases same
                rfl
              · exact absurd old (absent b)
            · intro same
              cases same
              exact .inl rfl
          · rw [List.mem_cons]
            exact ⟨fun h => h.resolve_left fun same => ne (Prod.mk.inj same).1, .inr⟩

theorem live_in_fresh {p : Pmm} {live : List (Nat × Nat)} {a : Nat}
    (inv : PmmInv p gh ((a, 12) :: live)) (aligned : 4096 ∣ a) : liveIn live a = 0 := by
  refine List.countP_eq_zero.mpr fun x inside => ?_
  have apart : a + 4096 ≤ x.1 ∨ x.1 + 2 ^ x.2 ≤ a :=
    (List.pairwise_cons.mp (live_apart inv)).1 x inside
  have pos : 0 < 2 ^ x.2 := Nat.two_pow_pos _
  simp only [decide_eq_true_eq, in_page aligned]
  omega

theorem link_step (inv : SectionsInv s gh flights) {k a : Nat} {tree : Option Nat}
    (pc : s.pc cpu = .link k a) (taken : sectionGo s cpu tree = some s') :
    ∃ gh' flights', SectionsInv s' gh' flights' := by
  have fits := inv.fits cpu
  rw [pc] at fits
  obtain ⟨least, most⟩ := fits
  have flight : (cpu, a) ∈ flights := (inv.flying cpu a).mpr (by rw [pc]; rfl)
  have split : flights.Perm ((cpu, a) :: flights.erase (cpu, a)) := List.perm_cons_erase flight
  have landing := live_perm inv.pmm ((split.map fun f => (f.2, 12)).append_right s.live)
  simp only [List.map_cons, List.cons_append] at landing
  obtain ⟨owned, notPage⟩ : Owned s.p.g gh.shape (a, 12) ∧ a ∉ gh.pages.map Prod.fst := by
    rcases landing.liveBlocks _ List.mem_cons_self with ⟨b, page, _, _⟩ | buddy
    · have := (landing.pages _ page).most
      simp only at this
      omega
    · exact buddy
  have fresh := (List.nodup_cons.mp landing.liveOnce).1
  have area := owned_in_area landing.laid owned
  have aligned : a % 4096 = 0 := Nat.mod_eq_zero_of_dvd area.aligned
  obtain ⟨mem', slots, filled, list, next, same⟩ := initialize_page_spec
    (Function.update s.p.mem (a + nextSlabStick) (s.p.cpuOwnArea cpu (k - cpuFindSlabOffset)))
    aligned least most
  rw [Function.update_self] at next
  have outside : ∀ x, x < a ∨ a + 4096 ≤ x → mem' x = s.p.mem x := fun x h => by
    rw [same x h, Function.update_of_ne (by simp only [nextSlabStick]; omega)]
  have paged := new_page_inv (live_forget landing) owned ⟨notPage, fresh⟩ least most list outside
    next
  simp only [sectionGo, pc, linkPage, filled, Option.map_some, Option.some.injEq] at taken
  subst taken
  refine ⟨_, flights.erase (cpu, a), inv.step rfl paged (fun b => ?_) (fun c b ne => ?_)
    (inv.once.erase _) (fun c i => ?_) ⟨least, most, .inr ?_⟩ ?_⟩
  · refine iff_of_false (fun inside => ?_) nofun
    obtain ⟨other, old⟩ := (List.Nodup.mem_erase_iff inv.once).mp inside
    rw [inv.flying, pc] at old
    cases old
    exact other rfl
  · exact List.mem_erase_of_ne fun same => ne (Prod.mk.inj same).1
  · simp only [Ghost.addPage]
    by_cases here : c = cpu
    · subst here
      rw [Function.update_self]
      by_cases index : i = k - cpuFindSlabOffset
      · subst index
        rw [Function.update_self]
        exact List.subset_cons_self ..
      · rw [Function.update_of_ne index]
        exact fun _ h => h
    · rw [Function.update_of_ne here]
      exact fun _ h => h
  · simp only [updateOwnArea, Ghost.addPage, Function.update_self]
    exact List.mem_cons_self
  · have empty := live_in_fresh landing area.aligned
    refine List.forall_mem_cons.mpr ⟨?_, fun x page => ?_⟩
    · simp only [Ghost.addPage, Function.update_self]
      have count := list.count
      rw [initialize_page_count least most filled] at count
      have none : liveIn s.live a = 0 := by
        rw [liveIn, List.countP_append] at empty
        rw [liveIn]
        omega
      change slots.length + liveIn s.live a = slabCapacity k
      omega
    · have other : x.1 ≠ a := fun h => notPage (h ▸ List.mem_map_of_mem page)
      simp only [Ghost.addPage, Function.update_of_ne other]
      exact inv.conserved x page

theorem bbma_step (inv : SectionsInv s gh flights) {size : Nat} {tree : Option Nat}
    (pc : s.pc cpu = .bbma size) (taken : sectionGo s cpu tree = some s') :
    ∃ gh', SectionsInv s' gh' flights := by
  have before : (s.pc cpu).page = none := by rw [pc]; rfl
  simp only [sectionGo, pc] at taken
  obtain ⟨⟨a, p'⟩, ran, rfl⟩ := Option.map_eq_some_iff.mp taken
  rcases bbma_section_cases inv.pmm ran with
    ⟨rfl, rfl⟩ | ⟨shape, mem', rfl, inv', owned, fresh⟩
  · exact ⟨gh, inv.moved before rfl trivial⟩
  · have real : a ≠ 0 := by
      have lower : s.p.g.beginAllocAddr ≤ a := (owned_in_area inv.pmm.laid owned).lower
      have := inv.pmm.laid.positive
      have := inv.pmm.laid.area
      omega
    simp only [Sections.returns, if_neg real]
    have grown := live_add inv' (.inr ⟨owned, fresh.1⟩) fresh.2
    refine ⟨_, inv.grounded rfl (live_perm grown List.perm_middle.symm) before rfl
      (fun _ _ _ h => h) trivial fun x page => ?_⟩
    rw [live_in_cons, if_neg (owned_outside_page inv' owned fresh.1 page)]
    exact inv.conserved x page

theorem kfree_step (inv : SectionsInv s gh flights) {ptr k : Nat} {p' : Pmm}
    (block : (ptr, k) ∈ s.live) (ran : kfree s.p ptr = some p') :
    ∃ gh', SectionsInv { s with p := p', live := s.live.erase (ptr, k) } gh' flights := by
  have split : s.live.Perm ((ptr, k) :: s.live.erase (ptr, k)) := List.perm_cons_erase block
  have leaving := live_perm inv.pmm ((split.append_left _).trans List.perm_middle)
  have count := live_in_perm split
  unfold kfree at ran
  rcases leaving.liveBlocks _ List.mem_cons_self with ⟨a, page, slot, absent⟩ | ⟨owned, notPage⟩
  · rw [slot_not_aligned leaving page slot] at ran
    have unlocked : s.p.mem a = 0 := by
      by_contra locked
      have home : slabAlignTo4kb ptr = a :=
        (in_page (page_aligned leaving page)).mpr (slot_inside slot)
      simp [slabFree, home, locked] at ran
    obtain ⟨home, mem', run, inv', _⟩ := slab_free_returns leaving page slot absent unlocked
    rw [if_neg (by decide), run, Option.some.injEq] at ran
    subst ran
    refine ⟨_, inv', inv.flying, inv.once, fun c => fits_chains (fun _ _ h => h) (inv.fits c),
      fun x other => ?_⟩
    have kept := inv.conserved x other
    rw [count, live_in_cons, home] at kept
    dsimp only
    by_cases here : x.1 = a
    · rw [here] at kept ⊢
      rw [if_pos rfl] at kept
      rw [Function.update_self, List.length_cons]
      omega
    · rw [if_neg (Ne.symm here)] at kept
      rw [Function.update_of_ne here]
      exact kept
  · rw [owned_block_aligned leaving.laid owned] at ran
    have outside := fun x page => owned_outside_page leaving owned notPage (y := x) page
    obtain ⟨t, valid, inTree⟩ := owned
    obtain ⟨mem', b', given, trees', _, rfl⟩ :=
      bbma_free_spec leaving.laid leaving.trees valid inTree ran
    refine ⟨_, buddy_given_inv leaving valid notPage given trees', inv.flying, inv.once,
      fun c => fits_chains (fun _ _ h => h) (inv.fits c), fun x page => ?_⟩
    have kept := inv.conserved x page
    rw [count, live_in_cons, if_neg (outside x page)] at kept
    exact kept

theorem section_step_inv {e : SectionEvent} (inv : ∃ gh flights, SectionsInv s gh flights)
    (taken : sectionStep s e = some s') : ∃ gh flights, SectionsInv s' gh flights := by
  obtain ⟨gh, flights, inv⟩ := inv
  cases e with
  | kalloc cpu size =>
    simp only [sectionStep] at taken
    split at taken
    · rename_i out
      cases taken
      have before : (s.pc cpu).page = none := by rw [out]; rfl
      refine ⟨gh, flights, inv.moved before ?_ ?_⟩ <;> unfold kallocEnter
      · dsimp only
        split
        · rfl
        · split <;> rfl
      · dsimp only
        split
        · trivial
        · split
          · trivial
          · rename_i small
            have fits : size ≤ 2048 := by
              by_contra large
              exact small (determine_slab_size_refuse (Nat.lt_of_not_le large))
            obtain ⟨least, most, _⟩ := determine_slab_size_spec fits
            refine ⟨least, most, ?_⟩
            have linked := (inv.pmm.chains cpu (determineSlabSize size - cpuFindSlabOffset)).linked
            by_cases none : s.p.cpuOwnArea cpu (determineSlabSize size - cpuFindSlabOffset) = 0
            · exact .inl none
            · obtain ⟨rest, head, _⟩ := linked_head linked none
              exact .inr (head ▸ List.mem_cons_self)
    · cases taken
  | initializeArea cpu i =>
    simp only [sectionStep] at taken
    split at taken
    · rename_i guard
      cases taken
      have small := guard.2
      simp only [slabNum] at small
      refine ⟨gh, flights, inv.moved (by rw [guard.1]; rfl) rfl ⟨?_, ?_⟩⟩ <;>
        simp only [cpuFindSlabOffset] <;> omega
    · cases taken
  | go cpu tree =>
    simp only [sectionStep] at taken
    cases pc : s.pc cpu with
    | outside => simp [sectionGo, pc] at taken
    | search k page again =>
      obtain ⟨gh', inv'⟩ := search_step inv pc taken
      exact ⟨gh', flights, inv'⟩
    | request k => exact request_step inv pc taken
    | link k page => exact link_step inv pc taken
    | bbma size =>
      obtain ⟨gh', inv'⟩ := bbma_step inv pc taken
      exact ⟨gh', flights, inv'⟩
  | kfree cpu ptr k =>
    simp only [sectionStep] at taken
    split at taken
    · rename_i guard
      obtain ⟨p', ran, rfl⟩ := Option.map_eq_some_iff.mp taken
      obtain ⟨gh', inv'⟩ := kfree_step inv guard.2 ran
      exact ⟨gh', flights, inv'⟩
    · cases taken
  | store ptr k content =>
    simp only [sectionStep] at taken
    split at taken
    · rename_i block
      cases taken
      refine ⟨gh, flights, inv_mem_congr inv.pmm fun c cell => if_neg fun inside => ?_,
        inv.flying, inv.once, inv.fits, inv.conserved⟩
      have clear := block_avoids_metadata inv.pmm (List.mem_append_right _ block) cell
      simp only at clear
      omega
    · cases taken

theorem pages_sound (inv : SectionsInv s gh flights) : SlabPagesSound s := by
  intro cpu i
  have chain := inv.pmm.chains cpu i
  refine ⟨gh.chains cpu i, chain.linked, chain.once, fun a inside _ => ⟨gh.slots a, ?_⟩⟩
  have page := chain.pages a inside
  have list := (inv.pmm.pages _ page).list
  refine ⟨list, fun x block listed => ?_, ?_⟩
  · exact listed_not_live inv.pmm page listed
      (List.mem_map_of_mem (List.mem_append_right _ block))
  · rw [list.count]
    exact inv.conserved _ page

end Steps

/-- From bbma_init on, whatever CPUs allocate, free and store, section by section. -/
theorem slab_pages_sound_throughout (heap : HeapRange) (mem : Mem) (events : List SectionEvent) :
    Throughout sectionStep SlabPagesSound (bootSections heap mem) events := by
  have preserved : ∀ s e s', (∃ gh flights, SectionsInv s gh flights) →
      sectionStep s e = some s' → ∃ gh flights, SectionsInv s' gh flights :=
    fun s e s' inv taken => section_step_inv inv taken
  refine throughout_of_invariant preserved ?_ events ?_
  · rintro s ⟨gh, flights, inv⟩
    exact pages_sound inv
  · refine ⟨_, [], boot_inv heap mem, fun cpu a => ?_, List.nodup_nil, fun _ => trivial,
      by simp⟩
    exact iff_of_false (by simp) nofun

end Tbma
