import JyyOs.Uproc.StepEffects

/-!
The mapped-page list, the page table and the areas of every process agree, through any run of
page_fault, kmmap, kfork, destroy_mapped_pages and stores of user code.
-/
namespace Uproc

open PartialRun LinkedList

/-- The page of node `p` lies in an area of `t` that allows what its entry allows. -/
def Lawful (s : Kernel) (t p : Nat) : Prop :=
  ∃ a ∈ (s.tasks t).vmAreas, Covers a (vaOf s p) ∧
    ∀ e, (s.tasks t).entry (vaOf s p) = some e → e.writable = true → a.vmProt &&& protWrite ≠ 0

structure MirrorInv (s : Kernel) (lists : Nat → List Nat) : Prop where
  owned : Owned s lists
  areas : ∀ t ∈ s.live, AreasOk (s.tasks t).vmAreas
  lawful : ∀ t ∈ s.live, ∀ p ∈ lists t, Lawful s t p

section Frame

variable {s s' : Kernel} {lists : Nat → List Nat} {t : Nat}

theorem Lawful.congr {p : Nat} (h : Lawful s t p)
    (areas : ∀ a ∈ (s.tasks t).vmAreas, a ∈ (s'.tasks t).vmAreas)
    (va : vaOf s' p = vaOf s p)
    (entry : (s'.tasks t).entry (vaOf s p) = (s.tasks t).entry (vaOf s p)) : Lawful s' t p := by
  obtain ⟨a, mem, covers, allows⟩ := h
  refine ⟨a, areas a mem, ?_, ?_⟩
  · rw [va]
    exact covers
  · rw [va, entry]
    exact allows

theorem SameMemory.lawful {p : Nat} (same : SameMemory s s') (h : Lawful s t p) :
    Lawful s' t p :=
  h.congr (fun a ha => by rw [same.areas]; exact ha) (by rw [same.vaOf]) (same.entry ..)

theorem SameMemory.mirror (same : SameMemory s s') (inv : MirrorInv s lists) :
    MirrorInv s' lists := by
  refine ⟨same.owned inv.owned, fun t live => ?_, fun t live p hp => ?_⟩
  · rw [same.live] at live
    rw [same.areas]
    exact inv.areas t live
  · rw [same.live] at live
    exact same.lawful (inv.lawful t live p hp)

theorem MirrorInv.congr (inv : MirrorInv s lists) (nodes : s'.nodes = s.nodes)
    (used : s'.nodeUsed = s.nodeUsed) (tasks : s'.tasks = s.tasks) (live : s'.live = s.live)
    (taskUsed : s'.taskUsed = s.taskUsed) : MirrorInv s' lists := by
  refine ⟨inv.owned.congr nodes used live taskUsed (fun t => by simp only [headOf, tasks])
    fun t => by rw [tasks], fun t ht => ?_, fun t ht p hp => ?_⟩
  · rw [live] at ht
    rw [tasks]
    exact inv.areas t ht
  · rw [live] at ht
    exact (inv.lawful t ht p hp).congr (by simp [tasks]) (by simp [vaOf, nodes])
      (by rw [tasks])

theorem MirrorInv.taken (inv : MirrorInv s lists) (pa : Nat) (rest : List Nat) :
    MirrorInv (s.pageTaken pa rest) lists :=
  inv.congr (by simp) (by simp) (by simp) (by simp) (by simp)

theorem MirrorInv.fresh (inv : MirrorInv s lists) (pa : Nat) (rest : List Nat)
    (bytes : Nat → Nat) : MirrorInv (s.fresh pa rest bytes) lists :=
  (inv.taken pa rest).congr rfl rfl rfl rfl rfl

@[simp] theorem areas_with_areas_other {areas : List VmArea} {t' : Nat} (other : t' ≠ t) :
    ((s.withAreas t areas).tasks t').vmAreas = (s.tasks t').vmAreas := by
  simp [Kernel.withAreas, Function.update_of_ne other]

end Frame

section Steps

variable {s s' : Kernel} {lists lists' : Nat → List Nat} {t va : Nat}

theorem MirrorInv.mapped {pa prot p : Nat} {cowCnt : Bool} {rest : List Nat}
    (inv : MirrorInv s lists) (live : t ∈ s.live) (page : UserPage va)
    (new : va ∉ (lists t).map (vaOf s)) (real : p ≠ 0) (fresh : s.nodeUsed p = false)
    {a : VmArea} (mem : a ∈ (s.tasks t).vmAreas) (covers : Covers a va)
    (allows : prot &&& protWrite ≠ 0 → a.vmProt &&& protWrite ≠ 0) :
    MirrorInv (s.mapped t va pa prot p cowCnt rest) (Function.update lists t (p :: lists t)) := by
  refine ⟨inv.owned.mapped live page new real fresh, fun t' live' => ?_,
    fun t' live' q hq => ?_⟩
  · rw [areas_mapped]
    exact inv.areas t' live'
  · have kept : ∀ q ∈ lists t', vaOf (s.mapped t va pa prot p cowCnt rest) q = vaOf s q :=
      fun q hq => by simp only [vaOf, nodes_mapped_used ((inv.owned.holds t' live').used q hq) fresh]
    by_cases here : t' = t
    · subst here
      rw [Function.update_self] at hq
      rcases List.mem_cons.mp hq with rfl | hq
      · refine ⟨a, by rw [areas_mapped]; exact mem, ?_, fun e found writable => ?_⟩
        · simpa [vaOf] using covers
        · have at_va : vaOf (s.mapped t' va pa prot q cowCnt rest) q = va := by simp [vaOf]
          rw [at_va, entry_mapped_here] at found
          cases found
          exact allows (of_decide_eq_true writable)
      · refine (inv.lawful t' live' q hq).congr (fun b hb => by rw [areas_mapped]; exact hb)
          (kept q hq) (entry_mapped_other page ((inv.owned.holds t' live').page q hq) ?_)
        exact fun same => new (List.mem_map.mpr ⟨q, hq, same⟩)
    · rw [Function.update_of_ne here] at hq
      refine (inv.lawful t' live' q hq).congr (fun b hb => by rw [areas_mapped]; exact hb)
        (kept q hq) ?_
      rw [task_mapped_other here]

theorem MirrorInv.unmapped {left right : List Nat} {q : Nat} (inv : MirrorInv s lists)
    (live : t ∈ s.live) (split : lists t = left ++ q :: right) :
    MirrorInv (s.unmapped t (vaOf s q) (left.getLastD 0) q)
      (Function.update lists t (left ++ right)) := by
  have holds := inv.owned.holds t live
  refine ⟨inv.owned.unmapped live split, fun t' live' => ?_, fun t' live' p hp => ?_⟩
  · rw [areas_unmapped]
    exact inv.areas t' live'
  · by_cases here : t' = t
    · subst here
      rw [Function.update_self] at hp
      have mem : p ∈ lists t' := mem_of_mem_left split hp
      have q_mem : q ∈ lists t' := by simp [split]
      refine (inv.lawful t' live' p mem).congr (fun b hb => by rw [areas_unmapped]; exact hb)
        (va_unmapped p) (entry_unmapped_other (holds.page q q_mem) (holds.page p mem) ?_)
      exact fun same => holds.gone split (List.mem_map.mpr ⟨p, hp, same⟩)
    · rw [Function.update_of_ne here] at hp
      refine (inv.lawful t' live' p hp).congr (fun b hb => by rw [areas_unmapped]; exact hb)
        (va_unmapped p) ?_
      rw [task_unmapped_other here]

theorem MirrorInv.replaced {left right rest : List Nat} {q pa prot p : Nat} {cowCnt : Bool}
    {a : VmArea} (inv : MirrorInv s lists) (live : t ∈ s.live)
    (split : lists t = left ++ q :: right) (real : p ≠ 0)
    (fresh : p = q ∨ s.nodeUsed p = false) (mem : a ∈ (s.tasks t).vmAreas)
    (covers : Covers a (vaOf s q))
    (allows : prot &&& protWrite ≠ 0 → a.vmProt &&& protWrite ≠ 0) :
    MirrorInv ((s.unmapped t (vaOf s q) (left.getLastD 0) q).mapped t (vaOf s q) pa prot p cowCnt
      rest) (Function.update lists t (p :: (left ++ right))) := by
  have holds := inv.owned.holds t live
  have gone := inv.unmapped live split
  have new : vaOf s q ∉ ((Function.update lists t (left ++ right)) t).map
      (vaOf (s.unmapped t (vaOf s q) (left.getLastD 0) q)) := by
    rw [Function.update_self, vas_unmapped]
    exact holds.gone split
  have again : MirrorInv ((s.unmapped t (vaOf s q) (left.getLastD 0) q).mapped t (vaOf s q) pa
      prot p cowCnt rest) _ :=
    gone.mapped live (holds.page q (by simp [split])) new real (unused_unmapped fresh)
      (by rw [areas_unmapped]; exact mem) covers allows
  rwa [Function.update_self, Function.update_idem] at again

theorem MirrorInv.withAreas {node : VmArea} {areas : List VmArea} (inv : MirrorInv s lists)
    (inserted : insertVmeNode (s.tasks t).vmAreas node = some areas) (ok : AreaOk node) :
    MirrorInv (s.withAreas t areas) lists := by
  refine ⟨inv.owned.withAreas t areas, fun t' live' => ?_, fun t' live' p hp => ?_⟩
  · by_cases here : t' = t
    · subst here
      rw [areas_with_areas]
      exact insert_vme_ok inserted (inv.areas t' live') ok
    · simpa [Kernel.withAreas, Function.update_of_ne here] using inv.areas t' live'
  · refine (inv.lawful t' live' p hp).congr (fun b hb => ?_) rfl ?_
    · by_cases here : t' = t
      · subst here
        rw [areas_with_areas]
        exact (insert_vme_mem inserted b).mpr (.inr hb)
      · simpa [Kernel.withAreas, Function.update_of_ne here] using hb
    · by_cases here : t' = t
      · subst here
        simp [Kernel.withAreas, Task.entry]
      · simp [Kernel.withAreas, Function.update_of_ne here]

theorem MirrorInv.givenAreas {areas : List VmArea} (inv : MirrorInv s lists)
    (empty : lists t = []) (ok : AreasOk areas) : MirrorInv (s.withAreas t areas) lists := by
  refine ⟨inv.owned.withAreas t areas, fun t' live' => ?_, fun t' live' p hp => ?_⟩
  · by_cases here : t' = t
    · subst here
      rw [areas_with_areas]
      exact ok
    · rw [areas_with_areas_other here]
      exact inv.areas t' live'
  · have here : t' ≠ t := by
      rintro rfl
      rw [empty] at hp
      cases hp
    refine (inv.lawful t' live' p hp).congr (fun b hb => ?_) rfl ?_
    · rw [areas_with_areas_other here]
      exact hb
    · simp [Kernel.withAreas, Function.update_of_ne here]

end Steps

section Calls

variable {s s' : Kernel} {lists lists' : Nat → List Nat} {t c : Nat}

theorem found_covers {areas : List VmArea} {va : Nat} {vma : VmArea} (page : UserPage va)
    (found : findVmeNode areas va (u64 (va + pgsize)) = some vma) :
    vma ∈ areas ∧ Covers vma va := by
  rw [page_end page] at found
  exact find_vme_some found

theorem MirrorInv.unmaps {lo hi : Nat} (walk : Unmaps t lo hi s lists s' lists')
    (inv : MirrorInv s lists) (live : t ∈ s.live) : MirrorInv s' lists' := by
  induction walk with
  | done => exact inv
  | page split _ _ ih => exact ih (inv.unmapped live split) live

theorem MirrorInv.mmap {addr : Nat} {length prot flags : Int}
    (effect : MmapEffect t addr length prot flags s lists s' lists') (inv : MirrorInv s lists)
    (live : t ∈ s.live) (ok : ∀ node, flags ≠ mapUnmap → 0 < length →
      newVmeNode (s.tasks t).vmAreas addr length prot flags = some node → AreaOk node) :
    MirrorInv s' lists' := by
  cases effect with
  | area maps positive placed inserted same =>
    exact same.mirror (inv.withAreas inserted (ok _ maps positive placed))
  | outside _ same => exact same.mirror inv
  | pages _ before gone after =>
    exact after.mirror ((before.mirror inv).unmaps gone (before.live ▸ live))

theorem MirrorInv.fault {va pa : Nat} {rest : List Nat}
    (effect : FaultEffect t va pa rest s lists s' lists') (inv : MirrorInv s lists)
    (live : t ∈ s.live) : MirrorInv s' lists' := by
  have live' : ∀ bytes, t ∈ (s.fresh pa rest bytes).live := by
    intro bytes
    rw [Kernel.fresh, Kernel.written, live_taken]
    exact live
  have tasks : ∀ bytes, (s.fresh pa rest bytes).tasks = s.tasks := fun _ => tasks_taken ..
  have nodes : ∀ bytes, (s.fresh pa rest bytes).nodes = s.nodes := fun _ => nodes_taken ..
  have vas : ∀ bytes, vaOf (s.fresh pa rest bytes) = vaOf s := by
    intro bytes
    funext p
    simp only [vaOf, nodes]
  have used : ∀ bytes, (s.fresh pa rest bytes).nodeUsed = s.nodeUsed := fun _ =>
    node_used_taken ..
  cases effect with
  | outside _ same => exact same.mirror (inv.taken pa rest)
  | @newArea _ bytes node areas p rest' page new unfound placed inserted _ real fresh same =>
    have ok := inv.areas t live
    rw [new_vme_node_page ok page unfound] at placed
    cases placed
    obtain ⟨lower, upper, aligned⟩ := user_page_bounds page
    have size : pgsize = 4096 := rfl
    have node_ok : AreaOk ⟨va, va + pgsize, ((protRead ||| protWrite : Nat) % 256 : Int).toNat,
        ((mapPrivate : Int) % 256).toNat⟩ := by
      refine ⟨aligned, ?_, lower, ?_, upper, ?_, ?_, ?_⟩
      · simp only [Aligned] at *
        omega
      · simp only
        omega
      · simp only
        omega
      · simp only
        decide
      · simp only
        decide
    have inserted' := inserted
    rw [← tasks bytes] at inserted'
    have grown := (inv.fresh pa rest bytes).withAreas inserted' node_ok
    have mem := (insert_vme_mem inserted _).mpr (.inl rfl)
    rw [← areas_with_areas (s.fresh pa rest bytes) t areas] at mem
    have new' : va ∉ (lists t).map (vaOf ((s.fresh pa rest bytes).withAreas t areas)) := by
      have : vaOf ((s.fresh pa rest bytes).withAreas t areas) = vaOf s := vas bytes
      rw [this]
      exact new
    have fresh' : ((s.fresh pa rest bytes).withAreas t areas).nodeUsed p = false := by
      have : ((s.fresh pa rest bytes).withAreas t areas).nodeUsed = s.nodeUsed := used bytes
      rw [this]
      exact fresh
    exact same.mirror (grown.mapped (live' bytes) page new' real fresh' mem
      ⟨Nat.le_refl _, Nat.le_refl _⟩ fun _ => by simp only; decide)
  | @newPage _ bytes vma p rest' page new found _ real fresh same =>
    obtain ⟨mem, covers⟩ := find_vme_some found
    refine same.mirror ((inv.fresh pa rest bytes).mapped (live' bytes) page ?_ real ?_
      (by rw [tasks]; exact mem) covers fun h => h)
    · rw [vas]
      exact new
    · rw [used]
      exact fresh
  | @copied m _ bytes vma left right q p rest' split here found _ real fresh _ moved same =>
    subst here
    subst moved
    obtain ⟨mem, covers⟩ := find_vme_some found
    have fresh' : p = q ∨ (s.fresh pa rest bytes).nodeUsed p = false := by
      rw [used]
      exact fresh
    have again : MirrorInv (((s.fresh pa rest bytes).unmapped t (vaOf s q) (left.getLastD 0)
        q).mapped t (vaOf s q) pa vma.vmProt p false rest')
        (Function.update lists t (p :: (left ++ right))) := by
      rw [← vas bytes]
      exact (inv.fresh pa rest bytes).replaced (live' bytes) split real fresh'
        (by rw [tasks]; exact mem) (by rw [vas]; exact covers) fun h => h
    exact same.mirror (again.congr rfl rfl rfl rfl rfl)

theorem read_only_prot (prot : Nat) : ¬(prot &&& (255 - protWrite)) &&& protWrite ≠ 0 := by
  rw [Nat.and_assoc, not_not]
  exact Nat.and_zero prot

theorem MirrorInv.renewed {x pa p : Nat} {left rest choices : List Nat} {vma : VmArea}
    (inv : MirrorInv s lists) (live : t ∈ s.live) (split : lists t = left ++ x :: rest)
    (found : findVmeNode (s.tasks t).vmAreas (vaOf s x) (u64 (vaOf s x + pgsize)) = some vma)
    (real : p ≠ 0) (fresh : p = x ∨ s.nodeUsed p = false) :
    MirrorInv (s.renewed t left x pa p vma choices)
      (Function.update lists t (p :: (left ++ rest))) := by
  have holds := inv.owned.holds t live
  obtain ⟨mem, covers⟩ := found_covers (holds.page x (by simp [split])) found
  have va : vaOf (s.pageTaken pa (p :: choices)) x = vaOf s x := by simp [vaOf]
  rw [Kernel.renewed, ← va]
  refine (inv.taken pa (p :: choices)).replaced (by rw [live_taken]; exact live) split real
    (by rw [node_used_taken]; exact fresh) (by rw [tasks_taken]; exact mem)
    (by rw [va]; exact covers) fun writes => absurd writes (read_only_prot _)

theorem MirrorInv.cow_walk {ahead : List Nat} (walk : CowWalk t s lists ahead s' lists')
    (inv : MirrorInv s lists) (live : t ∈ s.live) : MirrorInv s' lists' := by
  induction walk with
  | done => exact inv
  | shared _ _ _ ih => exact ih inv live
  | kept _ _ _ _ _ _ _ ih => exact ih (inv.taken ..) (by rw [live_taken]; exact live)
  | renewed split _ _ _ found _ real fresh _ ih =>
    refine ih (inv.renewed live split found real fresh) ?_
    simpa [Kernel.renewed, Kernel.mapped, Kernel.unmapped] using live

theorem MirrorInv.copy_walk {ahead : List Nat} (walk : CopyWalk t c s lists ahead s' lists')
    (inv : MirrorInv s lists) (live : t ∈ s.live) (child : c ∈ s.live)
    (areas : (s.tasks c).vmAreas = (s.tasks t).vmAreas) : MirrorInv s' lists' := by
  induction walk with
  | done => exact inv
  | page mem new found _ real fresh _ ih =>
    have page := (inv.owned.holds t live).page _ mem
    obtain ⟨area_mem, covers⟩ := found_covers page found
    refine ih (inv.mapped child page new real fresh (by rw [areas]; exact area_mem) covers
      fun h => h) live child ?_
    rw [areas_mapped, areas_mapped, areas]

theorem MirrorInv.created {choices : List Nat} (inv : MirrorInv s lists)
    (unused : s.taskUsed c = false) :
    MirrorInv ({ s with
      choices := choices, taskUsed := Function.update s.taskUsed c true }.created c)
      (Function.update lists c []) := by
  have other : ∀ t ∈ s.live, t ≠ c := by
    rintro t live rfl
    rw [inv.owned.taskUsed t live] at unused
    cases unused
  refine ⟨inv.owned.created unused, fun t live => ?_, fun t live p hp => ?_⟩
  · rcases List.mem_cons.mp live with rfl | live
    · have none : (({ s with choices := choices, taskUsed := Function.update s.taskUsed t true
          }.created t).tasks t).vmAreas = [] := by simp [Kernel.created, createdTask]
      rw [none]
      exact ⟨by simp, List.Pairwise.nil⟩
    · simpa [Kernel.created, Kernel.setLock, Function.update_of_ne (other t live)] using
        inv.areas t live
  · rcases List.mem_cons.mp live with rfl | live
    · rw [Function.update_self] at hp
      cases hp
    · rw [Function.update_of_ne (other t live)] at hp
      refine (inv.lawful t live p hp).congr (fun a ha => ?_) rfl ?_
      · simpa [Kernel.created, Kernel.setLock, Function.update_of_ne (other t live)] using ha
      · simp [Kernel.created, Kernel.setLock, Function.update_of_ne (other t live)]

theorem MirrorInv.fork {s₁ s₂ s₃ s₄ : Kernel} {lists₂ lists₄ : Nat → List Nat}
    {choices : List Nat} {areas : List VmArea}
    (effect : ForkEffect t c s lists s₁ s₂ s₃ s₄ s' lists₂ lists₄ choices areas)
    (inv : MirrorInv s lists) (live : t ∈ s.live) : MirrorInv s' lists₄ := by
  have made := effect.created.mirror (inv.created effect.unused)
  have live₁ : s₁.live = c :: s.live := effect.created.live
  have parent : t ∈ s₁.live := by
    rw [live₁]
    exact List.mem_cons_of_mem _ live
  have child : c ∈ s₁.live := by
    rw [live₁]
    exact List.mem_cons_self
  have other : c ≠ t := by
    rintro rfl
    have := effect.unused
    rw [inv.owned.taskUsed c live] at this
    cases this
  have empty : Function.update lists c [] c = [] := Function.update_self ..
  have areas₁ : ∀ t', (s₁.tasks t').vmAreas = _ := effect.created.areas
  have parent_areas : (s₁.tasks t).vmAreas = (s.tasks t).vmAreas := by
    rw [areas₁]
    simp [Kernel.created, Kernel.setLock, Function.update_of_ne (Ne.symm other)]
  obtain ⟨_, others, areas₂⟩ := owned_cow_walk effect.cow parent made.owned
  have live₂ : s₂.live = s₁.live := live_cow_walk effect.cow
  have walked := made.cow_walk effect.cow parent
  have same : areas = (s.tasks t).vmAreas := effect.areas_same (inv.areas t live)
  have given : MirrorInv (s₂.withAreas c areas) lists₂ := by
    refine walked.givenAreas ?_ ?_
    · rw [others c other, empty]
    · rw [same]
      exact inv.areas t live
  have copied := effect.areas_copied.mirror given
  have live₃ : s₃.live = s₁.live := effect.areas_copied.live.trans live₂
  refine effect.finished.mirror (copied.copy_walk effect.copied (live₃ ▸ parent)
    (live₃ ▸ child) ?_)
  rw [effect.areas_copied.areas, effect.areas_copied.areas, areas_with_areas, same,
    areas_with_areas_other (Ne.symm other), areas₂, parent_areas]

theorem MirrorInv.destroyed {s' : Kernel} (inv : MirrorInv s lists) (live : t ∈ s.live)
    (walk : DestroyWalk s (lists t) s') :
    MirrorInv { s' with live := s'.live.erase t } lists := by
  obtain ⟨nodes, tasks, same_live, _⟩ := destroy_walk_frame walk
  have left : ∀ t', t' ∈ s'.live.erase t → t' ∈ s.live := fun t' h => by
    rw [← same_live]
    exact List.mem_of_mem_erase h
  refine ⟨inv.owned.destroyed live walk, fun t' h => ?_, fun t' h p hp => ?_⟩
  · simp only [tasks]
    exact inv.areas t' (left t' h)
  · exact (inv.lawful t' (left t' h) p hp).congr (by simp [tasks]) (by simp [vaOf, nodes])
      (by simp only [tasks])

end Calls

section Run

/-- A new mapping's hint and region are in the user area, and the region is short. -/
def InsideUserArea (s : Kernel) (e : Event) : Prop :=
  match e.call with
  | .kmmap t addr length prot flags => flags ≠ mapUnmap → InArea addr ∧ length < 2 ^ 31 ∧
      ∀ node ∈ newVmeNode (s.tasks t).vmAreas addr length prot flags,
        node.vmEnd ≤ areaEnd ∧ node.vmEnd - node.vmStart < 2 ^ 31
  | _ => True

instance (s : Kernel) (e : Event) : Decidable (InsideUserArea s e) := by
  unfold InsideUserArea
  split <;> infer_instance

theorem mirror_step {s s' : Kernel} {e : Event} {lists : Nat → List Nat}
    (inv : MirrorInv s lists) (inside : InsideUserArea s e) (taken : step s e = some s') :
    ∃ lists', MirrorInv s' lists' := by
  obtain ⟨lists', effect⟩ := step_effect inv.owned taken
  have begun : ∀ t, MirrorInv (s.begun e t) lists := fun _ => inv.congr rfl rfl rfl rfl rfl
  refine ⟨lists', ?_⟩
  cases effect with
  | create called unused same =>
    exact same.mirror ((begun s.currentTask).created unused)
  | fault called live chosen fresh effect => exact (begun _).fault effect live
  | @mmap _ t addr length prot flags _ called live effect =>
    refine (begun t).mmap effect live fun node maps positive placed => ?_
    simp only [InsideUserArea, called] at inside
    obtain ⟨hint, short, region⟩ := inside maps
    obtain ⟨fits, small⟩ := region node placed
    exact new_vme_node_ok (inv.areas t live) hint positive short placed fits small
  | fork called live effect => exact (begun _).fork effect live
  | destroy called live walk => exact (begun _).destroyed live walk
  | @store t _ _ _ called live found => exact (begun t).congr rfl rfl rfl rfl rfl

def InVma (a : VmArea) (va : Nat) : Prop := a.vmStart ≤ va ∧ va < a.vmEnd

instance (a : VmArea) (va : Nat) : Decidable (InVma a va) := inferInstanceAs (Decidable (_ ∧ _))

/-- The list, the page table and the areas of `t` agree. -/
structure Mirrors (s : Kernel) (t : Nat) (list : List Nat) : Prop where
  linked : Linked (nextOf s) 0 (headOf s t) list
  distinct : (list.map (vaOf s)).Nodup
  present : ∀ va pa, UserPage va → ((∃ w, (s.tasks t).entry va = some ⟨pa, w⟩) ↔
    ∃ p ∈ list, vaOf s p = va ∧ paOf s p = pa)
  writable : ∀ va e, UserPage va → (s.tasks t).entry va = some e → e.writable = true →
    ∀ a ∈ (s.tasks t).vmAreas, InVma a va → a.vmProt &&& protWrite ≠ 0
  inside : ∀ p ∈ list, UserPage (vaOf s p) ∧
    (s.tasks t).vmAreas.countP (InVma · (vaOf s p)) = 1 ∧
    (findVmeNode (s.tasks t).vmAreas (vaOf s p) (u64 (vaOf s p + pgsize))).isSome

theorem in_vma_covers {areas : List VmArea} (ok : AreasOk areas) {a : VmArea} (ha : a ∈ areas)
    {va : Nat} (page : UserPage va) (inside : InVma a va) : Covers a va := by
  obtain ⟨_, _, aligned⟩ := user_page_bounds page
  have := (ok.each a ha).end_aligned
  obtain ⟨lower, upper⟩ := inside
  refine ⟨lower, ?_⟩
  simp only [Aligned, pgsize] at *
  omega

theorem covers_in_vma {a : VmArea} {va : Nat} (covers : Covers a va) : InVma a va := by
  obtain ⟨lower, upper⟩ := covers
  have size : pgsize = 4096 := rfl
  exact ⟨lower, by omega⟩

theorem count_in_vma {areas : List VmArea} {va : Nat}
    (sorted : areas.Pairwise fun a b => a.vmEnd ≤ b.vmStart) {a : VmArea} (ha : a ∈ areas)
    (inside : InVma a va) : areas.countP (InVma · va) = 1 := by
  induction areas with
  | nil => cases ha
  | cons b rest ih =>
    obtain ⟨before, sorted⟩ := List.pairwise_cons.mp sorted
    obtain ⟨lower, upper⟩ := inside
    by_cases here : InVma b va
    · have none : rest.countP (InVma · va) = 0 := by
        refine List.countP_eq_zero.mpr fun c hc inside => ?_
        have := before c hc
        have := (of_decide_eq_true inside).1
        have := here.2
        omega
      rw [List.countP_cons_of_pos (by simpa using here), none]
    · rw [List.countP_cons_of_neg (by simpa using here)]
      rcases List.mem_cons.mp ha with rfl | ha
      · exact absurd ⟨lower, upper⟩ here
      · exact ih sorted ha

theorem MirrorInv.mirrors {s : Kernel} {lists : Nat → List Nat} {t : Nat}
    (inv : MirrorInv s lists) (live : t ∈ s.live) : Mirrors s t (lists t) := by
  have holds := inv.owned.holds t live
  have ok := inv.areas t live
  have listed : ∀ va e, UserPage va → (s.tasks t).entry va = some e →
      ∃ p ∈ lists t, vaOf s p = va ∧ paOf s p = e.pa := by
    intro va e page found
    obtain ⟨p, hp, rfl⟩ := List.mem_map.mp (holds.listed va page (by simp [found]))
    obtain ⟨w, here⟩ := holds.present p hp
    rw [found] at here
    cases here
    exact ⟨p, hp, rfl, rfl⟩
  refine ⟨holds.linked, holds.distinct, fun va pa page => ⟨?_, ?_⟩, ?_, fun p hp => ?_⟩
  · rintro ⟨w, found⟩
    exact listed va ⟨pa, w⟩ page found
  · rintro ⟨p, hp, rfl, rfl⟩
    exact holds.present p hp
  · intro va e page found writable a ha inside
    obtain ⟨p, hp, rfl, _⟩ := listed va e page found
    obtain ⟨b, hb, covers, allows⟩ := inv.lawful t live p hp
    obtain rfl := covering_unique ok ha hb (in_vma_covers ok ha page inside) covers
    exact allows e found writable
  · obtain ⟨a, ha, covers, _⟩ := inv.lawful t live p hp
    have page := holds.page p hp
    refine ⟨page, count_in_vma ok.sorted ha (covers_in_vma covers), ?_⟩
    rw [page_end page, find_vme_covering ok.sorted ha covers]
    rfl

theorem mirror_start (nodes : Nat → MPage) (phys : Nat → Nat → Nat) (initCode : List Nat) :
    MirrorInv (uprocInit nodes phys initCode) fun _ => [] := by
  refine ⟨⟨?_, ?_, ?_, List.nodup_nil⟩, ?_, ?_⟩ <;> intro t live <;> cases live

/-- Along every run each process's list, page table and areas agree. -/
theorem mapped_pages_mirror_table (nodes : Nat → MPage) (phys : Nat → Nat → Nat)
    (initCode : List Nat) (events : List Event)
    (inside : EachStep step InsideUserArea (uprocInit nodes phys initCode) events) :
    Throughout step (fun s => ∀ t ∈ s.live, ∃ list, Mirrors s t list)
      (uprocInit nodes phys initCode) events := by
  have start : ∃ lists, MirrorInv (uprocInit nodes phys initCode) lists :=
    ⟨_, mirror_start nodes phys initCode⟩
  have throughout := throughout_of_each_step
    (fun s e s' (inv : ∃ lists, MirrorInv s lists) inside taken =>
      mirror_step inv.choose_spec inside taken) events start inside
  exact throughout_mono (fun s ⟨lists, inv⟩ t live => ⟨lists t, inv.mirrors live⟩) throughout

/-- A fault, a mapping, a fork and the unmapping of the child's page. -/
theorem mapped_pages_mirror_small_run :
    let events : List Event :=
      [⟨.create, [1], 9⟩, ⟨.pageFault 1 0x100000001234, [0x5000, 100], 9⟩,
        ⟨.kmmap 1 0x100000005000 100 protRead mapPrivate, [], 9⟩,
        ⟨.kfork 1, [2, 0x6000, 100, 101], 9⟩,
        ⟨.kmmap 2 0x100000001000 100 protNone mapUnmap, [], 9⟩]
    let start := uprocInit (fun _ => ⟨0, 0, 0⟩) (fun _ _ => 0) []
    (run step start events).isSome = true ∧
      Throughout step (fun s => ∀ t ∈ s.live, ∃ list, Mirrors s t list) start events :=
  ⟨by decide +kernel,
    mapped_pages_mirror_table (fun _ => ⟨0, 0, 0⟩) (fun _ _ => 0) [] _ (by decide +kernel)⟩

end Run

end Uproc
