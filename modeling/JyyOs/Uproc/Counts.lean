import JyyOs.Uproc.Refs
import JyyOs.Uproc.Mirror

/-!
cow_table against the mapped-page entries of the live processes: which calls keep the counts
exact, and that a page is then freed only when nothing maps it.
-/
namespace Uproc

open PartialRun LinkedList

/-- What the count of a page says about its `k` entries; an exclusive page may have none. -/
def Counted (cnt : Int) (k : Nat) : Prop := cnt = k ∨ (k = 1 ∧ cnt = 0)

structure CountInv (s : Kernel) (lists : Nat → List Nat) : Prop where
  owned : Owned s lists
  aligned : ∀ t ∈ s.live, ∀ p ∈ lists t, paOf s p % pgsize = 0
  counted : ∀ pa, pa % pgsize = 0 → Counted (cowOf s pa) (refs s lists pa)
  unused : ∀ pa, pa ≠ 0 → s.frameUsed pa = false → refs s lists pa = 0

section Frame

variable {s s' : Kernel} {lists : Nat → List Nat} {t : Nat}

theorem CountInv.counts_refs (inv : CountInv s lists) {q : Nat} (live : t ∈ s.live)
    (mem : q ∈ lists t) (counts : cowOf s (paOf s q) ≠ 0) :
    cowOf s (paOf s q) = refs s lists (paOf s q) := by
  rcases inv.counted _ (inv.aligned t live q mem) with same | ⟨_, zero⟩
  · exact same
  · exact absurd zero counts

theorem CountInv.alone (inv : CountInv s lists) {q : Nat} (live : t ∈ s.live)
    (mem : q ∈ lists t) (counts : cowOf s (paOf s q) = 0) : refs s lists (paOf s q) = 1 := by
  have pos := refs_pos live mem
  rcases inv.counted _ (inv.aligned t live q mem) with same | ⟨one, _⟩
  · omega
  · exact one

theorem CountInv.unmapped_page (inv : CountInv s lists) {pa : Nat} (aligned : pa % pgsize = 0)
    (none : refs s lists pa = 0) : cowOf s pa = 0 := by
  rcases inv.counted pa aligned with same | ⟨one, _⟩
  · omega
  · omega

theorem CountInv.congr (inv : CountInv s lists) (owned : Owned s' lists)
    (nodes : s'.nodes = s.nodes) (live : s'.live = s.live) (cow : s'.cowTable = s.cowTable)
    (frames : ∀ pa, s'.frameUsed pa = false → s.frameUsed pa = false) : CountInv s' lists := by
  have same : ∀ pa, refs s' lists pa = refs s lists pa := fun pa =>
    refs_congr live fun t _ => by rw [framesOf, pa_of_nodes nodes, framesOf]
  constructor
  · exact owned
  · rw [live, pa_of_nodes nodes]
    exact inv.aligned
  · intro pa aligned
    rw [cowOf, cow, same]
    exact inv.counted pa aligned
  · intro pa real free
    rw [same]
    exact inv.unused pa real (frames pa free)

theorem SameMemory.counts (same : SameMemory s s') (inv : CountInv s lists) :
    CountInv s' lists :=
  inv.congr (same.owned inv.owned) same.nodes same.live same.cowTable
    fun pa free => by rw [← same.frameUsed]; exact free

theorem CountInv.fresh (inv : CountInv s lists) (pa : Nat) (rest : List Nat)
    (bytes : Nat → Nat) : CountInv (s.fresh pa rest bytes) lists :=
  inv.congr (inv.owned.fresh pa rest bytes) nodes_fresh live_fresh cow_table_fresh
    fun _ free => (frame_taken free).1

theorem CountInv.taken (inv : CountInv s lists) (pa : Nat) (rest : List Nat) :
    CountInv (s.pageTaken pa rest) lists := by
  rw [← fresh_same_bytes]
  exact inv.fresh ..

theorem CountInv.withAreas (inv : CountInv s lists) (areas : List VmArea) :
    CountInv (s.withAreas t areas) lists :=
  inv.congr (inv.owned.withAreas t areas) rfl rfl rfl fun _ free => free

end Frame

section Lists

variable {s : Kernel} {lists : Nat → List Nat} {t : Nat}

theorem CountInv.mapped {va pa prot node : Nat} {cowCnt : Bool} {rest : List Nat}
    (inv : CountInv s lists) (live : t ∈ s.live) (page : UserPage va)
    (new : va ∉ (lists t).map (vaOf s)) (real : node ≠ 0) (fresh : s.nodeUsed node = false)
    (aligned : pa % pgsize = 0) (obtained : pa ≠ 0 → s.frameUsed pa = true)
    (ready : if cowCnt = true then cowOf s pa = refs s lists pa else refs s lists pa = 0) :
    CountInv (s.mapped t va pa prot node cowCnt rest)
      (Function.update lists t (node :: lists t)) := by
  constructor
  · exact inv.owned.mapped live page new real fresh
  · intro t' ht' p hp
    have old : ∀ t' ∈ s.live, ∀ p ∈ lists t',
        paOf (s.mapped t va pa prot node cowCnt rest) p = paOf s p := fun t' ht' p hp => by
      simp only [paOf, nodes_mapped_used ((inv.owned.holds t' ht').used p hp) fresh]
    by_cases here : t' = t
    · subst here
      rw [Function.update_self] at hp
      rcases List.mem_cons.mp hp with rfl | hp
      · rw [paOf, nodes_mapped_here]
        exact aligned
      · rw [old t' ht' p hp]
        exact inv.aligned t' ht' p hp
    · rw [Function.update_of_ne here] at hp
      rw [old t' ht' p hp]
      exact inv.aligned t' ht' p hp
  · intro x hx
    rw [cow_mapped hx aligned, refs_mapped inv.owned live fresh]
    by_cases same : x = pa
    · subst same
      cases cowCnt with
      | true =>
        simp only [if_true] at ready
        simp only [and_self, if_true]
        left
        omega
      | false =>
        simp only [Bool.false_eq_true, if_false] at ready
        have none := inv.unmapped_page hx ready
        right
        simp only [Bool.false_eq_true, false_and, if_true, if_false]
        omega
    · simp only [same, and_false, if_false, Nat.add_zero, Int.add_zero]
      exact inv.counted x hx
  · intro x hx free
    rw [refs_mapped inv.owned live fresh, inv.unused x hx free]
    by_cases same : x = pa
    · subst same
      have used : s.frameUsed x = true := obtained hx
      exact absurd (used.symm.trans free) (by decide)
    · rw [if_neg same]

theorem CountInv.left_out {s' : Kernel} {left right : List Nat} {q : Nat}
    (inv : CountInv s lists) (live : t ∈ s.live) (split : lists t = left ++ q :: right)
    (nodes : s'.nodes = (s.unmapped t (vaOf s q) (left.getLastD 0) q).nodes)
    (same_live : s'.live = s.live) (owned : Owned s' (Function.update lists t (left ++ right)))
    (counted : ∀ x, x % pgsize = 0 → Counted (cowOf s' x)
      (refs s lists x - if x = paOf s q then 1 else 0))
    (unused : ∀ x, x ≠ 0 → s'.frameUsed x = false →
      refs s lists x - (if x = paOf s q then 1 else 0) = 0) :
    CountInv s' (Function.update lists t (left ++ right)) := by
  have refs_eq : ∀ x, refs s' (Function.update lists t (left ++ right)) x =
      refs s lists x - if x = paOf s q then 1 else 0 := by
    intro x
    have gone : refs (s.unmapped t (vaOf s q) (left.getLastD 0) q)
      (Function.update lists t (left ++ right)) x + _ = _ := refs_unmapped inv.owned live split
    have same : refs s' (Function.update lists t (left ++ right)) x =
        refs (s.unmapped t (vaOf s q) (left.getLastD 0) q)
          (Function.update lists t (left ++ right)) x :=
      refs_congr same_live fun _ _ => by rw [framesOf, pa_of_nodes nodes, framesOf]
    omega
  constructor
  · exact owned
  · intro t' ht' p hp
    rw [same_live] at ht'
    rw [pa_of_nodes nodes, pa_unmapped]
    by_cases here : t' = t
    · subst here
      rw [Function.update_self] at hp
      exact inv.aligned t' ht' p (mem_of_mem_left split hp)
    · rw [Function.update_of_ne here] at hp
      exact inv.aligned t' ht' p hp
  · intro x hx
    rw [refs_eq]
    exact counted x hx
  · intro x hx free
    rw [refs_eq]
    exact unused x hx free

theorem CountInv.unmapped {left right : List Nat} {q : Nat} (inv : CountInv s lists)
    (live : t ∈ s.live) (split : lists t = left ++ q :: right)
    (alone : cowOf s (paOf s q) = 0) :
    CountInv (s.unmapped t (vaOf s q) (left.getLastD 0) q)
      (Function.update lists t (left ++ right)) := by
  have one := inv.alone live (q := q) (by simp [split]) alone
  refine inv.left_out live split rfl rfl (inv.owned.unmapped live split) (fun x hx => ?_)
    fun x hx free => ?_
  · have same : cowOf (s.unmapped t (vaOf s q) (left.getLastD 0) q) x = cowOf s x := rfl
    rw [same]
    by_cases here : x = paOf s q
    · subst here
      rw [if_pos rfl, one, alone]
      exact .inl rfl
    · rw [if_neg here]
      exact inv.counted x hx
  · have none := inv.unused x hx free
    omega

theorem CountInv.dropped {left right : List Nat} {q : Nat} (inv : CountInv s lists)
    (live : t ∈ s.live) (split : lists t = left ++ q :: right)
    (counts : cowOf s (paOf s q) ≠ 0) :
    CountInv ((s.dropped (paOf s q)).unmapped t (vaOf s q) (left.getLastD 0) q)
      (Function.update lists t (left ++ right)) := by
  have mem : q ∈ lists t := by simp [split]
  have exact_count := inv.counts_refs live mem counts
  have pos := refs_pos live mem
  have aligned := inv.aligned t live q mem
  have owned : Owned (s.dropped (paOf s q)) lists :=
    inv.owned.congr rfl rfl rfl rfl (fun _ => rfl) fun _ => rfl
  refine inv.left_out live split rfl rfl (owned.unmapped live split) (fun x hx => ?_)
    fun x hx free => ?_
  · have same : cowOf ((s.dropped (paOf s q)).unmapped t (vaOf s q) (left.getLastD 0) q) x =
        cowOf (s.dropped (paOf s q)) x := rfl
    rw [same, cow_dropped hx aligned]
    by_cases here : x = paOf s q
    · subst here
      rw [if_pos rfl, if_pos rfl]
      left
      omega
    · rw [if_neg here, if_neg here, Int.sub_zero]
      exact inv.counted x hx
  · by_cases here : x = paOf s q
    · subst here
      rw [if_pos rfl]
      by_cases last : s.cowTable (cowIndex (paOf s q)) - 1 = 0
      · have : cowOf s (paOf s q) - 1 = 0 := last
        omega
      · have kept : (s.dropped (paOf s q)).frameUsed = s.frameUsed := if_neg last
        have used : (s.dropped (paOf s q)).frameUsed (paOf s q) = false := free
        rw [kept] at used
        rw [inv.unused _ hx used]
    · have before : s.frameUsed x = false := by
        have after : (s.dropped (paOf s q)).frameUsed x = false := free
        simp only [Kernel.dropped] at after
        split at after
        · rwa [Function.update_of_ne here] at after
        · exact after
      rw [if_neg here, inv.unused x hx before]

end Lists

section Calls

variable {s s' : Kernel} {lists lists' : Nat → List Nat} {t c : Nat}

theorem CountInv.unmaps {lo hi : Nat} (walk : Unmaps t lo hi s lists s' lists')
    (inv : CountInv s lists) (live : t ∈ s.live)
    (alone : ∀ q ∈ lists t, lo ≤ vaOf s q → vaOf s q < hi → cowOf s (paOf s q) = 0) :
    CountInv s' lists' := by
  induction walk with
  | done => exact inv
  | @page s _ lists _ left right q split inside _ ih =>
    refine ih (inv.unmapped live split (alone q (by simp [split]) inside.1 inside.2)) live
      fun p hp lower upper => ?_
    rw [Function.update_self] at hp
    rw [va_unmapped] at lower upper
    rw [pa_unmapped]
    exact alone p (mem_of_mem_left split hp) lower upper

def NullUnmapped (s : Kernel) : Prop := ∀ t ∈ s.live, ∀ q, OnList s t q → paOf s q ≠ 0

theorem CountInv.unmapped_fresh (inv : CountInv s lists) {pa : Nat}
    (page_fresh : pa ≠ 0 → s.frameUsed pa = false ∧ pa % pgsize = 0)
    (null : pa = 0 → refs s lists 0 = 0) :
    pa % pgsize = 0 ∧ refs s lists pa = 0 := by
  by_cases zero : pa = 0
  · subst zero
    exact ⟨rfl, null rfl⟩
  · exact ⟨(page_fresh zero).2, inv.unused pa zero (page_fresh zero).1⟩

/-- The move of a counted page to `pa`: the old page loses a count, and is freed with the last. -/
theorem CountInv.moved {left right rest : List Nat} {pa prot p q : Nat} (inv : CountInv s lists)
    (live : t ∈ s.live) (split : lists t = left ++ q :: right)
    (counts : cowOf s (paOf s q) ≠ 0) (real : p ≠ 0) (fresh : s.nodeUsed p = false)
    (aligned : pa % pgsize = 0) (obtained : pa ≠ 0 → s.frameUsed pa = true)
    (none : refs s lists pa = 0) {m : Kernel}
    (moved : m = ((s.dropped (paOf s q)).unmapped t (vaOf s q) (left.getLastD 0) q).mapped t
      (vaOf s q) pa prot p false rest) :
    CountInv m (Function.update lists t (p :: (left ++ right))) ∧
      ∀ x ∈ m.freed, x ∈ s.freed ∨ refs m (Function.update lists t (p :: (left ++ right))) x = 0 := by
  have mem : q ∈ lists t := by simp [split]
  have pos := refs_pos live mem
  have apart : pa ≠ paOf s q := by
    rintro same
    rw [← same] at pos
    omega
  have owned : Owned (s.dropped (paOf s q)) lists :=
    inv.owned.congr rfl rfl rfl rfl (fun _ => rfl) fun _ => rfl
  have page := (inv.owned.holds t live).page q mem
  have same_refs : ∀ x, refs (s.dropped (paOf s q)) lists x = refs s lists x := fun _ => rfl
  have entries : ∀ x, refs m (Function.update lists t (p :: (left ++ right))) x + _ = _ :=
    fun x => moved ▸ refs_replaced owned live split (.inr fresh)
  have lowered := inv.dropped live split counts
  have gone : refs ((s.dropped (paOf s q)).unmapped t (vaOf s q) (left.getLastD 0) q)
      (Function.update lists t (left ++ right)) pa + _ = _ := refs_unmapped owned live split
  have new : vaOf s q ∉ (Function.update lists t (left ++ right) t).map
      (vaOf ((s.dropped (paOf s q)).unmapped t (vaOf s q) (left.getLastD 0) q)) := by
    rw [Function.update_self, vas_unmapped]
    exact (inv.owned.holds t live).gone split
  have used : pa ≠ 0 → (s.dropped (paOf s q)).frameUsed pa = true := by
    intro nonzero
    simp only [Kernel.dropped]
    split
    · rw [Function.update_of_ne apart]
      exact obtained nonzero
    · exact obtained nonzero
  have again : CountInv (((s.dropped (paOf s q)).unmapped t (vaOf s q) (left.getLastD 0) q).mapped
      t (vaOf s q) pa prot p false rest) _ :=
    lowered.mapped live page new real (unused_unmapped (.inr fresh)) aligned used (by
      rw [same_refs] at gone
      simp only [Bool.false_eq_true, if_false]
      omega)
  rw [Function.update_self, Function.update_idem, ← moved] at again
  refine ⟨again, fun x hx => ?_⟩
  have freed : m.freed = (s.dropped (paOf s q)).freed := by
    rw [moved]
    rfl
  rw [freed] at hx
  simp only [Kernel.dropped] at hx
  split at hx
  · rename_i last
    rcases List.mem_cons.mp hx with rfl | hx
    · right
      have exact_count := inv.counts_refs live mem counts
      have one : cowOf s (paOf s q) - 1 = 0 := last
      have left_over := entries (paOf s q)
      rw [same_refs, if_neg (Ne.symm apart)] at left_over
      have here : paOf (s.dropped (paOf s q)) q = paOf s q := rfl
      rw [here, if_pos rfl] at left_over
      omega
    · exact .inl hx
  · exact .inl hx

/-- page_fault keeps the counts where a page that was mapped before carries one, pgmap does not
    get the node pgunmap has just freed, and a failed pmm->alloc does not map page 0 again. -/
theorem CountInv.fault {va pa : Nat} {rest : List Nat}
    (effect : FaultEffect t va pa rest s lists s' lists') (inv : CountInv s lists)
    (live : t ∈ s.live) (page_fresh : pa ≠ 0 → s.frameUsed pa = false ∧ pa % pgsize = 0)
    (null : InArea va → pa = 0 → refs s lists 0 = 0)
    (counts : ∀ q ∈ lists t, InArea va → vaOf s q = va →
      cowOf s (paOf s q) ≠ 0 ∧ ∀ p, rest.head? = some p → s.nodeUsed p = false) :
    CountInv s' lists' ∧ ∀ x ∈ s'.freed, x ∈ s.freed ∨ refs s' lists' x = 0 := by
  have live' : ∀ bytes, t ∈ (s.fresh pa rest bytes).live := fun _ => by
    rw [live_fresh]
    exact live
  cases effect with
  | outside _ same =>
    refine ⟨same.counts (inv.taken pa rest), fun x hx => .inl ?_⟩
    rwa [same.freed, freed_taken] at hx
  | @newArea _ bytes node areas p rest' page new _ _ _ _ real fresh same =>
    obtain ⟨aligned, none⟩ := inv.unmapped_fresh page_fresh (null page.1)
    have grown := (inv.fresh pa rest bytes).withAreas (t := t) areas
    have none' : refs ((s.fresh pa rest bytes).withAreas t areas) lists pa = 0 := by
      have kept : refs ((s.fresh pa rest bytes).withAreas t areas) lists pa =
        refs (s.fresh pa rest bytes) lists pa := rfl
      rw [kept, refs_fresh, none]
    have new' : va ∉ (lists t).map (vaOf ((s.fresh pa rest bytes).withAreas t areas)) := by
      have kept : vaOf ((s.fresh pa rest bytes).withAreas t areas) =
        vaOf (s.fresh pa rest bytes) := rfl
      rw [kept, va_fresh]
      exact new
    have fresh' : ((s.fresh pa rest bytes).withAreas t areas).nodeUsed p = false := by
      have kept : ((s.fresh pa rest bytes).withAreas t areas).nodeUsed =
        (s.fresh pa rest bytes).nodeUsed := rfl
      rw [kept, node_used_fresh]
      exact fresh
    refine ⟨same.counts (grown.mapped (live' bytes) page new' real fresh' aligned
      (used_fresh bytes) (by simpa using none')), fun x hx => .inl ?_⟩
    rw [same.freed] at hx
    exact (freed_fresh : (s.fresh pa rest bytes).freed = s.freed) ▸ hx
  | @newPage _ bytes vma p rest' page new _ _ real fresh same =>
    obtain ⟨aligned, none⟩ := inv.unmapped_fresh page_fresh (null page.1)
    have none' : refs (s.fresh pa rest bytes) lists pa = 0 := refs_fresh.trans none
    refine ⟨same.counts ((inv.fresh pa rest bytes).mapped (live' bytes) page
      (by rw [va_fresh]; exact new) real (by rw [node_used_fresh]; exact fresh) aligned
      (used_fresh bytes) (by simpa using none')), fun x hx => .inl ?_⟩
    rw [same.freed] at hx
    exact (freed_fresh : (s.fresh pa rest bytes).freed = s.freed) ▸ hx
  | @copied m _ bytes vma left right q p rest' split here _ chosen real _ filled moved same =>
    subst here
    subst moved
    have mem : q ∈ lists t := by simp [split]
    have page := (inv.owned.holds t live).page q mem
    obtain ⟨counted, unused⟩ := counts q mem page.1 rfl
    have fresh : s.nodeUsed p = false := unused p (by rw [chosen]; rfl)
    have other : q ≠ p := by
      rintro rfl
      rw [(inv.owned.holds t live).used q mem] at fresh
      cases fresh
    -- the page that loses its count is still the one that node q named
    have read : paOf (((s.fresh pa rest bytes).unmapped t (vaOf s q) (left.getLastD 0) q).mapped t
        (vaOf s q) pa vma.vmProt p false rest') q = paOf s q := by
      rw [paOf, nodes_mapped_other other, ← paOf, pa_unmapped, pa_fresh]
    rw [read] at same
    obtain ⟨free, aligned⟩ := page_fresh filled
    have none := inv.unused pa filled free
    have after := (inv.fresh pa rest bytes).moved (m := (((s.fresh pa rest bytes).dropped
        (paOf s q)).unmapped t (vaOf s q) (left.getLastD 0) q).mapped t (vaOf s q) pa vma.vmProt p
        false rest') (live' bytes) split
      (by rw [pa_fresh, cowOf, cow_table_fresh]; exact counted) real
      (by rw [node_used_fresh]; exact fresh) aligned (used_fresh bytes) (by rw [refs_fresh, none])
      (by rw [pa_fresh, va_fresh])
    rw [freed_fresh] at after
    refine ⟨same.counts after.1, fun x hx => ?_⟩
    rw [same.freed] at hx
    rw [same.refs]
    exact after.2 x hx

def Replaceable (s : Kernel) (t q : Nat) : Prop :=
  ∃ vma, findVmeNode (s.tasks t).vmAreas (vaOf s q) (u64 (vaOf s q + pgsize)) = some vma ∧
    PrivateWritable vma

theorem CountInv.renewed {left rest choices : List Nat} {x pa p : Nat} {vma : VmArea}
    (inv : CountInv s lists) (live : t ∈ s.live) (split : lists t = left ++ x :: rest)
    (alone : cowOf s (paOf s x) = 0)
    (page_fresh : pa ≠ 0 → s.frameUsed pa = false ∧ pa % pgsize = 0)
    (null : pa = 0 → cowOf s 0 = refs s lists 0) (real : p ≠ 0)
    (fresh : p = x ∨ s.nodeUsed p = false) :
    CountInv (s.renewed t left x pa p vma choices)
      (Function.update lists t (p :: (left ++ rest))) := by
  have mem : x ∈ lists t := by simp [split]
  have page := (inv.owned.holds t live).page x mem
  have va : vaOf (s.pageTaken pa (p :: choices)) x = vaOf s x := by simp [vaOf]
  have live' : t ∈ (s.pageTaken pa (p :: choices)).live := by
    rw [live_taken]
    exact live
  have same_pa : paOf (s.pageTaken pa (p :: choices)) = paOf s := pa_of_nodes (nodes_taken ..)
  have same_cow : ∀ y, cowOf (s.pageTaken pa (p :: choices)) y = cowOf s y := fun y => by
    rw [cowOf, cow_taken, cowOf]
  have taken := inv.taken pa (p :: choices)
  have out := taken.unmapped live' split (by rw [same_pa, same_cow]; exact alone)
  have gone : refs ((s.pageTaken pa (p :: choices)).unmapped t
      (vaOf (s.pageTaken pa (p :: choices)) x) (left.getLastD 0) x) _ pa + _ = _ :=
    refs_unmapped taken.owned live' split
  rw [refs_taken, same_pa] at gone
  have one := inv.alone live mem alone
  have ready : cowOf s pa = refs ((s.pageTaken pa (p :: choices)).unmapped t
      (vaOf (s.pageTaken pa (p :: choices)) x) (left.getLastD 0) x)
      (Function.update lists t (left ++ rest)) pa := by
    by_cases same : pa = paOf s x
    · by_cases zero : pa = 0
      · have := null zero
        rw [← zero, same, alone, one] at this
        cases this
      · have := inv.unused pa zero (page_fresh zero).1
        rw [same, one] at this
        cases this
    · rw [if_neg same, Nat.add_zero] at gone
      rw [gone]
      by_cases zero : pa = 0
      · rw [zero]
        exact null zero
      · have none := inv.unused pa zero (page_fresh zero).1
        rw [none, inv.unmapped_page (page_fresh zero).2 none]
        rfl
  have unused : p = x ∨ (s.pageTaken pa (p :: choices)).nodeUsed p = false := by
    rw [node_used_taken]
    exact fresh
  have new : vaOf s x ∉ (Function.update lists t (left ++ rest) t).map
      (vaOf ((s.pageTaken pa (p :: choices)).unmapped t
        (vaOf (s.pageTaken pa (p :: choices)) x) (left.getLastD 0) x)) := by
    rw [Function.update_self, vas_unmapped, ← va]
    exact (taken.owned.holds t live').gone split
  have aligned : pa % pgsize = 0 := by
    by_cases zero : pa = 0
    · rw [zero]
      rfl
    · exact (page_fresh zero).2
  have used : pa ≠ 0 → (s.pageTaken pa (p :: choices)).frameUsed pa = true := by
    intro nonzero
    rw [← fresh_same_bytes]
    exact used_fresh _ nonzero
  have again : CountInv (((s.pageTaken pa (p :: choices)).unmapped t
      (vaOf (s.pageTaken pa (p :: choices)) x) (left.getLastD 0) x).mapped t (vaOf s x) pa
        (vma.vmProt &&& (255 - protWrite)) p true choices) _ :=
    out.mapped live' page new real (unused_unmapped unused) aligned used
      ((if_pos rfl).mpr ((same_cow pa).trans ready))
  rwa [va, Function.update_self, Function.update_idem] at again

theorem Counted.nonneg {cnt : Int} {k : Nat} (counted : Counted cnt k) : 0 ≤ cnt := by
  rcases counted with same | ⟨_, zero⟩ <;> omega

theorem cow_renewed {left choices : List Nat} {x pa p y : Nat} {vma : VmArea}
    (aligned : y % pgsize = 0) (page : pa % pgsize = 0) :
    cowOf (s.renewed t left x pa p vma choices) y = cowOf s y + if y = pa then 1 else 0 := by
  rw [Kernel.renewed, cow_mapped aligned page]
  have same : cowOf ((s.pageTaken pa (p :: choices)).unmapped t (vaOf s x) (left.getLastD 0) x) y =
      cowOf (s.pageTaken pa (p :: choices)) y := rfl
  rw [same, cowOf, cow_taken, ← cowOf]
  simp

/-- A page that is moved is not NULL, so the count of NULL stays right. -/
theorem null_renewed {left rest choices : List Nat} {x pa p : Nat} {vma : VmArea}
    (owned : Owned s lists) (live : t ∈ s.live) (split : lists t = left ++ x :: rest)
    (alone : cowOf s (paOf s x) = 0) (aligned : pa % pgsize = 0)
    (fresh : p = x ∨ s.nodeUsed p = false) (before : cowOf s 0 = refs s lists 0) :
    cowOf (s.renewed t left x pa p vma choices) 0 =
      refs (s.renewed t left x pa p vma choices)
        (Function.update lists t (p :: (left ++ rest))) 0 := by
  have mem : x ∈ lists t := by simp [split]
  have entries : refs (s.renewed t left x pa p vma choices) _ 0 + _ = _ :=
    refs_renewed owned live split fresh
  have nonzero : 0 ≠ paOf s x := by
    intro same
    have pos := refs_pos live mem
    rw [← same] at pos alone
    omega
  rw [if_neg nonzero] at entries
  rw [cow_renewed rfl aligned, before]
  split at entries <;> split <;> omega

theorem CountInv.cow_walk {ahead : List Nat} (walk : CowWalk t s lists ahead s' lists')
    (inv : CountInv s lists) (live : t ∈ s.live)
    (ready : ∀ q ∈ lists t, cowOf s (paOf s q) ≠ 0 ∨ Replaceable s t q)
    (behind : ∀ q ∈ lists t, q ∉ ahead → cowOf s (paOf s q) ≠ 0)
    (null : 0 ∈ s.choices → cowOf s 0 = refs s lists 0) :
    CountInv s' lists' ∧ ∀ q ∈ lists' t, cowOf s' (paOf s' q) ≠ 0 := by
  induction walk with
  | done => exact ⟨inv, fun q hq => behind q hq List.not_mem_nil⟩
  | @shared s _ lists _ left rest x split counted _ ih =>
    refine ih inv live ready (fun q hq out => ?_) null
    by_cases here : q = x
    · subst here
      exact counted
    · exact behind q hq (by simp [here, out])
  | @kept s _ lists _ left rest choices x pa vma split alone chosen _ found closed _ ih =>
    rcases ready x (by simp [split]) with counted | ⟨vma', found', writable⟩
    · exact absurd alone counted
    · rw [found] at found'
      cases found'
      exact absurd writable closed
  | @renewed s _ lists _ left rest choices x pa p vma split alone chosen page_fresh found writable
      real fresh _ ih =>
    have mem : x ∈ lists t := by simp [split]
    have holds := inv.owned.holds t live
    have null_here : pa = 0 → cowOf s 0 = refs s lists 0 := fun zero =>
      null (by rw [chosen, zero]; exact List.mem_cons_self)
    have aligned : pa % pgsize = 0 := by
      by_cases zero : pa = 0
      · rw [zero]
        rfl
      · exact (page_fresh zero).2
    have inv' : CountInv (s.renewed t left x pa p vma choices) _ :=
      inv.renewed live split alone page_fresh null_here real fresh
    have apart : ∀ q ∈ left ++ rest, q ∈ lists t ∧ q ≠ p := fun q hq =>
      ⟨mem_of_mem_left split hq, node_apart (split ▸ holds) fresh q hq⟩
    have grown : ∀ y, y % pgsize = 0 → cowOf s y ≠ 0 →
        cowOf (s.renewed t left x pa p vma choices) y ≠ 0 := by
      intro y hy counted
      have nonneg := (inv.counted y hy).nonneg
      rw [cow_renewed hy aligned]
      split <;> omega
    have kept : ∀ q ∈ left ++ rest, cowOf s (paOf s q) ≠ 0 →
        cowOf (s.renewed t left x pa p vma choices)
          (paOf (s.renewed t left x pa p vma choices) q) ≠ 0 := by
      intro q hq counted
      rw [(node_renewed (apart q hq).2).1]
      exact grown _ (inv.aligned t live q (apart q hq).1) counted
    have head : cowOf (s.renewed t left x pa p vma choices)
        (paOf (s.renewed t left x pa p vma choices) p) ≠ 0 := by
      have nonneg := (inv.counted pa aligned).nonneg
      rw [node_renewed_here.1, cow_renewed aligned aligned, if_pos rfl]
      omega
    refine ih inv' ?_ ?_ ?_ ?_
    · simpa [Kernel.renewed, Kernel.mapped, Kernel.unmapped] using live
    · intro q hq
      rw [Function.update_self] at hq
      rcases List.mem_cons.mp hq with rfl | hq
      · exact .inl head
      · rcases ready q (apart q hq).1 with counted | ⟨vma', found', writable'⟩
        · exact .inl (kept q hq counted)
        · refine .inr ⟨vma', ?_, writable'⟩
          rw [areas_renewed, (node_renewed (apart q hq).2).2]
          exact found'
    · intro q hq out
      rw [Function.update_self] at hq
      rcases List.mem_cons.mp hq with rfl | hq
      · exact head
      · refine kept q hq (behind q (apart q hq).1 ?_)
        rw [List.mem_cons, not_or]
        refine ⟨?_, fun later => ?_⟩
        · rintro rfl
          exact holds.gone split (List.mem_map.mpr ⟨q, hq, rfl⟩)
        · refine out ?_
          split
          · exact hq
          · exact later
    · intro zero
      have left_over : (0 : Nat) ∈ choices := by
        simpa [Kernel.renewed, Kernel.mapped] using zero
      have before := null (by rw [chosen]; simp [left_over])
      exact null_renewed inv.owned live split alone aligned fresh before

theorem CountInv.copy_walk {ahead : List Nat} (walk : CopyWalk t c s lists ahead s' lists')
    (inv : CountInv s lists) (live : t ∈ s.live) (child : c ∈ s.live) (other : t ≠ c)
    (counts : ∀ q ∈ lists t, cowOf s (paOf s q) ≠ 0) : CountInv s' lists' := by
  induction walk with
  | done => exact inv
  | @page s _ lists _ rest choices x p vma mem new found chosen real fresh _ ih =>
    have page := (inv.owned.holds t live).page x mem
    have aligned := inv.aligned t live x mem
    have exact_count := inv.counts_refs live mem (counts x mem)
    have obtained : paOf s x ≠ 0 → s.frameUsed (paOf s x) = true := by
      intro nonzero
      by_contra free
      have none := inv.unused _ nonzero (by simpa using free)
      have pos := refs_pos live mem
      omega
    have next : CountInv (s.mapped c (vaOf s x) (paOf s x) vma.vmProt p true choices) _ :=
      inv.mapped child page new real fresh aligned obtained ((if_pos rfl).mpr exact_count)
    refine ih next live child fun q hq => ?_
    rw [Function.update_of_ne other] at hq
    have old : paOf (s.mapped c (vaOf s x) (paOf s x) vma.vmProt p true choices) q = paOf s q := by
      simp only [paOf, nodes_mapped_used ((inv.owned.holds t live).used q hq) fresh]
    have nonneg := (inv.counted _ (inv.aligned t live q hq)).nonneg
    have counted := counts q hq
    rw [old, cow_mapped (inv.aligned t live q hq) aligned]
    split <;> omega

theorem CountInv.created {choices : List Nat} (inv : CountInv s lists)
    (unused : s.taskUsed c = false) :
    CountInv ({ s with
      choices := choices, taskUsed := Function.update s.taskUsed c true }.created c)
      (Function.update lists c []) := by
  have dead : c ∉ s.live := fun live => by
    rw [inv.owned.taskUsed c live] at unused
    cases unused
  have same : ∀ x, refs ({ s with
      choices := choices, taskUsed := Function.update s.taskUsed c true }.created c)
      (Function.update lists c []) x = refs s lists x := fun x => refs_created dead rfl rfl
  constructor
  · exact inv.owned.created unused
  · intro t live p hp
    rcases List.mem_cons.mp live with rfl | live
    · rw [Function.update_self] at hp
      cases hp
    · have other : t ≠ c := fun same => dead (same ▸ live)
      rw [Function.update_of_ne other] at hp
      exact inv.aligned t live p hp
  · intro pa aligned
    rw [same]
    exact inv.counted pa aligned
  · intro pa real free
    rw [same]
    exact inv.unused pa real free

theorem CountInv.fork {s₁ s₂ s₃ s₄ : Kernel} {lists₂ lists₄ : Nat → List Nat}
    {choices : List Nat} {areas : List VmArea}
    (effect : ForkEffect t c s lists s₁ s₂ s₃ s₄ s' lists₂ lists₄ choices areas)
    (inv : CountInv s lists) (live : t ∈ s.live)
    (ready : ∀ q ∈ lists t, cowOf s (paOf s q) ≠ 0 ∨ Replaceable s t q)
    (null : 0 ∈ s.choices → cowOf s 0 = refs s lists 0) :
    CountInv s' lists₄ ∧ s'.freed = s.freed := by
  have made := effect.created.counts (inv.created effect.unused)
  have live₁ : s₁.live = c :: s.live := effect.created.live
  have dead : c ∉ s.live := fun h => by
    have := effect.unused
    rw [inv.owned.taskUsed c h] at this
    cases this
  have other : t ≠ c := fun same => dead (same ▸ live)
  have parent : t ∈ s₁.live := by
    rw [live₁]
    exact List.mem_cons_of_mem _ live
  have child : c ∈ s₁.live := by
    rw [live₁]
    exact List.mem_cons_self
  have own : Function.update lists c [] t = lists t := Function.update_of_ne other ..
  have pas : paOf s₁ = paOf s := effect.created.paOf
  have vas : vaOf s₁ = vaOf s := effect.created.vaOf
  have cows : ∀ y, cowOf s₁ y = cowOf s y := fun y => by
    rw [cowOf, effect.created.cowTable]
    rfl
  have areas₁ : (s₁.tasks t).vmAreas = (s.tasks t).vmAreas := by
    rw [effect.created.areas]
    simp [Kernel.created, Kernel.setLock, Function.update_of_ne other]
  obtain ⟨walked, counts⟩ := made.cow_walk effect.cow parent
    (by
      rw [own, pas]
      intro q hq
      rw [cows]
      refine (ready q hq).imp_right fun covered => ?_
      obtain ⟨vma, found, writable⟩ := covered
      refine ⟨vma, ?_, writable⟩
      rw [areas₁, vas]
      exact found)
    (fun q hq out => by
      rw [own] at hq
      exact absurd hq out)
    (fun zero => by
      have entries : refs s₁ (Function.update lists c []) 0 = refs s lists 0 := by
        rw [effect.created.refs]
        exact refs_created dead rfl rfl
      rw [cows, entries]
      refine null ?_
      rw [effect.chosen]
      rw [effect.created.choices] at zero
      exact List.mem_cons_of_mem _ zero)
  have copied := effect.areas_copied.counts (walked.withAreas (t := c) areas)
  have live₂ : s₂.live = s₁.live := live_cow_walk effect.cow
  have live₃ : s₃.live = s₁.live := effect.areas_copied.live.trans live₂
  have all := copied.copy_walk effect.copied (live₃ ▸ parent) (live₃ ▸ child) other
    (fun q hq => by
      rw [effect.areas_copied.paOf, cowOf, effect.areas_copied.cowTable]
      exact counts q hq)
  refine ⟨effect.finished.counts all, ?_⟩
  rw [effect.finished.freed, freed_copy_walk effect.copied, effect.areas_copied.freed]
  exact (freed_cow_walk effect.cow).trans effect.created.freed

end Calls

section Destroy

variable {s s' : Kernel} {lists : Nat → List Nat} {t : Nat}

/-- destroy_mapped_pages under way: `frames` are the entries still to go, `others` those of the
    other processes. -/
structure Owing (others : Nat → Nat) (s : Kernel) (frames : List Nat) : Prop where
  aligned : ∀ x ∈ frames, x % pgsize = 0
  owed : ∀ x ∈ frames, cowOf s x = (others x + frames.count x : Nat)
  counted : ∀ x, x % pgsize = 0 → x ∉ frames → Counted (cowOf s x) (others x)
  unused : ∀ x, x ≠ 0 → s.frameUsed x = false → others x + frames.count x = 0
  freed : ∀ x ∈ s.freed, others x + frames.count x = 0

theorem Owing.dropped {others : Nat → Nat} {frames : List Nat} {o : Nat}
    (owing : Owing others s (o :: frames)) : Owing others (s.dropped o) frames := by
  have page := owing.aligned o List.mem_cons_self
  have lowered : ∀ x, x % pgsize = 0 → cowOf (s.dropped o) x = cowOf s x - if x = o then 1 else 0 :=
    fun x hx => cow_dropped hx page
  have owed := owing.owed o List.mem_cons_self
  have fewer : ∀ x, frames.count x ≤ (o :: frames).count x := fun x => List.count_le_count_cons
  rw [List.count_cons_self] at owed
  constructor
  · exact fun x hx => owing.aligned x (List.mem_cons_of_mem _ hx)
  · intro x hx
    have before := owing.owed x (List.mem_cons_of_mem _ hx)
    rw [lowered x (owing.aligned x (List.mem_cons_of_mem _ hx)), before]
    by_cases same : x = o
    · subst same
      rw [List.count_cons_self, if_pos rfl]
      omega
    · rw [List.count_cons_of_ne (Ne.symm same), if_neg same, Int.sub_zero]
  · intro x hx out
    rw [lowered x hx]
    by_cases same : x = o
    · subst same
      rw [List.count_eq_zero.mpr out] at owed
      rw [if_pos rfl]
      left
      omega
    · rw [if_neg same, Int.sub_zero]
      exact owing.counted x hx (by simp [same, out])
  · intro x hx free
    by_cases before : s.frameUsed x = false
    · have := owing.unused x hx before
      have := fewer x
      omega
    · simp only [Kernel.dropped] at free
      split at free
      · rename_i last
        by_cases same : x = o
        · subst same
          have one : cowOf s x - 1 = 0 := last
          omega
        · rw [Function.update_of_ne same] at free
          exact absurd free before
      · exact absurd free before
  · intro x hx
    have kept : x ∈ s.freed → others x + frames.count x = 0 := fun hx => by
      have := owing.freed x hx
      have := fewer x
      omega
    simp only [Kernel.dropped] at hx
    split at hx
    · rename_i last
      rcases List.mem_cons.mp hx with rfl | hx
      · have one : cowOf s x - 1 = 0 := last
        omega
      · exact kept hx
    · exact kept hx

theorem destroy_walk_owing {others : Nat → Nat} {list : List Nat} (walk : DestroyWalk s list s')
    (owing : Owing others s (list.map (paOf s))) : Owing others s' [] := by
  induction walk with
  | done => exact owing
  | page _ ih =>
    obtain ⟨aligned, owed, counted, unused, freed⟩ := owing.dropped
    exact ih ⟨aligned, owed, counted, unused, freed⟩

theorem CountInv.destroyed (inv : CountInv s lists) (live : t ∈ s.live) (freed : s.freed = [])
    (walk : DestroyWalk s (lists t) s') (counts : ∀ q ∈ lists t, cowOf s (paOf s q) ≠ 0) :
    CountInv { s' with live := s'.live.erase t } lists ∧
      ∀ x ∈ s'.freed, refs { s' with live := s'.live.erase t } lists x = 0 := by
  obtain ⟨nodes, _, same_live, _⟩ := destroy_walk_frame walk
  have left : ∀ x, refs { s' with live := s'.live.erase t } lists x +
      (framesOf s lists t).count x = refs s lists x :=
    fun x => refs_left live (by rw [same_live]) nodes
  have owing : Owing (refs { s' with live := s'.live.erase t } lists) s
      ((lists t).map (paOf s)) := by
    constructor
    · intro x hx
      obtain ⟨q, hq, rfl⟩ := List.mem_map.mp hx
      exact inv.aligned t live q hq
    · intro x hx
      obtain ⟨q, hq, rfl⟩ := List.mem_map.mp hx
      rw [inv.counts_refs live hq (counts q hq), ← left, framesOf]
    · intro x hx out
      have same := left x
      rw [framesOf, List.count_eq_zero.mpr out, Nat.add_zero] at same
      rw [same]
      exact inv.counted x hx
    · intro x hx free
      have same := left x
      rw [inv.unused x hx free] at same
      exact same
    · rw [freed]
      exact fun x hx => absurd hx List.not_mem_nil
  have done := destroy_walk_owing walk owing
  refine ⟨⟨inv.owned.destroyed live walk, fun t' ht' p hp => ?_, fun x hx => ?_,
    fun x hx free => ?_⟩, fun x hx => ?_⟩
  · have mem : t' ∈ s.live := by
      rw [← same_live]
      exact List.mem_of_mem_erase ht'
    have same : paOf { s' with live := s'.live.erase t } = paOf s := pa_of_nodes nodes
    rw [same]
    exact inv.aligned t' mem p hp
  · exact done.counted x hx List.not_mem_nil
  · simpa using done.unused x hx free
  · simpa using done.freed x hx

end Destroy

section Run

/-- A fault finds a page that carries a count, and no node freed in the call is handed out in it;
    a failed pmm->alloc does not map page 0 a second time. -/
def FaultKeepsCounts (s : Kernel) (e : Event) (t ref : Nat) : Prop :=
  InArea (roundDown ref) → (e.choices.head? = some 0 → NullUnmapped s) ∧
    ∀ q, OnList s t q → vaOf s q = roundDown ref →
      cowOf s (paOf s q) ≠ 0 ∧ ∀ p, e.choices[1]? = some p → s.nodeUsed p = false

def KeepsCounts (s : Kernel) (e : Event) : Prop :=
  match e.call with
  | .create => True
  | .pageFault t ref => FaultKeepsCounts s e t ref
  | .userStore t ref _ =>
    (∀ pa, (s.tasks t).translate ref ≠ some ⟨pa, true⟩) → FaultKeepsCounts s e t ref
  | .kmmap t addr length _ flags =>
    let lo := roundDown addr
    let hi := roundUp (addLength addr length)
    flags = mapUnmap → findVmeNode (s.tasks t).vmAreas lo hi ≠ none →
      ∀ q, OnList s t q → lo ≤ vaOf s q → vaOf s q < hi → cowOf s (paOf s q) = 0
  | .kfork t =>
    (∀ q, OnList s t q → cowOf s (paOf s q) ≠ 0 ∨ Replaceable s t q) ∧
      (0 ∈ e.choices → ∀ t' ∈ s.live, ∀ q, OnList s t' q → paOf s q = 0 → cowOf s 0 ≠ 0)
  | .destroyMappedPages t => ∀ q, OnList s t q → cowOf s (paOf s q) ≠ 0

/-- Each count is the number of entries of its page, and what the last call freed has none. -/
def CountsExact (s : Kernel) : Prop :=
  ∃ lists, (∀ t ∈ s.live, Linked (nextOf s) 0 (headOf s t) (lists t)) ∧
    (∀ pa, pa % pgsize = 0 → Counted (cowOf s pa) (refs s lists pa)) ∧
    ∀ pa ∈ s.freed, refs s lists pa = 0

theorem CountInv.begun {s : Kernel} {lists : Nat → List Nat} (inv : CountInv s lists) (e : Event)
    (t : Nat) : CountInv (s.begun e t) lists :=
  inv.congr (inv.owned.begun e t) rfl rfl rfl fun _ free => free

theorem Owned.null_refs {s : Kernel} {lists : Nat → List Nat} (owned : Owned s lists)
    (unmapped : NullUnmapped s) : refs s lists 0 = 0 :=
  Sharers.sharers_zero.mpr fun t live mem => by
    obtain ⟨q, hq, null⟩ := List.mem_map.mp mem
    exact unmapped t live q ((owned.on_list live).mpr hq) null

theorem count_step_fault {s s' : Kernel} {e : Event} {lists lists' : Nat → List Nat}
    {t ref pa : Nat} {rest : List Nat} (inv : CountInv s lists) (live : t ∈ s.live)
    (chosen : e.choices = pa :: rest)
    (page_fresh : pa ≠ 0 → s.frameUsed pa = false ∧ pa % pgsize = 0)
    (effect : FaultEffect t (roundDown ref) pa rest (s.begun e t) lists s' lists')
    (keeps : FaultKeepsCounts s e t ref) :
    CountInv s' lists' ∧ ∀ x ∈ s'.freed, refs s' lists' x = 0 := by
  obtain ⟨inv', freed⟩ := (inv.begun e t).fault effect live page_fresh
    (fun area zero => inv.owned.null_refs ((keeps area).1 (by rw [chosen, zero]; rfl)))
    (fun q hq area here => by
      obtain ⟨counts, unused⟩ := (keeps area).2 q ((inv.owned.on_list live).mpr hq) here
      refine ⟨counts, fun p hp => unused p ?_⟩
      rw [chosen, ← hp]
      cases rest <;> rfl)
  exact ⟨inv', fun x hx => (freed x hx).resolve_left List.not_mem_nil⟩

theorem count_step {s s' : Kernel} {e : Event} {lists : Nat → List Nat} (inv : CountInv s lists)
    (keeps : KeepsCounts s e) (taken : step s e = some s') :
    ∃ lists', CountInv s' lists' ∧ ∀ x ∈ s'.freed, refs s' lists' x = 0 := by
  have nothing : ∀ {m : Kernel} {lists' : Nat → List Nat}, m.freed = [] →
      ∀ x ∈ m.freed, refs m lists' x = 0 := by
    intro m lists' none x hx
    rw [none] at hx
    cases hx
  have same_as_before : ∀ {m : Kernel}, m.nodes = s.nodes → m.nodeUsed = s.nodeUsed →
      m.live = s.live → m.taskUsed = s.taskUsed → m.tasks = s.tasks → m.cowTable = s.cowTable →
      m.frameUsed = s.frameUsed → CountInv m lists := by
    intro m nodes used live taskUsed tasks cow frames
    exact inv.congr (inv.owned.congr nodes used live taskUsed
      (fun t => by simp only [headOf, tasks]) fun t => by rw [tasks]) nodes live cow
      fun pa free => by rw [← frames]; exact free
  obtain ⟨lists', effect⟩ := step_effect inv.owned taken
  cases effect with
  | create called unused same =>
    exact ⟨_, same.counts ((inv.begun e s.currentTask).created unused), nothing same.freed⟩
  | @fault _ t ref pa rest _ called live chosen page_fresh effect =>
    rcases called with called | ⟨byte, called⟩ <;> simp only [KeepsCounts, called] at keeps
    · exact ⟨lists', count_step_fault inv live chosen page_fresh effect keeps⟩
    · by_cases hit : ∃ pa, (s.tasks t).translate ref = some ⟨pa, true⟩
      · obtain ⟨pa', hit⟩ := hit
        have stored := step_store_hit called hit taken
        subst stored
        exact ⟨lists, same_as_before rfl rfl rfl rfl rfl rfl rfl, nothing rfl⟩
      · exact ⟨lists', count_step_fault inv live chosen page_fresh effect
          (keeps fun pa found => hit ⟨pa, found⟩)⟩
  | @mmap _ t addr length prot flags _ called live effect =>
    simp only [KeepsCounts, called] at keeps
    obtain ⟨_, r, ran⟩ := step_mmap called taken
    cases effect with
    | area _ _ _ _ same =>
      exact ⟨lists, same.counts ((inv.begun e t).withAreas _), nothing same.freed⟩
    | outside _ same => exact ⟨lists, same.counts (inv.begun e t), nothing same.freed⟩
    | pages unmaps before gone after =>
      subst unmaps
      by_cases outside : findVmeNode (s.tasks t).vmAreas (roundDown addr)
          (roundUp (addLength addr length)) = none
      · rw [kmunmap_outside (s := s.begun e t) outside ran]
        exact ⟨lists, inv.begun e t, nothing rfl⟩
      · have alone := keeps rfl outside
        refine ⟨lists', after.counts ((before.counts (inv.begun e t)).unmaps gone
          (before.live ▸ live) fun q hq lower upper => ?_), nothing ?_⟩
        · rw [before.vaOf] at lower upper
          rw [before.paOf, cowOf, before.cowTable]
          exact alone q ((inv.owned.on_list live).mpr hq) lower upper
        · exact after.freed.trans ((freed_unmaps gone).1.trans before.freed)
  | @fork _ _ _ _ _ t c _ _ _ _ called live effect =>
    simp only [KeepsCounts, called] at keeps
    obtain ⟨inv', freed⟩ := (inv.begun e t).fork effect live
      (fun q hq => keeps.1 q ((inv.owned.on_list live).mpr hq))
      (fun zero => by
        rcases inv.counted 0 rfl with same | ⟨one, none⟩
        · exact same
        · obtain ⟨t', ht', mem⟩ := Sharers.sharers_pos.mp (Nat.lt_of_lt_of_eq Nat.one_pos one.symm)
          obtain ⟨q, hq, null⟩ := List.mem_map.mp mem
          exact absurd none (keeps.2 zero t' ht' q ((inv.owned.on_list ht').mpr hq) null))
    exact ⟨_, inv', nothing freed⟩
  | @destroy s₁ t called live walk =>
    simp only [KeepsCounts, called] at keeps
    exact ⟨lists, (inv.begun e t).destroyed live rfl walk
      fun q hq => keeps q ((inv.owned.on_list live).mpr hq)⟩
  | store called live found =>
    exact ⟨lists, same_as_before rfl rfl rfl rfl rfl rfl rfl, nothing rfl⟩

theorem count_start (nodes : Nat → MPage) (phys : Nat → Nat → Nat) (initCode : List Nat) :
    CountInv (uprocInit nodes phys initCode) fun _ => [] :=
  ⟨(mirror_start nodes phys initCode).owned, nofun, fun _ _ => .inl rfl, fun _ _ _ => rfl⟩

/-- In a run of calls that keep the counts they are exact throughout. -/
theorem counts_exact_when_kept (nodes : Nat → MPage) (phys : Nat → Nat → Nat)
    (initCode : List Nat) (events : List Event)
    (keeps : EachStep step KeepsCounts (uprocInit nodes phys initCode) events) :
    Throughout step CountsExact (uprocInit nodes phys initCode) events := by
  have start : ∃ lists, CountInv (uprocInit nodes phys initCode) lists ∧
      ∀ x ∈ (uprocInit nodes phys initCode).freed, refs (uprocInit nodes phys initCode) lists x = 0 :=
    ⟨_, count_start nodes phys initCode, nofun⟩
  have throughout := throughout_of_each_step
    (fun s e s' (inv : ∃ lists, CountInv s lists ∧ ∀ x ∈ s.freed, refs s lists x = 0) keeps taken =>
      count_step inv.choose_spec.1 keeps taken) events start keeps
  exact throughout_mono (fun s ⟨lists, inv, freed⟩ =>
    ⟨lists, fun t live => (inv.owned.holds t live).linked, inv.counted, freed⟩) throughout

/-- A fault, a fork that moves the page and shares it, and the end of the child. -/
def sharedPage : List Event :=
  [⟨.create, [1], 9⟩, ⟨.pageFault 1 0x100000001234, [0x5000, 100], 9⟩,
    ⟨.kfork 1, [2, 0x6000, 100, 101], 9⟩, ⟨.destroyMappedPages 2, [], 9⟩]

theorem shared_page_keeps_counts : EachStep step KeepsCounts emptyKernel sharedPage := by
  intro s₁ taken₁
  have ran₁ : run step emptyKernel (sharedPage.take 1) = some s₁ := by
    simp only [sharedPage, List.take, run, taken₁]
  refine ⟨trivial, fun s₂ taken₂ => ?_⟩
  have ran₂ : run step emptyKernel (sharedPage.take 2) = some s₂ := by
    simp only [sharedPage, List.take, run, taken₁, taken₂]
  refine ⟨?_, fun s₃ taken₃ => ?_⟩
  · have computed : (run step emptyKernel (sharedPage.take 1)).map (fun s => headOf s 1) =
        some 0 := by decide +kernel
    refine fun _ => ⟨fun null => absurd null (by decide), fun q hq => ?_⟩
    have head := run_facts computed ran₁
    have mem : q ∈ [] := hq.mem head
    cases mem
  have ran₃ : run step emptyKernel (sharedPage.take 3) = some s₃ := by
    simp only [sharedPage, List.take, run, taken₁, taken₂, taken₃]
  refine ⟨?_, fun s₄ taken₄ => ⟨?_, trivial⟩⟩
  · have computed : (run step emptyKernel (sharedPage.take 2)).map (fun s =>
        (headOf s 1, nextOf s 100, findVmeNode (s.tasks 1).vmAreas (vaOf s 100)
          (u64 (vaOf s 100 + pgsize)))) =
          some (100, 0, some ⟨0x100000001000, 0x100000002000, 6, 2⟩) := by decide +kernel
    have facts := run_facts computed ran₂
    obtain ⟨head, tail⟩ := Prod.mk.inj facts
    obtain ⟨next, found⟩ := Prod.mk.inj tail
    refine ⟨fun q hq => .inr ?_, fun null => absurd null (by decide)⟩
    have mem : q ∈ [100] := hq.mem ⟨head, by decide, next⟩
    rw [List.mem_singleton] at mem
    subst mem
    exact ⟨_, found, by decide⟩
  · have computed : (run step emptyKernel (sharedPage.take 3)).map (fun s =>
        (headOf s 2, nextOf s 101, cowOf s (paOf s 101))) = some (101, 0, 2) := by decide +kernel
    have facts := run_facts computed ran₃
    obtain ⟨head, tail⟩ := Prod.mk.inj facts
    obtain ⟨next, cow⟩ := Prod.mk.inj tail
    intro q hq
    have mem : q ∈ [101] := hq.mem ⟨head, by decide, next⟩
    rw [List.mem_singleton] at mem
    subst mem
    rw [cow]
    decide

theorem counts_exact_shared_page : (run step emptyKernel sharedPage).isSome = true ∧
    Throughout step CountsExact emptyKernel sharedPage :=
  ⟨by decide +kernel, counts_exact_when_kept _ _ _ _ shared_page_keeps_counts⟩

/-- A process whose only page was never shared leaves the count -1 behind. -/
theorem counts_wrong_after_exit :
    ¬Throughout step CountsExact emptyKernel
      [⟨.create, [1], 9⟩, ⟨.pageFault 1 0x100000001234, [0x5000, 100], 9⟩,
        ⟨.destroyMappedPages 1, [], 9⟩] := by
  intro all
  have ends : ((run step emptyKernel
      [⟨.create, [1], 9⟩, ⟨.pageFault 1 0x100000001234, [0x5000, 100], 9⟩,
        ⟨.destroyMappedPages 1, [], 9⟩]).map fun s => (s.live, cowOf s 0x5000)) =
      some ([], -1) := by
    decide +kernel
  obtain ⟨s, ran, ends⟩ := Option.map_eq_some_iff.mp ends
  obtain ⟨live, cow⟩ := Prod.mk.inj ends
  obtain ⟨lists, _, counted, _⟩ := throughout_of_run all ran
  have none : refs s lists 0x5000 = 0 := by
    rw [refs, live]
    rfl
  rcases counted 0x5000 (by decide) with same | ⟨one, _⟩
  · rw [cow, none] at same
    cases same
  · rw [none] at one
    cases one

end Run

end Uproc
