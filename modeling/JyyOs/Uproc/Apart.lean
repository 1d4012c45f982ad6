import JyyOs.Uproc.Counts

/-!
Which calls leave no page with two entries that a store in a MAP_PRIVATE area can reach.
-/
namespace Uproc

open PartialRun LinkedList Sharers

/-- The entry of `q` takes stores only where its area is not MAP_PRIVATE. -/
def Guarded (s : Kernel) (t q : Nat) : Prop :=
  (s.tasks t).entry (vaOf s q) = some ⟨paOf s q, true⟩ →
    ∀ vma, findVmeNode (s.tasks t).vmAreas (vaOf s q) (vaOf s q + pgsize) = some vma →
      vma.vmFlags &&& mapPrivate = 0

structure ApartInv (s : Kernel) (lists : Nat → List Nat) : Prop where
  owned : Owned s lists
  aligned : ∀ t ∈ s.live, ∀ p ∈ lists t, paOf s p % pgsize = 0
  unused : ∀ pa, pa ≠ 0 → s.frameUsed pa = false →
    refs s lists pa = 0 ∧ (pa % pgsize = 0 → cowOf s pa = 0)
  guarded : ∀ t ∈ s.live, ∀ p ∈ lists t, 2 ≤ refs s lists (paOf s p) → Guarded s t p

def Shared (s : Kernel) (q : Nat) : Prop :=
  ∃ t ∈ s.live, ∃ q', OnList s t q' ∧ q' ≠ q ∧ paOf s q' = paOf s q

section Frame

variable {s s' : Kernel} {lists : Nat → List Nat} {t q : Nat}

theorem refs_alone (owned : Owned s lists) (live : t ∈ s.live) (mem : q ∈ lists t)
    (alone : ¬Shared s q) : refs s lists (paOf s q) = 1 := by
  have apart : ∀ t' ∈ s.live, ∀ q' ∈ lists t', q' ≠ q → paOf s q' ≠ paOf s q :=
    fun t' live' q' mem' ne same =>
      alone ⟨t', live', q', (owned.on_list live').mpr mem', ne, same⟩
  have others : ∀ t' ∈ s.live, t' ≠ t → paOf s q ∉ framesOf s lists t' := by
    intro t' live' ne named
    obtain ⟨q', mem', same⟩ := List.mem_map.mp named
    refine apart t' live' q' mem' ?_ same
    rintro rfl
    exact owned.apart t' live' t live ne q' mem' mem
  rw [refs, sharers_alone live owned.nodup others, framesOf]
  obtain ⟨left, right, split⟩ := List.append_of_mem mem
  have once := (owned.holds t live).nodup
  rw [split, List.nodup_middle, List.nodup_cons] at once
  have none : ∀ list : List Nat, (∀ q' ∈ list, q' ∈ left ++ right) →
      (list.map (paOf s)).count (paOf s q) = 0 := by
    refine fun list inside => List.count_eq_zero.mpr fun named => ?_
    obtain ⟨q', mem', same⟩ := List.mem_map.mp named
    have here := inside q' mem'
    refine apart t live q' (mem_of_mem_left split here) ?_ same
    rintro rfl
    exact once.1 here
  rw [split, List.map_append, List.map_cons, List.count_append, List.count_cons_self,
    none left fun _ => List.mem_append_left _, none right fun _ => List.mem_append_right _]

theorem ApartInv.frame_used (inv : ApartInv s lists) (live : t ∈ s.live) (mem : q ∈ lists t)
    (real : paOf s q ≠ 0) : s.frameUsed (paOf s q) = true := by
  by_contra free
  have none := (inv.unused _ real (by simpa using free)).1
  have pos := refs_pos live mem
  omega

theorem Guarded.congr (h : Guarded s t q) (va : vaOf s' q = vaOf s q)
    (pa : paOf s' q = paOf s q)
    (entry : (s'.tasks t).entry (vaOf s q) = (s.tasks t).entry (vaOf s q))
    (areas : (s.tasks t).entry (vaOf s q) = some ⟨paOf s q, true⟩ → ∀ vma,
      findVmeNode (s'.tasks t).vmAreas (vaOf s q) (vaOf s q + pgsize) = some vma →
      findVmeNode (s.tasks t).vmAreas (vaOf s q) (vaOf s q + pgsize) = some vma ∨
        vma.vmFlags &&& mapPrivate = 0) : Guarded s' t q := by
  intro writable vma found
  rw [va, pa, entry] at writable
  rw [va] at found
  exact (areas writable vma found).elim (h writable vma) id

theorem ApartInv.congr (inv : ApartInv s lists) (owned : Owned s' lists)
    (nodes : s'.nodes = s.nodes) (live : s'.live = s.live) (cow : s'.cowTable = s.cowTable)
    (frames : ∀ pa, s'.frameUsed pa = false → s.frameUsed pa = false)
    (areas : ∀ t ∈ s.live, (s'.tasks t).vmAreas = (s.tasks t).vmAreas)
    (tables : ∀ t ∈ s.live, (s'.tasks t).table = (s.tasks t).table) : ApartInv s' lists := by
  have same : ∀ pa, refs s' lists pa = refs s lists pa := fun pa =>
    refs_congr live fun t _ => by rw [framesOf, pa_of_nodes nodes, framesOf]
  refine ⟨owned, ?_, fun pa real free => ?_, fun t live' p mem shared => ?_⟩
  · rw [live, pa_of_nodes nodes]
    exact inv.aligned
  · rw [same, cowOf, cow]
    exact inv.unused pa real (frames pa free)
  · rw [live] at live'
    rw [same, pa_of_nodes nodes] at shared
    refine (inv.guarded t live' p mem shared).congr (by simp only [vaOf, nodes])
      (by rw [pa_of_nodes nodes]) (by simp only [Task.entry, tables t live']) fun _ vma found => ?_
    rw [areas t live'] at found
    exact .inl found

theorem SameMemory.apart (same : SameMemory s s') (inv : ApartInv s lists) : ApartInv s' lists :=
  inv.congr (same.owned inv.owned) same.nodes same.live same.cowTable
    (fun pa free => by rw [← same.frameUsed]; exact free) (fun t _ => same.areas t)
    fun t _ => same.tables t

theorem ApartInv.fresh (inv : ApartInv s lists) (pa : Nat) (rest : List Nat)
    (bytes : Nat → Nat) : ApartInv (s.fresh pa rest bytes) lists :=
  inv.congr (inv.owned.fresh pa rest bytes) nodes_fresh live_fresh cow_table_fresh
    (fun _ free => (frame_taken free).1) (fun _ _ => by rw [tasks_fresh])
    fun _ _ => by rw [tasks_fresh]

theorem ApartInv.taken (inv : ApartInv s lists) (pa : Nat) (rest : List Nat) :
    ApartInv (s.pageTaken pa rest) lists := by
  rw [← fresh_same_bytes]
  exact inv.fresh ..

end Frame

section Areas

variable {s : Kernel} {lists : Nat → List Nat} {t : Nat}

theorem find_inserted {areas areas' : List VmArea} {node vma : VmArea} {lo hi : Nat}
    (inserted : insertVmeNode areas node = some areas')
    (found : findVmeNode areas' lo hi = some vma) :
    findVmeNode areas lo hi = some vma ∨ vma = node ∧ node.vmStart ≤ lo ∧ hi ≤ node.vmEnd := by
  induction areas generalizing areas' with
  | nil =>
    cases inserted
    rw [findVmeNode] at found
    split at found
    · rename_i covers
      cases found
      exact .inr ⟨rfl, covers⟩
    · split at found <;> cases found
  | cons cur next ih =>
    rw [insertVmeNode] at inserted
    split at inserted
    · cases inserted
      rw [findVmeNode] at found
      split at found
      · rename_i covers
        cases found
        exact .inr ⟨rfl, covers⟩
      · split at found
        · exact .inl found
        · cases found
    · split at inserted
      · obtain ⟨rest, later, rfl⟩ := Option.map_eq_some_iff.mp inserted
        rw [findVmeNode] at found ⊢
        split at found
        · rename_i covers
          rw [if_pos covers]
          exact .inl found
        · rename_i beside
          rw [if_neg beside]
          split at found
          · rename_i behind
            rw [if_pos behind]
            exact ih later found
          · cases found
      · cases inserted

/-- A new area of `t` that is private only where no writable page has two entries. -/
theorem ApartInv.withAreas {node : VmArea} {areas : List VmArea} (inv : ApartInv s lists)
    (inserted : insertVmeNode (s.tasks t).vmAreas node = some areas)
    (apart : t ∈ s.live → node.vmFlags &&& mapPrivate ≠ 0 → ∀ q ∈ lists t,
      Covers node (vaOf s q) → (s.tasks t).entry (vaOf s q) = some ⟨paOf s q, true⟩ →
      refs s lists (paOf s q) < 2) : ApartInv (s.withAreas t areas) lists := by
  refine ⟨inv.owned.withAreas t areas, inv.aligned, inv.unused, fun t' live p mem shared => ?_⟩
  have before : Guarded s t' p := inv.guarded t' live p mem shared
  by_cases here : t' = t
  · subst here
    refine before.congr rfl rfl (by simp [Kernel.withAreas, Task.entry])
      fun writable vma found => ?_
    rw [areas_with_areas] at found
    refine (find_inserted inserted found).imp_right fun here => ?_
    obtain ⟨same, covers⟩ := here
    subst same
    by_contra hidden
    have few : refs s lists (paOf s p) < 2 := apart live hidden p mem covers writable
    have many : 2 ≤ refs s lists (paOf s p) := shared
    omega
  · refine before.congr rfl rfl ?_ fun _ vma found => ?_
    · simp [Kernel.withAreas, Function.update_of_ne here]
    · rw [areas_with_areas_other here] at found
      exact .inl found

theorem ApartInv.givenAreas {areas : List VmArea} (inv : ApartInv s lists)
    (empty : lists t = []) : ApartInv (s.withAreas t areas) lists := by
  refine ⟨inv.owned.withAreas t areas, inv.aligned, inv.unused, fun t' live p mem shared => ?_⟩
  have here : t' ≠ t := by
    rintro rfl
    rw [empty] at mem
    cases mem
  have before : Guarded s t' p := inv.guarded t' live p mem shared
  refine before.congr rfl rfl (by simp [Kernel.withAreas, Function.update_of_ne here])
    fun _ vma found => ?_
  rw [areas_with_areas_other here] at found
  exact .inl found

end Areas

section Lists

variable {s : Kernel} {lists : Nat → List Nat} {t : Nat}

/-- pgmap of a page without entries, or of one that is guarded wherever it has an entry. -/
theorem ApartInv.mapped {va pa prot node : Nat} {cowCnt : Bool} {rest : List Nat}
    (inv : ApartInv s lists) (live : t ∈ s.live) (page : UserPage va)
    (new : va ∉ (lists t).map (vaOf s)) (real : node ≠ 0) (fresh : s.nodeUsed node = false)
    (aligned : pa % pgsize = 0) (obtained : pa ≠ 0 → s.frameUsed pa = true)
    (area : refs s lists pa ≠ 0 → prot &&& protWrite ≠ 0 → ∀ vma,
      findVmeNode (s.tasks t).vmAreas va (va + pgsize) = some vma → vma.vmFlags &&& mapPrivate = 0)
    (others : ∀ t' ∈ s.live, ∀ q ∈ lists t', paOf s q = pa → Guarded s t' q) :
    ApartInv (s.mapped t va pa prot node cowCnt rest)
      (Function.update lists t (node :: lists t)) := by
  have old : ∀ t' ∈ s.live, ∀ p ∈ lists t',
      (s.mapped t va pa prot node cowCnt rest).nodes p = s.nodes p :=
    fun t' ht' p hp => nodes_mapped_used ((inv.owned.holds t' ht').used p hp) fresh
  have kept : ∀ t' ∈ s.live, ∀ p ∈ lists t', Guarded s t' p →
      Guarded (s.mapped t va pa prot node cowCnt rest) t' p := by
    intro t' ht' p hp before
    refine before.congr (by simp only [vaOf, old t' ht' p hp])
      (by simp only [paOf, old t' ht' p hp]) ?_ fun _ vma found => ?_
    · by_cases here : t' = t
      · subst here
        refine entry_mapped_other page ((inv.owned.holds t' ht').page p hp) fun same => ?_
        exact new (List.mem_map.mpr ⟨p, hp, same⟩)
      · rw [task_mapped_other here]
    · rw [areas_mapped] at found
      exact .inl found
  constructor
  · exact inv.owned.mapped live page new real fresh
  · intro t' ht' p hp
    by_cases here : t' = t
    · subst here
      rw [Function.update_self] at hp
      rcases List.mem_cons.mp hp with rfl | hp
      · rw [paOf, nodes_mapped_here]
        exact aligned
      · rw [paOf, old t' ht' p hp]
        exact inv.aligned t' ht' p hp
    · rw [Function.update_of_ne here] at hp
      rw [paOf, old t' ht' p hp]
      exact inv.aligned t' ht' p hp
  · intro x nonzero free
    obtain ⟨none, count⟩ := inv.unused x nonzero free
    have other : x ≠ pa := by
      rintro rfl
      have used : s.frameUsed x = true := obtained nonzero
      exact absurd (used.symm.trans free) (by decide)
    refine ⟨?_, fun hx => ?_⟩
    · rw [refs_mapped inv.owned live fresh, none, if_neg other]
    · rw [cow_mapped hx aligned, count hx, if_neg fun h => other h.2]
      rfl
  · intro t' ht' p hp shared
    rw [refs_mapped inv.owned live fresh] at shared
    have before : p ∈ lists t' → Guarded (s.mapped t va pa prot node cowCnt rest) t' p := by
      intro hp
      rw [paOf, old t' ht' p hp, ← paOf] at shared
      refine kept t' ht' p hp ?_
      by_cases same : paOf s p = pa
      · exact others t' ht' p hp same
      · rw [if_neg same, Nat.add_zero] at shared
        exact inv.guarded t' ht' p hp shared
    by_cases here : t' = t
    · subst here
      rw [Function.update_self] at hp
      rcases List.mem_cons.mp hp with rfl | hp
      · have at_va : vaOf (s.mapped t' va pa prot p cowCnt rest) p = va := by simp [vaOf]
        have at_pa : paOf (s.mapped t' va pa prot p cowCnt rest) p = pa := by simp [paOf]
        rw [at_pa, if_pos rfl] at shared
        have some_entry : refs s lists pa ≠ 0 := by omega
        intro writable vma found
        rw [at_va, at_pa, entry_mapped_here] at writable
        rw [at_va, areas_mapped] at found
        exact area some_entry (by simpa using writable) vma found
      · exact before hp
    · rw [Function.update_of_ne here] at hp
      exact before hp

theorem ApartInv.unmapped {left right : List Nat} {q : Nat} (inv : ApartInv s lists)
    (live : t ∈ s.live) (split : lists t = left ++ q :: right) :
    ApartInv (s.unmapped t (vaOf s q) (left.getLastD 0) q)
      (Function.update lists t (left ++ right)) := by
  have holds := inv.owned.holds t live
  have inside : ∀ t', ∀ p ∈ Function.update lists t (left ++ right) t', p ∈ lists t' := by
    intro t' p hp
    by_cases here : t' = t
    · subst here
      rw [Function.update_self] at hp
      exact mem_of_mem_left split hp
    · rwa [Function.update_of_ne here] at hp
  have fewer : ∀ x, refs (s.unmapped t (vaOf s q) (left.getLastD 0) q)
      (Function.update lists t (left ++ right)) x ≤ refs s lists x := fun x =>
    Nat.le.intro (refs_unmapped inv.owned live split)
  refine ⟨inv.owned.unmapped live split, fun t' live' p hp => ?_, fun pa real free => ?_,
    fun t' live' p hp shared => ?_⟩
  · rw [pa_unmapped]
    exact inv.aligned t' live' p (inside t' p hp)
  · obtain ⟨none, count⟩ := inv.unused pa real free
    exact ⟨Nat.le_zero.mp (none ▸ fewer pa), count⟩
  · rw [pa_unmapped] at shared
    refine (inv.guarded t' live' p (inside t' p hp) (shared.trans (fewer _))).congr
      (va_unmapped p) (pa_unmapped p) ?_ fun _ vma found => ?_
    · by_cases here : t' = t
      · subst here
        rw [Function.update_self] at hp
        refine entry_unmapped_other (holds.page q (by simp [split]))
          (holds.page p (mem_of_mem_left split hp)) fun same => ?_
        exact holds.gone split (List.mem_map.mpr ⟨p, hp, same⟩)
      · rw [task_unmapped_other here]
    · rw [areas_unmapped] at found
      exact .inl found

end Lists

section Calls

variable {s s' : Kernel} {lists lists' : Nat → List Nat} {t c : Nat}

theorem ApartInv.unmaps {lo hi : Nat} (walk : Unmaps t lo hi s lists s' lists')
    (inv : ApartInv s lists) (live : t ∈ s.live) : ApartInv s' lists' := by
  induction walk with
  | done => exact inv
  | page split _ _ ih => exact ih (inv.unmapped live split) live

theorem ApartInv.unnamed (inv : ApartInv s lists) {pa : Nat}
    (page_fresh : pa ≠ 0 → s.frameUsed pa = false ∧ pa % pgsize = 0)
    (null : pa = 0 → refs s lists 0 = 0) :
    pa % pgsize = 0 ∧ refs s lists pa = 0 ∧ ∀ t' ∈ s.live, ∀ q ∈ lists t', paOf s q ≠ pa := by
  have none : pa % pgsize = 0 ∧ refs s lists pa = 0 := by
    by_cases zero : pa = 0
    · subst zero
      exact ⟨rfl, null rfl⟩
    · exact ⟨(page_fresh zero).2, (inv.unused pa zero (page_fresh zero).1).1⟩
  refine ⟨none.1, none.2, fun t' live' q mem same => ?_⟩
  have pos := refs_pos live' mem
  rw [same, none.2] at pos
  exact absurd pos (Nat.lt_irrefl 0)

theorem ApartInv.copied {left right rest rest' : List Nat} {q pa p prot : Nat}
    {bytes : Nat → Nat} (inv : ApartInv s lists) (live : t ∈ s.live)
    (split : lists t = left ++ q :: right) (real : p ≠ 0) (fresh : p = q ∨ s.nodeUsed p = false)
    (aligned : pa % pgsize = 0) (unnamed : refs s lists pa = 0) :
    ApartInv (s.copied t pa q p prot left rest rest' bytes)
      (Function.update lists t (p :: (left ++ right))) := by
  have before := inv.fresh pa rest bytes
  have live' : t ∈ (s.fresh pa rest bytes).live := by
    rw [live_fresh]
    exact live
  have holds := before.owned.holds t live'
  have gone := before.unmapped live' split
  have few : refs ((s.fresh pa rest bytes).unmapped t (vaOf (s.fresh pa rest bytes) q)
      (left.getLastD 0) q) (Function.update lists t (left ++ right)) pa = 0 := by
    refine Nat.le_zero.mp ((Nat.le.intro (refs_unmapped before.owned live' split)).trans ?_)
    rw [refs_fresh, unnamed]
  have new : vaOf (s.fresh pa rest bytes) q ∉ (Function.update lists t (left ++ right) t).map
      (vaOf ((s.fresh pa rest bytes).unmapped t (vaOf (s.fresh pa rest bytes) q)
        (left.getLastD 0) q)) := by
    rw [Function.update_self, vas_unmapped]
    exact holds.gone split
  have again : ApartInv (((s.fresh pa rest bytes).unmapped t (vaOf (s.fresh pa rest bytes) q)
      (left.getLastD 0) q).mapped t (vaOf (s.fresh pa rest bytes) q) pa prot p false rest')
      (Function.update (Function.update lists t (left ++ right)) t
        (p :: Function.update lists t (left ++ right) t)) := by
    refine gone.mapped live' (holds.page q (by simp [split])) new real
      (unused_unmapped (by rw [node_used_fresh]; exact fresh)) aligned (used_fresh bytes)
      (fun named => absurd few named) fun t' ht' q' hq' same => ?_
    have pos := refs_pos ht' hq'
    rw [same, few] at pos
    exact absurd pos (Nat.lt_irrefl 0)
  rw [Function.update_self, Function.update_idem, va_fresh] at again
  exact again

/-- dec_cow_cnt of a page in use, which has no entry when its last count goes. -/
theorem ApartInv.dropped {o : Nat} (inv : ApartInv s lists) (aligned : o % pgsize = 0)
    (used : o ≠ 0 → s.frameUsed o = true) (last : cowOf s o = 1 → refs s lists o = 0) :
    ApartInv (s.dropped o) lists := by
  have owned : Owned (s.dropped o) lists :=
    inv.owned.congr rfl rfl rfl rfl (fun _ => rfl) fun _ => rfl
  have same : ∀ x, refs (s.dropped o) lists x = refs s lists x := fun _ => rfl
  refine ⟨owned, inv.aligned, fun x real free => ?_, fun t live p mem shared => ?_⟩
  · rw [same]
    by_cases freed : x = o ∧ cowOf s o = 1
    · obtain ⟨rfl, one⟩ := freed
      refine ⟨last one, fun hx => ?_⟩
      rw [cow_dropped hx aligned, one, if_pos rfl]
      rfl
    · rw [dropped_frame.1, if_neg freed] at free
      obtain ⟨none, count⟩ := inv.unused x real free
      have other : x ≠ o := by
        rintro rfl
        exact absurd ((used real).symm.trans free) (by decide)
      refine ⟨none, fun hx => ?_⟩
      rw [cow_dropped hx aligned, count hx, if_neg other]
      rfl
  · exact (inv.guarded t live p mem shared).congr rfl rfl rfl fun _ _ found => .inl found

theorem ApartInv.fault {va pa : Nat} {rest : List Nat}
    (effect : FaultEffect t va pa rest s lists s' lists') (inv : ApartInv s lists)
    (live : t ∈ s.live) (page_fresh : pa ≠ 0 → s.frameUsed pa = false ∧ pa % pgsize = 0)
    (null : InArea va → pa = 0 → refs s lists 0 = 0)
    (counted : ∀ q ∈ lists t, vaOf s q = va → cowOf s (paOf s q) = 1 → refs s lists (paOf s q) < 2)
    (placed : InArea va → findVmeNode (s.tasks t).vmAreas va (va + pgsize) = none →
      ∀ node, newVmeNode (s.tasks t).vmAreas va pgsize (protRead ||| protWrite : Nat) mapPrivate =
        some node → node.vmFlags &&& mapPrivate ≠ 0 → ∀ q ∈ lists t, Covers node (vaOf s q) →
        (s.tasks t).entry (vaOf s q) = some ⟨paOf s q, true⟩ → refs s lists (paOf s q) < 2) :
    ApartInv s' lists' := by
  have live' : ∀ bytes, t ∈ (s.fresh pa rest bytes).live := fun _ => by
    rw [live_fresh]
    exact live
  cases effect with
  | outside _ same => exact same.apart (inv.taken pa rest)
  | @newArea _ bytes node areas p rest' page new unfound place inserted _ real fresh same =>
    obtain ⟨aligned, none, unnamed⟩ := inv.unnamed page_fresh (null page.1)
    have grown : ApartInv ((s.fresh pa rest bytes).withAreas t areas) lists := by
      have inserted' : insertVmeNode ((s.fresh pa rest bytes).tasks t).vmAreas node =
          some areas := by
        rw [tasks_fresh]
        exact inserted
      refine (inv.fresh pa rest bytes).withAreas inserted' fun _ hidden q mem covers writable => ?_
      rw [va_fresh] at covers
      rw [tasks_fresh, va_fresh, pa_fresh] at writable
      rw [refs_fresh, pa_fresh]
      exact placed page.1 unfound node place hidden q mem covers writable
    have base : ∀ x, refs ((s.fresh pa rest bytes).withAreas t areas) lists x =
        refs (s.fresh pa rest bytes) lists x := fun _ => rfl
    have none' : refs ((s.fresh pa rest bytes).withAreas t areas) lists pa = 0 := by
      rw [base, refs_fresh, none]
    have vas : vaOf ((s.fresh pa rest bytes).withAreas t areas) = vaOf (s.fresh pa rest bytes) :=
      rfl
    have pas : paOf ((s.fresh pa rest bytes).withAreas t areas) = paOf (s.fresh pa rest bytes) :=
      rfl
    have nodes : ((s.fresh pa rest bytes).withAreas t areas).nodeUsed =
        (s.fresh pa rest bytes).nodeUsed := rfl
    have lives : ((s.fresh pa rest bytes).withAreas t areas).live =
        (s.fresh pa rest bytes).live := rfl
    refine same.apart (grown.mapped (live' bytes) page (by rw [vas, va_fresh]; exact new)
      real (by rw [nodes, node_used_fresh]; exact fresh) aligned (used_fresh bytes) ?_ ?_)
    · exact fun named => absurd none' named
    · intro t' ht' q hq here
      rw [lives, live_fresh] at ht'
      rw [pas, pa_fresh] at here
      exact absurd here (unnamed t' ht' q hq)
  | @newPage _ bytes vma p rest' page new _ _ real fresh same =>
    obtain ⟨aligned, none, unnamed⟩ := inv.unnamed page_fresh (null page.1)
    refine same.apart ((inv.fresh pa rest bytes).mapped (live' bytes) page
      (by rw [va_fresh]; exact new) real (by rw [node_used_fresh]; exact fresh) aligned
      (used_fresh bytes) ?_ ?_)
    · exact fun named => absurd (refs_fresh.trans none) named
    · intro t' ht' q hq here
      rw [live_fresh] at ht'
      rw [pa_fresh] at here
      exact absurd here (unnamed t' ht' q hq)
  | @copied m _ bytes vma left right q p rest' split here found chosen real fresh filled moved
      same =>
    subst here
    have mem : q ∈ lists t := by simp [split]
    obtain ⟨free, page⟩ := page_fresh filled
    obtain ⟨none, no_count⟩ := inv.unused pa filled free
    obtain rfl : m = s.copied t pa q p vma.vmProt left rest rest' bytes := moved
    have after : ApartInv (s.copied t pa q p vma.vmProt left rest rest' bytes)
        (Function.update lists t (p :: (left ++ right))) :=
      inv.copied live split real fresh page none
    have frames : (s.copied t pa q p vma.vmProt left rest rest' bytes).frameUsed =
        (s.fresh pa rest bytes).frameUsed := copied_fields.2.1
    have counts : ∀ x, cowOf (s.copied t pa q p vma.vmProt left rest rest' bytes) x = cowOf s x :=
      copied_fields.2.2.1
    rw [pa_copied_freed] at same
    by_cases reused : p = q
    · rw [if_pos reused] at same
      refine same.apart (after.dropped page (fun _ => ?_) fun one => ?_)
      · rw [frames]
        exact used_fresh bytes filled
      · rw [counts, no_count page] at one
        cases one
    · rw [if_neg reused] at same
      refine same.apart (after.dropped (inv.aligned t live q mem) (fun nonzero => ?_)
        fun last => ?_)
      · have before := inv.frame_used live mem nonzero
        rw [frames]
        by_contra out
        have unused : (s.pageTaken pa rest).frameUsed (paOf s q) = false := by
          simpa [Kernel.fresh, Kernel.written] using out
        rw [(frame_taken unused).1] at before
        cases before
      · rw [counts] at last
        have one := counted q mem rfl last
        have pos := refs_pos live mem
        have other : paOf s q ≠ pa := by
          intro same
          rw [same, none] at pos
          exact absurd pos (Nat.lt_irrefl 0)
        have entries : refs (s.copied t pa q p vma.vmProt left rest rest' bytes)
            (Function.update lists t (p :: (left ++ right))) (paOf s q) + 1 =
              refs s lists (paOf s q) + 0 := by
          have count : refs (((s.fresh pa rest bytes).unmapped t (vaOf (s.fresh pa rest bytes) q)
              (left.getLastD 0) q).mapped t (vaOf (s.fresh pa rest bytes) q) pa vma.vmProt p false
              rest') _ (paOf s q) + _ = _ :=
            refs_replaced (inv.owned.fresh pa rest bytes) (live' bytes) split
              (by rw [node_used_fresh]; exact fresh)
          rwa [va_fresh, pa_fresh, if_pos rfl, if_neg other, refs_fresh] at count
        omega

end Calls

end Uproc
