import JyyOs.Uproc.Refs
import JyyOs.Uproc.Mirror

/-!
Conservation of user pages: which calls leave every page in use on the list of some process, and
give back only pages in use.
-/
namespace Uproc

open PartialRun LinkedList

structure KeptInv (s : Kernel) (lists : Nat → List Nat) : Prop where
  owned : Owned s lists
  aligned : ∀ t ∈ s.live, ∀ p ∈ lists t, paOf s p % pgsize = 0
  kept : ∀ pa, pa ≠ 0 → s.frameUsed pa = true → ∃ t ∈ s.live, ∃ q ∈ lists t, paOf s q = pa

structure Extends (s : Kernel) (lists : Nat → List Nat) (s' : Kernel) (lists' : Nat → List Nat) :
    Prop where
  owned : Owned s' lists'
  aligned : ∀ t ∈ s'.live, ∀ p ∈ lists' t, paOf s' p % pgsize = 0
  live : ∀ t ∈ s.live, t ∈ s'.live
  entries : ∀ t ∈ s.live, ∀ q ∈ lists t, q ∈ lists' t ∧ paOf s' q = paOf s q
  frames : ∀ pa, pa ≠ 0 → s'.frameUsed pa = true →
    s.frameUsed pa = true ∨ ∃ t ∈ s'.live, ∃ q ∈ lists' t, paOf s' q = pa
  freed : s'.freed = s.freed

section Frame

variable {s s' : Kernel} {lists lists' : Nat → List Nat} {t : Nat}

theorem KeptInv.extends (inv : KeptInv s lists) (grows : Extends s lists s' lists') :
    KeptInv s' lists' := by
  refine ⟨grows.owned, grows.aligned, fun pa real used => ?_⟩
  rcases grows.frames pa real used with before | listed
  · obtain ⟨t, live, q, hq, page⟩ := inv.kept pa real before
    obtain ⟨hq', same⟩ := grows.entries t live q hq
    exact ⟨t, grows.live t live, q, hq', same.trans page⟩
  · exact listed

theorem Extends.trans {m : Kernel} {lists₂ : Nat → List Nat} (first : Extends s lists m lists₂)
    (second : Extends m lists₂ s' lists') : Extends s lists s' lists' := by
  refine ⟨second.owned, second.aligned, fun t h => second.live t (first.live t h),
    fun t h q hq => ?_, fun pa real used => ?_, second.freed.trans first.freed⟩
  · obtain ⟨mid, same⟩ := first.entries t h q hq
    obtain ⟨last, same'⟩ := second.entries t (first.live t h) q mid
    exact ⟨last, same'.trans same⟩
  · rcases second.frames pa real used with before | listed
    · refine (first.frames pa real before).imp_right fun ⟨t, live, q, hq, page⟩ => ?_
      obtain ⟨hq', same⟩ := second.entries t live q hq
      exact ⟨t, second.live t live, q, hq', same.trans page⟩
    · exact .inr listed

theorem KeptInv.unchanged (inv : KeptInv s lists) (owned : Owned s' lists)
    (nodes : s'.nodes = s.nodes) (live : s'.live = s.live) (freed : s'.freed = s.freed)
    (frames : s'.frameUsed = s.frameUsed) : Extends s lists s' lists := by
  refine ⟨owned, ?_, by rw [live]; exact fun _ h => h, fun t _ q hq => ⟨hq, ?_⟩,
    fun pa _ used => .inl ?_, freed⟩
  · rw [live, pa_of_nodes nodes]
    exact inv.aligned
  · rw [pa_of_nodes nodes]
  · rwa [← frames]

theorem SameMemory.extends (same : SameMemory s s') (inv : KeptInv s lists) :
    Extends s lists s' lists :=
  inv.unchanged (same.owned inv.owned) same.nodes same.live same.freed same.frameUsed

theorem KeptInv.withAreas (inv : KeptInv s lists) (areas : List VmArea) :
    Extends s lists (s.withAreas t areas) lists :=
  inv.unchanged (inv.owned.withAreas t areas) rfl rfl rfl rfl

theorem KeptInv.mapped {va pa prot node : Nat} {cowCnt : Bool} {rest : List Nat}
    (owned : Owned s lists) (aligned : ∀ t ∈ s.live, ∀ p ∈ lists t, paOf s p % pgsize = 0)
    (live : t ∈ s.live) (page : UserPage va) (new : va ∉ (lists t).map (vaOf s)) (real : node ≠ 0)
    (fresh : s.nodeUsed node = false) (page_aligned : pa % pgsize = 0) :
    Extends s lists (s.mapped t va pa prot node cowCnt rest)
      (Function.update lists t (node :: lists t)) := by
  have old : ∀ t' ∈ s.live, ∀ p ∈ lists t',
      paOf (s.mapped t va pa prot node cowCnt rest) p = paOf s p := fun t' ht' p hp => by
    simp only [paOf, nodes_mapped_used ((owned.holds t' ht').used p hp) fresh]
  have stays : ∀ t' ∈ s.live, ∀ p ∈ lists t',
      p ∈ Function.update lists t (node :: lists t) t' := by
    intro t' _ p hp
    by_cases here : t' = t
    · subst here
      rw [Function.update_self]
      exact List.mem_cons_of_mem _ hp
    · rwa [Function.update_of_ne here]
  refine ⟨owned.mapped live page new real fresh, fun t' ht' p hp => ?_, fun _ h => h,
    fun t' ht' p hp => ⟨stays t' ht' p hp, old t' ht' p hp⟩, fun _ _ used => .inl used, rfl⟩
  by_cases here : t' = t
  · subst here
    rw [Function.update_self] at hp
    rcases List.mem_cons.mp hp with rfl | hp
    · rw [paOf, nodes_mapped_here]
      exact page_aligned
    · rw [old t' ht' p hp]
      exact aligned t' ht' p hp
  · rw [Function.update_of_ne here] at hp
    rw [old t' ht' p hp]
    exact aligned t' ht' p hp

end Frame

section Calls

variable {s s' : Kernel} {lists lists' : Nat → List Nat} {t c : Nat}

theorem KeptInv.created {choices : List Nat} (inv : KeptInv s lists)
    (unused : s.taskUsed c = false) :
    Extends s lists ({ s with
      choices := choices, taskUsed := Function.update s.taskUsed c true }.created c)
      (Function.update lists c []) := by
  have dead : c ∉ s.live := fun live => by
    rw [inv.owned.taskUsed c live] at unused
    cases unused
  have other : ∀ t ∈ s.live, Function.update lists c [] t = lists t := fun t live =>
    Function.update_of_ne (fun same : t = c => dead (same ▸ live)) ..
  refine ⟨inv.owned.created unused, fun t live p hp => ?_,
    fun t live => List.mem_cons_of_mem _ live, fun t live q hq => ⟨?_, rfl⟩,
    fun _ _ used => .inl used, rfl⟩
  · rcases List.mem_cons.mp live with rfl | live
    · rw [Function.update_self] at hp
      cases hp
    · rw [other t live] at hp
      exact inv.aligned t live p hp
  · rwa [other t live]

def Elsewhere (s : Kernel) (gone : Nat → Prop) (pa : Nat) : Prop :=
  ∃ t ∈ s.live, ∃ q, OnList s t q ∧ ¬gone q ∧ paOf s q = pa

theorem KeptInv.still_listed (inv : KeptInv s lists) (gone : Nat → Prop) {pa : Nat}
    (real : pa ≠ 0) (used : s.frameUsed pa = true)
    (safe : ∀ t ∈ s.live, ∀ q ∈ lists t, gone q → paOf s q = pa → Elsewhere s gone pa) :
    ∃ t ∈ s.live, ∃ q ∈ lists t, ¬gone q ∧ paOf s q = pa := by
  obtain ⟨t, live, q, hq, page⟩ := inv.kept pa real used
  by_cases lost : gone q
  · obtain ⟨t', live', q', hq', stays, page'⟩ := safe t live q hq lost page
    exact ⟨t', live', q', (inv.owned.on_list live').mp hq', stays, page'⟩
  · exact ⟨t, live, q, hq, lost, page⟩

theorem unmaps_entries {lo hi : Nat} (walk : Unmaps t lo hi s lists s' lists') :
    (∀ t' q, q ∈ lists t' → ¬(t' = t ∧ lo ≤ vaOf s q ∧ vaOf s q < hi) → q ∈ lists' t') ∧
      paOf s' = paOf s ∧ s'.frameUsed = s.frameUsed ∧ (∀ t' q, q ∈ lists' t' → q ∈ lists t') := by
  induction walk with
  | done => exact ⟨fun _ _ h _ => h, rfl, rfl, fun _ _ h => h⟩
  | @page s _ lists _ left right q split inside _ ih =>
    obtain ⟨stays, pas, frames, sub⟩ := ih
    refine ⟨fun t' p hp out => stays t' p ?_ ?_, ?_, frames, fun t' p hp => ?_⟩
    · by_cases here : t' = t
      · subst here
        rw [Function.update_self]
        rw [split] at hp
        simp only [List.mem_append, List.mem_cons] at hp ⊢
        refine hp.imp_right fun h => h.resolve_left ?_
        rintro rfl
        exact out ⟨rfl, inside⟩
      · rwa [Function.update_of_ne here]
    · rwa [va_unmapped]
    · rw [pas]
      funext p
      exact pa_unmapped p
    · have later := sub t' p hp
      by_cases here : t' = t
      · subst here
        rw [Function.update_self] at later
        exact mem_of_mem_left split later
      · rwa [Function.update_of_ne here] at later

theorem owned_unmaps {lo hi : Nat} (walk : Unmaps t lo hi s lists s' lists')
    (owned : Owned s lists) (live : t ∈ s.live) : Owned s' lists' := by
  induction walk with
  | done => exact owned
  | page split _ _ ih => exact ih (owned.unmapped live split) live

theorem KeptInv.unmaps {lo hi : Nat} (walk : Unmaps t lo hi s lists s' lists')
    (inv : KeptInv s lists) (live : t ∈ s.live)
    (safe : ∀ q ∈ lists t, lo ≤ vaOf s q → vaOf s q < hi → paOf s q ≠ 0 →
      s.frameUsed (paOf s q) = true → Elsewhere s
        (fun q' => OnList s t q' ∧ lo ≤ vaOf s q' ∧ vaOf s q' < hi) (paOf s q)) :
    KeptInv s' lists' := by
  obtain ⟨stays, pas, frames, sub⟩ := unmaps_entries walk
  have same_live : s'.live = s.live := (freed_unmaps walk).2
  refine ⟨owned_unmaps walk inv.owned live, fun t' ht' p hp => ?_, fun pa real used => ?_⟩
  · rw [same_live] at ht'
    rw [pas]
    exact inv.aligned t' ht' p (sub t' p hp)
  · rw [frames] at used
    obtain ⟨t', live', q, hq, out, page⟩ := inv.still_listed
      (fun q' => OnList s t q' ∧ lo ≤ vaOf s q' ∧ vaOf s q' < hi) real used
      (fun t' _ q _ lost page => by
        rw [← page] at real used ⊢
        exact safe q ((inv.owned.on_list live).mp lost.1) lost.2.1 lost.2.2 real used)
    refine ⟨t', by rw [same_live]; exact live', q, stays t' q hq ?_, by rw [pas]; exact page⟩
    rintro ⟨rfl, inside⟩
    exact out ⟨(inv.owned.on_list live').mpr hq, inside⟩

/-- A fault on a mapped page leaves the page of `q` behind: it is given back, and was in use, or
    nothing is lost with the entry. When pgmap gets the freed node again, the count of the new
    page is lowered instead. -/
structure CopyKeeps (s : Kernel) (choices : List Nat) (q : Nat) : Prop where
  listed : paOf s q ≠ 0 → s.frameUsed (paOf s q) = true →
    (cowOf s (paOf s q) = 1 ∧ choices[1]? ≠ some q) ∨ Elsewhere s (· = q) (paOf s q)
  inUse : paOf s q ≠ 0 → cowOf s (paOf s q) = 1 → choices[1]? ≠ some q →
    s.frameUsed (paOf s q) = true
  notNew : choices[1]? = some q → ∀ pa, choices[0]? = some pa → cowOf s pa ≠ 1

def FreedOnce (s s' : Kernel) : Prop :=
  ∀ pa, pa ≠ 0 → pa ∈ s'.freed →
    s.frameUsed pa = true ∧ s'.frameUsed pa = false ∧ s'.freed.count pa = 1

theorem freed_once_of_none (none : s'.freed = []) : FreedOnce s s' := by
  intro pa _ mem
  rw [none] at mem
  cases mem

theorem KeptInv.fresh_frame (inv : KeptInv s lists) {pa : Nat} {rest : List Nat}
    {bytes : Nat → Nat} {m : Kernel} {lists₂ : Nat → List Nat}
    (grows : Extends (s.fresh pa rest bytes) lists m lists₂)
    (listed : pa ≠ 0 → ∃ t ∈ m.live, ∃ q ∈ lists₂ t, paOf m q = pa) : KeptInv m lists₂ := by
  refine ⟨grows.owned, grows.aligned, fun x real used => ?_⟩
  rcases grows.frames x real used with before | found
  · by_cases new : pa ≠ 0 ∧ x = pa
    · rw [new.2]
      exact listed new.1
    · have old : s.frameUsed x = true := by
        by_cases null : pa = 0
        · simpa [Kernel.fresh, Kernel.written, Kernel.pageTaken, null] using before
        · have apart : x ≠ pa := fun same => new ⟨null, same⟩
          simpa [Kernel.fresh, Kernel.written, Kernel.pageTaken, null,
            Function.update_of_ne apart] using before
      obtain ⟨t, live, q, hq, page⟩ := inv.kept x real old
      obtain ⟨hq', same⟩ := grows.entries t (by rw [live_fresh]; exact live) q hq
      exact ⟨t, grows.live t (by rw [live_fresh]; exact live), q, hq', same.trans
        (by rw [pa_fresh]; exact page)⟩
  · exact found

section Copied

variable {left right rest rest' : List Nat} {q p pa prot : Nat} {bytes : Nat → Nat}

/-- The page that loses a count, the new one where its node is the freed one, is given back only
    where it was in use. -/
theorem copied_given_back {choices : List Nat} (chosen : choices = pa :: p :: rest')
    (keeps : CopyKeeps s choices q) {m : Kernel}
    (copied : m = s.copied t pa q p prot left rest rest' bytes) (nonzero : paOf m q ≠ 0)
    (last : cowOf m (paOf m q) - 1 = 0) : s.frameUsed (paOf m q) = true := by
  have cow : cowOf m (paOf m q) = cowOf s (paOf m q) := copied ▸ copied_fields.2.2.1 _
  have read : paOf m q = if p = q then pa else paOf s q := copied ▸ pa_copied_freed
  have second : choices[1]? = some q ↔ p = q := by
    rw [chosen]
    exact Option.some_inj
  rw [cow] at last
  rw [read] at last nonzero ⊢
  by_cases reused : p = q
  · rw [if_pos reused] at last
    have not_one := keeps.notNew (second.mpr reused) pa (by rw [chosen]; rfl)
    omega
  · rw [if_neg reused] at last nonzero ⊢
    exact keeps.inUse nonzero (by omega) fun h => reused (second.mp h)

theorem copied_freed_once (none : s.freed = []) {choices : List Nat}
    (chosen : choices = pa :: p :: rest') (keeps : CopyKeeps s choices q) {m : Kernel}
    (copied : m = s.copied t pa q p prot left rest rest' bytes) :
    FreedOnce s (m.dropped (paOf m q)) := by
  have freed : m.freed = [] := (copied ▸ copied_fields.2.2.2 : m.freed = s.freed).trans none
  intro x nonzero mem_freed
  simp only [Kernel.dropped, freed] at mem_freed ⊢
  split at mem_freed
  · rename_i last
    rw [List.mem_singleton] at mem_freed
    subst mem_freed
    rw [if_pos last, if_pos last]
    exact ⟨copied_given_back chosen keeps copied nonzero last, Function.update_self .., by simp⟩
  · cases mem_freed

theorem dropped_used {m : Kernel} {x page : Nat} (used : (m.dropped page).frameUsed x = true) :
    m.frameUsed x = true ∧ ¬(m.cowTable (cowIndex page) - 1 = 0 ∧ x = page) := by
  simp only [Kernel.dropped] at used
  split at used
  · by_cases same : x = page
    · rw [same, Function.update_self] at used
      cases used
    · rw [Function.update_of_ne same] at used
      exact ⟨used, fun h => same h.2⟩
  · rename_i more
    exact ⟨used, fun h => more h.1⟩

theorem KeptInv.copied (inv : KeptInv s lists) (live : t ∈ s.live)
    (split : lists t = left ++ q :: right) (real : p ≠ 0)
    (fresh : p = q ∨ s.nodeUsed p = false) (filled : pa ≠ 0) (aligned : pa % pgsize = 0)
    {choices : List Nat} (chosen : choices = pa :: p :: rest')
    (keeps : CopyKeeps s choices q) {m : Kernel}
    (copied : m = s.copied t pa q p prot left rest rest' bytes) :
    KeptInv (m.dropped (paOf m q)) (Function.update lists t (p :: (left ++ right))) := by
  obtain ⟨same_live, frames, cow, _⟩ : m.live = s.live ∧ _ ∧ _ ∧ _ := copied ▸ copied_fields
  have apart : ∀ t' ∈ s.live, ∀ q' ∈ lists t', q' ≠ q → q' ≠ p := by
    rintro t' ht' q' hq' ne rfl
    rcases fresh with rfl | fresh
    · exact ne rfl
    · rw [(inv.owned.holds t' ht').used q' hq'] at fresh
      cases fresh
  have pas : ∀ t' ∈ s.live, ∀ q' ∈ lists t', q' ≠ q → paOf m q' = paOf s q' := by
    intro t' ht' q' hq' ne
    rw [copied]
    exact pa_copied (apart t' ht' q' hq' ne)
  have head : paOf m p = pa := by
    rw [copied]
    exact pa_copied_here
  refine ⟨?_, fun t' ht' p' hp' => ?_, fun x nonzero used => ?_⟩
  · have owned : Owned m (Function.update lists t (p :: (left ++ right))) := by
      rw [copied]
      exact owned_copied inv.owned live split real fresh
    exact owned.congr rfl rfl rfl rfl (fun _ => rfl) fun _ => rfl
  · have live' : t' ∈ s.live := same_live ▸ ht'
    have same_pa : paOf (m.dropped (paOf m q)) = paOf m := rfl
    rw [same_pa]
    rcases (mem_moved inv.owned live split live').mp hp' with ⟨_, rfl⟩ | ⟨old, ne⟩
    · rw [head]
      exact aligned
    · rw [pas t' live' p' old ne]
      exact inv.aligned t' live' p' old
  · obtain ⟨in_use, still⟩ := dropped_used used
    by_cases new : x = pa
    · refine ⟨t, same_live ▸ live, p, (mem_moved inv.owned live split live).mpr (.inl ⟨rfl, rfl⟩),
        ?_⟩
      rw [new]
      exact head
    · have before : s.frameUsed x = true := by
        rw [frames] at in_use
        simpa [Kernel.fresh, Kernel.written, Kernel.pageTaken, filled,
          Function.update_of_ne new] using in_use
      obtain ⟨t', live', q', hq', ne, page⟩ := inv.still_listed (· = q) nonzero before
        (by
          rintro t' _ q' _ rfl rfl
          rcases keeps.listed nonzero before with ⟨one, other⟩ | safe
          · have not_reused : p ≠ q' := by
              intro reused
              refine other ?_
              rw [chosen, reused]
              rfl
            have read : paOf m q' = if p = q' then pa else paOf s q' := copied ▸ pa_copied_freed
            rw [if_neg not_reused] at read
            refine absurd ⟨?_, read.symm⟩ still
            have last : cowOf m (paOf m q') - 1 = 0 := by
              rw [cow, read]
              omega
            exact last
          · exact safe)
      refine ⟨t', same_live ▸ live', q', (mem_moved inv.owned live split live').mpr
        (.inr ⟨hq', ne⟩), ?_⟩
      exact (pas t' live' q' hq' ne).trans page

end Copied

/-- page_fault loses no page: outside the user area nothing may be allocated, and the page a copy
    replaces is given back or listed elsewhere. -/
theorem KeptInv.fault {va pa : Nat} {rest choices : List Nat}
    (effect : FaultEffect t va pa rest s lists s' lists') (inv : KeptInv s lists)
    (live : t ∈ s.live) (none : s.freed = []) (chosen : choices = pa :: rest)
    (page_fresh : pa ≠ 0 → s.frameUsed pa = false ∧ pa % pgsize = 0)
    (inside : ¬InArea va → pa = 0)
    (keeps : InArea va → ∀ q ∈ lists t, vaOf s q = va → CopyKeeps s choices q) :
    KeptInv s' lists' ∧ FreedOnce s s' := by
  have aligned : pa % pgsize = 0 := by
    by_cases null : pa = 0
    · rw [null]
      rfl
    · exact (page_fresh null).2
  have live' : ∀ bytes, t ∈ (s.fresh pa rest bytes).live := fun _ => by
    rw [live_fresh]
    exact live
  have aligned' : ∀ bytes, ∀ t' ∈ (s.fresh pa rest bytes).live, ∀ p ∈ lists t',
      paOf (s.fresh pa rest bytes) p % pgsize = 0 := fun _ => by
    rw [live_fresh, pa_fresh]
    exact inv.aligned
  cases effect with
  | outside out same =>
    have null := inside out
    subst null
    have taken : s.pageTaken 0 rest = { s with choices := rest } := if_pos rfl
    have grows : Extends s lists (s.pageTaken 0 rest) lists := by
      rw [taken]
      exact inv.unchanged (inv.owned.congr rfl rfl rfl rfl (fun _ => rfl) fun _ => rfl) rfl rfl rfl
        rfl
    refine ⟨(inv.extends grows).extends (same.extends (inv.extends grows)), freed_once_of_none ?_⟩
    rw [same.freed, freed_taken, none]
  | @newArea _ bytes node areas p rest' page new _ _ _ _ real fresh same =>
    have new' : va ∉ (lists t).map (vaOf ((s.fresh pa rest bytes).withAreas t areas)) := by
      have kept : vaOf ((s.fresh pa rest bytes).withAreas t areas) =
        vaOf (s.fresh pa rest bytes) := rfl
      rw [kept, va_fresh]
      exact new
    have fresh' : ((s.fresh pa rest bytes).withAreas t areas).nodeUsed p = false := by
      have kept : ((s.fresh pa rest bytes).withAreas t areas).nodeUsed =
        (s.fresh pa rest bytes).nodeUsed := rfl
      rw [kept, node_used_fresh]
      exact fresh
    have mapped : Extends ((s.fresh pa rest bytes).withAreas t areas) lists
        (((s.fresh pa rest bytes).withAreas t areas).mapped t va pa (protRead ||| protWrite) p false
          rest') _ :=
      KeptInv.mapped ((inv.owned.fresh pa rest bytes).withAreas t areas) (aligned' bytes)
        (live' bytes) page new' real fresh' aligned
    have grows : Extends (s.fresh pa rest bytes) lists _ _ := ⟨mapped.owned, mapped.aligned,
      mapped.live, mapped.entries, mapped.frames, mapped.freed⟩
    have listed := inv.fresh_frame grows fun _ => ⟨t, live' bytes, p, by
      rw [Function.update_self]; exact List.mem_cons_self, by rw [paOf, nodes_mapped_here]⟩
    refine ⟨listed.extends (same.extends listed), freed_once_of_none ?_⟩
    rw [same.freed]
    exact mapped.freed.trans ((freed_fresh : (s.fresh pa rest bytes).freed = s.freed).trans none)
  | @newPage _ bytes vma p rest' page new _ _ real fresh same =>
    have mapped : Extends (s.fresh pa rest bytes) lists
        ((s.fresh pa rest bytes).mapped t va pa vma.vmProt p false rest') _ :=
      KeptInv.mapped (inv.owned.fresh pa rest bytes) (aligned' bytes) (live' bytes) page
        (by rw [va_fresh]; exact new) real (by rw [node_used_fresh]; exact fresh) aligned
    have listed := inv.fresh_frame mapped fun _ => ⟨t, live' bytes, p, by
      rw [Function.update_self]; exact List.mem_cons_self, by rw [paOf, nodes_mapped_here]⟩
    refine ⟨listed.extends (same.extends listed), freed_once_of_none ?_⟩
    rw [same.freed, mapped.freed, freed_fresh, none]
  | @copied m _ bytes vma left right q p rest' split here _ taken real fresh filled moved same =>
    subst here
    have mem : q ∈ lists t := by simp [split]
    have page := (inv.owned.holds t live).page q mem
    have order : choices = pa :: p :: rest' := by rw [chosen, taken]
    have kept := inv.copied live split real fresh filled aligned order (keeps page.1 q mem rfl) moved
    have freed := copied_freed_once none order (keeps page.1 q mem rfl) moved
    refine ⟨kept.extends (same.extends kept), fun x nonzero hx => ?_⟩
    rw [same.freed] at hx ⊢
    rw [same.frameUsed]
    exact freed x nonzero hx

theorem KeptInv.copy_walk {ahead : List Nat} (walk : CopyWalk t c s lists ahead s' lists')
    (owned : Owned s lists) (aligned : ∀ t ∈ s.live, ∀ p ∈ lists t, paOf s p % pgsize = 0)
    (live : t ∈ s.live) (child : c ∈ s.live) : Extends s lists s' lists' := by
  induction walk with
  | done => exact ⟨owned, aligned, fun _ h => h, fun _ _ _ h => ⟨h, rfl⟩, fun _ _ h => .inl h, rfl⟩
  | @page s _ lists _ rest choices x p vma mem new found chosen real fresh _ ih =>
    have page := (owned.holds t live).page x mem
    have mapped : Extends s lists (s.mapped c (vaOf s x) (paOf s x) vma.vmProt p true choices) _ :=
      KeptInv.mapped owned aligned child page new real fresh (aligned t live x mem)
    exact mapped.trans (ih mapped.owned mapped.aligned live child)

theorem KeptInv.fork {s₁ s₂ s₃ s₄ : Kernel} {lists₂ lists₄ : Nat → List Nat}
    {choices : List Nat} {areas : List VmArea}
    (effect : ForkEffect t c s lists s₁ s₂ s₃ s₄ s' lists₂ lists₄ choices areas)
    (inv : KeptInv s lists) (live : t ∈ s.live) (closed : ∀ q ∈ lists t, Closed s t q)
    (nulls : ∀ pa ∈ (s.choices.drop 1).take ((lists t).countP fun q => cowOf s (paOf s q) = 0),
      pa = 0) : Extends s lists s' lists₄ := by
  have dead : c ∉ s.live := fun h => by
    have := effect.unused
    rw [inv.owned.taskUsed c h] at this
    cases this
  have other : t ≠ c := fun same => dead (same ▸ live)
  have made : Extends s lists ({ s with
      choices := choices, taskUsed := Function.update s.taskUsed c true }.created c) _ :=
    inv.created effect.unused
  have begun := made.trans (effect.created.extends (inv.extends made))
  have pas : paOf s₁ = paOf s := effect.created.paOf
  have vas : vaOf s₁ = vaOf s := effect.created.vaOf
  have cows : ∀ y, cowOf s₁ y = cowOf s y := fun y => by
    rw [cowOf, effect.created.cowTable]
    rfl
  have areas₁ : (s₁.tasks t).vmAreas = (s.tasks t).vmAreas := by
    rw [effect.created.areas]
    simp [Kernel.created, Kernel.setLock, Function.update_of_ne other]
  obtain ⟨same_lists, choices', frames, walked, _, nothing⟩ := cow_walk_closed effect.cow
    (fun q hq => by
      rw [Closed, pas, vas, areas₁, cows]
      exact closed q hq)
  have same_frames : frames = s₁.frameUsed := by
    refine nothing ?_
    rw [pas, effect.created.choices]
    simp only [cows]
    rw [effect.chosen] at nulls
    exact nulls
  subst same_frames
  subst same_lists
  have inv₁ := inv.extends begun
  have moved : Extends s₁ (Function.update lists c []) s₂ (Function.update lists c []) := by
    rw [walked]
    exact inv₁.unchanged (inv₁.owned.congr rfl rfl rfl rfl (fun _ => rfl) fun _ => rfl) rfl rfl rfl
      rfl
  have inv₂ := inv₁.extends moved
  have given := inv₂.withAreas (t := c) areas
  have copied := given.trans (effect.areas_copied.extends (inv₂.extends given))
  have inv₃ := inv₂.extends copied
  have live₃ : s₃.live = c :: s.live := by
    rw [effect.areas_copied.live]
    have live₂ : s₂.live = s₁.live := live_cow_walk effect.cow
    exact live₂.trans effect.created.live
  have pages := KeptInv.copy_walk effect.copied inv₃.owned inv₃.aligned
    (by rw [live₃]; exact List.mem_cons_of_mem _ live) (by rw [live₃]; exact List.mem_cons_self)
  have all := begun.trans (moved.trans (copied.trans pages))
  exact all.trans (effect.finished.extends (inv.extends all))

end Calls

section Destroy

variable {s s' : Kernel} {lists : Nat → List Nat} {t : Nat}

def RunsOut (s : Kernel) (frames : List Nat) (pa : Nat) : Prop :=
  1 ≤ cowOf s pa ∧ cowOf s pa ≤ frames.count pa

theorem destroy_walk_frames {list : List Nat} (walk : DestroyWalk s list s')
    (aligned : ∀ q ∈ list, paOf s q % pgsize = 0) {x : Nat} (page : x % pgsize = 0) :
    (RunsOut s (list.map (paOf s)) x →
      s'.frameUsed x = false ∧ s'.freed.count x = s.freed.count x + 1) ∧
    (¬RunsOut s (list.map (paOf s)) x →
      s'.frameUsed x = s.frameUsed x ∧ s'.freed.count x = s.freed.count x) := by
  induction walk with
  | done s =>
    refine ⟨fun out => ?_, fun _ => ⟨rfl, rfl⟩⟩
    obtain ⟨some, few⟩ := out
    rw [List.map_nil, List.count_nil] at few
    omega
  | @page s s' rest q walk ih =>
    have here := aligned q List.mem_cons_self
    have rest_aligned : ∀ p ∈ rest, paOf s p % pgsize = 0 :=
      fun p hp => aligned p (List.mem_cons_of_mem _ hp)
    have lowered : cowOf (s.dropped (paOf s q)) x = cowOf s x - if x = paOf s q then 1 else 0 :=
      cow_dropped page here
    obtain ⟨used, freed⟩ : _ ∧ (s.dropped (paOf s q)).freed.count x = _ := dropped_frame
    have later : (RunsOut (s.dropped (paOf s q)) (rest.map (paOf s)) x →
        s'.frameUsed x = false ∧ s'.freed.count x = (s.dropped (paOf s q)).freed.count x + 1) ∧
        (¬RunsOut (s.dropped (paOf s q)) (rest.map (paOf s)) x →
          s'.frameUsed x = (s.dropped (paOf s q)).frameUsed x ∧
            s'.freed.count x = (s.dropped (paOf s q)).freed.count x) := ih rest_aligned
    rw [RunsOut, lowered, used, freed] at later
    rw [List.map_cons, RunsOut]
    by_cases same : x = paOf s q
    · simp only [same, if_true, true_and] at later ⊢
      rw [List.count_cons_self]
      by_cases one : cowOf s (paOf s q) = 1
      · rw [if_pos one, if_pos one] at later
        obtain ⟨gone, count⟩ := later.2 (by omega)
        exact ⟨fun _ => ⟨gone, count⟩, fun more => absurd ⟨by omega, by omega⟩ more⟩
      · rw [if_neg one, if_neg one, Nat.add_zero] at later
        exact ⟨fun out => later.1 ⟨by omega, by omega⟩, fun more => later.2 fun out =>
          more ⟨by omega, by omega⟩⟩
    · rw [List.count_cons_of_ne (Ne.symm same)]
      simpa only [if_neg same, same, false_and, if_false, Int.sub_zero, Nat.add_zero] using later

theorem destroy_walk_only {list : List Nat} (walk : DestroyWalk s list s') :
    (∀ x, s'.frameUsed x = true → s.frameUsed x = true) ∧
      ∀ x ∈ s'.freed, x ∈ s.freed ∨ x ∈ list.map (paOf s) := by
  induction walk with
  | done => exact ⟨fun _ h => h, fun _ h => .inl h⟩
  | @page s s' rest q _ ih =>
    obtain ⟨used, freed⟩ := ih
    refine ⟨fun x hx => ?_, fun x hx => ?_⟩
    · have before : (s.dropped (paOf s q)).frameUsed x = true := used x hx
      rw [dropped_frame.1] at before
      split at before
      · cases before
      · exact before
    · rw [List.map_cons, List.mem_cons]
      rcases freed x hx with before | listed
      · simp only [Kernel.dropped] at before
        split at before
        · rcases List.mem_cons.mp before with here | before
          · exact .inr (.inl here)
          · exact .inl before
        · exact .inl before
      · exact .inr (.inr listed)

/-- The pages of a process that ends are given back, and were in use, or listed elsewhere. -/
structure DestroyKeeps (s : Kernel) (t : Nat) (list : List Nat) : Prop where
  listed : ∀ q ∈ list, paOf s q ≠ 0 → s.frameUsed (paOf s q) = true →
    RunsOut s (list.map (paOf s)) (paOf s q) ∨ Elsewhere s (OnList s t) (paOf s q)
  inUse : ∀ q ∈ list, paOf s q ≠ 0 → RunsOut s (list.map (paOf s)) (paOf s q) →
    s.frameUsed (paOf s q) = true

theorem KeptInv.destroyed (inv : KeptInv s lists) (live : t ∈ s.live) (none : s.freed = [])
    (walk : DestroyWalk s (lists t) s') (keeps : DestroyKeeps s t (lists t)) :
    KeptInv { s' with live := s'.live.erase t } lists ∧
      FreedOnce s { s' with live := s'.live.erase t } := by
  obtain ⟨nodes, _, same_live, _⟩ := destroy_walk_frame walk
  obtain ⟨used_before, freed_frames⟩ := destroy_walk_only walk
  have frames : ∀ x, x % pgsize = 0 → _ ∧ _ := fun x page =>
    destroy_walk_frames walk (inv.aligned t live) page
  have pas : paOf { s' with live := s'.live.erase t } = paOf s := pa_of_nodes nodes
  refine ⟨⟨inv.owned.destroyed live walk, fun t' ht' p hp => ?_, fun x nonzero used => ?_⟩,
    fun x nonzero mem => ?_⟩
  · rw [pas]
    refine inv.aligned t' ?_ p hp
    rw [← same_live]
    exact List.mem_of_mem_erase ht'
  · have before := used_before x used
    obtain ⟨t', live', q', hq', away, page⟩ := inv.still_listed (OnList s t) nonzero before
      (by
        rintro t' live' q hq on_list rfl
        refine (keeps.listed q ((inv.owned.on_list live).mp on_list) nonzero before).resolve_left
          fun out => ?_
        have gone := ((frames _ (inv.aligned t' live' q hq)).1 out).1
        exact absurd (used.symm.trans gone) (by decide))
    have other : t' ≠ t := by
      rintro rfl
      exact away ((inv.owned.on_list live').mpr hq')
    refine ⟨t', ?_, q', hq', by rw [pas]; exact page⟩
    rw [same_live]
    exact (inv.owned.nodup.mem_erase_iff).mpr ⟨other, live'⟩
  · have listed := (freed_frames x mem).resolve_left (by rw [none]; exact List.not_mem_nil)
    obtain ⟨q, hq, rfl⟩ := List.mem_map.mp listed
    have page := inv.aligned t live q hq
    by_cases out : RunsOut s ((lists t).map (paOf s)) (paOf s q)
    · obtain ⟨gone, count⟩ := (frames _ page).1 out
      rw [none, List.count_nil] at count
      exact ⟨keeps.inUse q hq nonzero out, gone, count⟩
    · have count := ((frames _ page).2 out).2
      rw [none, List.count_nil, List.count_eq_zero] at count
      exact absurd mem count

end Destroy

section Run

def FaultKeepsPages (s : Kernel) (e : Event) (t ref : Nat) : Prop :=
  (¬InArea (roundDown ref) → e.choices[0]? = some 0) ∧
    ∀ q, OnList s t q → vaOf s q = roundDown ref → CopyKeeps s e.choices q

def KeepsPages (s : Kernel) (e : Event) : Prop :=
  match e.call with
  | .create => True
  | .pageFault t ref => FaultKeepsPages s e t ref
  | .userStore t ref _ =>
    (∀ pa, (s.tasks t).translate ref ≠ some ⟨pa, true⟩) → FaultKeepsPages s e t ref
  | .kmmap t addr length _ flags =>
    let lo := roundDown addr
    let hi := roundUp (addLength addr length)
    flags = mapUnmap → findVmeNode (s.tasks t).vmAreas lo hi ≠ none →
      ∀ q, OnList s t q → lo ≤ vaOf s q → vaOf s q < hi → paOf s q ≠ 0 →
        s.frameUsed (paOf s q) = true → Elsewhere s
          (fun q' => OnList s t q' ∧ lo ≤ vaOf s q' ∧ vaOf s q' < hi) (paOf s q)
  | .kfork t => ∃ list, Linked (nextOf s) 0 (headOf s t) list ∧ (∀ q ∈ list, Closed s t q) ∧
      ∀ pa ∈ (e.choices.drop 1).take (list.countP fun q => cowOf s (paOf s q) = 0), pa = 0
  | .destroyMappedPages t =>
    ∃ list, Linked (nextOf s) 0 (headOf s t) list ∧ DestroyKeeps s t list

/-- Every page in use is on the list of a live process. -/
def PagesListed (s : Kernel) : Prop :=
  ∀ pa, pa ≠ 0 → s.frameUsed pa = true → ∃ t ∈ s.live, ∃ q, OnList s t q ∧ paOf s q = pa

/-- The call frees only pages that are in use, none of them twice. -/
def FreesOnce (s : Kernel) (e : Event) : Prop := ∀ s', step s e = some s' → FreedOnce s s'

theorem KeptInv.begun {s : Kernel} {lists : Nat → List Nat} (inv : KeptInv s lists) (e : Event)
    (t : Nat) : KeptInv (s.begun e t) lists :=
  ⟨inv.owned.begun e t, inv.aligned, inv.kept⟩

theorem kept_step_fault {s s' : Kernel} {e : Event} {lists lists' : Nat → List Nat}
    {t ref pa : Nat} {rest : List Nat} (inv : KeptInv s lists) (live : t ∈ s.live)
    (chosen : e.choices = pa :: rest)
    (page_fresh : pa ≠ 0 → s.frameUsed pa = false ∧ pa % pgsize = 0)
    (effect : FaultEffect t (roundDown ref) pa rest (s.begun e t) lists s' lists')
    (keeps : FaultKeepsPages s e t ref) : KeptInv s' lists' ∧ FreedOnce s s' := by
  have both := (inv.begun e t).fault effect live rfl chosen page_fresh
    (fun out => by
      have null := keeps.1 out
      rw [chosen] at null
      exact Option.some.inj null)
    (fun _ q hq here => by
      obtain ⟨listed, inUse, notNew⟩ := keeps.2 q ((inv.owned.on_list live).mpr hq) here
      exact ⟨listed, inUse, notNew⟩)
  exact ⟨both.1, both.2⟩

theorem kept_step {s s' : Kernel} {e : Event} {lists : Nat → List Nat} (inv : KeptInv s lists)
    (keeps : KeepsPages s e) (taken : step s e = some s') :
    (∃ lists', KeptInv s' lists') ∧ FreedOnce s s' := by
  have grown : ∀ {t : Nat} {m : Kernel} {lists' : Nat → List Nat},
      Extends (s.begun e t) lists m lists' → (∃ lists', KeptInv m lists') ∧ FreedOnce s m :=
    fun grows => ⟨⟨_, (inv.begun e _).extends grows⟩, freed_once_of_none grows.freed⟩
  obtain ⟨lists', effect⟩ := step_effect inv.owned taken
  cases effect with
  | @create _ c choices called unused same =>
    have made : Extends _ lists ({ s.begun e s.currentTask with
        choices := choices, taskUsed := Function.update s.taskUsed c true }.created c) _ :=
      (inv.begun e s.currentTask).created unused
    exact grown (made.trans (same.extends ((inv.begun e s.currentTask).extends made)))
  | @fault _ t ref pa rest _ called live chosen page_fresh effect =>
    rcases called with called | ⟨byte, called⟩ <;> simp only [KeepsPages, called] at keeps
    · obtain ⟨inv', freed⟩ := kept_step_fault inv live chosen page_fresh effect keeps
      exact ⟨⟨_, inv'⟩, freed⟩
    · by_cases hit : ∃ pa, (s.tasks t).translate ref = some ⟨pa, true⟩
      · obtain ⟨pa', hit⟩ := hit
        have stored := step_store_hit called hit taken
        subst stored
        exact ⟨⟨lists, inv.owned.congr rfl rfl rfl rfl (fun _ => rfl) fun _ => rfl, inv.aligned,
          inv.kept⟩, freed_once_of_none rfl⟩
      · obtain ⟨inv', freed⟩ := kept_step_fault inv live chosen page_fresh effect
          (keeps fun pa found => hit ⟨pa, found⟩)
        exact ⟨⟨_, inv'⟩, freed⟩
  | @mmap _ t addr length prot flags _ called live effect =>
    simp only [KeepsPages, called] at keeps
    obtain ⟨_, r, ran⟩ := step_mmap called taken
    cases effect with
    | @area _ _ areas _ _ _ _ same =>
      have given := (inv.begun e t).withAreas (t := t) areas
      exact grown (given.trans (same.extends ((inv.begun e t).extends given)))
    | outside _ same => exact grown (same.extends (inv.begun e t))
    | pages unmaps before gone after =>
      subst unmaps
      by_cases outside : findVmeNode (s.tasks t).vmAreas (roundDown addr)
          (roundUp (addLength addr length)) = none
      · rw [kmunmap_outside (s := s.begun e t) outside ran]
        exact ⟨⟨lists, inv.begun e t⟩, freed_once_of_none rfl⟩
      · have safe := keeps rfl outside
        have start := (inv.begun e t).extends (before.extends (inv.begun e t))
        have unmapped : KeptInv _ lists' := start.unmaps gone (before.live ▸ live) (by
          intro q hq
          rw [before.vaOf, before.paOf, before.frameUsed]
          intro lower upper nonzero used
          obtain ⟨t', live', q', on_list, away, page⟩ :=
            safe q ((inv.owned.on_list live).mpr hq) lower upper nonzero used
          refine ⟨t', by rw [before.live]; exact live', q', before.on_list.mpr on_list, ?_, by
            rw [before.paOf]; exact page⟩
          rintro ⟨listed, range⟩
          exact away ⟨before.on_list.mp listed, range⟩)
        refine ⟨⟨_, unmapped.extends (after.extends unmapped)⟩, freed_once_of_none ?_⟩
        exact after.freed.trans ((freed_unmaps gone).1.trans before.freed)
  | @fork _ _ _ _ _ t c _ _ _ _ called live effect =>
    simp only [KeepsPages, called] at keeps
    obtain ⟨list, linked, closed, nulls⟩ := keeps
    have same := linked_unique (inv.owned.holds t live).linked linked
    subst same
    exact grown ((inv.begun e t).fork effect live closed nulls)
  | @destroy s₁ t called live walk =>
    simp only [KeepsPages, called] at keeps
    obtain ⟨list, linked, safe⟩ := keeps
    have same := linked_unique (inv.owned.holds t live).linked linked
    subst same
    obtain ⟨inv', freed⟩ := (inv.begun e t).destroyed live rfl walk ⟨safe.listed, safe.inUse⟩
    exact ⟨⟨_, inv'⟩, freed⟩
  | store called live found =>
    exact ⟨⟨lists, inv.owned.congr rfl rfl rfl rfl (fun _ => rfl) fun _ => rfl, inv.aligned,
      inv.kept⟩, freed_once_of_none rfl⟩

theorem kept_start (nodes : Nat → MPage) (phys : Nat → Nat → Nat) (initCode : List Nat) :
    KeptInv (uprocInit nodes phys initCode) fun _ => [] :=
  ⟨(mirror_start nodes phys initCode).owned, nofun, nofun⟩

theorem KeptInv.listed {s : Kernel} {lists : Nat → List Nat} (inv : KeptInv s lists) :
    PagesListed s := by
  intro pa nonzero used
  obtain ⟨t, live, q, hq, page⟩ := inv.kept pa nonzero used
  exact ⟨t, live, q, (inv.owned.on_list live).mpr hq, page⟩

/-- In a run of calls that keep the pages none is leaked and none is freed twice. -/
theorem pages_conserved_when_kept (nodes : Nat → MPage) (phys : Nat → Nat → Nat)
    (initCode : List Nat) (events : List Event)
    (keeps : EachStep step KeepsPages (uprocInit nodes phys initCode) events) :
    Throughout step PagesListed (uprocInit nodes phys initCode) events ∧
      EachStep step FreesOnce (uprocInit nodes phys initCode) events := by
  have start : ∃ lists, KeptInv (uprocInit nodes phys initCode) lists :=
    ⟨_, kept_start nodes phys initCode⟩
  constructor
  · have throughout := throughout_of_each_step
      (fun s e s' (inv : ∃ lists, KeptInv s lists) keeps taken =>
        (kept_step inv.choose_spec keeps taken).1) events start keeps
    exact throughout_mono (fun s ⟨_, inv⟩ => inv.listed) throughout
  · refine each_step_of_each_step (fun s e s' (inv : ∃ lists, KeptInv s lists) keeps taken =>
      ⟨(kept_step inv.choose_spec keeps taken).1, fun s'' again => ?_⟩) events start keeps
    exact (kept_step inv.choose_spec keeps again).2

/-- A page of a read-only area is faulted in and shared by a fork for which pmm->alloc fails, and
    the child ends. -/
def readOnlyPage : List Event :=
  [⟨.create, [1], 9⟩, ⟨.kmmap 1 0x100000005000 100 protRead mapPrivate, [], 9⟩,
    ⟨.pageFault 1 0x100000005010, [0x5000, 100], 9⟩, ⟨.kfork 1, [2, 0, 101], 9⟩,
    ⟨.destroyMappedPages 2, [], 9⟩]

theorem read_only_page_kept : EachStep step KeepsPages emptyKernel readOnlyPage := by
  intro s₁ taken₁
  refine ⟨trivial, fun s₂ taken₂ => ⟨fun unmaps => absurd unmaps (by decide),
    fun s₃ taken₃ => ?_⟩⟩
  have ran₂ : run step emptyKernel (readOnlyPage.take 2) = some s₂ := by
    simp only [readOnlyPage, List.take, run, taken₁, taken₂]
  have ran₃ : run step emptyKernel (readOnlyPage.take 3) = some s₃ := by
    simp only [readOnlyPage, List.take, run, taken₁, taken₂, taken₃]
  refine ⟨?_, fun s₄ taken₄ => ⟨?_, fun s₅ taken₅ => ⟨?_, trivial⟩⟩⟩
  · have computed : (run step emptyKernel (readOnlyPage.take 2)).map (fun s => headOf s 1) =
        some 0 := by decide +kernel
    have head := run_facts computed ran₂
    refine ⟨fun out => absurd (by decide) out, fun q hq => ?_⟩
    have mem : q ∈ [] := hq.mem head
    cases mem
  · have computed : (run step emptyKernel (readOnlyPage.take 3)).map (fun s =>
        (headOf s 1, nextOf s 100, cowOf s (paOf s 100), findVmeNode (s.tasks 1).vmAreas
          (vaOf s 100) (u64 (vaOf s 100 + pgsize)))) =
          some (100, 0, 0, some ⟨0x100000005000, 0x100000006000, 2, 2⟩) := by decide +kernel
    have facts := run_facts computed ran₃
    obtain ⟨head, tail⟩ := Prod.mk.inj facts
    obtain ⟨next, tail⟩ := Prod.mk.inj tail
    obtain ⟨cow, found⟩ := Prod.mk.inj tail
    refine ⟨[100], ⟨head, by decide, next⟩, fun q hq => ?_, ?_⟩
    · rw [List.mem_singleton] at hq
      subst hq
      refine .inr fun vma found' => ?_
      rw [found] at found'
      cases found'
      decide
    · simp [cow]
  · have ran₄ : run step emptyKernel (readOnlyPage.take 4) = some s₄ := by
      simp only [readOnlyPage, List.take, run, taken₁, taken₂, taken₃, taken₄]
    have computed : (run step emptyKernel (readOnlyPage.take 4)).map (fun s =>
        (headOf s 2, nextOf s 101, cowOf s (paOf s 101), s.frameUsed (paOf s 101))) =
          some (101, 0, 1, true) := by decide +kernel
    have facts := run_facts computed ran₄
    obtain ⟨head, tail⟩ := Prod.mk.inj facts
    obtain ⟨next, tail⟩ := Prod.mk.inj tail
    obtain ⟨cow, used⟩ := Prod.mk.inj tail
    have out : RunsOut s₄ ([101].map (paOf s₄)) (paOf s₄ 101) := by
      rw [RunsOut, cow]
      simp
    refine ⟨[101], ⟨head, by decide, next⟩, fun q hq _ _ => .inl ?_, fun q hq _ _ => ?_⟩ <;>
      rw [List.mem_singleton] at hq <;> subst hq
    · exact out
    · exact used

theorem pages_conserved_read_only_page : (run step emptyKernel readOnlyPage).isSome = true ∧
    Throughout step PagesListed emptyKernel readOnlyPage ∧
      EachStep step FreesOnce emptyKernel readOnlyPage :=
  ⟨by decide +kernel, pages_conserved_when_kept _ _ _ _ read_only_page_kept⟩

/-- The end of a process leaves its page in use and on no list. -/
theorem page_leaked_after_exit :
    ¬(Throughout step PagesListed emptyKernel
        [⟨.create, [1], 9⟩, ⟨.pageFault 1 0x100000001234, [0x5000, 100], 9⟩,
          ⟨.destroyMappedPages 1, [], 9⟩] ∧
      EachStep step FreesOnce emptyKernel
        [⟨.create, [1], 9⟩, ⟨.pageFault 1 0x100000001234, [0x5000, 100], 9⟩,
          ⟨.destroyMappedPages 1, [], 9⟩]) := by
  rintro ⟨all, _⟩
  have ends : ((run step emptyKernel
      [⟨.create, [1], 9⟩, ⟨.pageFault 1 0x100000001234, [0x5000, 100], 9⟩,
        ⟨.destroyMappedPages 1, [], 9⟩]).map fun s => (s.live, s.frameUsed 0x5000)) =
      some ([], true) := by
    decide +kernel
  obtain ⟨s, ran, ends⟩ := Option.map_eq_some_iff.mp ends
  obtain ⟨live, used⟩ := Prod.mk.inj ends
  obtain ⟨t, mem, _⟩ := throughout_of_run all ran 0x5000 (by decide) used
  rw [live] at mem
  cases mem

end Run

end Uproc
