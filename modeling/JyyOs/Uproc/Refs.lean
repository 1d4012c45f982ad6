import JyyOs.Uproc.StepEffects
import JyyOs.Library.Sharers

/-!
How many mapped-page entries of live processes name a page frame, and what each way of
changing a list does to that number.
-/
namespace Uproc

open Hoare LinkedList Sharers PartialRun

def framesOf (s : Kernel) (lists : Nat → List Nat) (t : Nat) : List Nat := (lists t).map (paOf s)

def refs (s : Kernel) (lists : Nat → List Nat) (pa : Nat) : Nat :=
  sharers s.live (framesOf s lists) pa

def cowOf (s : Kernel) (pa : Nat) : Int := s.cowTable (cowIndex pa)

def OnList (s : Kernel) (t q : Nat) : Prop :=
  ∃ list, Linked (nextOf s) 0 (headOf s t) list ∧ q ∈ list

section OnList

variable {s s' : Kernel} {lists : Nat → List Nat} {t q : Nat}

theorem OnList.mem (h : OnList s t q) {list : List Nat}
    (linked : Linked (nextOf s) 0 (headOf s t) list) : q ∈ list := by
  obtain ⟨list', linked', mem⟩ := h
  rwa [linked_unique linked linked']

theorem Owned.on_list (owned : Owned s lists) (live : t ∈ s.live) :
    OnList s t q ↔ q ∈ lists t :=
  ⟨fun h => h.mem (owned.holds t live).linked, fun mem => ⟨_, (owned.holds t live).linked, mem⟩⟩

end OnList

section Index

theorem cow_index_aligned {pa : Nat} (aligned : pa % pgsize = 0) : cowIndex pa * pgsize = pa := by
  simp only [cowIndex, roundDown, pgsize] at *
  omega

theorem cow_index_injective {pa pa' : Nat} (aligned : pa % pgsize = 0)
    (aligned' : pa' % pgsize = 0) (same : cowIndex pa = cowIndex pa') : pa = pa' := by
  rw [← cow_index_aligned aligned, ← cow_index_aligned aligned', same]

end Index

section Changes

theorem pa_of_nodes {s s' : Kernel} (nodes : s'.nodes = s.nodes) : paOf s' = paOf s := by
  funext p
  simp only [paOf, nodes]

variable {s s' : Kernel} {lists lists' : Nat → List Nat} {t x : Nat}

theorem refs_pos (live : t ∈ s.live) {q : Nat} (mem : q ∈ lists t) :
    0 < refs s lists (paOf s q) :=
  sharers_pos.mpr ⟨t, live, List.mem_map.mpr ⟨q, mem, rfl⟩⟩

theorem refs_congr (live : s'.live = s.live)
    (same : ∀ t ∈ s.live, framesOf s' lists' t = framesOf s lists t) :
    refs s' lists' x = refs s lists x := by
  rw [refs, live]
  exact sharers_congr fun t ht => by rw [same t ht]

theorem SameMemory.refs (same : SameMemory s s') : refs s' lists x = refs s lists x :=
  refs_congr same.live fun t _ => by rw [framesOf, same.paOf, framesOf]

theorem refs_changed (owned : Owned s lists) (ht : t ∈ s.live) (live : s'.live = s.live)
    (same : ∀ t' ∈ s.live, t' ≠ t → framesOf s' lists' t' = framesOf s lists t') :
    refs s' lists' x + (framesOf s lists t).count x =
      refs s lists x + (framesOf s' lists' t).count x := by
  rw [refs, live]
  exact sharers_changed ht owned.nodup fun t' ht' ne => by rw [same t' ht' ne]

theorem SameMemory.on_list (same : SameMemory s s') {q : Nat} : OnList s' t q ↔ OnList s t q := by
  have links : nextOf s' = nextOf s := by
    funext p
    simp only [nextOf, same.nodes]
  rw [OnList, OnList, links, same.heads]

theorem frames_mapped_old {va pa prot node : Nat} {cowCnt : Bool} {rest list : List Nat}
    (used : ∀ p ∈ list, s.nodeUsed p = true) (fresh : s.nodeUsed node = false) :
    list.map (paOf (s.mapped t va pa prot node cowCnt rest)) = list.map (paOf s) :=
  List.map_congr_left fun p hp => by simp only [paOf, nodes_mapped_used (used p hp) fresh]

theorem refs_mapped {va pa prot node : Nat} {cowCnt : Bool} {rest : List Nat}
    (owned : Owned s lists) (live : t ∈ s.live) (fresh : s.nodeUsed node = false) :
    refs (s.mapped t va pa prot node cowCnt rest) (Function.update lists t (node :: lists t)) x =
      refs s lists x + if x = pa then 1 else 0 := by
  have old : ∀ t' ∈ s.live, (lists t').map (paOf (s.mapped t va pa prot node cowCnt rest)) =
      (lists t').map (paOf s) := fun t' ht' =>
    frames_mapped_old (owned.holds t' ht').used fresh
  have changed : refs (s.mapped t va pa prot node cowCnt rest)
      (Function.update lists t (node :: lists t)) x + _ = _ := refs_changed owned live rfl
    fun t' ht' ne => by rw [framesOf, Function.update_of_ne ne, old t' ht', framesOf]
  have here : framesOf (s.mapped t va pa prot node cowCnt rest)
      (Function.update lists t (node :: lists t)) t = pa :: framesOf s lists t := by
    rw [framesOf, Function.update_self, List.map_cons, old t live, framesOf, paOf,
      nodes_mapped_here]
  rw [here, List.count_cons] at changed
  by_cases same : x = pa
  · simp only [same, beq_self_eq_true, if_true] at changed ⊢
    omega
  · have other : (pa == x) = false := by simpa using Ne.symm same
    simp only [other, if_neg same] at changed ⊢
    simp only [Bool.false_eq_true, if_false] at changed
    omega

theorem refs_unmapped {left right : List Nat} {va prev q : Nat} (owned : Owned s lists)
    (live : t ∈ s.live) (split : lists t = left ++ q :: right) :
    refs (s.unmapped t va prev q) (Function.update lists t (left ++ right)) x +
      (if x = paOf s q then 1 else 0) = refs s lists x := by
  have frames : ∀ list : List Nat, list.map (paOf (s.unmapped t va prev q)) = list.map (paOf s) :=
    fun list => List.map_congr_left fun p _ => pa_unmapped p
  have changed : refs (s.unmapped t va prev q)
      (Function.update lists t (left ++ right)) x + _ = _ := refs_changed owned live rfl
    fun t' ht' ne => by rw [framesOf, Function.update_of_ne ne, frames, framesOf]
  rw [framesOf, framesOf, Function.update_self, frames, split, List.map_append, List.map_append,
    List.map_cons, List.count_append, List.count_append, List.count_cons] at changed
  by_cases same : x = paOf s q
  · simp only [same, beq_self_eq_true, if_true] at changed ⊢
    omega
  · have other : (paOf s q == x) = false := by simpa using Ne.symm same
    simp only [other, if_neg same] at changed ⊢
    simp only [Bool.false_eq_true, if_false] at changed
    omega

theorem refs_replaced {left right rest : List Nat} {pa prot p q : Nat} {cowCnt : Bool}
    (owned : Owned s lists) (live : t ∈ s.live) (split : lists t = left ++ q :: right)
    (fresh : p = q ∨ s.nodeUsed p = false) :
    refs ((s.unmapped t (vaOf s q) (left.getLastD 0) q).mapped t (vaOf s q) pa prot p cowCnt rest)
      (Function.update lists t (p :: (left ++ right))) x + (if x = paOf s q then 1 else 0) =
      refs s lists x + if x = pa then 1 else 0 := by
  have gone : refs (s.unmapped t (vaOf s q) (left.getLastD 0) q) _ x + _ = _ :=
    refs_unmapped owned live split
  have back : refs ((s.unmapped t (vaOf s q) (left.getLastD 0) q).mapped t (vaOf s q) pa prot p
      cowCnt rest) _ x = _ :=
    refs_mapped (owned.unmapped live split) live (unused_unmapped fresh)
  rw [Function.update_self, Function.update_idem] at back
  omega

theorem refs_created {c : Nat} (dead : c ∉ s.live) (live : s'.live = c :: s.live)
    (nodes : s'.nodes = s.nodes) :
    refs s' (Function.update lists c []) x = refs s lists x := by
  rw [refs, live]
  refine sharers_new (by rw [framesOf, Function.update_self]; rfl) fun t ht => ?_
  have other : t ≠ c := fun same => dead (same ▸ ht)
  simp only [framesOf, Function.update_of_ne other, pa_of_nodes nodes]

theorem refs_left (ht : t ∈ s.live) (live : s'.live = s.live.erase t)
    (nodes : s'.nodes = s.nodes) :
    refs s' lists x + (framesOf s lists t).count x = refs s lists x := by
  have split : refs s lists x = _ := sharers_split ht
  have same : refs s' lists x = sharers (s.live.erase t) (framesOf s lists) x := by
    rw [refs, live]
    exact sharers_congr fun t' _ => by simp only [framesOf, pa_of_nodes nodes]
  omega

end Changes

section Fresh

variable {s : Kernel} {pa : Nat} {rest : List Nat} {bytes : Nat → Nat}

@[simp] theorem live_fresh : (s.fresh pa rest bytes).live = s.live := live_taken ..

@[simp] theorem nodes_fresh : (s.fresh pa rest bytes).nodes = s.nodes := nodes_taken ..

@[simp] theorem node_used_fresh : (s.fresh pa rest bytes).nodeUsed = s.nodeUsed :=
  node_used_taken ..

@[simp] theorem tasks_fresh : (s.fresh pa rest bytes).tasks = s.tasks := tasks_taken ..

@[simp] theorem freed_fresh : (s.fresh pa rest bytes).freed = s.freed := freed_taken ..

@[simp] theorem cow_table_fresh : (s.fresh pa rest bytes).cowTable = s.cowTable := cow_taken ..

@[simp] theorem va_fresh : vaOf (s.fresh pa rest bytes) = vaOf s := by
  funext p
  simp only [vaOf, nodes_fresh]

@[simp] theorem pa_fresh : paOf (s.fresh pa rest bytes) = paOf s := pa_of_nodes nodes_fresh

theorem refs_fresh {lists : Nat → List Nat} {x : Nat} :
    refs (s.fresh pa rest bytes) lists x = refs s lists x :=
  refs_congr live_fresh fun _ _ => by rw [framesOf, pa_fresh, framesOf]

theorem frame_taken {x : Nat} (free : (s.pageTaken pa rest).frameUsed x = false) :
    s.frameUsed x = false ∧ (pa ≠ 0 → x ≠ pa) := by
  by_cases null : pa = 0
  · rw [Kernel.pageTaken, if_pos null] at free
    exact ⟨free, fun real => absurd null real⟩
  · rw [Kernel.pageTaken, if_neg null] at free
    by_cases same : x = pa
    · subst same
      simp at free
    · simp only [Function.update_of_ne same] at free
      exact ⟨free, fun _ => same⟩

theorem taken_frames (pa : Nat) (rest : List Nat) : ∃ frames,
    s.pageTaken pa rest = { s with choices := rest, frameUsed := frames } ∧
      (∀ x, s.frameUsed x = true → frames x = true) ∧ (pa = 0 → frames = s.frameUsed) := by
  by_cases null : pa = 0
  · exact ⟨s.frameUsed, if_pos null, fun _ h => h, fun _ => rfl⟩
  · refine ⟨_, if_neg null, fun x hx => ?_, fun h => absurd h null⟩
    by_cases same : x = pa
    · rw [same, Function.update_self]
    · rwa [Function.update_of_ne same]

theorem used_fresh (bytes : Nat → Nat) (real : pa ≠ 0) : (s.fresh pa rest bytes).frameUsed pa = true := by
  simp [Kernel.fresh, Kernel.written, Kernel.pageTaken, real]

end Fresh

section Cow

variable {s : Kernel} {t : Nat}

theorem cow_mapped {va pa prot node x : Nat} {cowCnt : Bool} {rest : List Nat}
    (aligned : x % pgsize = 0) (page : pa % pgsize = 0) :
    cowOf (s.mapped t va pa prot node cowCnt rest) x =
      cowOf s x + if cowCnt = true ∧ x = pa then 1 else 0 := by
  cases cowCnt with
  | false => simp [cowOf, Kernel.mapped]
  | true =>
    by_cases same : x = pa
    · simp [cowOf, Kernel.mapped, same]
    · have other : cowIndex x ≠ cowIndex pa := fun h => same (cow_index_injective aligned page h)
      simp [cowOf, Kernel.mapped, same, Function.update_of_ne other]

theorem cow_dropped {pa x : Nat} (aligned : x % pgsize = 0) (page : pa % pgsize = 0) :
    cowOf (s.dropped pa) x = cowOf s x - if x = pa then 1 else 0 := by
  by_cases same : x = pa
  · simp [cowOf, Kernel.dropped, same]
  · have other : cowIndex x ≠ cowIndex pa := fun h => same (cow_index_injective aligned page h)
    simp [cowOf, Kernel.dropped, same, Function.update_of_ne other]

theorem dropped_frame {o x : Nat} :
    ((s.dropped o).frameUsed x = if x = o ∧ cowOf s o = 1 then false else s.frameUsed x) ∧
      (s.dropped o).freed.count x = s.freed.count x + if x = o ∧ cowOf s o = 1 then 1 else 0 := by
  have last : s.cowTable (cowIndex o) - 1 = 0 ↔ cowOf s o = 1 := by
    rw [cowOf]
    omega
  by_cases one : cowOf s o = 1
  · by_cases same : x = o
    · simp [Kernel.dropped, last, one, same]
    · have other : o ≠ x := Ne.symm same
      simp [Kernel.dropped, last, one, same, other]
  · simp [Kernel.dropped, last, one]

end Cow

section Renewed

variable {s : Kernel} {lists : Nat → List Nat} {t x pa p : Nat} {left rest choices : List Nat}
  {vma : VmArea}

theorem node_renewed {q : Nat} (other : q ≠ p) :
    paOf (s.renewed t left x pa p vma choices) q = paOf s q ∧
      vaOf (s.renewed t left x pa p vma choices) q = vaOf s q := by
  have pas : paOf (s.pageTaken pa (p :: choices)) q = paOf s q := by simp [paOf]
  have vas : vaOf (s.pageTaken pa (p :: choices)) q = vaOf s q := by simp [vaOf]
  constructor
  · rw [Kernel.renewed, paOf, nodes_mapped_other other, ← paOf, pa_unmapped, pas]
  · rw [Kernel.renewed, vaOf, nodes_mapped_other other, ← vaOf, va_unmapped, vas]

theorem node_renewed_here : paOf (s.renewed t left x pa p vma choices) p = pa ∧
    vaOf (s.renewed t left x pa p vma choices) p = vaOf s x := by
  simp only [Kernel.renewed, paOf, vaOf, nodes_mapped_here, and_self]

theorem areas_renewed (t' : Nat) : ((s.renewed t left x pa p vma choices).tasks t').vmAreas =
    (s.tasks t').vmAreas := by
  rw [Kernel.renewed, areas_mapped, areas_unmapped, tasks_taken]

theorem refs_taken {y : Nat} : refs (s.pageTaken pa rest) lists y = refs s lists y := by
  rw [← fresh_same_bytes]
  exact refs_fresh

theorem refs_renewed (owned : Owned s lists) (live : t ∈ s.live)
    (split : lists t = left ++ x :: rest) (fresh : p = x ∨ s.nodeUsed p = false) {y : Nat} :
    refs (s.renewed t left x pa p vma choices) (Function.update lists t (p :: (left ++ rest))) y +
      (if y = paOf s x then 1 else 0) = refs s lists y + if y = pa then 1 else 0 := by
  have vas : vaOf (s.pageTaken pa (p :: choices)) x = vaOf s x := by simp [vaOf]
  have pas : paOf (s.pageTaken pa (p :: choices)) x = paOf s x := by simp [paOf]
  have moved : refs (((s.pageTaken pa (p :: choices)).unmapped t
      (vaOf (s.pageTaken pa (p :: choices)) x) (left.getLastD 0) x).mapped t
        (vaOf (s.pageTaken pa (p :: choices)) x) pa (vma.vmProt &&& (255 - protWrite)) p true
        choices) _ y + _ = _ :=
    refs_replaced (owned.taken pa (p :: choices)) (by rw [live_taken]; exact live) split
      (by rw [node_used_taken]; exact fresh)
  rwa [vas, pas, refs_taken] at moved

end Renewed

section Copied

variable {s s' : Kernel} {lists lists' : Nat → List Nat} {t : Nat}

def Kernel.copied (s : Kernel) (t pa q p prot : Nat) (left rest rest' : List Nat)
    (bytes : Nat → Nat) : Kernel :=
  ((s.fresh pa rest bytes).unmapped t (vaOf s q) (left.getLastD 0) q).mapped t (vaOf s q) pa prot p
    false rest'

variable {left right rest rest' : List Nat} {q p pa prot : Nat} {bytes : Nat → Nat}

theorem pa_copied {q' : Nat} (other : q' ≠ p) :
    paOf (s.copied t pa q p prot left rest rest' bytes) q' = paOf s q' := by
  rw [Kernel.copied, paOf, nodes_mapped_other other, ← paOf, pa_unmapped, pa_fresh]

theorem pa_copied_here : paOf (s.copied t pa q p prot left rest rest' bytes) p = pa := by
  rw [Kernel.copied, paOf, nodes_mapped_here]

theorem owned_copied (owned : Owned s lists) (live : t ∈ s.live)
    (split : lists t = left ++ q :: right) (real : p ≠ 0)
    (fresh : p = q ∨ s.nodeUsed p = false) :
    Owned (s.copied t pa q p prot left rest rest' bytes)
      (Function.update lists t (p :: (left ++ right))) := by
  rw [Kernel.copied, ← va_fresh]
  exact (owned.fresh pa rest bytes).replaced (by rw [live_fresh]; exact live) split real
    (by rw [node_used_fresh]; exact fresh)

theorem mem_moved (owned : Owned s lists) (live : t ∈ s.live)
    (split : lists t = left ++ q :: right) {t' q' : Nat} (live' : t' ∈ s.live) :
    q' ∈ Function.update lists t (p :: (left ++ right)) t' ↔
      (t' = t ∧ q' = p) ∨ (q' ∈ lists t' ∧ q' ≠ q) := by
  have mem : q ∈ lists t := by simp [split]
  by_cases here : t' = t
  · subst here
    have gone : ∀ q' ∈ left ++ right, q' ≠ q := by
      rintro q' hq' rfl
      exact (owned.holds t' live).gone split (List.mem_map.mpr ⟨q', hq', rfl⟩)
    rw [Function.update_self, List.mem_cons]
    constructor
    · rintro (rfl | hq')
      · exact .inl ⟨rfl, rfl⟩
      · exact .inr ⟨mem_of_mem_left split hq', gone q' hq'⟩
    · rintro (⟨_, rfl⟩ | ⟨hq', ne⟩)
      · exact .inl rfl
      · right
        rw [split] at hq'
        simp only [List.mem_append, List.mem_cons] at hq' ⊢
        exact hq'.imp_right fun h => h.resolve_left ne
  · rw [Function.update_of_ne here]
    constructor
    · intro hq'
      refine .inr ⟨hq', ?_⟩
      rintro rfl
      exact owned.apart t' live' t live here q' hq' mem
    · rintro (⟨same, _⟩ | ⟨hq', _⟩)
      · exact absurd same here
      · exact hq'

theorem pa_copied_freed : paOf (s.copied t pa q p prot left rest rest' bytes) q =
    if p = q then pa else paOf s q := by
  by_cases reused : p = q
  · rw [if_pos reused, ← reused]
    exact pa_copied_here
  · rw [if_neg reused]
    exact pa_copied (Ne.symm reused)

theorem copied_fields : (s.copied t pa q p prot left rest rest' bytes).live = s.live ∧
    (s.copied t pa q p prot left rest rest' bytes).frameUsed =
      (s.fresh pa rest bytes).frameUsed ∧
    (∀ x, cowOf (s.copied t pa q p prot left rest rest' bytes) x = cowOf s x) ∧
    (s.copied t pa q p prot left rest rest' bytes).freed = s.freed := by
  have cow : (s.copied t pa q p prot left rest rest' bytes).cowTable =
      (s.fresh pa rest bytes).cowTable := rfl
  refine ⟨?_, rfl, fun x => ?_, ?_⟩
  · have base : (s.copied t pa q p prot left rest rest' bytes).live =
        (s.fresh pa rest bytes).live := rfl
    rw [base, live_fresh]
  · rw [cowOf, cow, cow_table_fresh, cowOf]
  · have base : (s.copied t pa q p prot left rest rest' bytes).freed =
        (s.fresh pa rest bytes).freed := rfl
    rw [base, freed_fresh]

def Closed (s : Kernel) (t q : Nat) : Prop :=
  cowOf s (paOf s q) ≠ 0 ∨ ∀ vma, findVmeNode (s.tasks t).vmAreas (vaOf s q)
    (u64 (vaOf s q + pgsize)) = some vma → ¬PrivateWritable vma

theorem cow_walk_closed {ahead : List Nat} (walk : CowWalk t s lists ahead s' lists')
    (closed : ∀ q ∈ ahead, Closed s t q) :
    lists' = lists ∧ ∃ choices frames, s' = { s with choices := choices, frameUsed := frames } ∧
      (∀ x, s.frameUsed x = true → frames x = true) ∧
      ((∀ pa ∈ s.choices.take (ahead.countP fun q => cowOf s (paOf s q) = 0), pa = 0) →
        frames = s.frameUsed) := by
  induction walk with
  | done => exact ⟨rfl, _, _, rfl, fun _ h => h, fun _ => rfl⟩
  | shared _ counted _ ih =>
    obtain ⟨same, choices, frames, rfl, grows, nothing⟩ :=
      ih fun q hq => closed q (List.mem_cons_of_mem _ hq)
    refine ⟨same, choices, frames, rfl, grows, fun nulls => nothing ?_⟩
    have other : ¬cowOf _ (paOf _ _) = 0 := counted
    rwa [List.countP_cons_of_neg (by simpa using other)] at nulls
  | @kept s _ lists _ left rest choices x pa vma split alone chosen _ found _ _ ih =>
    obtain ⟨taken, is_taken, more, none_taken⟩ := taken_frames (s := s) pa choices
    rw [is_taken] at ih
    obtain ⟨same, choices', frames, rfl, grows, nothing⟩ :=
      ih fun q hq => closed q (List.mem_cons_of_mem _ hq)
    refine ⟨same, choices', frames, rfl, fun x hx => grows x (more x hx), fun nulls => ?_⟩
    have zero : cowOf s (paOf s x) = 0 := alone
    rw [List.countP_cons_of_pos (by simpa using zero), chosen, List.take_succ_cons] at nulls
    rw [← none_taken (nulls pa List.mem_cons_self)]
    exact nothing fun pa' hpa => nulls pa' (List.mem_cons_of_mem _ hpa)
  | @renewed s _ lists _ left rest choices x pa p vma split alone _ _ found writable _ _ _ _ =>
    rcases closed x List.mem_cons_self with counted | readonly
    · exact absurd alone counted
    · exact absurd writable (readonly vma found)

end Copied

section Freed

variable {s s' : Kernel} {lists lists' : Nat → List Nat} {t c lo hi : Nat} {ahead : List Nat}

theorem freed_unmaps (walk : Unmaps t lo hi s lists s' lists') :
    s'.freed = s.freed ∧ s'.live = s.live := by
  induction walk with
  | done => exact ⟨rfl, rfl⟩
  | page _ _ _ ih => exact ih

theorem freed_cow_walk (walk : CowWalk t s lists ahead s' lists') : s'.freed = s.freed := by
  induction walk with
  | done => rfl
  | shared _ _ _ ih => exact ih
  | kept _ _ _ _ _ _ _ ih => rw [ih, freed_taken]
  | renewed _ _ _ _ _ _ _ _ _ ih =>
    rw [ih]
    simp [Kernel.renewed, Kernel.mapped, Kernel.unmapped]

theorem freed_copy_walk (walk : CopyWalk t c s lists ahead s' lists') : s'.freed = s.freed := by
  induction walk with
  | done => rfl
  | page _ _ _ _ _ _ _ ih => exact ih

end Freed

section Step

variable {s s' : Kernel} {e : Event} {t : Nat}

theorem step_mmap {addr : Nat} {length prot flags : Int}
    (called : e.call = .kmmap t addr length prot flags) (taken : step s e = some s') :
    t ∈ s.live ∧ ∃ r, (kmmap t addr length prot flags).run (s.begun e t) = .ok (r, s') := by
  simp only [step] at taken
  split at taken
  · rename_i ran
    cases taken
    rw [called] at ran
    exact on_live_ok ran
  · cases taken

theorem step_store_hit {addr byte pa : Nat} (called : e.call = .userStore t addr byte)
    (hit : (s.tasks t).translate addr = some ⟨pa, true⟩) (taken : step s e = some s') :
    s' = (s.begun e t).written pa (Function.update (s.phys pa) (addr % pgsize) byte) := by
  simp only [step] at taken
  split at taken
  · rename_i ran
    cases taken
    rw [called] at ran
    obtain ⟨_, _, ran⟩ := on_live_ok ran
    simp only [userStore, bind_ok, get_ok] at ran
    obtain ⟨_, _, ⟨rfl, rfl⟩, ran⟩ := ran
    split at ran
    · rename_i found
      rw [hit] at found
      cases found
      exact set_ok.mp ran
    · rename_i missed
      exact absurd hit (missed pa)
  · cases taken

theorem kmunmap_outside {r addr : Nat} {length prot : Int}
    (outside : findVmeNode (s.tasks t).vmAreas (roundDown addr)
      (roundUp (addLength addr length)) = none)
    (h : (kmmap t addr length prot mapUnmap).run s = .ok (r, s')) : s' = s := by
  simp only [kmmap, if_true, kmunmap, bind_ok, stop_unless_ok, spin_lock_ok, get_task_ok,
    spin_unlock_ok] at h
  obtain ⟨_, _, ⟨_, rfl⟩, _, _, ⟨_, rfl⟩, _, _, ⟨_, rfl⟩, _, _, ⟨free, rfl⟩, _, _, ⟨rfl, rfl⟩, _,
    _, ⟨_, rfl⟩, h⟩ := h
  rw [set_lock_back free] at h
  split at h
  · rename_i found
    have none : (findVmeNode (s.tasks t).vmAreas (roundDown addr)
      (roundUp (addLength addr length))).isSome = true := found
    rw [outside] at none
    cases none
  · exact (pure_ok.mp h).2.symm

end Step

section Owned

variable {s s' : Kernel} {e : Event} {lists lists' : Nat → List Nat} {t : Nat}

theorem Owned.unmaps {lo hi : Nat} (walk : Unmaps t lo hi s lists s' lists')
    (owned : Owned s lists) (live : t ∈ s.live) : Owned s' lists' := by
  induction walk with
  | done => exact owned
  | page split _ _ ih => exact ih (owned.unmapped live split) live

theorem Owned.mmap {addr : Nat} {length prot flags : Int}
    (effect : MmapEffect t addr length prot flags s lists s' lists') (owned : Owned s lists)
    (live : t ∈ s.live) : Owned s' lists' := by
  cases effect with
  | area _ _ _ _ same => exact same.owned (owned.withAreas ..)
  | outside _ same => exact same.owned owned
  | pages _ before gone after =>
    exact after.owned ((before.owned owned).unmaps gone (before.live ▸ live))

theorem Owned.fault {va pa : Nat} {rest : List Nat}
    (effect : FaultEffect t va pa rest s lists s' lists') (owned : Owned s lists)
    (live : t ∈ s.live) : Owned s' lists' := by
  cases effect with
  | outside _ same => exact same.owned (owned.taken pa rest)
  | @newArea _ bytes node areas p _ page new _ _ _ _ real fresh same =>
    apply same.owned
    apply ((owned.fresh pa rest bytes).withAreas t areas).mapped
    · have live' : t ∈ (s.fresh pa rest bytes).live := by
        rw [live_fresh]
        exact live
      exact live'
    · exact page
    · have new' : va ∉ (lists t).map (vaOf (s.fresh pa rest bytes)) := by
        rw [va_fresh]
        exact new
      exact new'
    · exact real
    · have fresh' : (s.fresh pa rest bytes).nodeUsed p = false := by
        rw [node_used_fresh]
        exact fresh
      exact fresh'
  | @newPage _ bytes vma p _ page new _ _ real fresh same =>
    apply same.owned
    apply (owned.fresh pa rest bytes).mapped
    · rw [live_fresh]
      exact live
    · exact page
    · rw [va_fresh]
      exact new
    · exact real
    · rw [node_used_fresh]
      exact fresh
  | @copied _ _ bytes vma left right q p rest' split here _ _ real fresh _ moved same =>
    subst here moved
    have moved : Owned (s.copied t pa q p vma.vmProt left rest rest' bytes) _ :=
      owned_copied owned live split real fresh
    exact same.owned (moved.congr rfl rfl rfl rfl (fun _ => rfl) fun _ => rfl)

theorem Owned.fork {c : Nat} {s₁ s₂ s₃ s₄ : Kernel} {lists₂ lists₄ : Nat → List Nat}
    {choices : List Nat} {areas : List VmArea}
    (effect : ForkEffect t c s lists s₁ s₂ s₃ s₄ s' lists₂ lists₄ choices areas)
    (owned : Owned s lists) (live : t ∈ s.live) : Owned s' lists₄ := by
  have live₁ : s₁.live = c :: s.live := effect.created.live
  have parent : t ∈ s₁.live := by
    rw [live₁]
    exact List.mem_cons_of_mem _ live
  obtain ⟨owned₂, _, _⟩ := owned_cow_walk effect.cow parent
    (effect.created.owned (owned.created effect.unused))
  have live₂ : s₂.live = s₁.live := live_cow_walk effect.cow
  have live₃ : s₃.live = s₁.live := effect.areas_copied.live.trans live₂
  apply effect.finished.owned
  apply (owned_copy_walk effect.copied _ _ (effect.areas_copied.owned (owned₂.withAreas ..))).1
  · rw [live₃]
    exact parent
  · rw [live₃, live₁]
    exact List.mem_cons_self

theorem owned_step (owned : Owned s lists) (taken : step s e = some s') :
    ∃ lists', Owned s' lists' := by
  obtain ⟨lists', effect⟩ := step_effect owned taken
  have begun := owned.begun e
  refine ⟨lists', ?_⟩
  cases effect with
  | create _ unused same => exact same.owned ((begun s.currentTask).created unused)
  | fault _ live _ _ effect => exact (begun _).fault effect live
  | mmap _ live effect => exact (begun _).mmap effect live
  | fork _ live effect => exact (begun _).fork effect live
  | destroy _ live walk => exact (begun _).destroyed live walk
  | @store t _ _ _ _ _ _ => exact (begun t).congr rfl rfl rfl rfl (fun _ => rfl) fun _ => rfl

theorem owned_run {nodes : Nat → MPage} {phys : Nat → Nat → Nat} {initCode : List Nat}
    {events : List Event} (ran : run step (uprocInit nodes phys initCode) events = some s) :
    ∃ lists, Owned s lists := by
  have preserved : ∀ s e s', (∃ lists, Owned s lists) → step s e = some s' →
      ∃ lists, Owned s' lists := by
    rintro s e s' ⟨lists, owned⟩ taken
    exact owned_step owned taken
  refine run_invariant preserved ?_ ran
  refine ⟨fun _ => [], ?_, ?_, ?_, List.nodup_nil⟩ <;> intro t live <;> cases live

end Owned

def emptyKernel : Kernel := uprocInit (fun _ => ⟨0, 0, 0⟩) (fun _ _ => 0) []

end Uproc
