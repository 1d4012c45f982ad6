import JyyOs.Uproc.Effects
import JyyOs.Library.LinkedList
import Mathlib.Data.List.Nodup

/-!
The mapped-page list of a task beside its page table, and what pgmap and pgunmap do to both.
-/
namespace Uproc

open Hoare Radix LinkedList

section PageTable

theorem slot_eq (va k : Nat) : (va &&& (511 <<< k)) >>> k = va / 2 ^ k % 512 := by
  rw [Nat.shiftRight_and_distrib, Nat.shiftLeft_shiftRight, Nat.shiftRight_eq_div_pow]
  exact Nat.and_two_pow_sub_one_eq_mod (va / 2 ^ k) 9

theorem pt_path_eq (va : Nat) :
    ptPath va = [va / 2 ^ 39 % 512, va / 2 ^ 30 % 512, va / 2 ^ 21 % 512, va / 2 ^ 12 % 512] := by
  rw [← slot_eq, ← slot_eq, ← slot_eq, ← slot_eq]
  rfl

def UserPage (va : Nat) : Prop := InArea va ∧ va = roundDown va

theorem pt_path_injective {va va' : Nat} (page : UserPage va) (page' : UserPage va')
    (same : ptPath va = ptPath va') : va = va' := by
  obtain ⟨⟨_, upper⟩, aligned⟩ := page
  obtain ⟨⟨_, upper'⟩, aligned'⟩ := page'
  rw [pt_path_eq, pt_path_eq] at same
  simp only [List.cons.injEq, and_true] at same
  simp only [roundDown, pgsize, areaEnd] at *
  omega

@[simp] theorem entry_set_entry (task : Task) (va : Nat) (e : Option Pte) :
    (task.setEntry va e).entry va = e := lookup_store ..

theorem entry_set_other (task : Task) {va va' : Nat} (e : Option Pte) (page : UserPage va)
    (page' : UserPage va') (ne : va' ≠ va) : (task.setEntry va e).entry va' = task.entry va' :=
  lookup_store_other _ e rfl fun same => ne (pt_path_injective page' page same)

theorem convert_writable (prot : Nat) :
    (convertMmapProtToVmProt prot &&& mmapWrite ≠ 0) ↔ prot &&& protWrite ≠ 0 := by
  unfold convertMmapProtToVmProt
  by_cases none : prot = protNone
  · subst none
    decide
  · by_cases read : prot &&& protRead = 0 <;> by_cases write : prot &&& protWrite = 0 <;>
      simp [none, read, write, mmapRead, mmapWrite]

end PageTable

def nextOf (s : Kernel) (p : Nat) : Nat := (s.nodes p).next

def vaOf (s : Kernel) (p : Nat) : Nat := (s.nodes p).va

def paOf (s : Kernel) (p : Nat) : Nat := (s.nodes p).pa

def headOf (s : Kernel) (t : Nat) : Nat := (s.tasks t).mappedPageHead

/-- `list` is the mapped-page list of `t`, and the page table of `t` maps just its pages. -/
structure Holds (s : Kernel) (t : Nat) (list : List Nat) : Prop where
  linked : Linked (nextOf s) 0 (headOf s t) list
  distinct : (list.map (vaOf s)).Nodup
  used : ∀ p ∈ list, s.nodeUsed p = true
  page : ∀ p ∈ list, UserPage (vaOf s p)
  present : ∀ p ∈ list, ∃ w, (s.tasks t).entry (vaOf s p) = some ⟨paOf s p, w⟩
  listed : ∀ va, UserPage va → (s.tasks t).entry va ≠ none → va ∈ list.map (vaOf s)

theorem Holds.nodup {s : Kernel} {t : Nat} {list : List Nat} (h : Holds s t list) :
    list.Nodup := List.Nodup.of_map _ h.distinct

theorem Holds.split_unique {s : Kernel} {t q : Nat} {list left right left' right' : List Nat}
    (h : Holds s t list) (split : list = left ++ q :: right)
    (split' : list = left' ++ q :: right') : left = left' ∧ right = right' := by
  have nodup := h.nodup
  rw [split, List.nodup_middle] at nodup
  have apart := (List.nodup_cons.mp nodup).1
  rw [List.mem_append, not_or] at apart
  obtain ⟨same_left, _, same_right⟩ :=
    (List.append_cons_inj_of_notMem apart.1 apart.2).mp (split.symm.trans split')
  exact ⟨same_left, same_right⟩

theorem Holds.unique {s : Kernel} {t : Nat} {list : List Nat} (h : Holds s t list)
    {p q : Nat} (hp : p ∈ list) (hq : q ∈ list) (same : vaOf s p = vaOf s q) : p = q :=
  List.inj_on_of_nodup_map h.distinct hp hq same

theorem mem_of_mem_left {q : Nat} {list left right : List Nat}
    (split : list = left ++ q :: right) {p : Nat} (hp : p ∈ left ++ right) : p ∈ list := by
  rw [split]
  simp only [List.mem_append, List.mem_cons] at hp ⊢
  exact hp.imp_right .inr

theorem Holds.gone {s : Kernel} {t q : Nat} {list left right : List Nat} (h : Holds s t list)
    (split : list = left ++ q :: right) : vaOf s q ∉ (left ++ right).map (vaOf s) := by
  have distinct := h.distinct
  rw [split, List.map_append, List.map_cons, List.nodup_middle] at distinct
  rw [List.map_append]
  exact (List.nodup_cons.mp distinct).1

theorem node_apart {s : Kernel} {t x p : Nat} {left rest : List Nat}
    (holds : Holds s t (left ++ x :: rest)) (fresh : p = x ∨ s.nodeUsed p = false) :
    ∀ y ∈ left ++ rest, y ≠ p := by
  rintro y mem rfl
  rcases fresh with rfl | unused
  · have nodup := holds.nodup
    rw [List.nodup_middle] at nodup
    exact (List.nodup_cons.mp nodup).1 mem
  · rw [holds.used y (mem_of_mem_left rfl mem)] at unused
    cases unused

theorem Holds.absent {s : Kernel} {t va : Nat} {list : List Nat} (h : Holds s t list)
    (page : UserPage va) (new : va ∉ list.map (vaOf s)) : (s.tasks t).entry va = none :=
  Classical.byContradiction fun mapped => new (h.listed va page mapped)

theorem Holds.congr {s s' : Kernel} {t : Nat} {list : List Nat} (h : Holds s t list)
    (nodes : ∀ p ∈ list, s'.nodes p = s.nodes p)
    (used : ∀ p ∈ list, s'.nodeUsed p = s.nodeUsed p) (head : headOf s' t = headOf s t)
    (table : (s'.tasks t).table = (s.tasks t).table) : Holds s' t list := by
  have vas : list.map (vaOf s') = list.map (vaOf s) :=
    List.map_congr_left fun p hp => by simp only [vaOf, nodes p hp]
  have entries : (s'.tasks t).entry = (s.tasks t).entry := by
    funext va
    simp only [Task.entry, table]
  constructor
  · rw [head]
    exact linked_congr h.linked fun p hp => by simp only [nextOf, Nat.add_zero, nodes p hp]
  · rw [vas]
    exact h.distinct
  · intro p hp
    rw [used p hp]
    exact h.used p hp
  · intro p hp
    rw [vaOf, nodes p hp]
    exact h.page p hp
  · intro p hp
    rw [entries, vaOf, paOf, nodes p hp]
    exact h.present p hp
  · rw [entries, vas]
    exact h.listed

/-- The live tasks hold lists that share no node. -/
structure Owned (s : Kernel) (lists : Nat → List Nat) : Prop where
  holds : ∀ t ∈ s.live, Holds s t (lists t)
  apart : ∀ t ∈ s.live, ∀ t' ∈ s.live, t ≠ t' → ∀ p ∈ lists t, p ∉ lists t'
  taskUsed : ∀ t ∈ s.live, s.taskUsed t = true
  nodup : s.live.Nodup

theorem Owned.congr {s s' : Kernel} {lists : Nat → List Nat} (h : Owned s lists)
    (nodes : s'.nodes = s.nodes) (used : s'.nodeUsed = s.nodeUsed) (live : s'.live = s.live)
    (taskUsed : s'.taskUsed = s.taskUsed)
    (heads : ∀ t, headOf s' t = headOf s t)
    (tables : ∀ t, (s'.tasks t).table = (s.tasks t).table) : Owned s' lists := by
  constructor
  · intro t ht
    rw [live] at ht
    exact (h.holds t ht).congr (fun p _ => by rw [nodes]) (fun p _ => by rw [used]) (heads t)
      (tables t)
  · rw [live]
    exact h.apart
  · rw [live, taskUsed]
    exact h.taskUsed
  · rw [live]
    exact h.nodup

def Kernel.mapped (s : Kernel) (t va pa prot node : Nat) (cowCnt : Bool) (rest : List Nat) :
    Kernel :=
  { s with
    choices := rest
    nodeUsed := Function.update s.nodeUsed node true
    nodes := Function.update s.nodes node ⟨va, pa, headOf s t⟩
    cowTable := if cowCnt then
        Function.update s.cowTable (cowIndex pa) (s.cowTable (cowIndex pa) + 1)
      else s.cowTable
    tasks := Function.update s.tasks t
      ({ s.tasks t with mappedPageHead := node }.setEntry va
        (some ⟨pa, prot &&& protWrite ≠ 0⟩)) }

theorem pgmap_ok {s s' : Kernel} {u : Unit} {t va pa prot : Nat} {cowCnt : Bool}
    (absent : (s.tasks t).entry va = none)
    (h : (pgmap t va pa prot cowCnt).run s = .ok (u, s')) :
    ∃ node rest, s.choices = node :: rest ∧ node ≠ 0 ∧ s.nodeUsed node = false ∧
      UserPage va ∧ s' = s.mapped t va pa prot node cowCnt rest := by
  simp only [pgmap, newMappedPage, insertMapPage, bind_ok, modify_ok, pure_ok] at h
  obtain ⟨node, _, ⟨_, _, alloc, _, _, rfl, rfl, rfl⟩, _, counted, count, _, _, rfl, h⟩ := h
  obtain ⟨rest, chosen, real, fresh, rfl⟩ := alloc_node_ok alloc
  have given : convertMmapProtToVmProt prot ≠ mmapNone := by
    intro none
    rw [none] at h
    obtain ⟨_, _, present, _⟩ := map_none_ok h
    apply present
    rcases run_if_ok.mp count with ⟨_, count⟩ | ⟨_, rfl⟩
    · rw [inc_cow_cnt_ok count]
      simpa [Kernel.setCow, Kernel.setNode, Kernel.setTask, Task.entry] using absent
    · simpa [Kernel.setNode, Kernel.setTask, Task.entry] using absent
  obtain ⟨area, aligned, _, _, rfl⟩ := map_present_ok given h
  refine ⟨node, rest, chosen, real, fresh, ⟨area, aligned⟩, ?_⟩
  have writable : decide (convertMmapProtToVmProt prot &&& mmapWrite ≠ 0) =
      decide (prot &&& protWrite ≠ 0) := decide_eq_decide.mpr (convert_writable prot)
  rw [writable]
  rcases run_if_ok.mp count with ⟨counts, count⟩ | ⟨counts, rfl⟩
  · rw [inc_cow_cnt_ok count]
    simp [Kernel.mapped, Kernel.setCow, Kernel.setNode, Kernel.setTask, counts, headOf,
      Task.setEntry]
  · simp [Kernel.mapped, Kernel.setNode, Kernel.setTask, counts, headOf, Task.setEntry]

def Kernel.unmapped (s : Kernel) (t va prev q : Nat) : Kernel :=
  { s with
    nodes := if prev = 0 then s.nodes
      else Function.update s.nodes prev { s.nodes prev with next := nextOf s q }
    nodeUsed := Function.update s.nodeUsed q false
    tasks := Function.update s.tasks t
      ({ s.tasks t with mappedPageHead := if prev = 0 then nextOf s q else headOf s t }.setEntry
        va none) }

theorem unlink_map_page_ok {s s' : Kernel} {u : Unit} {t prev next : Nat}
    (h : (unlinkMapPage t prev next).run s = .ok (u, s')) :
    s' = { s with
      nodes := if prev = 0 then s.nodes
        else Function.update s.nodes prev { s.nodes prev with next := next }
      tasks := Function.update s.tasks t
        { s.tasks t with mappedPageHead := if prev = 0 then next else headOf s t } } := by
  rw [modify_ok.mp h]
  by_cases first : prev = 0
  · simp [first, Kernel.setTask]
  · simp [first, Kernel.setNode, headOf]

theorem delete_map_page_loop_ok {s s' : Kernel} {u : Unit} {t va fuel cur : Nat}
    (before : List Nat) {after : List Nat} (linked : Linked (nextOf s) 0 cur after)
    (h : (deleteMapPageLoop t va fuel (before.getLastD 0) cur).run s = .ok (u, s')) :
    ∃ left q right, before ++ after = left ++ q :: right ∧ vaOf s q = va ∧ ∃ mid : Kernel,
      (unlinkMapPage t (left.getLastD 0) (nextOf s q)).run s = .ok ((), mid) ∧
      s' = { mid with nodeUsed := Function.update mid.nodeUsed q false } := by
  induction fuel generalizing before after cur with
  | zero => exact (throw_ok.mp h).elim
  | succ fuel ih =>
    rw [deleteMapPageLoop] at h
    by_cases ended : cur = 0
    · rw [if_pos ended] at h
      exact (throw_ok.mp h).elim
    · rw [if_neg ended] at h
      obtain ⟨rest, rfl, later⟩ := linked_head linked ended
      simp only [bind_ok, get_ok] at h
      obtain ⟨_, _, ⟨rfl, rfl⟩, h⟩ := h
      split at h
      · rename_i here
        simp only [bind_ok] at h
        obtain ⟨_, mid, unlink, freed⟩ := h
        exact ⟨before, cur, rest, rfl, here, mid, unlink, free_node_ok freed⟩
      · have walk := ih (before ++ [cur]) later (by rw [List.getLastD_concat]; exact h)
        simpa using walk

theorem pgunmap_ok {s s' : Kernel} {u : Unit} {t va : Nat} {list : List Nat}
    (h : (pgunmap t va).run s = .ok (u, s'))
    (linked : Linked (nextOf s) 0 (headOf s t) list) :
    ∃ left q right, list = left ++ q :: right ∧ vaOf s q = va ∧
      s' = s.unmapped t va (left.getLastD 0) q := by
  simp only [pgunmap, deleteMapPage, bind_ok, get_ok] at h
  obtain ⟨_, _, ⟨_, _, ⟨rfl, rfl⟩, walk⟩, h⟩ := h
  obtain ⟨left, q, right, split, here, mid, unlink, rfl⟩ :=
    delete_map_page_loop_ok [] linked walk
  obtain ⟨_, _, _, rfl⟩ := map_none_ok h
  refine ⟨left, q, right, by simpa using split, here, ?_⟩
  rw [unlink_map_page_ok unlink]
  simp [Kernel.unmapped, Kernel.setTask]

section Mapped

variable {s : Kernel} {t va pa prot node : Nat} {cowCnt : Bool} {rest list : List Nat}

theorem nodes_mapped_other {p : Nat} (ne : p ≠ node) :
    (s.mapped t va pa prot node cowCnt rest).nodes p = s.nodes p := Function.update_of_ne ne ..

theorem nodes_mapped_used {p : Nat} (used : s.nodeUsed p = true)
    (fresh : s.nodeUsed node = false) :
    (s.mapped t va pa prot node cowCnt rest).nodes p = s.nodes p := by
  refine nodes_mapped_other ?_
  rintro rfl
  rw [used] at fresh
  cases fresh

theorem vas_mapped (used : ∀ p ∈ list, s.nodeUsed p = true) (fresh : s.nodeUsed node = false) :
    list.map (vaOf (s.mapped t va pa prot node cowCnt rest)) = list.map (vaOf s) :=
  List.map_congr_left fun p hp => by simp only [vaOf, nodes_mapped_used (used p hp) fresh]

@[simp] theorem nodes_mapped_here :
    (s.mapped t va pa prot node cowCnt rest).nodes node = ⟨va, pa, headOf s t⟩ :=
  Function.update_self ..

@[simp] theorem task_mapped_here :
    (s.mapped t va pa prot node cowCnt rest).tasks t =
      { s.tasks t with mappedPageHead := node }.setEntry va
        (some ⟨pa, prot &&& protWrite ≠ 0⟩) := Function.update_self ..

theorem task_mapped_other {t' : Nat} (ne : t' ≠ t) :
    (s.mapped t va pa prot node cowCnt rest).tasks t' = s.tasks t' :=
  Function.update_of_ne ne ..

theorem entry_mapped_here :
    ((s.mapped t va pa prot node cowCnt rest).tasks t).entry va =
      some ⟨pa, prot &&& protWrite ≠ 0⟩ := by
  rw [task_mapped_here, entry_set_entry]

theorem entry_mapped_other {va' : Nat} (page : UserPage va) (page' : UserPage va')
    (ne : va' ≠ va) :
    ((s.mapped t va pa prot node cowCnt rest).tasks t).entry va' = (s.tasks t).entry va' := by
  rw [task_mapped_here, entry_set_other _ _ page page' ne]
  rfl

theorem areas_mapped (t' : Nat) :
    ((s.mapped t va pa prot node cowCnt rest).tasks t').vmAreas = (s.tasks t').vmAreas := by
  by_cases here : t' = t
  · rw [here, task_mapped_here]
    rfl
  · rw [task_mapped_other here]

theorem Holds.mapped (h : Holds s t list) (page : UserPage va) (new : va ∉ list.map (vaOf s))
    (real : node ≠ 0) (fresh : s.nodeUsed node = false) :
    Holds (s.mapped t va pa prot node cowCnt rest) t (node :: list) := by
  have other : ∀ p ∈ list, p ≠ node := by
    rintro p hp rfl
    rw [h.used p hp] at fresh
    cases fresh
  have same : ∀ p ∈ list, (s.mapped t va pa prot node cowCnt rest).nodes p = s.nodes p :=
    fun p hp => nodes_mapped_other (other p hp)
  have vas : list.map (vaOf (s.mapped t va pa prot node cowCnt rest)) = list.map (vaOf s) :=
    List.map_congr_left fun p hp => by simp only [vaOf, same p hp]
  have here : vaOf (s.mapped t va pa prot node cowCnt rest) node = va := by simp [vaOf]
  have apart : ∀ p ∈ list, vaOf s p ≠ va := fun p hp same =>
    new (List.mem_map.mpr ⟨p, hp, same⟩)
  constructor
  · refine ⟨by simp [headOf, Task.setEntry], real, ?_⟩
    have tail : nextOf (s.mapped t va pa prot node cowCnt rest) (node + 0) = headOf s t := by
      simp [nextOf]
    rw [tail]
    exact linked_congr h.linked fun p hp => by simp only [nextOf, Nat.add_zero, same p hp]
  · rw [List.map_cons, vas, here]
    exact List.nodup_cons.mpr ⟨new, h.distinct⟩
  · refine List.forall_mem_cons.mpr ⟨Function.update_self .., fun p hp => ?_⟩
    exact (Function.update_of_ne (other p hp) ..).trans (h.used p hp)
  · refine List.forall_mem_cons.mpr ⟨by rw [here]; exact page, fun p hp => ?_⟩
    rw [vaOf, same p hp]
    exact h.page p hp
  · refine List.forall_mem_cons.mpr ⟨⟨prot &&& protWrite ≠ 0, ?_⟩, fun p hp => ?_⟩
    · rw [here, entry_mapped_here, paOf, nodes_mapped_here]
    · rw [vaOf, paOf, same p hp]
      obtain ⟨w, e⟩ := h.present p hp
      exact ⟨w, (entry_mapped_other page (h.page p hp) (apart p hp)).trans e⟩
  · intro va' page' mapped
    rw [List.map_cons, vas, here, List.mem_cons]
    by_cases same_va : va' = va
    · exact .inl same_va
    · rw [entry_mapped_other page page' same_va] at mapped
      exact .inr (h.listed va' page' mapped)

theorem Owned.mapped {lists : Nat → List Nat} (owned : Owned s lists) (live : t ∈ s.live)
    (page : UserPage va) (new : va ∉ (lists t).map (vaOf s)) (real : node ≠ 0)
    (fresh : s.nodeUsed node = false) :
    Owned (s.mapped t va pa prot node cowCnt rest)
      (Function.update lists t (node :: lists t)) := by
  have unused : ∀ t' ∈ s.live, node ∉ lists t' := by
    intro t' ht' hp
    rw [(owned.holds t' ht').used node hp] at fresh
    cases fresh
  constructor
  · intro t' ht'
    by_cases here : t' = t
    · rw [here, Function.update_self]
      exact (owned.holds t live).mapped page new real fresh
    · rw [Function.update_of_ne here]
      have other : ∀ p ∈ lists t', p ≠ node := fun p hp same => unused t' ht' (same ▸ hp)
      refine (owned.holds t' ht').congr (fun p hp => nodes_mapped_other (other p hp))
        (fun p hp => Function.update_of_ne (other p hp) ..) ?_ ?_
      · rw [headOf, task_mapped_other here, headOf]
      · rw [task_mapped_other here]
  · intro t₁ h₁ t₂ h₂ ne p hp
    by_cases at₁ : t₁ = t <;> by_cases at₂ : t₂ = t
    · exact absurd (at₁.trans at₂.symm) ne
    · rw [at₁, Function.update_self] at hp
      rw [Function.update_of_ne at₂]
      rcases List.mem_cons.mp hp with rfl | hp
      · exact unused t₂ h₂
      · exact owned.apart t live t₂ h₂ (Ne.symm at₂) p hp
    · rw [Function.update_of_ne at₁] at hp
      rw [at₂, Function.update_self, List.mem_cons]
      rintro (rfl | hp')
      · exact unused t₁ h₁ hp
      · exact owned.apart t₁ h₁ t live at₁ p hp hp'
    · rw [Function.update_of_ne at₁] at hp
      rw [Function.update_of_ne at₂]
      exact owned.apart t₁ h₁ t₂ h₂ ne p hp
  · exact owned.taskUsed
  · exact owned.nodup

end Mapped

section Unmapped

variable {s : Kernel} {t prev q : Nat} {left right : List Nat}

theorem va_unmapped {va : Nat} (p : Nat) : vaOf (s.unmapped t va prev q) p = vaOf s p := by
  by_cases first : prev = 0
  · simp [Kernel.unmapped, vaOf, first]
  · by_cases here : p = prev
    · subst here
      simp [Kernel.unmapped, vaOf, first]
    · simp [Kernel.unmapped, vaOf, first, Function.update_of_ne here]

theorem pa_unmapped {va : Nat} (p : Nat) : paOf (s.unmapped t va prev q) p = paOf s p := by
  by_cases first : prev = 0
  · simp [Kernel.unmapped, paOf, first]
  · by_cases here : p = prev
    · subst here
      simp [Kernel.unmapped, paOf, first]
    · simp [Kernel.unmapped, paOf, first, Function.update_of_ne here]

theorem vas_unmapped {va : Nat} (list : List Nat) :
    list.map (vaOf (s.unmapped t va prev q)) = list.map (vaOf s) :=
  List.map_congr_left fun p _ => va_unmapped p

theorem nodes_unmapped_other {va p : Nat} (ne : p ≠ prev) :
    (s.unmapped t va prev q).nodes p = s.nodes p := by
  by_cases first : prev = 0
  · simp [Kernel.unmapped, first]
  · simp [Kernel.unmapped, first, Function.update_of_ne ne]

@[simp] theorem task_unmapped_here {va : Nat} :
    (s.unmapped t va prev q).tasks t =
      { s.tasks t with mappedPageHead := if prev = 0 then nextOf s q else headOf s t }.setEntry
        va none := Function.update_self ..

theorem task_unmapped_other {va t' : Nat} (ne : t' ≠ t) :
    (s.unmapped t va prev q).tasks t' = s.tasks t' := Function.update_of_ne ne ..

theorem entry_unmapped_here {va : Nat} : ((s.unmapped t va prev q).tasks t).entry va = none := by
  rw [task_unmapped_here, entry_set_entry]

theorem entry_unmapped_other {va va' : Nat} (page : UserPage va) (page' : UserPage va')
    (ne : va' ≠ va) : ((s.unmapped t va prev q).tasks t).entry va' = (s.tasks t).entry va' := by
  rw [task_unmapped_here, entry_set_other _ _ page page' ne]
  rfl

theorem areas_unmapped {va : Nat} (t' : Nat) :
    ((s.unmapped t va prev q).tasks t').vmAreas = (s.tasks t').vmAreas := by
  by_cases here : t' = t
  · rw [here, task_unmapped_here]
    rfl
  · rw [task_unmapped_other here]

theorem linked_unmapped {va : Nat} (h : Holds s t (left ++ q :: right)) :
    Linked (nextOf (s.unmapped t va (left.getLastD 0) q)) 0
      (headOf (s.unmapped t va (left.getLastD 0) q) t) (left ++ right) := by
  have linked := h.linked
  rcases List.eq_nil_or_concat left with rfl | ⟨before, prev, rfl⟩
  · have head : headOf (s.unmapped t va 0 q) t = nextOf s q := by simp [headOf, Task.setEntry]
    rw [List.getLastD_nil, head]
    exact linked.2.2
  · have real : prev ≠ 0 := linked_real linked prev (by simp)
    have nodup := h.nodup
    simp only [List.concat_eq_append, List.append_assoc, List.cons_append, List.nil_append]
      at linked nodup ⊢
    have gone := linked_unlink linked nodup
    rw [List.getLastD_concat]
    simp only [headOf, task_unmapped_here, Task.setEntry, if_neg real]
    refine linked_congr gone fun p _ => ?_
    by_cases here : p = prev
    · subst here
      simp [nextOf, Kernel.unmapped, real]
    · simp [nextOf, Function.update_of_ne here, nodes_unmapped_other here]

theorem Holds.unmapped (h : Holds s t (left ++ q :: right)) :
    Holds (s.unmapped t (vaOf s q) (left.getLastD 0) q) t (left ++ right) := by
  have sub : ∀ p ∈ left ++ right, p ∈ left ++ q :: right := fun p hp => mem_of_mem_left rfl hp
  have q_here : q ∈ left ++ q :: right := by simp
  have va_apart : ∀ p ∈ left ++ right, vaOf s p ≠ vaOf s q := fun p hp same =>
    h.gone rfl (List.mem_map.mpr ⟨p, hp, same⟩)
  have apart : ∀ p ∈ left ++ right, p ≠ q := fun p hp same => va_apart p hp (by rw [same])
  constructor
  · exact linked_unmapped h
  · rw [vas_unmapped]
    have distinct := h.distinct
    rw [List.map_append, List.map_cons] at distinct
    rw [List.map_append]
    exact (List.nodup_cons.mp (List.nodup_middle.mp distinct)).2
  · intro p hp
    exact (Function.update_of_ne (apart p hp) ..).trans (h.used p (sub p hp))
  · intro p hp
    rw [va_unmapped]
    exact h.page p (sub p hp)
  · intro p hp
    rw [va_unmapped, pa_unmapped,
      entry_unmapped_other (h.page q q_here) (h.page p (sub p hp)) (va_apart p hp)]
    exact h.present p (sub p hp)
  · intro va page mapped
    rw [vas_unmapped]
    by_cases here : va = vaOf s q
    · rw [here, entry_unmapped_here] at mapped
      exact absurd rfl mapped
    · rw [entry_unmapped_other (h.page q q_here) page here] at mapped
      have found := h.listed va page mapped
      simp only [List.map_append, List.map_cons, List.mem_append, List.mem_cons] at found ⊢
      exact found.imp_right fun h => h.resolve_left here

theorem Owned.unmapped {lists : Nat → List Nat} (owned : Owned s lists) (live : t ∈ s.live)
    (split : lists t = left ++ q :: right) :
    Owned (s.unmapped t (vaOf s q) (left.getLastD 0) q)
      (Function.update lists t (left ++ right)) := by
  have here := owned.holds t live
  rw [split] at here
  have sub : ∀ p ∈ left ++ right, p ∈ lists t := fun p hp => mem_of_mem_left split hp
  constructor
  · intro t' ht'
    by_cases at_t : t' = t
    · rw [at_t, Function.update_self]
      exact here.unmapped
    · rw [Function.update_of_ne at_t]
      have away : ∀ p ∈ lists t', p ∉ lists t := owned.apart t' ht' t live at_t
      refine (owned.holds t' ht').congr (fun p hp => ?_) (fun p hp => ?_) ?_ ?_
      · refine nodes_unmapped_other fun same => ?_
        rcases List.eq_nil_or_concat left with rfl | ⟨before, prev, rfl⟩
        · exact linked_real (owned.holds t' ht').linked p hp same
        · refine away p hp (sub p ?_)
          rw [same, List.concat_eq_append, List.getLastD_concat]
          simp
      · refine Function.update_of_ne (fun same => away p hp ?_) ..
        rw [same, split]
        simp
      · rw [headOf, task_unmapped_other at_t, headOf]
      · rw [task_unmapped_other at_t]
  · intro t₁ h₁ t₂ h₂ ne p hp
    by_cases at₁ : t₁ = t <;> by_cases at₂ : t₂ = t
    · exact absurd (at₁.trans at₂.symm) ne
    · rw [at₁, Function.update_self] at hp
      rw [Function.update_of_ne at₂]
      exact owned.apart t live t₂ h₂ (Ne.symm at₂) p (sub p hp)
    · rw [Function.update_of_ne at₁] at hp
      rw [at₂, Function.update_self]
      exact fun hp' => owned.apart t₁ h₁ t live at₁ p hp (sub p hp')
    · rw [Function.update_of_ne at₁] at hp
      rw [Function.update_of_ne at₂]
      exact owned.apart t₁ h₁ t₂ h₂ ne p hp
  · exact owned.taskUsed
  · exact owned.nodup

/-- The node handed out after pgunmap freed `q` was free before, or is `q`. -/
theorem unused_unmapped {va p : Nat} (fresh : p = q ∨ s.nodeUsed p = false) :
    (s.unmapped t va prev q).nodeUsed p = false := by
  by_cases reused : p = q
  · subst reused
    exact Function.update_self ..
  · exact (Function.update_of_ne reused ..).trans (fresh.resolve_left reused)

theorem Holds.replaced {pa prot p : Nat} {cowCnt : Bool} {rest : List Nat}
    (h : Holds s t (left ++ q :: right)) (real : p ≠ 0)
    (fresh : p = q ∨ s.nodeUsed p = false) :
    Holds ((s.unmapped t (vaOf s q) (left.getLastD 0) q).mapped t (vaOf s q) pa prot p cowCnt
      rest) t (p :: (left ++ right)) := by
  refine h.unmapped.mapped (h.page q (by simp)) ?_ real (unused_unmapped fresh)
  rw [vas_unmapped]
  exact h.gone rfl

theorem Owned.replaced {lists : Nat → List Nat} {pa prot p : Nat} {cowCnt : Bool}
    {rest : List Nat} (owned : Owned s lists) (live : t ∈ s.live)
    (split : lists t = left ++ q :: right) (real : p ≠ 0)
    (fresh : p = q ∨ s.nodeUsed p = false) :
    Owned ((s.unmapped t (vaOf s q) (left.getLastD 0) q).mapped t (vaOf s q) pa prot p cowCnt
      rest) (Function.update lists t (p :: (left ++ right))) := by
  have holds := owned.holds t live
  have gone := owned.unmapped live split
  have new : vaOf s q ∉ ((Function.update lists t (left ++ right)) t).map
      (vaOf (s.unmapped t (vaOf s q) (left.getLastD 0) q)) := by
    rw [Function.update_self, vas_unmapped]
    exact holds.gone split
  have again : Owned ((s.unmapped t (vaOf s q) (left.getLastD 0) q).mapped t (vaOf s q) pa prot p
      cowCnt rest) _ :=
    gone.mapped live (holds.page q (by simp [split])) new real (unused_unmapped fresh)
  rwa [Function.update_self, Function.update_idem] at again

end Unmapped

end Uproc
