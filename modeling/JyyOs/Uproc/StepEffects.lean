import JyyOs.Uproc.CallEffects

/-!
What a step of a run did to the memory of the processes.
-/
namespace Uproc

open Hoare LinkedList

def Kernel.begun (s : Kernel) (e : Event) (t : Nat) : Kernel :=
  { s with choices := e.choices, rounds := e.rounds, freed := [], currentTask := t }

inductive StepEffect (s : Kernel) (e : Event) (lists : Nat → List Nat) :
    Kernel → (Nat → List Nat) → Prop
  | create {s' : Kernel} {c : Nat} {choices : List Nat} (called : e.call = .create)
      (unused : s.taskUsed c = false)
      (same : SameMemory ({ s.begun e s.currentTask with
        choices := choices, taskUsed := Function.update s.taskUsed c true }.created c) s') :
      StepEffect s e lists s' (Function.update lists c [])
  | fault {s' : Kernel} {t ref pa : Nat} {rest : List Nat} {lists' : Nat → List Nat}
      (called : e.call = .pageFault t ref ∨ ∃ byte, e.call = .userStore t ref byte)
      (live : t ∈ s.live) (chosen : e.choices = pa :: rest)
      (page_fresh : pa ≠ 0 → s.frameUsed pa = false ∧ pa % pgsize = 0)
      (effect : FaultEffect t (roundDown ref) pa rest (s.begun e t) lists s' lists') :
      StepEffect s e lists s' lists'
  | mmap {s' : Kernel} {t addr : Nat} {length prot flags : Int} {lists' : Nat → List Nat}
      (called : e.call = .kmmap t addr length prot flags) (live : t ∈ s.live)
      (effect : MmapEffect t addr length prot flags (s.begun e t) lists s' lists') :
      StepEffect s e lists s' lists'
  | fork {s₁ s₂ s₃ s₄ s' : Kernel} {t c : Nat} {lists₂ lists₄ : Nat → List Nat}
      {choices : List Nat} {areas : List VmArea} (called : e.call = .kfork t)
      (live : t ∈ s.live)
      (effect : ForkEffect t c (s.begun e t) lists s₁ s₂ s₃ s₄ s' lists₂ lists₄ choices areas) :
      StepEffect s e lists s' lists₄
  | destroy {s₁ : Kernel} {t : Nat} (called : e.call = .destroyMappedPages t)
      (live : t ∈ s.live) (walk : DestroyWalk (s.begun e t) (lists t) s₁) :
      StepEffect s e lists { s₁ with live := s₁.live.erase t } lists
  | store {t addr byte pa : Nat} (called : e.call = .userStore t addr byte)
      (live : t ∈ s.live) (found : (s.tasks t).translate addr = some ⟨pa, true⟩) :
      StepEffect s e lists ((s.begun e t).written pa
        (Function.update (s.phys pa) (addr % pgsize) byte)) lists

theorem Owned.begun {s : Kernel} {lists : Nat → List Nat} (owned : Owned s lists) (e : Event)
    (t : Nat) : Owned (s.begun e t) lists :=
  owned.congr rfl rfl rfl rfl (fun _ => rfl) fun _ => rfl

theorem destroy_walk_frame {s s' : Kernel} {list : List Nat} (walk : DestroyWalk s list s') :
    s'.nodes = s.nodes ∧ s'.tasks = s.tasks ∧ s'.live = s.live ∧ s'.taskUsed = s.taskUsed ∧
      s'.phys = s.phys ∧ ∀ p ∉ list, s'.nodeUsed p = s.nodeUsed p := by
  induction walk with
  | done => exact ⟨rfl, rfl, rfl, rfl, rfl, fun _ _ => rfl⟩
  | page later ih =>
    obtain ⟨nodes, tasks, live, taskUsed, phys, used⟩ := ih
    refine ⟨nodes, tasks, live, taskUsed, phys, fun p hp => ?_⟩
    rw [List.mem_cons, not_or] at hp
    exact (used p hp.2).trans (Function.update_of_ne hp.1 ..)

theorem Owned.destroyed {s s' : Kernel} {lists : Nat → List Nat} {t : Nat}
    (owned : Owned s lists) (live : t ∈ s.live) (walk : DestroyWalk s (lists t) s') :
    Owned { s' with live := s'.live.erase t } lists := by
  obtain ⟨nodes, tasks, same_live, taskUsed, _, used⟩ := destroy_walk_frame walk
  have left : ∀ t', t' ∈ s'.live.erase t → t' ∈ s.live ∧ t' ≠ t := by
    intro t' h
    rw [same_live, owned.nodup.mem_erase_iff] at h
    exact ⟨h.2, h.1⟩
  constructor
  · intro t' h
    obtain ⟨live', ne⟩ := left t' h
    have away : ∀ p ∈ lists t', p ∉ lists t := owned.apart t' live' t live ne
    refine (owned.holds t' live').congr (fun p _ => by simp only [nodes])
      (fun p hp => used p (away p hp)) ?_ ?_
    · simp only [headOf, tasks]
    · simp only [tasks]
  · intro t₁ h₁ t₂ h₂ ne
    exact owned.apart t₁ (left t₁ h₁).1 t₂ (left t₂ h₂).1 ne
  · intro t' h
    simp only [taskUsed]
    exact owned.taskUsed t' (left t' h).1
  · simp only [same_live]
    exact owned.nodup.erase t

theorem on_live_ok {α : Type} {s s' : Kernel} {t : Nat} {u : Unit} {x : Kern α}
    (h : (onLive t x).run s = .ok (u, s')) :
    t ∈ s.live ∧ ∃ a, x.run { s with currentTask := t } = .ok (a, s') := by
  simp only [onLive, bind_ok, get_ok, stop_unless_ok, set_ok, pure_ok] at h
  obtain ⟨_, _, ⟨rfl, rfl⟩, _, _, ⟨live, rfl⟩, _, _, rfl, a, _, ran, _, rfl⟩ := h
  exact ⟨live, a, ran⟩

theorem step_effect {s s' : Kernel} {e : Event} {lists : Nat → List Nat} (owned : Owned s lists)
    (taken : step s e = some s') : ∃ lists', StepEffect s e lists s' lists' := by
  simp only [step] at taken
  split at taken
  · rename_i u m ran
    cases taken
    have begun := owned.begun e
    cases call : e.call with
    | create =>
      rw [call] at ran
      simp only [perform, newProcess, bind_ok] at ran
      obtain ⟨c, _, alloc, create⟩ := ran
      obtain ⟨choices, _, _, unused, rfl⟩ := alloc_task_ok alloc
      exact ⟨_, .create call unused (uproc_create_ok create)⟩
    | pageFault t ref =>
      rw [call] at ran
      obtain ⟨live, _, ran⟩ := on_live_ok ran
      obtain ⟨pa, rest, lists', chosen, page_fresh, effect⟩ := page_fault_ok (begun t) live ran
      exact ⟨lists', .fault (.inl call) live chosen page_fresh effect⟩
    | kmmap t addr length prot flags =>
      rw [call] at ran
      obtain ⟨live, _, ran⟩ := on_live_ok ran
      obtain ⟨lists', effect⟩ := kmmap_ok (begun t) live ran
      exact ⟨lists', .mmap call live effect⟩
    | kfork t =>
      rw [call] at ran
      obtain ⟨live, _, ran⟩ := on_live_ok ran
      obtain ⟨_, _, _, _, _, _, _, _, _, effect⟩ := kfork_ok (begun t) live ran
      exact ⟨_, .fork call live effect⟩
    | destroyMappedPages t =>
      rw [call] at ran
      obtain ⟨live, _, ran⟩ := on_live_ok ran
      simp only [leave, bind_ok, modify_ok] at ran
      obtain ⟨_, _, destroy, rfl⟩ := ran
      exact ⟨lists, .destroy call live
        (destroy_mapped_pages_ok ((begun t).holds t live).linked destroy)⟩
    | userStore t addr byte =>
      rw [call] at ran
      obtain ⟨live, _, ran⟩ := on_live_ok ran
      simp only [userStore, bind_ok, get_ok] at ran
      obtain ⟨_, _, ⟨rfl, rfl⟩, ran⟩ := ran
      split at ran
      · rename_i pa found
        obtain rfl := set_ok.mp ran
        exact ⟨lists, .store call live found⟩
      · obtain ⟨pa, rest, lists', chosen, page_fresh, effect⟩ := page_fault_ok (begun t) live ran
        exact ⟨lists', .fault (.inr ⟨byte, call⟩) live chosen page_fresh effect⟩
  · cases taken

end Uproc
