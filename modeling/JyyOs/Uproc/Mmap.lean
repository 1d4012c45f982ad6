import JyyOs.Uproc.CallEffects
import JyyOs.Library.FirstFit

/-!
Where kmmap puts a region: the first fit at or after the hint, and the hints for which that is
a region of the user area.
-/
namespace Uproc

open Hoare PartialRun

section Regions

def regionEnd (length : Int) (start : Nat) : Nat :=
  (start + length.toNat + (pgsize - 1)) / pgsize * pgsize

structure AreaWithin (a : VmArea) : Prop where
  start_aligned : Aligned a.vmStart
  end_aligned : Aligned a.vmEnd
  above : areaStart ≤ a.vmStart
  nonempty : a.vmStart < a.vmEnd
  below : a.vmEnd ≤ areaEnd

structure AreasWithin (areas : List VmArea) : Prop where
  each : ∀ a ∈ areas, AreaWithin a
  sorted : areas.Pairwise fun a b => a.vmEnd ≤ b.vmStart

abbrev Free (areas : List VmArea) (length : Int) (start : Nat) : Prop :=
  FirstFit.Apart VmArea.vmStart VmArea.vmEnd areas start (regionEnd length start)

structure InUserArea (length : Int) (start : Nat) : Prop where
  aligned : Aligned start
  above : areaStart ≤ start
  below : regionEnd length start ≤ areaEnd

structure UsableRegion (old new : List VmArea) (addr : Nat) (length prot flags : Int)
    (start : Nat) : Prop where
  inside : InUserArea length start
  after : roundUp addr ≤ start
  free : Free old length start
  lowest : ∀ p, roundUp addr ≤ p → InUserArea length p → Free old length p → start ≤ p
  recorded : ∃ front back, old = front ++ back ∧ new = front ++
    ⟨start, regionEnd length start, (prot % 256).toNat, (flags % 256).toNat⟩ :: back

def MapsUsable (s : Kernel) (t addr : Nat) (length prot flags : Int) : Prop :=
  ∀ start s', (kmmap t addr length prot flags).run s = .ok (start, s') →
    UsableRegion (s.tasks t).vmAreas (s'.tasks t).vmAreas addr length prot flags start

/-- The hints kmmap handles: on an empty list the region at the hint lies in the user area; a
    hint below it runs into the first area; any other hint does not wrap. -/
def Placeable (areas : List VmArea) (addr : Nat) (length : Int) : Prop :=
  match areas with
  | [] => areaStart ≤ roundUp addr ∧ regionEnd length (roundUp addr) ≤ areaEnd
  | first :: _ =>
    if roundUp addr < areaStart then first.vmStart < regionEnd length (roundUp addr)
    else regionEnd length (roundUp addr) < 2 ^ 64

variable {areas : List VmArea} {length : Int}

theorem AreasWithin.disjoint (within : AreasWithin areas) :
    FirstFit.Sorted VmArea.vmStart VmArea.vmEnd areas :=
  ⟨fun a ha => (within.each a ha).nonempty, within.sorted⟩

theorem region_end_mono (p q : Nat) (le : p ≤ q) : regionEnd length p ≤ regionEnd length q := by
  simp only [regionEnd, pgsize]
  omega

theorem region_end_exact {start : Nat} (positive : 0 < length)
    (fits : regionEnd length start < 2 ^ 64) :
    roundUp (addLength start length) = regionEnd length start := by
  simp only [regionEnd, pgsize] at fits ⊢
  simp only [roundUp, u64, addLength, pgsize]
  omega

/-- A region that reaches 2^64 ends, as computed, below every area. -/
theorem region_end_wraps {start : Nat} (positive : 0 < length) (int : length < 2 ^ 31)
    (start_in : start < 2 ^ 64) (wraps : 2 ^ 64 ≤ regionEnd length start) :
    roundUp (addLength start length) < areaStart := by
  simp only [regionEnd, pgsize] at wraps
  simp only [roundUp, u64, addLength, pgsize, areaStart]
  omega

theorem round_up_lt (a : Nat) : roundUp a < 2 ^ 64 ∧ Aligned (roundUp a) := by
  simp only [roundUp, u64, pgsize, Aligned]
  omega

theorem region_end_near {start : Nat} (int : length < 2 ^ 31) :
    regionEnd length start < start + 2 ^ 32 := by
  simp only [regionEnd, pgsize]
  omega

/-- The loop of get_suitable_addr is the first-fit search as long as no region wraps. -/
theorem suitable_loop_search (positive : 0 < length) (int : length < 2 ^ 31)
    (below : ∀ a ∈ areas, a.vmEnd < 2 ^ 63) {addr : Nat}
    (fits : regionEnd length addr < 2 ^ 64) :
    suitableLoop length areas addr (regionEnd length addr) =
      (FirstFit.search VmArea.vmStart VmArea.vmEnd (regionEnd length) areas addr,
        regionEnd length
          (FirstFit.search VmArea.vmStart VmArea.vmEnd (regionEnd length) areas addr)) := by
  induction areas generalizing addr with
  | nil => rfl
  | cons cur next ih =>
    have later : ∀ a ∈ next, a.vmEnd < 2 ^ 63 := fun a ha => below a (List.mem_cons_of_mem _ ha)
    rw [suitableLoop, FirstFit.search]
    split
    · rfl
    · split
      · exact ih later fits
      · have inside := below cur List.mem_cons_self
        have near : regionEnd length cur.vmEnd < cur.vmEnd + 2 ^ 32 := region_end_near int
        have fits_next : regionEnd length cur.vmEnd < 2 ^ 64 := by omega
        rw [region_end_exact positive fits_next]
        exact ih later fits_next

end Regions

section Kmmap

variable {s s' : Kernel} {t addr r : Nat} {length prot flags : Int}

theorem insert_vme_split {areas areas' : List VmArea} {node : VmArea}
    (inserted : insertVmeNode areas node = some areas') :
    ∃ front back, areas = front ++ back ∧ areas' = front ++ node :: back := by
  induction areas generalizing areas' with
  | nil =>
    cases inserted
    exact ⟨[], [], rfl, rfl⟩
  | cons cur next ih =>
    simp only [insertVmeNode] at inserted
    split at inserted
    · cases inserted
      exact ⟨[], cur :: next, rfl, rfl⟩
    · split at inserted
      · obtain ⟨next', later, rfl⟩ := Option.map_eq_some_iff.mp inserted
        obtain ⟨front, back, rfl, rfl⟩ := ih later
        exact ⟨cur :: front, back, rfl, rfl⟩
      · cases inserted

theorem new_area_runs {node : VmArea}
    (placed : newVmeNode (s.tasks t).vmAreas addr length prot flags = some node) :
    (newArea t addr length prot flags).run s = .ok (node, s) := by
  rw [newArea, bind_ok]
  refine ⟨s.tasks t, s, get_task_ok.mpr ⟨rfl, rfl⟩, ?_⟩
  rw [placed]
  rfl

theorem insert_area_runs {node : VmArea} {areas : List VmArea}
    (inserted : insertVmeNode (s.tasks t).vmAreas node = some areas) :
    (insertArea t node).run s = .ok (true, s.withAreas t areas) := by
  rw [insertArea, bind_ok]
  refine ⟨s, s, get_ok.mpr ⟨rfl, rfl⟩, ?_⟩
  simp only [inserted]
  rfl

theorem kmmap_returns (real : t ≠ 0) (positive : 0 < length) (maps : flags ≠ mapUnmap) :
    (kmmap t addr length prot flags).run s = .ok (r, s') ↔
      s.locks (.vme t) = false ∧ ∃ node areas,
        newVmeNode (s.tasks t).vmAreas addr length prot flags = some node ∧
        insertVmeNode (s.tasks t).vmAreas node = some areas ∧ r = node.vmStart ∧
        s' = s.withAreas t areas := by
  simp only [kmmap, bind_ok, stop_unless_ok, if_neg maps, spin_lock_ok, spin_unlock_ok, pure_ok]
  constructor
  · rintro ⟨_, _, ⟨_, rfl⟩, _, _, ⟨_, rfl⟩, node, _, place, _, _, ⟨free, rfl⟩, success, _, insert,
      _, _, ⟨done, rfl⟩, _, _, ⟨_, rfl⟩, rfl, rfl⟩
    obtain ⟨placed, rfl⟩ := new_area_ok place
    rcases insert_area_ok insert with ⟨_, failed, _⟩ | ⟨areas, inserted, _, rfl⟩
    · rw [failed] at done
      cases done
    · refine ⟨free, node, areas, placed, inserted, rfl, ?_⟩
      exact set_lock_back (s := s.withAreas t areas) free
  · rintro ⟨free, node, areas, placed, inserted, rfl, rfl⟩
    refine ⟨(), s, ⟨real, rfl⟩, (), s, ⟨positive, rfl⟩, node, s, new_area_runs placed, (), _,
      ⟨free, rfl⟩, true, _, insert_area_runs inserted, (), _, ⟨rfl, rfl⟩, (), _, ⟨?_, rfl⟩, rfl, ?_⟩
    · exact Function.update_self ..
    · exact set_lock_back (s := s.withAreas t areas) free

end Kmmap

section Usable

variable {s : Kernel} {t addr : Nat} {length prot flags : Int} {areas : List VmArea}

theorem get_suitable_addr_search {first : VmArea}
    (below : ∀ a ∈ first :: areas, a.vmEnd < 2 ^ 63) (positive : 0 < length)
    (int : length < 2 ^ 31) {hint start : Nat} (fits : regionEnd length hint < 2 ^ 64)
    (found : getSuitableAddr (first :: areas) hint length = some start) :
    start = FirstFit.search VmArea.vmStart VmArea.vmEnd (regionEnd length) (first :: areas) hint ∧
      regionEnd length start ≤ areaEnd := by
  have walked := suitable_loop_search positive int below fits
  simp only [getSuitableAddr, if_neg (List.cons_ne_nil first areas),
    region_end_exact positive fits, walked] at found
  obtain ⟨inside, same⟩ := Option.ite_none_right_eq_some.mp found
  cases same
  exact ⟨rfl, inside⟩

/-- A hint whose region, as computed, ends below the first area is taken as it is. -/
theorem get_suitable_addr_first {first : VmArea} {hint : Nat}
    (before : roundUp (addLength hint length) ≤ first.vmStart) (low : first.vmStart ≤ areaEnd) :
    getSuitableAddr (first :: areas) hint length = some hint := by
  simp only [getSuitableAddr, if_neg (List.cons_ne_nil first areas), suitableLoop, if_pos before]
  rw [if_pos (Nat.le_trans before low)]

theorem new_vme_node_at {start : Nat}
    (found : getSuitableAddr areas (roundUp addr) length = some start) :
    newVmeNode areas addr length prot flags = some ⟨start, roundUp (addLength start length),
      (prot % 256).toNat, (flags % 256).toNat⟩ := by
  simp only [newVmeNode, found]

theorem new_vme_node_found {node : VmArea}
    (placed : newVmeNode areas addr length prot flags = some node) :
    getSuitableAddr areas (roundUp addr) length = some node.vmStart ∧
      node = ⟨node.vmStart, roundUp (addLength node.vmStart length), (prot % 256).toNat,
        (flags % 256).toNat⟩ := by
  unfold newVmeNode at placed
  split at placed
  · cases placed
  · rename_i start found
    cases placed
    exact ⟨found, rfl⟩

theorem hint_taken (real : t ≠ 0) (positive : 0 < length) (maps : flags ≠ mapUnmap)
    (free : s.locks (.vme t) = false)
    (before : ∀ first ∈ (s.tasks t).vmAreas.head?,
      roundUp (addLength (roundUp addr) length) ≤ first.vmStart ∧ first.vmStart ≤ areaEnd)
    (usable : MapsUsable s t addr length prot flags) : InUserArea length (roundUp addr) := by
  have found : getSuitableAddr (s.tasks t).vmAreas (roundUp addr) length = some (roundUp addr) ∧
      ∃ areas, insertVmeNode (s.tasks t).vmAreas ⟨roundUp addr,
        roundUp (addLength (roundUp addr) length), (prot % 256).toNat,
        (flags % 256).toNat⟩ = some areas := by
    cases same : (s.tasks t).vmAreas with
    | nil => exact ⟨rfl, _, rfl⟩
    | cons first next =>
      rw [same] at before
      obtain ⟨ends, low⟩ := before first rfl
      exact ⟨get_suitable_addr_first ends low, _, if_pos ends⟩
  obtain ⟨kept, areas, inserted⟩ := found
  have returned := (kmmap_returns real positive maps).mpr
    ⟨free, _, areas, new_vme_node_at kept, inserted, rfl, rfl⟩
  exact (usable _ _ returned).inside

theorem usable_region {node : VmArea} {areas' : List VmArea} (positive : 0 < length)
    (placed : newVmeNode areas addr length prot flags = some node)
    (inserted : insertVmeNode areas node = some areas') (inside : InUserArea length node.vmStart)
    (after : roundUp addr ≤ node.vmStart) (free : Free areas length node.vmStart)
    (lowest : ∀ p, roundUp addr ≤ p → Free areas length p → node.vmStart ≤ p) :
    UsableRegion areas areas' addr length prot flags node.vmStart := by
  obtain ⟨_, shape⟩ := new_vme_node_found placed
  have fits : regionEnd length node.vmStart < 2 ^ 64 :=
    Nat.lt_of_le_of_lt inside.below (by decide)
  rw [region_end_exact positive fits] at shape
  refine ⟨inside, after, free, fun p above _ apart => lowest p above apart, ?_⟩
  rw [← shape]
  exact insert_vme_split inserted

theorem search_in_area {first : VmArea} {hint start : Nat}
    (within : AreasWithin (first :: areas)) (after : hint ≤ start)
    (free : Free (first :: areas) length start)
    (near : hint < areaStart → first.vmStart < regionEnd length hint) : areaStart ≤ start := by
  by_cases low : hint < areaStart
  · have reaches := Nat.lt_of_lt_of_le (near low) (region_end_mono hint start after)
    have behind := (free first List.mem_cons_self).resolve_left (Nat.not_le.mpr reaches)
    have first_in := within.each first List.mem_cons_self
    have := first_in.above
    have := first_in.nonempty
    omega
  · exact Nat.le_trans (Nat.not_lt.mp low) after

theorem placed_usable {node : VmArea} {areas' : List VmArea} (within : AreasWithin areas)
    (positive : 0 < length) (int : length < 2 ^ 31) (can : Placeable areas addr length)
    (placed : newVmeNode areas addr length prot flags = some node)
    (inserted : insertVmeNode areas node = some areas') :
    UsableRegion areas areas' addr length prot flags node.vmStart := by
  obtain ⟨found, _⟩ := new_vme_node_found placed
  have hint_aligned := (round_up_lt addr).2
  cases areas with
  | nil =>
    obtain ⟨above, below⟩ := can
    have same : node.vmStart = roundUp addr := (Option.some.inj found).symm
    refine usable_region positive placed inserted ⟨?_, ?_, ?_⟩ ?_ nofun ?_
    · rw [same]
      exact hint_aligned
    · rw [same]
      exact above
    · rw [same]
      exact below
    · exact Nat.le_of_eq same.symm
    · intro p after _
      rw [same]
      exact after
  | cons first next =>
    have fits : regionEnd length (roundUp addr) < 2 ^ 64 := by
      rw [Placeable] at can
      split at can
      · rename_i low
        have near : regionEnd length (roundUp addr) < roundUp addr + 2 ^ 32 := region_end_near int
        simp only [areaStart] at low
        omega
      · exact can
    have near : roundUp addr < areaStart → first.vmStart < regionEnd length (roundUp addr) := by
      intro low
      rwa [Placeable, if_pos low] at can
    have low : ∀ a ∈ first :: next, a.vmEnd < 2 ^ 63 := fun a ha =>
      Nat.lt_of_le_of_lt (within.each a ha).below (by decide)
    obtain ⟨start, below⟩ := get_suitable_addr_search low positive int fits found
    have after : roundUp addr ≤ node.vmStart := start ▸ FirstFit.search_after (roundUp addr)
    have free : Free (first :: next) length node.vmStart :=
      start ▸ FirstFit.search_apart within.disjoint (roundUp addr)
    have aligned : Aligned node.vmStart := by
      rcases get_suitable_addr_cases found with same | ⟨a, mem, same⟩
      · exact same ▸ hint_aligned
      · exact same ▸ (within.each a mem).end_aligned
    refine usable_region positive placed inserted ⟨aligned, ?_, below⟩ after free ?_
    · exact search_in_area within after free near
    · intro p hint_le apart
      rw [start]
      exact FirstFit.search_lowest region_end_mono hint_le apart

/-- kmmap yields a usable region exactly at the hints that are `Placeable`; with vme_lock held
    it does not return. -/
theorem mmap_usable_iff (real : t ≠ 0) (within : AreasWithin (s.tasks t).vmAreas)
    (positive : 0 < length) (int : length < 2 ^ 31) (maps : flags ≠ mapUnmap) :
    MapsUsable s t addr length prot flags ↔
      s.locks (.vme t) = true ∨ Placeable (s.tasks t).vmAreas addr length := by
  constructor
  · intro usable
    by_cases held : s.locks (.vme t) = true
    · exact .inl held
    · right
      have free := Bool.not_eq_true _ ▸ held
      have taken := fun before => hint_taken real positive maps free before usable
      cases same : (s.tasks t).vmAreas with
      | nil =>
        rw [same] at taken
        have inside := taken nofun
        exact ⟨inside.above, inside.below⟩
      | cons first next =>
        rw [same] at taken within
        have first_in := within.each first List.mem_cons_self
        have low := Nat.le_trans (Nat.le_of_lt first_in.nonempty) first_in.below
        rw [Placeable]
        split
        · rename_i below
          refine Nat.lt_of_not_le fun apart => ?_
          have fits : regionEnd length (roundUp addr) < 2 ^ 64 :=
            Nat.lt_of_le_of_lt (Nat.le_trans apart low) (by decide)
          have ends := region_end_exact positive fits
          have inside := taken fun a ha => by
            cases ha
            exact ⟨ends ▸ apart, low⟩
          exact absurd inside.above (Nat.not_le.mpr below)
        · refine Nat.lt_of_not_le fun wraps => ?_
          have ends := region_end_wraps positive int (round_up_lt addr).1 wraps
          have inside := taken fun a ha => by
            cases ha
            exact ⟨Nat.le_of_lt (Nat.lt_of_lt_of_le ends first_in.above), low⟩
          have below := Nat.le_trans wraps inside.below
          exact absurd below (by decide)
  · rintro (held | can) start s' returned
    · obtain ⟨free, _⟩ := (kmmap_returns real positive maps).mp returned
      rw [free] at held
      cases held
    · obtain ⟨_, node, areas, placed, inserted, rfl, rfl⟩ :=
        (kmmap_returns real positive maps).mp returned
      have new : ((s.withAreas t areas).tasks t).vmAreas = areas := by
        simp [Kernel.withAreas]
      rw [new]
      exact placed_usable within positive int can placed inserted

def firstPages : Kernel :=
  { uprocInit (fun _ => ⟨0, 0, 0⟩) (fun _ _ => 0) [] with
    tasks := fun _ => { noTask with vmAreas := [⟨areaStart, areaStart + 2 * pgsize, 6, 2⟩] }
    live := [1] }

theorem first_pages_within : AreasWithin (firstPages.tasks 1).vmAreas :=
  ⟨by simpa [firstPages] using ⟨rfl, rfl, by decide, by decide, by decide⟩,
    by simp [firstPages]⟩

theorem mmap_usable_null_hint : MapsUsable firstPages 1 0x100000000fff 100 6 2 :=
  (mmap_usable_iff (by decide) first_pages_within (by decide) (by decide) (by decide)).mpr
    (.inr (by rw [show (firstPages.tasks 1).vmAreas = [_] from rfl, Placeable]; decide))

/-- mmap(NULL) in a process without areas returns 0. -/
theorem null_hint_outside_area :
    ∃ s, run step (uprocInit (fun _ => ⟨0, 0, 0⟩) (fun _ _ => 0) []) [⟨.create, [1], 9⟩] = some s ∧
      AreasWithin (s.tasks 1).vmAreas ∧ ¬MapsUsable s 1 0 100 6 2 := by
  have ends : (run step (uprocInit (fun _ => ⟨0, 0, 0⟩) (fun _ _ => 0) [])
      [⟨.create, [1], 9⟩]).map (fun s => ((s.tasks 1).vmAreas, s.locks (.vme 1))) =
        some ([], false) := by
    decide +kernel
  obtain ⟨s, ran, ends⟩ := Option.map_eq_some_iff.mp ends
  obtain ⟨empty, free⟩ := Prod.mk.inj ends
  refine ⟨s, ran, ?_, fun usable => ?_⟩
  · rw [empty]
    exact ⟨nofun, List.Pairwise.nil⟩
  · have inside := hint_taken (by decide) (by decide) (by decide) free (by rw [empty]; nofun) usable
    exact absurd inside.above (by decide)

end Usable

end Uproc
