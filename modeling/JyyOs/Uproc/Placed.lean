import JyyOs.Uproc.Mmap

/-!
The areas kmmap makes from hints in the user area. A region that is the only one may reach past
the end of the user area, and a length near INT_MAX is rounded up to 2^31. That
fork_copying_vme_pages copies such a list, area by area.
-/
namespace Uproc

structure AreaPlaced (a : VmArea) : Prop where
  start_aligned : Aligned a.vmStart
  end_aligned : Aligned a.vmEnd
  above : areaStart ≤ a.vmStart
  low : a.vmStart ≤ areaEnd
  nonempty : a.vmStart < a.vmEnd
  size : a.vmEnd - a.vmStart ≤ 2 ^ 31
  prot : a.vmProt < 256
  flags : a.vmFlags < 256

structure AreasPlaced (areas : List VmArea) : Prop where
  each : ∀ a ∈ areas, AreaPlaced a
  sorted : areas.Pairwise fun a b => a.vmEnd ≤ b.vmStart

section Place

variable {areas : List VmArea} {addr : Nat} {length prot flags : Int} {node : VmArea}

theorem AreaPlaced.reach {a : VmArea} (placed : AreaPlaced a) : a.vmEnd < 2 ^ 63 := by
  have low := placed.low
  have size := placed.size
  simp only [areaEnd] at low
  omega

theorem AreasPlaced.disjoint (placed : AreasPlaced areas) :
    FirstFit.Sorted VmArea.vmStart VmArea.vmEnd areas :=
  ⟨fun a ha => (placed.each a ha).nonempty, placed.sorted⟩

theorem region_end_bounds {start : Nat} (aligned : Aligned start) (positive : 0 < length)
    (int : length < 2 ^ 31) :
    start < regionEnd length start ∧ regionEnd length start - start ≤ 2 ^ 31 ∧
      Aligned (regionEnd length start) := by
  simp only [Aligned, regionEnd, pgsize] at aligned ⊢
  omega

theorem hint_placed (placed : AreasPlaced areas) (hint : InArea addr) (positive : 0 < length)
    (int : length < 2 ^ 31) (new : newVmeNode areas addr length prot flags = some node) :
    AreaPlaced node ∧ FirstFit.Apart VmArea.vmStart VmArea.vmEnd areas node.vmStart node.vmEnd ∧
      node.vmEnd = regionEnd length node.vmStart ∧ (areas ≠ [] → node.vmEnd ≤ areaEnd) := by
  obtain ⟨found, shape⟩ := new_vme_node_found new
  obtain ⟨lower, upper⟩ := hint
  simp only [areaStart, areaEnd] at lower upper
  obtain ⟨above, close, aligned⟩ := round_up_bounds (a := addr) (by omega)
  have reaches : regionEnd length (roundUp addr) < roundUp addr + 2 ^ 32 := region_end_near int
  have fits : regionEnd length (roundUp addr) < 2 ^ 64 := by
    simp only [pgsize] at close
    omega
  have start : Aligned node.vmStart ∧ areaStart ≤ node.vmStart ∧ node.vmStart ≤ areaEnd ∧
      FirstFit.Apart VmArea.vmStart VmArea.vmEnd areas node.vmStart
        (regionEnd length node.vmStart) ∧
      (areas ≠ [] → regionEnd length node.vmStart ≤ areaEnd) := by
    cases areas with
    | nil =>
      have same : node.vmStart = roundUp addr := (Option.some.inj found).symm
      rw [same]
      refine ⟨aligned, ?_, ?_, FirstFit.apart_nil _ _, fun some_area => absurd rfl some_area⟩
      · exact Nat.le_trans lower above
      · simp only [Aligned, pgsize, areaEnd] at close aligned ⊢
        omega
    | cons first next =>
      have low := fun a ha => (placed.each a ha).reach
      obtain ⟨start, below⟩ := get_suitable_addr_search low positive int fits found
      have after : roundUp addr ≤ node.vmStart := start ▸ FirstFit.search_after (roundUp addr)
      have ends := Nat.le_trans (Nat.le_add_right node.vmStart length.toNat)
        (show _ ≤ regionEnd length node.vmStart by simp only [regionEnd, pgsize]; omega)
      refine ⟨?_, ?_, Nat.le_trans ends below, ?_, fun _ => below⟩
      · rcases get_suitable_addr_cases found with same | ⟨a, mem, same⟩
        · exact same ▸ aligned
        · exact same ▸ (placed.each a mem).end_aligned
      · exact Nat.le_trans lower (Nat.le_trans above after)
      · exact start ▸ FirstFit.search_apart placed.disjoint (roundUp addr)
  obtain ⟨start_aligned, start_above, low, apart, below⟩ := start
  have near : regionEnd length node.vmStart < node.vmStart + 2 ^ 32 := region_end_near int
  have reachable : regionEnd length node.vmStart < 2 ^ 64 := by
    simp only [areaEnd] at low
    omega
  have exact_end := region_end_exact positive reachable
  obtain ⟨nonempty, size, end_aligned⟩ := region_end_bounds start_aligned positive int
  have ends : node.vmEnd = regionEnd length node.vmStart := by
    rw [shape]
    exact exact_end
  refine ⟨⟨start_aligned, ?_, start_above, low, ?_, ?_, ?_, ?_⟩, ?_, ends, ?_⟩
  · rw [ends]
    exact end_aligned
  · rw [ends]
    exact nonempty
  · rw [ends]
    exact size
  · rw [shape]
    simp only
    omega
  · rw [shape]
    simp only
    omega
  · rw [ends]
    exact apart
  · rw [ends]
    exact below

theorem insert_vme_apart
    (apart : FirstFit.Apart VmArea.vmStart VmArea.vmEnd areas node.vmStart node.vmEnd) :
    ∃ areas', insertVmeNode areas node = some areas' := by
  induction areas with
  | nil => exact ⟨_, rfl⟩
  | cons cur next ih =>
    obtain ⟨next', inserted⟩ := ih fun a ha => apart a (List.mem_cons_of_mem _ ha)
    rw [insertVmeNode]
    split
    · exact ⟨_, rfl⟩
    · rename_i not_before
      rw [if_pos ((apart cur List.mem_cons_self).resolve_left not_before), inserted]
      exact ⟨_, rfl⟩

theorem insert_placed {areas' : List VmArea} (inserted : insertVmeNode areas node = some areas')
    (placed : AreasPlaced areas) (new : AreaPlaced node) : AreasPlaced areas' := by
  constructor
  · intro a ha
    rcases (insert_vme_mem inserted a).mp ha with rfl | old
    · exact new
    · exact placed.each a old
  · exact insert_vme_sorted inserted (fun a ha => (placed.each a ha).nonempty) placed.sorted

theorem page_placed {va : Nat} (placed : AreasPlaced areas) (page : UserPage va)
    (outside : findVmeNode areas va (va + pgsize) = none)
    (new : newVmeNode areas va pgsize prot flags = some node) :
    node.vmStart = va ∧ node.vmEnd = va + pgsize := by
  have aligned : ∀ a ∈ areas, Aligned a.vmStart ∧ Aligned a.vmEnd := fun a ha =>
    ⟨(placed.each a ha).start_aligned, (placed.each a ha).end_aligned⟩
  rw [new_vme_page aligned placed.sorted page outside] at new
  cases new
  exact ⟨rfl, rfl⟩

end Place

section Copy

/-- What the loop of fork_copying_vme_pages makes of the list of the child, and whether every
    insertion succeeded. -/
def copyAreas : List VmArea → List VmArea → Option (List VmArea × Bool)
  | child, [] => some (child, true)
  | child, cur :: next =>
    match newVmeNode child cur.vmStart (toInt32 ((cur.vmEnd : Int) - cur.vmStart)) cur.vmProt
      cur.vmFlags with
    | none => none
    | some node =>
      match insertVmeNode child node with
      | some child => copyAreas child next
      | none => (copyAreas child next).map fun copied => (copied.1, false)

variable {child areas : List VmArea} {cur : VmArea}

theorem copy_search (length : Int) (before : ∀ a ∈ child, a.vmEnd ≤ cur.vmStart) :
    getSuitableAddr child cur.vmStart length =
      if child = [] ∨ roundUp (addLength cur.vmStart length) ≤ areaEnd then some cur.vmStart
      else none := by
  have kept : suitableLoop length child cur.vmStart (roundUp (addLength cur.vmStart length)) =
      (cur.vmStart, roundUp (addLength cur.vmStart length)) :=
    suitable_loop_keeps fun a ha => .inr (before a ha)
  by_cases empty : child = []
  · rw [getSuitableAddr, if_pos empty, if_pos (.inl empty)]
  · simp only [getSuitableAddr, empty, if_false, kept, false_or]

theorem copy_short (before : ∀ a ∈ child, a.vmEnd ≤ cur.vmStart) (placed : AreaPlaced cur)
    (short : cur.vmEnd - cur.vmStart < 2 ^ 31) :
    newVmeNode child cur.vmStart (toInt32 ((cur.vmEnd : Int) - cur.vmStart)) cur.vmProt
      cur.vmFlags = if child = [] ∨ cur.vmEnd ≤ areaEnd then some cur else none := by
  have reach : cur.vmEnd < 2 ^ 62 := by
    have low := placed.low
    simp only [areaEnd] at low
    omega
  obtain ⟨rounded, stop⟩ := copied_region placed.start_aligned placed.end_aligned placed.nonempty
    short reach
  obtain ⟨same_prot, same_flags⟩ := copied_bytes placed.prot placed.flags
  unfold newVmeNode
  rw [rounded, copy_search _ before, stop]
  split
  · rename_i fails
    split at fails
    · cases fails
    · rename_i blocked
      rw [if_neg blocked]
  · rename_i start found
    obtain ⟨can, same⟩ := Option.ite_none_right_eq_some.mp found
    cases same
    rw [if_pos can]
    simp only [stop, same_prot, same_flags]

/-- A size of 2^31 is passed on as -2^31: the copy ends before it starts. -/
theorem copy_oversize (before : ∀ a ∈ child, a.vmEnd ≤ cur.vmStart) (placed : AreaPlaced cur)
    (large : 2 ^ 31 ≤ cur.vmEnd - cur.vmStart) :
    ∃ node, newVmeNode child cur.vmStart (toInt32 ((cur.vmEnd : Int) - cur.vmStart)) cur.vmProt
      cur.vmFlags = some node ∧ node.vmStart = cur.vmStart ∧ node.vmEnd < node.vmStart := by
  have above := placed.above
  have low := placed.low
  have size := placed.size
  simp only [areaStart, areaEnd] at above low
  have length : toInt32 ((cur.vmEnd : Int) - cur.vmStart) = -2 ^ 31 := by
    simp only [toInt32]
    omega
  have rounded : roundUp cur.vmStart = cur.vmStart :=
    round_up_aligned (by omega) placed.start_aligned
  have stop : roundUp (addLength cur.vmStart (-2 ^ 31)) ≤ cur.vmStart - 1 := by
    simp only [roundUp, u64, addLength, pgsize]
    omega
  have inside : roundUp (addLength cur.vmStart (-2 ^ 31)) ≤ areaEnd := by
    simp only [areaEnd]
    omega
  have found := copy_search (-2 ^ 31) before
  rw [if_pos (.inr inside)] at found
  have hinted : getSuitableAddr child (roundUp cur.vmStart) (-2 ^ 31) = some cur.vmStart := by
    rw [rounded]
    exact found
  rw [length, new_vme_node_at hinted]
  refine ⟨_, rfl, rfl, ?_⟩
  simp only
  omega

theorem copy_keeps {out : List VmArea} {all : Bool} (copied : copyAreas child areas = some (out, all))
    {a : VmArea} (ha : a ∈ child) : a ∈ out := by
  induction areas generalizing child out all with
  | nil =>
    cases copied
    exact ha
  | cons cur next ih =>
    rw [copyAreas] at copied
    split at copied
    · cases copied
    · split at copied
      · rename_i inserted
        exact ih copied ((insert_vme_mem inserted a).mpr (.inr ha))
      · obtain ⟨⟨_, _⟩, later, same⟩ := Option.map_eq_some_iff.mp copied
        cases same
        exact ih later ha

def Copyable (areas : List VmArea) : Prop :=
  (∀ a ∈ areas, a.vmEnd - a.vmStart < 2 ^ 31) ∧ ∀ a ∈ areas.tail, a.vmEnd ≤ areaEnd

theorem placed_middle (placed : AreasPlaced (child ++ cur :: areas)) :
    (∀ a ∈ child, a.vmEnd ≤ cur.vmStart) ∧ (∀ a ∈ child, a.vmStart < a.vmEnd) ∧
      AreaPlaced cur ∧ AreasPlaced ((child ++ [cur]) ++ areas) := by
  refine ⟨?_, ?_, ?_, ?_⟩
  · intro a ha
    exact (List.pairwise_append.mp placed.sorted).2.2 a ha cur List.mem_cons_self
  · exact fun a ha => (placed.each a (List.mem_append_left _ ha)).nonempty
  · exact placed.each cur (List.mem_append_right _ List.mem_cons_self)
  · rw [List.append_assoc]
    exact placed

theorem copy_one (placed : AreasPlaced (child ++ cur :: areas))
    (short : cur.vmEnd - cur.vmStart < 2 ^ 31) (fits : child = [] ∨ cur.vmEnd ≤ areaEnd) :
    copyAreas child (cur :: areas) = copyAreas (child ++ [cur]) areas := by
  obtain ⟨before, nonempty, cur_placed, _⟩ := placed_middle placed
  have last := insert_vme_last before nonempty cur_placed.nonempty
  rw [copyAreas, copy_short before cur_placed short, if_pos fits]
  simp only [last]

theorem copy_malformed (placed : AreasPlaced (child ++ cur :: areas))
    (large : 2 ^ 31 ≤ cur.vmEnd - cur.vmStart) {out : List VmArea} {all : Bool}
    (copied : copyAreas child (cur :: areas) = some (out, all)) :
    ∃ a ∈ out, a.vmEnd < a.vmStart := by
  obtain ⟨before, _, cur_placed, _⟩ := placed_middle placed
  obtain ⟨node, new, start, reversed⟩ := copy_oversize before cur_placed large
  have apart : FirstFit.Apart VmArea.vmStart VmArea.vmEnd child node.vmStart node.vmEnd :=
    fun a ha => .inr (start ▸ before a ha)
  obtain ⟨child', inserted⟩ := insert_vme_apart apart
  rw [copyAreas, new] at copied
  simp only [inserted] at copied
  exact ⟨node, copy_keeps copied ((insert_vme_mem inserted node).mpr (.inl rfl)), reversed⟩

theorem copy_behind (placed : AreasPlaced (child ++ areas)) (some_area : child ≠ [])
    (can : ∀ a ∈ areas, a.vmEnd - a.vmStart < 2 ^ 31 ∧ a.vmEnd ≤ areaEnd) :
    copyAreas child areas = some (child ++ areas, true) := by
  induction areas generalizing child with
  | nil => rw [copyAreas, List.append_nil]
  | cons cur next ih =>
    obtain ⟨short, below⟩ := can cur List.mem_cons_self
    obtain ⟨_, _, _, rest⟩ := placed_middle placed
    rw [copy_one placed short (.inr below), ih rest (by simp)
      fun a ha => can a (List.mem_cons_of_mem _ ha), List.append_assoc]
    rfl

theorem copied_behind (placed : AreasPlaced (child ++ areas)) (some_area : child ≠ [])
    {out : List VmArea} {all : Bool} (copied : copyAreas child areas = some (out, all)) :
    (∀ a ∈ areas, a.vmEnd - a.vmStart < 2 ^ 31 ∧ a.vmEnd ≤ areaEnd) ∨
      ∃ a ∈ out, a.vmEnd < a.vmStart := by
  induction areas generalizing child with
  | nil => exact .inl nofun
  | cons cur next ih =>
    obtain ⟨before, _, cur_placed, rest⟩ := placed_middle placed
    by_cases short : cur.vmEnd - cur.vmStart < 2 ^ 31
    · by_cases below : cur.vmEnd ≤ areaEnd
      · rw [copy_one placed short (.inr below)] at copied
        refine (ih rest (by simp) copied).imp_left fun later a ha => ?_
        rcases List.mem_cons.mp ha with rfl | ha
        · exact ⟨short, below⟩
        · exact later a ha
      · rw [copyAreas, copy_short before cur_placed short,
          if_neg (not_or.mpr ⟨some_area, below⟩)] at copied
        cases copied
    · exact .inr (copy_malformed placed (Nat.not_lt.mp short) copied)

theorem copy_all (placed : AreasPlaced areas) (can : Copyable areas) :
    copyAreas [] areas = some (areas, true) := by
  cases areas with
  | nil => rfl
  | cons first next =>
    obtain ⟨short, below⟩ := can
    have whole : AreasPlaced ([] ++ first :: next) := placed
    have behind : AreasPlaced ([first] ++ next) := placed
    rw [copy_one whole (short first List.mem_cons_self) (.inl rfl)]
    exact copy_behind behind (List.cons_ne_nil _ _) fun a ha =>
      ⟨short a (List.mem_cons_of_mem _ ha), below a ha⟩

/-- fork_copying_vme_pages makes the same list exactly when no area is 2^31 bytes long and no
    area but the first ends behind the user area. -/
theorem copy_areas_iff (placed : AreasPlaced areas) :
    (∃ all, copyAreas [] areas = some (areas, all)) ↔ Copyable areas := by
  constructor
  · rintro ⟨all, copied⟩
    have sound : ¬∃ a ∈ areas, a.vmEnd < a.vmStart := by
      rintro ⟨a, ha, reversed⟩
      have := (placed.each a ha).nonempty
      omega
    cases areas with
    | nil => exact ⟨nofun, nofun⟩
    | cons first next =>
      have whole : AreasPlaced ([] ++ first :: next) := placed
      have behind : AreasPlaced ([first] ++ next) := placed
      by_cases short : first.vmEnd - first.vmStart < 2 ^ 31
      · rw [copy_one whole short (.inl rfl)] at copied
        have later := (copied_behind behind (List.cons_ne_nil _ _) copied).resolve_right sound
        refine ⟨fun a ha => ?_, fun a ha => (later a ha).2⟩
        rcases List.mem_cons.mp ha with rfl | ha
        · exact short
        · exact (later a ha).1
      · exact absurd (copy_malformed whole (Nat.not_lt.mp short) copied) sound
  · exact fun can => ⟨true, copy_all placed can⟩

end Copy

end Uproc
