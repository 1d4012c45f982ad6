import JyyOs.Uproc.PageList

/-!
Areas of a task: sorted, apart and inside the user area. Where kmmap puts a new one, that
find_vme_node finds the area of a page, and that kfork copies the list.
-/
namespace Uproc

open Hoare

def Aligned (a : Nat) : Prop := a % 4096 = 0

structure AreaOk (a : VmArea) : Prop where
  start_aligned : Aligned a.vmStart
  end_aligned : Aligned a.vmEnd
  above : areaStart ≤ a.vmStart
  nonempty : a.vmStart < a.vmEnd
  below : a.vmEnd ≤ areaEnd
  short : a.vmEnd - a.vmStart < 2 ^ 31
  prot : a.vmProt < 256
  flags : a.vmFlags < 256

structure AreasOk (areas : List VmArea) : Prop where
  each : ∀ a ∈ areas, AreaOk a
  sorted : areas.Pairwise fun a b => a.vmEnd ≤ b.vmStart

/-- An area kfork copies as it is; it may lie below the user area. -/
structure AreaFits (a : VmArea) : Prop where
  start_aligned : Aligned a.vmStart
  end_aligned : Aligned a.vmEnd
  nonempty : a.vmStart < a.vmEnd
  below : a.vmEnd ≤ areaEnd
  short : a.vmEnd - a.vmStart < 2 ^ 31
  prot : a.vmProt < 256
  flags : a.vmFlags < 256

structure AreasFit (areas : List VmArea) : Prop where
  each : ∀ a ∈ areas, AreaFits a
  sorted : areas.Pairwise fun a b => a.vmEnd ≤ b.vmStart

theorem AreaOk.fits {a : VmArea} (ok : AreaOk a) : AreaFits a :=
  ⟨ok.start_aligned, ok.end_aligned, ok.nonempty, ok.below, ok.short, ok.prot, ok.flags⟩

theorem AreasOk.fit {areas : List VmArea} (ok : AreasOk areas) : AreasFit areas :=
  ⟨fun a ha => (ok.each a ha).fits, ok.sorted⟩

def Covers (a : VmArea) (va : Nat) : Prop := a.vmStart ≤ va ∧ va + pgsize ≤ a.vmEnd

section Rounding

theorem user_page_bounds {va : Nat} (page : UserPage va) :
    areaStart ≤ va ∧ va + pgsize ≤ areaEnd ∧ Aligned va := by
  obtain ⟨⟨lower, upper⟩, aligned⟩ := page
  simp only [roundDown, pgsize, areaStart, areaEnd, Aligned] at *
  omega

theorem area_page {ref : Nat} (area : InArea ref) : UserPage (roundDown ref) := by
  obtain ⟨lower, upper⟩ := area
  refine ⟨⟨?_, ?_⟩, ?_⟩ <;> simp only [roundDown, pgsize, areaStart, areaEnd] at * <;> omega

theorem page_end {va : Nat} (page : UserPage va) : u64 (va + pgsize) = va + pgsize := by
  have := user_page_bounds page
  simp only [u64, areaEnd, pgsize] at *
  omega

theorem round_up_bounds {a : Nat} (small : a < 2 ^ 63) :
    a ≤ roundUp a ∧ roundUp a < a + pgsize ∧ Aligned (roundUp a) := by
  simp only [roundUp, u64, pgsize, Aligned]
  omega

theorem round_up_aligned {a : Nat} (small : a < 2 ^ 63) (aligned : Aligned a) :
    roundUp a = a := by
  simp only [roundUp, u64, pgsize, Aligned] at *
  omega

theorem add_length {a : Nat} {length : Int} (small : a < 2 ^ 62) (positive : 0 < length)
    (short : length < 2 ^ 31) : addLength a length = a + length.toNat := by
  simp only [addLength]
  omega

end Rounding

section Find

variable {areas : List VmArea} {va : Nat}

theorem find_vme_some {a : VmArea} {stop : Nat} (h : findVmeNode areas va stop = some a) :
    a ∈ areas ∧ a.vmStart ≤ va ∧ stop ≤ a.vmEnd := by
  induction areas with
  | nil => cases h
  | cons cur next ih =>
    simp only [findVmeNode] at h
    split at h
    · rename_i here
      cases h
      exact ⟨List.mem_cons_self, here⟩
    · split at h
      · obtain ⟨mem, bounds⟩ := ih h
        exact ⟨List.mem_cons_of_mem _ mem, bounds⟩
      · cases h

theorem find_vme_covering (sorted : areas.Pairwise fun a b => a.vmEnd ≤ b.vmStart) {a : VmArea}
    (mem : a ∈ areas) (covers : Covers a va) : findVmeNode areas va (va + pgsize) = some a := by
  induction areas with
  | nil => cases mem
  | cons cur next ih =>
    obtain ⟨before, sorted⟩ := List.pairwise_cons.mp sorted
    obtain ⟨lower, upper⟩ := covers
    rw [findVmeNode]
    rcases List.mem_cons.mp mem with rfl | later
    · rw [if_pos ⟨lower, upper⟩]
    · have gap := before a later
      have size : pgsize = 4096 := rfl
      rw [if_neg (by omega), if_pos (by omega)]
      exact ih sorted later

theorem covering_unique (ok : AreasOk areas) {a b : VmArea} (ha : a ∈ areas) (hb : b ∈ areas)
    (coversA : Covers a va) (coversB : Covers b va) : a = b := by
  have found := find_vme_covering ok.sorted ha coversA
  rw [find_vme_covering ok.sorted hb coversB] at found
  exact (Option.some.inj found).symm

end Find

section Insert

variable {areas : List VmArea} {node : VmArea}

theorem insert_vme_mem {areas' : List VmArea} (h : insertVmeNode areas node = some areas')
    (a : VmArea) : a ∈ areas' ↔ a = node ∨ a ∈ areas := by
  induction areas generalizing areas' with
  | nil =>
    cases h
    simp
  | cons cur next ih =>
    simp only [insertVmeNode] at h
    split at h
    · cases h
      simp
    · split at h
      · obtain ⟨next', inserted, rfl⟩ := Option.map_eq_some_iff.mp h
        rw [List.mem_cons, ih inserted, List.mem_cons]
        tauto
      · cases h

theorem insert_vme_sorted {areas' : List VmArea} (h : insertVmeNode areas node = some areas')
    (nonempty : ∀ a ∈ areas, a.vmStart < a.vmEnd)
    (sorted : areas.Pairwise fun a b => a.vmEnd ≤ b.vmStart) :
    areas'.Pairwise fun a b => a.vmEnd ≤ b.vmStart := by
  induction areas generalizing areas' with
  | nil =>
    cases h
    exact List.pairwise_singleton ..
  | cons cur next ih =>
    obtain ⟨before, rest⟩ := List.pairwise_cons.mp sorted
    have cur_ok := nonempty cur List.mem_cons_self
    simp only [insertVmeNode] at h
    split at h
    · rename_i first
      cases h
      refine List.pairwise_cons.mpr ⟨fun b hb => ?_, sorted⟩
      rcases List.mem_cons.mp hb with rfl | later
      · exact first
      · have := before b later
        omega
    · split at h
      · rename_i behind
        obtain ⟨next', inserted, rfl⟩ := Option.map_eq_some_iff.mp h
        refine List.pairwise_cons.mpr ⟨fun b hb => ?_, ?_⟩
        · rcases (insert_vme_mem inserted b).mp hb with rfl | later
          · exact behind
          · exact before b later
        · exact ih inserted (fun a ha => nonempty a (List.mem_cons_of_mem _ ha)) rest
      · cases h

theorem insert_vme_ok {areas' : List VmArea} (h : insertVmeNode areas node = some areas')
    (ok : AreasOk areas) (new : AreaOk node) : AreasOk areas' := by
  constructor
  · intro a ha
    rcases (insert_vme_mem h a).mp ha with rfl | old
    · exact new
    · exact ok.each a old
  · exact insert_vme_sorted h (fun a ha => (ok.each a ha).nonempty) ok.sorted

theorem insert_vme_last (before : ∀ a ∈ areas, a.vmEnd ≤ node.vmStart)
    (nonempty : ∀ a ∈ areas, a.vmStart < a.vmEnd) (new : node.vmStart < node.vmEnd) :
    insertVmeNode areas node = some (areas ++ [node]) := by
  induction areas with
  | nil => rfl
  | cons cur next ih =>
    have behind := before cur List.mem_cons_self
    have cur_ok := nonempty cur List.mem_cons_self
    rw [insertVmeNode, if_neg (by omega), if_pos behind,
      ih (fun a ha => before a (List.mem_cons_of_mem _ ha))
        fun a ha => nonempty a (List.mem_cons_of_mem _ ha)]
    rfl

end Insert

section Suitable

variable {areas : List VmArea} {length : Int}

theorem suitable_loop_keeps {addr stop : Nat}
    (apart : ∀ a ∈ areas, stop ≤ a.vmStart ∨ a.vmEnd ≤ addr) :
    suitableLoop length areas addr stop = (addr, stop) := by
  induction areas with
  | nil => rfl
  | cons cur next ih =>
    rw [suitableLoop]
    split
    · rfl
    · rename_i not_before
      rw [if_pos ((apart cur List.mem_cons_self).resolve_left not_before)]
      exact ih fun a ha => apart a (List.mem_cons_of_mem _ ha)

theorem suitable_loop_addr (addr stop : Nat) :
    (suitableLoop length areas addr stop).1 = addr ∨
      ∃ a ∈ areas, (suitableLoop length areas addr stop).1 = a.vmEnd := by
  induction areas generalizing addr stop with
  | nil => exact .inl rfl
  | cons cur next ih =>
    rw [suitableLoop]
    split
    · exact .inl rfl
    · split
      · rcases ih addr stop with same | ⟨a, mem, same⟩
        · exact .inl same
        · exact .inr ⟨a, List.mem_cons_of_mem _ mem, same⟩
      · rcases ih cur.vmEnd (roundUp (addLength cur.vmEnd length)) with same | ⟨a, mem, same⟩
        · exact .inr ⟨cur, List.mem_cons_self, same⟩
        · exact .inr ⟨a, List.mem_cons_of_mem _ mem, same⟩

theorem get_suitable_addr_cases {startAddr addr : Nat}
    (h : getSuitableAddr areas startAddr length = some addr) :
    addr = startAddr ∨ ∃ a ∈ areas, addr = a.vmEnd := by
  unfold getSuitableAddr at h
  split at h
  · exact .inl (Option.some.inj h).symm
  · simp only at h
    split at h
    · have same := Option.some.inj h
      rw [← same]
      exact suitable_loop_addr _ _
    · cases h

theorem get_suitable_addr_keeps {startAddr : Nat}
    (apart : ∀ a ∈ areas, roundUp (addLength startAddr length) ≤ a.vmStart ∨
      a.vmEnd ≤ startAddr) (fits : roundUp (addLength startAddr length) ≤ areaEnd) :
    getSuitableAddr areas startAddr length = some startAddr := by
  unfold getSuitableAddr
  split
  · rfl
  · simp only [suitable_loop_keeps apart, if_pos fits]

end Suitable

section New

variable {areas : List VmArea}

theorem new_vme_node_ok {addr : Nat} {length prot flags : Int} {node : VmArea}
    (ok : AreasOk areas) (hint : InArea addr) (positive : 0 < length) (short : length < 2 ^ 31)
    (h : newVmeNode areas addr length prot flags = some node) (fits : node.vmEnd ≤ areaEnd)
    (small : node.vmEnd - node.vmStart < 2 ^ 31) : AreaOk node := by
  obtain ⟨lower, upper⟩ := hint
  simp only [areaStart, areaEnd] at lower upper
  obtain ⟨above, close, aligned⟩ := round_up_bounds (a := addr) (by omega)
  unfold newVmeNode at h
  split at h
  · cases h
  · rename_i start found
    cases h
    have start_ok : Aligned start ∧ areaStart ≤ start ∧ start ≤ areaEnd := by
      rcases get_suitable_addr_cases found with rfl | ⟨a, mem, rfl⟩
      · simp only [Aligned, pgsize, areaStart, areaEnd] at *
        omega
      · have a_ok := ok.each a mem
        have := a_ok.above
        have := a_ok.nonempty
        exact ⟨a_ok.end_aligned, by omega, a_ok.below⟩
    obtain ⟨start_aligned, start_above, start_below⟩ := start_ok
    have stop : addLength start length = start + length.toNat :=
      add_length (by simp only [areaEnd] at start_below; omega) positive short
    obtain ⟨reaches, _, end_aligned⟩ := round_up_bounds (a := addLength start length)
      (by simp only [areaEnd] at start_below; omega)
    constructor
    · exact start_aligned
    · exact end_aligned
    · exact start_above
    · simp only
      omega
    · exact fits
    · exact small
    · simp only
      omega
    · simp only
      omega

theorem new_vme_page {va : Nat} (aligned : ∀ a ∈ areas, Aligned a.vmStart ∧ Aligned a.vmEnd)
    (sorted : areas.Pairwise fun a b => a.vmEnd ≤ b.vmStart) (page : UserPage va)
    (outside : findVmeNode areas va (va + pgsize) = none) (prot flags : Int) :
    newVmeNode areas va pgsize prot flags =
      some ⟨va, va + pgsize, (prot % 256).toNat, (flags % 256).toNat⟩ := by
  obtain ⟨lower, upper, va_aligned⟩ := user_page_bounds page
  have size : pgsize = 4096 := rfl
  have top : areaEnd = 0x108000000000 := rfl
  have rounded : roundUp va = va := round_up_aligned (by omega) va_aligned
  have stop : roundUp (addLength va pgsize) = va + pgsize := by
    rw [add_length (by omega) (by omega) (by omega), Int.toNat_natCast]
    refine round_up_aligned (by omega) ?_
    unfold Aligned at va_aligned ⊢
    omega
  have apart : ∀ a ∈ areas, roundUp (addLength va pgsize) ≤ a.vmStart ∨ a.vmEnd ≤ va := by
    intro a mem
    rw [stop]
    obtain ⟨start_aligned, end_aligned⟩ := aligned a mem
    have uncovered : ¬Covers a va := fun covers => by
      rw [find_vme_covering sorted mem covers] at outside
      cases outside
    unfold Aligned at va_aligned start_aligned end_aligned
    unfold Covers at uncovered
    omega
  unfold newVmeNode
  rw [rounded, get_suitable_addr_keeps apart (by rw [stop]; exact upper)]
  simp only [stop]

theorem new_vme_node_page {va : Nat} (ok : AreasOk areas) (page : UserPage va)
    (outside : findVmeNode areas va (va + pgsize) = none) (prot flags : Int) :
    newVmeNode areas va pgsize prot flags =
      some ⟨va, va + pgsize, (prot % 256).toNat, (flags % 256).toNat⟩ :=
  new_vme_page (fun a ha => ⟨(ok.each a ha).start_aligned, (ok.each a ha).end_aligned⟩) ok.sorted
    page outside prot flags

theorem copied_region {cur : VmArea} (start_aligned : Aligned cur.vmStart)
    (end_aligned : Aligned cur.vmEnd) (nonempty : cur.vmStart < cur.vmEnd)
    (short : cur.vmEnd - cur.vmStart < 2 ^ 31) (reach : cur.vmEnd < 2 ^ 62) :
    roundUp cur.vmStart = cur.vmStart ∧
      roundUp (addLength cur.vmStart (toInt32 ((cur.vmEnd : Int) - cur.vmStart))) = cur.vmEnd := by
  have length : toInt32 ((cur.vmEnd : Int) - cur.vmStart) = (cur.vmEnd : Int) - cur.vmStart := by
    simp only [toInt32]
    omega
  have same : cur.vmStart + ((cur.vmEnd : Int) - cur.vmStart).toNat = cur.vmEnd := by omega
  rw [length, add_length (by omega) (by omega) (by omega), same]
  exact ⟨round_up_aligned (by omega) start_aligned, round_up_aligned (by omega) end_aligned⟩

theorem copied_bytes {a : VmArea} (prot : a.vmProt < 256) (flags : a.vmFlags < 256) :
    ((a.vmProt : Int) % 256).toNat = a.vmProt ∧ ((a.vmFlags : Int) % 256).toNat = a.vmFlags := by
  omega

theorem new_vme_node_copy {cur : VmArea} (before : ∀ a ∈ areas, a.vmEnd ≤ cur.vmStart)
    (ok : AreaFits cur) :
    newVmeNode areas cur.vmStart (toInt32 ((cur.vmEnd : Int) - cur.vmStart)) cur.vmProt
      cur.vmFlags = some cur := by
  have below := ok.below
  obtain ⟨rounded, stop⟩ := copied_region ok.start_aligned ok.end_aligned ok.nonempty ok.short
    (Nat.lt_of_le_of_lt below (by decide))
  obtain ⟨same_prot, same_flags⟩ := copied_bytes ok.prot ok.flags
  unfold newVmeNode
  rw [rounded, get_suitable_addr_keeps (fun a ha => .inr (before a ha))
    (by rw [stop]; exact below)]
  simp only [stop, same_prot, same_flags]

end New

end Uproc
