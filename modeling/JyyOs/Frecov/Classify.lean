import JyyOs.Frecov.Header
import JyyOs.Library.Faults
import Mathlib.Logic.Function.Basic
import Mathlib.Data.List.Nodup

/-!
classify_the_cluster of frecov.c: the type of every cluster and the list of directories. Reads
outside of the image and writes behind the table are faults.
-/
namespace Frecov

open Faults

section Disk

inductive Fault where
  | divide
  | overflow
  | image
  | buffer
  | table
  deriving DecidableEq

structure Disk where
  size : Nat
  bytes : Nat → UInt8

def Disk.hdr (disk : Disk) : Fat32Hdr := fat32Hdr disk.bytes

variable (disk : Disk)

def Disk.read (p : Nat) : Except Fault UInt8 :=
  if p < disk.size then .ok (disk.bytes p) else .error .image

def Disk.read16 (p : Nat) : Except Fault Nat := do
  let low ← disk.read p
  let high ← disk.read (p + 1)
  return low.toNat + 256 * high.toNat

def Disk.read32 (p : Nat) : Except Fault Nat := do
  let low ← disk.read16 p
  let high ← disk.read16 (p + 2)
  return low + 65536 * high

def Disk.address (n : Nat) : Except Fault Nat :=
  match clusterToAddr disk.hdr n with
  | some cluster => .ok cluster
  | none => .error .overflow

def Fat32Hdr.cluCnt (hdr : Fat32Hdr) : Nat :=
  u32 (hdr.totSec32.toNat + (2 ^ 32 - u32 hdr.regions)) / hdr.secPerClus.toNat

end Disk

section Geometry

variable {hdr : Fat32Hdr} {n : Nat}

theorem clu_cnt_eq (regions : hdr.regions ≤ hdr.totSec32.toNat) : hdr.cluCnt = hdr.dataClusters := by
  have total := hdr.totSec32.toNat_lt
  have counted : u32 (hdr.totSec32.toNat + (2 ^ 32 - u32 hdr.regions)) =
      hdr.totSec32.toNat - hdr.regions := by
    unfold u32
    omega
  rw [Fat32Hdr.cluCnt, Fat32Hdr.dataClusters, counted]

/-- The last two data clusters are not counted, so the rounding of Cluster_to_Addr leads out of
    the volume nowhere. -/
theorem counted_cluster_inside (sized : 0 < hdr.bytsPerSec.toNat ∧ 0 < hdr.secPerClus.toNat)
    (volume : hdr.totSec32.toNat * hdr.bytsPerSec.toNat < 2 ^ 31)
    (regions : hdr.regions ≤ hdr.totSec32.toNat) (low : 2 ≤ n) (high : n < hdr.cluCnt) :
    ∃ cluster, clusterToAddr hdr n = some cluster ∧
      cluster + hdr.cluSize ≤ hdr.totSec32.toNat * hdr.bytsPerSec.toNat := by
  rw [clu_cnt_eq regions] at high
  obtain ⟨bytes, sectors⟩ := sized
  have total := hdr.totSec32.toNat_lt
  have clusters : (n + 1) * hdr.secPerClus.toNat ≤ hdr.totSec32.toNat - hdr.regions :=
    Nat.le_trans (Nat.mul_le_mul_right _ high) (Nat.div_mul_le_self ..)
  have known : hdr.rsvdSecCnt.toNat + hdr.fatSectors ≤ hdr.regions := Nat.le_add_right ..
  obtain ⟨k, rfl⟩ : ∃ k, n = k + 2 := ⟨n - 2, by omega⟩
  have parts : (k + 2 + 1) * hdr.secPerClus.toNat =
      k * hdr.secPerClus.toNat + 3 * hdr.secPerClus.toNat := by
    rw [Nat.add_assoc, Nat.add_mul]
  have reserved := whole_clusters_bounds hdr.rsvdSecCnt.toNat sectors (by omega)
  have fats := whole_clusters_bounds hdr.fatSectors sectors (by omega)
  refine ⟨_, cluster_to_addr_data ⟨bytes, sectors⟩ volume low (by omega), ?_⟩
  rw [Nat.add_sub_cancel, Fat32Hdr.cluSize, Nat.mul_comm hdr.bytsPerSec.toNat, ← Nat.add_mul]
  exact Nat.mul_le_mul_right _ (by omega)

end Geometry

section Judges

/-- -1 marks the clusters a picture has taken. -/
inductive CluType where
  | dir
  | bmpF
  | bmpI
  | unused
  | taken
  deriving DecidableEq

variable (disk : Disk)

def judgeIfBmpHdr (cluster : Nat) : Except Fault Bool := do
  let type ← disk.read16 cluster
  if type ≠ 0x4d42 then return false
  let reserved1 ← disk.read16 (cluster + 6)
  if reserved1 ≠ 0 then return false
  let reserved2 ← disk.read16 (cluster + 8)
  if reserved2 ≠ 0 then return false
  let size ← disk.read32 (cluster + 14)
  return decide (size = 40)

def zeroWords (p : Nat) : Nat → Except Fault Bool
  | 0 => .ok true
  | left + 1 => do
    let word ← disk.read16 p
    if word ≠ 0 then return false else zeroWords (p + 2) left

def judgeIfUnused (cluster : Nat) : Except Fault Bool := do
  if ← zeroWords disk cluster 16 then
    let word ← disk.read16 (cluster + 2 * (disk.hdr.cluSize / 4))
    return decide (word = 0)
  else return false

/-- The characters at `p` are "BMP" or "bmp", in which the B may be of the other case. -/
def bmpName (p : Nat) : Except Fault Bool := do
  let b ← disk.read p
  if b ≠ 0x42 ∧ b ≠ 0x62 then return false
  let m ← disk.read (p + 1)
  if m = 0x4d then
    let x ← disk.read (p + 2)
    return decide (x = 0x50)
  else if m = 0x6d then
    let x ← disk.read (p + 2)
    return decide (x = 0x70)
  else return false

/-- The loop of judge_if_dir with `left` rounds to go; its counter is an int. -/
def bmpNames (cluster : Nat) : Nat → Nat → Nat → Except Fault Nat
  | 0, _, bmpCnt => .ok bmpCnt
  | left + 1, i, bmpCnt =>
    if 2 ^ 31 ≤ i then .error .overflow
    else do
      if ← bmpName disk (cluster + i) then bmpNames cluster left (i + 1) (bmpCnt + 1)
      else bmpNames cluster left (i + 1) bmpCnt

/-- judge_if_dir; `cluster_size - 2` is a size_t. -/
def judgeIfDir (cluster : Nat) : Except Fault Bool := do
  let bmpCnt ← bmpNames disk cluster ((disk.hdr.cluSize + (2 ^ 64 - 2)) % 2 ^ 64) 0 0
  return decide (2 < bmpCnt)

def decideCluType (cluster : Nat) : Except Fault CluType := do
  if ← judgeIfBmpHdr disk cluster then return .bmpF
  else if ← judgeIfUnused disk cluster then return .unused
  else if ← judgeIfDir disk cluster then return .dir
  else return .bmpI

end Judges

section Table

/-- clu_table, of as many entries as there are clusters; `none` is what malloc left there. -/
abbrev Table := Nat → Option CluType

def tableSet (hdr : Fat32Hdr) (cluTable : Table) (i : Nat) (type : CluType) :
    Except Fault Table :=
  if i < hdr.cluCnt then .ok (Function.update cluTable i (some type)) else .error .table

/-- The table and the list of directories, the newest first. -/
structure Classes where
  cluTable : Table
  dirBegin : List Nat

def classifyCluster (disk : Disk) (cluNum : Nat) (c : Classes) : Except Fault Classes := do
  let cluster ← disk.address cluNum
  let type ← decideCluType disk cluster
  let cluTable ← tableSet disk.hdr c.cluTable cluNum type
  return ⟨cluTable, if type = .dir then cluNum :: c.dirBegin else c.dirBegin⟩

def classifyLoop (disk : Disk) : Nat → Nat → Classes → Except Fault Classes
  | 0, _, c => .ok c
  | left + 1, cluNum, c => do
    let c ← classifyCluster disk cluNum c
    classifyLoop disk left (cluNum + 1) c

def classifyTheCluster (disk : Disk) : Except Fault Classes :=
  classifyLoop disk (disk.hdr.cluCnt - 2) 2 ⟨fun _ => none, []⟩

end Table

section Classified

variable {disk : Disk} {c c' : Classes} {n left : Nat}

def kindOf (disk : Disk) (n : Nat) : Except Fault CluType := do
  let cluster ← disk.address n
  decideCluType disk cluster

theorem table_set_ok {hdr : Fat32Hdr} {t t' : Table} {type : CluType}
    (ran : tableSet hdr t n type = .ok t') :
    n < hdr.cluCnt ∧ t' = Function.update t n (some type) := by
  unfold tableSet at ran
  split at ran
  · rename_i inside
    cases ran
    exact ⟨inside, rfl⟩
  · cases ran

theorem classify_cluster_ok (ran : classifyCluster disk n c = .ok c') :
    ∃ type, kindOf disk n = .ok type ∧ c'.cluTable = Function.update c.cluTable n (some type) ∧
      c'.dirBegin = if type = .dir then n :: c.dirBegin else c.dirBegin := by
  unfold classifyCluster at ran
  obtain ⟨cluster, found, ran⟩ := bind_ok.mp ran
  obtain ⟨type, decided, ran⟩ := bind_ok.mp ran
  obtain ⟨cluTable, written, ran⟩ := bind_ok.mp ran
  cases ran
  exact ⟨type, bind_ok.mpr ⟨cluster, found, decided⟩, (table_set_ok written).2, rfl⟩

/-- The clusters from `n` on, `left` of them, are typed, and the directories among them listed in
    front of the others. -/
structure Extends (disk : Disk) (n left : Nat) (c c' : Classes) : Prop where
  typed : ∀ i, n ≤ i → i < n + left → ∃ type, kindOf disk i = .ok type ∧ c'.cluTable i = some type
  kept : ∀ i, i < n ∨ n + left ≤ i → c'.cluTable i = c.cluTable i
  listed : ∃ found, c'.dirBegin = found ++ c.dirBegin ∧ found.Nodup ∧
    ∀ i, i ∈ found ↔ n ≤ i ∧ i < n + left ∧ kindOf disk i = .ok .dir

theorem extends_none (c : Classes) : Extends disk n 0 c c where
  typed := fun i low high => absurd high (Nat.not_lt_of_le low)
  kept := fun _ _ => rfl
  listed := ⟨[], rfl, List.nodup_nil, by
    intro i
    simp
    omega⟩

theorem extends_step {mid : Classes} (first : classifyCluster disk n c = .ok mid)
    (rest : Extends disk (n + 1) left mid c') : Extends disk n (left + 1) c c' := by
  obtain ⟨type, kind, table, list⟩ := classify_cluster_ok first
  have here : c'.cluTable n = some type := by
    rw [rest.kept n (.inl (Nat.lt_succ_self n)), table, Function.update_self]
  constructor
  · intro i low high
    rcases Nat.eq_or_lt_of_le low with same | later
    · subst same
      exact ⟨type, kind, here⟩
    · exact rest.typed i later (by omega)
  · intro i outside
    rw [rest.kept i (by omega), table, Function.update_of_ne (by omega)]
  · obtain ⟨found, listed, nodup, members⟩ := rest.listed
    by_cases dir : type = .dir
    · rw [if_pos dir] at list
      subst dir
      refine ⟨found ++ [n], ?_, ?_, fun i => ?_⟩
      · rw [listed, list, List.append_assoc]
        rfl
      · have apart : n ∉ found := fun mem => by
          have later := ((members n).mp mem).1
          omega
        rw [List.nodup_append]
        exact ⟨nodup, List.nodup_singleton n, fun a mem b only => by
          rw [List.mem_singleton.mp only]
          intro same
          exact apart (same ▸ mem)⟩
      · rw [List.mem_append, members i, List.mem_singleton]
        constructor
        · rintro (⟨low, high, is_dir⟩ | same)
          · exact ⟨by omega, by omega, is_dir⟩
          · subst same
            exact ⟨Nat.le_refl i, by omega, kind⟩
        · rintro ⟨low, high, is_dir⟩
          rcases Nat.eq_or_lt_of_le low with same | later
          · exact .inr same.symm
          · exact .inl ⟨later, by omega, is_dir⟩
    · rw [if_neg dir] at list
      refine ⟨found, by rw [listed, list], nodup, fun i => ?_⟩
      rw [members i]
      constructor
      · rintro ⟨low, high, is_dir⟩
        exact ⟨by omega, by omega, is_dir⟩
      · rintro ⟨low, high, is_dir⟩
        rcases Nat.eq_or_lt_of_le low with same | later
        · subst same
          rw [kind] at is_dir
          exact absurd (Except.ok.inj is_dir) dir
        · exact ⟨later, by omega, is_dir⟩

theorem classify_loop_extends (ran : classifyLoop disk left n c = .ok c') :
    Extends disk n left c c' := by
  induction left generalizing n c with
  | zero =>
    cases ran
    exact extends_none _
  | succ left ih =>
    obtain ⟨mid, first, rest⟩ := bind_ok.mp ran
    exact extends_step first (ih rest)

end Classified

end Frecov
