import Mathlib.Algebra.Order.Ring.Nat
import Mathlib.Tactic.Ring
import Mathlib.Tactic.Linarith

/-!
The header of a FAT32 image, and where frecov.c and fatree.c look for a data cluster. Addresses
are offsets in the image. u32 arithmetic wraps around; an int that overflows has no value.
-/
namespace Frecov

structure Fat32Hdr where
  bytsPerSec : UInt16
  secPerClus : UInt8
  rsvdSecCnt : UInt16
  numFATs : UInt8
  rootEntCnt : UInt16
  totSec32 : UInt32
  fatSz32 : UInt32
  signatureWord : UInt16

def le16 (bytes : Nat → UInt8) (p : Nat) : Nat := (bytes p).toNat + 256 * (bytes (p + 1)).toNat

def le32 (bytes : Nat → UInt8) (p : Nat) : Nat := le16 bytes p + 65536 * le16 bytes (p + 2)

def fat32Hdr (bytes : Nat → UInt8) : Fat32Hdr where
  bytsPerSec := UInt16.ofNat (le16 bytes 11)
  secPerClus := bytes 13
  rsvdSecCnt := UInt16.ofNat (le16 bytes 14)
  numFATs := bytes 16
  rootEntCnt := UInt16.ofNat (le16 bytes 17)
  totSec32 := UInt32.ofNat (le32 bytes 32)
  fatSz32 := UInt32.ofNat (le32 bytes 36)
  signatureWord := UInt16.ofNat (le16 bytes 510)

def u32 (v : Nat) : Nat := v % 2 ^ 32

variable (hdr : Fat32Hdr)

/-- What map_disk checks. -/
def Fat32Hdr.Accepted (size : Nat) : Prop :=
  hdr.signatureWord = 0xaa55 ∧ u32 (hdr.totSec32.toNat * hdr.bytsPerSec.toNat) = size

def Fat32Hdr.cluSize : Nat := hdr.bytsPerSec.toNat * hdr.secPerClus.toNat

def Fat32Hdr.fatSectors : Nat := hdr.numFATs.toNat * hdr.fatSz32.toNat

/-- The sectors up to the end of the last cluster some of them lie in. -/
def Fat32Hdr.wholeClusters (sectors : Nat) : Nat :=
  u32 (sectors + (hdr.secPerClus.toNat - 1)) / hdr.secPerClus.toNat * hdr.secPerClus.toNat

/-- Cluster_to_Addr of frecov. The first product is an int, the others are u32. -/
def clusterToAddr (n : Nat) : Option Nat :=
  let reserved := hdr.wholeClusters hdr.rsvdSecCnt.toNat * hdr.bytsPerSec.toNat
  let fats := hdr.wholeClusters (u32 hdr.fatSectors) * hdr.bytsPerSec.toNat
  let data := u32 (n + (2 ^ 32 - 2)) * hdr.secPerClus.toNat * hdr.bytsPerSec.toNat
  if hdr.secPerClus = 0 ∨ 2 ^ 31 ≤ reserved then none
  else some (reserved + u32 fats + u32 data)

/-- cluster_to_sec of fatree; `(n - 2) * BPB_SecPerClus` is an int. -/
def clusterToSec (n : Int) : Option Nat :=
  let ahead := (n - 2) * hdr.secPerClus.toNat
  if -2 ^ 31 ≤ ahead ∧ ahead < 2 ^ 31 then
    let dataSec := u32 (hdr.rsvdSecCnt.toNat + hdr.fatSectors)
    let dataSec := u32 (dataSec + (ahead % 2 ^ 32).toNat)
    some (u32 (dataSec * hdr.bytsPerSec.toNat))
  else none

def Fat32Hdr.rootDirSectors : Nat :=
  (hdr.rootEntCnt.toNat * 32 + (hdr.bytsPerSec.toNat - 1)) / hdr.bytsPerSec.toNat

def Fat32Hdr.regions : Nat := hdr.rsvdSecCnt.toNat + hdr.fatSectors + hdr.rootDirSectors

def Fat32Hdr.dataClusters : Nat := (hdr.totSec32.toNat - hdr.regions) / hdr.secPerClus.toNat

def dataOffset (n : Nat) : Nat :=
  (hdr.rsvdSecCnt.toNat + hdr.fatSectors + (n - 2) * hdr.secPerClus.toNat) * hdr.bytsPerSec.toNat

def AddressesAgree (n : Nat) : Prop :=
  clusterToAddr hdr n = some (dataOffset hdr n) ∧ clusterToSec hdr n = some (dataOffset hdr n)

variable {hdr : Fat32Hdr} {n : Nat}

theorem u32_small {v : Nat} (small : v < 2 ^ 32) : u32 v = v := Nat.mod_eq_of_lt small

theorem clu_size_small (hdr : Fat32Hdr) : hdr.cluSize < 2 ^ 24 := by
  have product := Nat.mul_lt_mul'' hdr.bytsPerSec.toNat_lt hdr.secPerClus.toNat_lt
  rwa [← Nat.pow_add] at product

theorem whole_clusters_bounds (sectors : Nat) (sized : 0 < hdr.secPerClus.toNat)
    (small : sectors + hdr.secPerClus.toNat ≤ 2 ^ 32) :
    sectors ≤ hdr.wholeClusters sectors ∧
      hdr.wholeClusters sectors < sectors + hdr.secPerClus.toNat := by
  have parts := Nat.div_add_mod (sectors + (hdr.secPerClus.toNat - 1)) hdr.secPerClus.toNat
  have below := Nat.mod_lt (sectors + (hdr.secPerClus.toNat - 1)) sized
  rw [Nat.mul_comm] at parts
  rw [Fat32Hdr.wholeClusters, u32_small (by omega)]
  omega

theorem whole_clusters_eq_iff {sectors : Nat} (sized : 0 < hdr.secPerClus.toNat)
    (small : sectors + hdr.secPerClus.toNat ≤ 2 ^ 32) :
    hdr.wholeClusters sectors = sectors ↔ hdr.secPerClus.toNat ∣ sectors := by
  constructor
  · intro same
    rw [← same]
    exact Nat.dvd_mul_left ..
  · rintro ⟨k, rfl⟩
    have whole : (hdr.secPerClus.toNat * k + (hdr.secPerClus.toNat - 1)) / hdr.secPerClus.toNat =
        k := by
      rw [Nat.mul_add_div sized, Nat.div_eq_of_lt (by omega), Nat.add_zero]
    rw [Fat32Hdr.wholeClusters, u32_small (by omega), whole, Nat.mul_comm]

theorem data_cluster_inside (sized : 0 < hdr.secPerClus.toNat) (first : 2 ≤ n)
    (last : n ≤ hdr.dataClusters + 1) :
    hdr.regions + (n - 1) * hdr.secPerClus.toNat ≤ hdr.totSec32.toNat := by
  have count : (n - 1) * hdr.secPerClus.toNat ≤ hdr.totSec32.toNat - hdr.regions := by
    calc (n - 1) * hdr.secPerClus.toNat ≤ hdr.dataClusters * hdr.secPerClus.toNat :=
          Nat.mul_le_mul_right _ (by omega)
      _ ≤ hdr.totSec32.toNat - hdr.regions := Nat.div_mul_le_self ..
  have some_sector : 0 < (n - 1) * hdr.secPerClus.toNat := Nat.mul_pos (by omega) sized
  omega

theorem sectors_ahead (sized : 0 < hdr.secPerClus.toNat) (first : 2 ≤ n)
    (last : n ≤ hdr.dataClusters + 1) :
    hdr.rsvdSecCnt.toNat + hdr.fatSectors + (n - 2) * hdr.secPerClus.toNat +
      hdr.secPerClus.toNat ≤ hdr.totSec32.toNat := by
  have inside := data_cluster_inside sized first last
  obtain ⟨k, rfl⟩ : ∃ k, n = k + 2 := ⟨n - 2, by omega⟩
  have next : k + 2 - 1 = k + 1 := by omega
  rw [next, Nat.add_mul, Nat.one_mul, Fat32Hdr.regions] at inside
  rw [Nat.add_sub_cancel]
  omega

theorem bytes_small (volume : hdr.totSec32.toNat * hdr.bytsPerSec.toNat < 2 ^ 31) (sectors : Nat)
    (inside : sectors ≤ hdr.totSec32.toNat) : sectors * hdr.bytsPerSec.toNat < 2 ^ 31 :=
  Nat.lt_of_le_of_lt (Nat.mul_le_mul_right _ inside) volume

theorem cluster_to_addr_data (sized : 0 < hdr.bytsPerSec.toNat ∧ 0 < hdr.secPerClus.toNat)
    (volume : hdr.totSec32.toNat * hdr.bytsPerSec.toNat < 2 ^ 31) (first : 2 ≤ n)
    (last : n ≤ hdr.dataClusters + 1) :
    clusterToAddr hdr n = some ((hdr.wholeClusters hdr.rsvdSecCnt.toNat +
      hdr.wholeClusters hdr.fatSectors + (n - 2) * hdr.secPerClus.toNat) *
        hdr.bytsPerSec.toNat) := by
  obtain ⟨bytes, sectors⟩ := sized
  have ahead := sectors_ahead sectors first last
  have total : hdr.totSec32.toNat ≤ hdr.totSec32.toNat * hdr.bytsPerSec.toNat :=
    Nat.le_mul_of_pos_right _ bytes
  have reserved := whole_clusters_bounds hdr.rsvdSecCnt.toNat sectors (by omega)
  have fats := whole_clusters_bounds hdr.fatSectors sectors (by omega)
  have clusters : n - 2 ≤ (n - 2) * hdr.secPerClus.toNat := Nat.le_mul_of_pos_right _ sectors
  have reserved_small := bytes_small volume (hdr.wholeClusters hdr.rsvdSecCnt.toNat)
    (by omega)
  have fats_small := bytes_small volume (hdr.wholeClusters hdr.fatSectors) (by omega)
  have data_small := bytes_small volume ((n - 2) * hdr.secPerClus.toNat) (by omega)
  have number : u32 (n + (2 ^ 32 - 2)) = n - 2 := by
    unfold u32
    omega
  have valued : ¬(hdr.secPerClus = 0 ∨
      2 ^ 31 ≤ hdr.wholeClusters hdr.rsvdSecCnt.toNat * hdr.bytsPerSec.toNat) := by
    rintro (zero | overflow)
    · rw [zero] at sectors
      exact absurd sectors (by decide)
    · omega
  have fat_number : u32 hdr.fatSectors = hdr.fatSectors := u32_small (by omega)
  unfold clusterToAddr
  dsimp only
  rw [if_neg valued, number, fat_number, u32_small (by omega), u32_small (by omega), Nat.add_mul,
    Nat.add_mul]

theorem cluster_to_sec_data (sized : 0 < hdr.bytsPerSec.toNat ∧ 0 < hdr.secPerClus.toNat)
    (volume : hdr.totSec32.toNat * hdr.bytsPerSec.toNat < 2 ^ 31) (first : 2 ≤ n)
    (last : n ≤ hdr.dataClusters + 1) : clusterToSec hdr n = some (dataOffset hdr n) := by
  obtain ⟨bytes, sectors⟩ := sized
  have ahead := sectors_ahead sectors first last
  have total : hdr.totSec32.toNat ≤ hdr.totSec32.toNat * hdr.bytsPerSec.toNat :=
    Nat.le_mul_of_pos_right _ bytes
  have all_small := bytes_small volume _ (Nat.le_of_add_right_le ahead)
  have steps : ((n : Int) - 2) * hdr.secPerClus.toNat =
      ((n - 2) * hdr.secPerClus.toNat : Nat) := by
    rw [Nat.cast_mul, Nat.cast_sub first]
    rfl
  have int_small : -2 ^ 31 ≤ (((n - 2) * hdr.secPerClus.toNat : Nat) : Int) ∧
      (((n - 2) * hdr.secPerClus.toNat : Nat) : Int) < 2 ^ 31 := by omega
  have residue : ((((n - 2) * hdr.secPerClus.toNat : Nat) : Int) % 2 ^ 32).toNat =
      (n - 2) * hdr.secPerClus.toNat := by omega
  unfold clusterToSec
  dsimp only
  have regions : u32 (hdr.rsvdSecCnt.toNat + hdr.fatSectors) =
      hdr.rsvdSecCnt.toNat + hdr.fatSectors := u32_small (by omega)
  have data_sec : u32 (hdr.rsvdSecCnt.toNat + hdr.fatSectors +
      (n - 2) * hdr.secPerClus.toNat) = hdr.rsvdSecCnt.toNat + hdr.fatSectors +
        (n - 2) * hdr.secPerClus.toNat := u32_small (by omega)
  rw [steps, if_pos int_small, residue, regions, data_sec, u32_small (by omega)]
  rfl

/-- frecov and fatree agree on a data cluster exactly where the reserved region and the FATs are
    whole clusters long. -/
theorem addresses_agree_iff (hdr : Fat32Hdr) (n : Nat)
    (sized : 0 < hdr.bytsPerSec.toNat ∧ 0 < hdr.secPerClus.toNat)
    (volume : hdr.totSec32.toNat * hdr.bytsPerSec.toNat < 2 ^ 31) (first : 2 ≤ n)
    (last : n ≤ hdr.dataClusters + 1) :
    AddressesAgree hdr n ↔
      hdr.secPerClus.toNat ∣ hdr.rsvdSecCnt.toNat ∧ hdr.secPerClus.toNat ∣ hdr.fatSectors := by
  obtain ⟨bytes, sectors⟩ := sized
  have ahead := sectors_ahead sectors first last
  have total : hdr.totSec32.toNat < 2 ^ 32 := hdr.totSec32.toNat_lt
  have reserved_small : hdr.rsvdSecCnt.toNat + hdr.secPerClus.toNat ≤ 2 ^ 32 := by omega
  have fats_small : hdr.fatSectors + hdr.secPerClus.toNat ≤ 2 ^ 32 := by omega
  have reserved := whole_clusters_bounds _ sectors reserved_small
  have fats := whole_clusters_bounds _ sectors fats_small
  rw [← whole_clusters_eq_iff sectors reserved_small, ← whole_clusters_eq_iff sectors fats_small,
    AddressesAgree, cluster_to_addr_data ⟨bytes, sectors⟩ volume first last,
    cluster_to_sec_data ⟨bytes, sectors⟩ volume first last, Option.some_inj]
  constructor
  · rintro ⟨same, _⟩
    have sums := Nat.eq_of_mul_eq_mul_right bytes same
    omega
  · rintro ⟨reserved_whole, fats_whole⟩
    rw [reserved_whole, fats_whole]
    exact ⟨rfl, rfl⟩

/-- A volume of 128 MiB as mkfs.fat makes it for clusters of one sector. -/
def smallClusters : Fat32Hdr where
  bytsPerSec := 512
  secPerClus := 1
  rsvdSecCnt := 32
  numFATs := 2
  rootEntCnt := 0
  totSec32 := 262144
  fatSz32 := 2017
  signatureWord := 0xaa55

theorem addresses_agree_small : AddressesAgree smallClusters 2 :=
  (addresses_agree_iff smallClusters 2 (by decide) (by decide) (by decide) (by decide)).mpr
    (by decide)

/-- The same volume with clusters of eight sectors and FATs of 253. -/
def largeClusters : Fat32Hdr :=
  { smallClusters with secPerClus := 8, fatSz32 := 253 }

/-- The FATs are 506 sectors, six short of whole clusters. -/
theorem addresses_apart :
    largeClusters.totSec32.toNat * largeClusters.bytsPerSec.toNat < 2 ^ 31 ∧
      2 ≤ largeClusters.dataClusters + 1 ∧ ¬AddressesAgree largeClusters 2 := by
  refine ⟨by decide, by decide, ?_⟩
  rintro ⟨addr, _⟩
  exact absurd addr (by decide)

end Frecov
