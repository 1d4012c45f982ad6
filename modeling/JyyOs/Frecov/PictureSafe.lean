import JyyOs.Frecov.Reassembly

/-!
The images get_pic_sha_num_and_print meets no fault at.
-/
namespace Frecov

open Faults ByteCopy

section Pictures

variable {disk : Disk} {host : Host} {cluTable : Table} {fileName : List UInt8}
  {cluNum cluster fsize : Nat}

theorem num_clusters_hold (sized : 0 < disk.hdr.cluSize) (some_byte : 1 ≤ fsize)
    (no_wrap : fsize + disk.hdr.cluSize ≤ 2 ^ 32) :
    1 ≤ numClusters disk fsize ∧ fsize ≤ disk.hdr.cluSize * numClusters disk fsize ∧
      disk.hdr.cluSize * numClusters disk fsize < 2 ^ 32 := by
  have small : u32 (fsize + (disk.hdr.cluSize - 1)) = fsize + (disk.hdr.cluSize - 1) :=
    u32_small (by omega)
  have parts := Nat.div_add_mod (fsize + (disk.hdr.cluSize - 1)) disk.hdr.cluSize
  have below := Nat.mod_lt (fsize + (disk.hdr.cluSize - 1)) sized
  have some_cluster : 1 ≤ (fsize + (disk.hdr.cluSize - 1)) / disk.hdr.cluSize :=
    (Nat.one_le_div_iff sized).mpr (by omega)
  rw [numClusters, small]
  exact ⟨some_cluster, by omega, by omega⟩

/-- A buffer of one cluster or more was allocated only for a size that does not wrap around. -/
theorem num_clusters_some (sized : 0 < disk.hdr.cluSize) (bound : fsize < 2 ^ 32)
    (room : disk.hdr.cluSize ≤ u32 (disk.hdr.cluSize * numClusters disk fsize)) :
    1 ≤ fsize ∧ fsize + disk.hdr.cluSize ≤ 2 ^ 32 := by
  have some_cluster : numClusters disk fsize ≠ 0 := by
    intro zero
    rw [zero, Nat.mul_zero] at room
    have none_left : u32 0 = 0 := rfl
    omega
  have whole : disk.hdr.cluSize ≤ u32 (fsize + (disk.hdr.cluSize - 1)) := by
    by_contra short
    exact some_cluster (Nat.div_eq_of_lt (Nat.lt_of_not_le short))
  have small := clu_size_small disk.hdr
  unfold u32 at whole
  omega

theorem reassemble_head {numClus : Nat} {r : Reassembly} (room : 34 ≤ r.buf.size) :
    reassemble disk numClus r =
      if Straight r.buf.bytes then .ok (.cluster, r)
      else do
        let r ← picLoop disk (lineSizeOf r.buf.bytes) (paddingOf r.buf.bytes) (numClus - 1)
          { r with img := le32 r.buf.bytes 10 }
        return (.buf, r) := by
  have compression : r.buf.read32 30 = .ok (le32 r.buf.bytes 30) :=
    buffer_read32 (p := 30) (by omega)
  have bits : r.buf.read16 28 = .ok (le16 r.buf.bytes 28) := buffer_read16 (p := 28) (by omega)
  have width : r.buf.read32 18 = .ok (le32 r.buf.bytes 18) := buffer_read32 (p := 18) (by omega)
  have offset : r.buf.read32 10 = .ok (le32 r.buf.bytes 10) := buffer_read32 (p := 10) (by omega)
  have padding : (4 - u32 (le16 r.buf.bytes 28 / 8 * le32 r.buf.bytes 18) % 4) % 4 =
      paddingOf r.buf.bytes := rfl
  unfold reassemble
  rw [compression, bits, width, offset]
  by_cases compressed : le32 r.buf.bytes 30 = 0
  · by_cases padded : paddingOf r.buf.bytes = 0
    · rw [if_pos (.inr padded)]
      simp only [bind, Except.bind, compressed, padding, padded]
      rfl
    · have not_straight : ¬Straight r.buf.bytes :=
        not_or.mpr ⟨not_not.mpr compressed, padded⟩
      rw [if_neg not_straight]
      simp only [bind, Except.bind, compressed, padding, if_neg padded]
      rfl
  · rw [if_pos (.inl compressed)]
    simp only [bind, Except.bind, ne_eq, compressed, not_false_eq_true, if_true]
    rfl

theorem picture_header_inside (found : clusterToAddr disk.hdr cluNum = some cluster)
    (classified : kindOf disk cluNum = .ok .bmpF) : cluster + 18 ≤ disk.size := by
  obtain ⟨cluster', address, decided⟩ := bind_ok.mp classified
  rw [disk_address found] at address
  cases address
  obtain ⟨header, judged, rest⟩ := bind_ok.mp decided
  cases header with
  | false =>
    obtain ⟨unused, _, rest⟩ := bind_ok.mp rest
    cases unused with
    | true => cases rest
    | false =>
      obtain ⟨dir, _, rest⟩ := bind_ok.mp rest
      cases dir <;> cases rest
  | true =>
    obtain ⟨type, _, judged⟩ := bind_ok.mp judged
    split at judged
    · cases judged
    · obtain ⟨reserved1, _, judged⟩ := bind_ok.mp judged
      split at judged
      · cases judged
      · obtain ⟨reserved2, _, judged⟩ := bind_ok.mp judged
        split at judged
        · cases judged
        · obtain ⟨size, read, _⟩ := bind_ok.mp judged
          have inside := disk_read32_ok read
          omega

def printPicture (disk : Disk) (host : Host) (cluNum cluster : Nat) (cluTable : Table)
    (fileName : List UInt8) : Except Fault (Bool × Table) := do
  let numClus := numClusters disk (pictureSize disk cluster)
  let buf ← copyCluster disk ⟨u32 (disk.hdr.cluSize * numClus), host.fresh⟩ 0 cluster
  let (data, r) ← reassemble disk numClus ⟨buf, disk.hdr.cluSize, 0, cluNum, cluTable⟩
  let stored ← storePicInTmp disk r.buf cluster data (pictureSize disk cluster)
    (host.fopen fileName)
  return (stored && host.popen fileName, r.cluTable)

theorem get_pic_prints (sized : 0 < disk.hdr.cluSize) (low : 2 ≤ cluNum)
    (high : cluNum < disk.hdr.cluCnt) (typed : cluTable cluNum = some .bmpF)
    (found : clusterToAddr disk.hdr cluNum = some cluster) (header : cluster + 18 ≤ disk.size) :
    getPicShaNumAndPrint disk host cluNum cluTable fileName =
      printPicture disk host cluNum cluster cluTable fileName := by
  have field : disk.read32 (cluster + 2) = .ok (pictureSize disk cluster) :=
    disk_read32 (by omega)
  unfold getPicShaNumAndPrint
  rw [if_neg (by omega), if_neg (not_not.mpr typed), disk_address found]
  simp only [bind, Except.bind, field, if_neg (Nat.ne_of_gt sized)]
  rfl

def pictureData (disk : Disk) (host : Host) (cluNum cluster : Nat) (cluTable : Table) :
    Except Fault (Data × Reassembly) :=
  let head := headBytes disk host cluster
  let first := firstCluster disk host cluNum cluster cluTable
  if Straight head then .ok (.cluster, { first with img := 0 })
  else do
    let r ← picLoop disk (lineSizeOf head) (paddingOf head)
      (numClusters disk (pictureSize disk cluster) - 1) first
    return (.buf, r)

theorem print_picture_data (sized : 0 < disk.hdr.cluSize)
    (image : cluster + disk.hdr.cluSize ≤ disk.size) (some_byte : 1 ≤ pictureSize disk cluster)
    (no_wrap : pictureSize disk cluster + disk.hdr.cluSize ≤ 2 ^ 32)
    (header : 34 ≤ disk.hdr.cluSize * numClusters disk (pictureSize disk cluster)) :
    printPicture disk host cluNum cluster cluTable fileName = do
      let (data, r) ← pictureData disk host cluNum cluster cluTable
      let stored ← storePicInTmp disk r.buf cluster data (pictureSize disk cluster)
        (host.fopen fileName)
      return (stored && host.popen fileName, r.cluTable) := by
  obtain ⟨some_cluster, _, small⟩ := num_clusters_hold sized some_byte no_wrap
  have room : disk.hdr.cluSize ≤ disk.hdr.cluSize * numClusters disk (pictureSize disk cluster) :=
    Nat.le_mul_of_pos_right _ some_cluster
  have copied : copyCluster disk ⟨u32 (disk.hdr.cluSize *
      numClusters disk (pictureSize disk cluster)), host.fresh⟩ 0 cluster =
        .ok ⟨disk.hdr.cluSize * numClusters disk (pictureSize disk cluster),
          headBytes disk host cluster⟩ := by
    rw [u32_small small]
    exact copy_cluster_ok image (by dsimp only; omega)
  have head : reassemble disk (numClusters disk (pictureSize disk cluster))
      { firstCluster disk host cluNum cluster cluTable with img := 0 } =
        pictureData disk host cluNum cluster cluTable := reassemble_head header
  rw [printPicture, copied, ← head]
  rfl

theorem store_pic_ok {buf : Buffer} {data : Data} {opens : Bool}
    (image : data = .cluster → opens = true → cluster + fsize ≤ disk.size)
    (room : data = .buf → fsize ≤ buf.size) :
    ∃ stored, storePicInTmp disk buf cluster data fsize opens = .ok stored := by
  cases opens with
  | false => exact ⟨false, rfl⟩
  | true =>
    cases data with
    | cluster => exact ⟨true, if_neg (Nat.not_lt_of_le (image rfl rfl))⟩
    | buf => exact ⟨true, if_neg (Nat.not_lt_of_le (room rfl))⟩

theorem first_cluster_filled (low : 2 ≤ cluNum) :
    Filled disk (numClusters disk (pictureSize disk cluster)) 1
      (firstCluster disk host cluNum cluster cluTable) :=
  ⟨rfl, Nat.le_refl _, Nat.le_of_eq (Nat.mul_one _).symm, low⟩

theorem pic_loop_whole (low : 2 ≤ cluNum)
    (some_cluster : 1 ≤ numClusters disk (pictureSize disk cluster))
    (fits : PictureFits disk host cluNum cluster cluTable fileName)
    (curved : ¬Straight (headBytes disk host cluster)) :
    ∃ r, picLoop disk (lineSizeOf (headBytes disk host cluster))
        (paddingOf (headBytes disk host cluster)) (numClusters disk (pictureSize disk cluster) - 1)
        (firstCluster disk host cluNum cluster cluTable) = .ok r ∧
      r.buf.size = disk.hdr.cluSize * numClusters disk (pictureSize disk cluster) := by
  rcases Nat.eq_or_lt_of_le some_cluster with one | more
  · rw [← one]
    refine ⟨_, rfl, ?_⟩
    rw [one]
    rfl
  · obtain ⟨line, short⟩ := fits.lines curved more
    obtain ⟨r, ran, filled⟩ := pic_loop_filled ⟨line, short⟩ (first_cluster_filled low)
      (numClusters disk (pictureSize disk cluster) - 1) (by omega)
      fun k mid before ran => fits.tried curved k mid before ran
    exact ⟨r, ran, filled.size⟩

theorem picture_fits_safe (sized : 0 < disk.hdr.cluSize) (low : 2 ≤ cluNum)
    (fits : PictureFits disk host cluNum cluster cluTable fileName) :
    ∃ done, printPicture disk host cluNum cluster cluTable fileName = .ok done := by
  obtain ⟨some_cluster, holds, _⟩ := num_clusters_hold sized fits.some_byte fits.no_wrap
  rw [print_picture_data sized fits.image fits.some_byte fits.no_wrap fits.header]
  by_cases straight : Straight (headBytes disk host cluster)
  · have stored : ∃ stored, storePicInTmp disk (firstCluster disk host cluNum cluster cluTable).buf
        cluster .cluster (pictureSize disk cluster) (host.fopen fileName) = .ok stored :=
      store_pic_ok (fun _ opens => fits.straight straight opens) (fun same => by cases same)
    obtain ⟨stored, ran⟩ := stored
    exact ⟨_, bind_ok.mpr ⟨_, if_pos straight, bind_ok.mpr ⟨stored, ran, rfl⟩⟩⟩
  · obtain ⟨r, ran, size⟩ := pic_loop_whole low some_cluster fits straight
    have stored : ∃ stored, storePicInTmp disk r.buf cluster .buf (pictureSize disk cluster)
        (host.fopen fileName) = .ok stored :=
      store_pic_ok (fun same => by cases same) (fun _ => by rw [size]; exact holds)
    obtain ⟨stored, ran'⟩ := stored
    exact ⟨_, bind_ok.mpr ⟨_, (if_neg straight).trans (bind_ok.mpr ⟨r, ran, rfl⟩),
      bind_ok.mpr ⟨stored, ran', rfl⟩⟩⟩

theorem pic_loop_known {lineSize paddingSize rounds : Nat} {r r' : Reassembly}
    (low : 2 ≤ r.lastCluNum) (ran : picLoop disk lineSize paddingSize rounds r = .ok r') :
    2 ≤ r'.lastCluNum := by
  induction rounds generalizing r with
  | zero =>
    cases ran
    exact low
  | succ rounds ih =>
    obtain ⟨mid, first, rest⟩ := bind_ok.mp ran
    exact ih (pic_round_known low first) rest

theorem safe_picture_fits (sized : 0 < disk.hdr.cluSize) (low : 2 ≤ cluNum)
    (high : cluNum < disk.hdr.cluCnt) {done : Bool × Table}
    (ran : printPicture disk host cluNum cluster cluTable fileName = .ok done) :
    PictureFits disk host cluNum cluster cluTable fileName := by
  obtain ⟨buf, copied, after_copy⟩ := bind_ok.mp ran
  obtain ⟨image, room, size⟩ := copy_cluster_inside copied
  rw [Nat.zero_add] at room
  have bound : pictureSize disk cluster < 2 ^ 32 := le32_small disk.bytes (cluster + 2)
  obtain ⟨some_byte, no_wrap⟩ := num_clusters_some sized bound room
  obtain ⟨_, _, small⟩ := num_clusters_hold sized some_byte no_wrap
  have header : 34 ≤ disk.hdr.cluSize * numClusters disk (pictureSize disk cluster) := by
    obtain ⟨done, reassembled, _⟩ := bind_ok.mp after_copy
    obtain ⟨compression, read, _⟩ := bind_ok.mp reassembled
    have inside := buffer_read32_ok read
    rw [u32_small small] at size
    dsimp only at size inside
    omega
  rw [print_picture_data sized image some_byte no_wrap header] at ran
  obtain ⟨⟨data, r⟩, reassembled, stored⟩ := bind_ok.mp ran
  refine ⟨⟨image, some_byte, no_wrap, header, ?_, ?_⟩, ?_⟩
  · intro straight opens
    have same := (if_pos straight).symm.trans reassembled
    cases same
    obtain ⟨kept, stored, _⟩ := bind_ok.mp stored
    rw [storePicInTmp, if_pos opens] at stored
    split at stored
    · cases stored
    · rename_i inside
      exact Nat.le_of_not_lt inside
  · intro curved more
    have loop := (if_neg curved).symm.trans reassembled
    obtain ⟨r', ran, _⟩ := bind_ok.mp loop
    obtain ⟨mid, next, first, round⟩ := pic_loop_front ran (Nat.sub_pos_of_lt more)
    cases first
    exact pic_round_line low high round
  · intro curved rounds mid before front j tries
    have loop := (if_neg curved).symm.trans reassembled
    obtain ⟨r', ran, _⟩ := bind_ok.mp loop
    obtain ⟨mid', next, front', round⟩ :=
      pic_loop_front ran (show rounds < _ from Nat.lt_sub_of_add_lt before)
    cases Except.ok.inj (front.symm.trans front')
    exact pic_round_near (pic_loop_known low front) round j tries

theorem tries_near {lineSize paddingSize : Nat} {r : Reassembly}
    (fits : LineFits disk lineSize paddingSize) (covered : Covered disk) (low : 2 ≤ r.lastCluNum)
    (j : Nat) (tries : Tries disk lineSize paddingSize r j) :
    Near disk lineSize paddingSize r j := by
  have range : 2 ≤ j ∧ j < disk.hdr.cluCnt := by
    cases tries with
    | next known => exact ⟨Nat.le_succ_of_le low, known⟩
    | search _ low' high _ => exact ⟨low', high⟩
  obtain ⟨cluster, found, inside⟩ := covered j range.1 range.2
  have short := fits.short
  exact ⟨cluster, found, by omega, fun _ => inside⟩

theorem covered_fits (covered : Covered disk) (low : 2 ≤ cluNum)
    (fields : FieldsFit disk host cluster fileName) :
    PictureFits disk host cluNum cluster cluTable fileName := by
  refine ⟨fields, fun curved rounds r before ran => ?_⟩
  obtain ⟨line, short⟩ := fields.lines curved (by omega)
  exact tries_near ⟨line, short⟩ covered (pic_loop_known low ran)

theorem volume_covered (sized : 0 < disk.hdr.bytsPerSec.toNat ∧ 0 < disk.hdr.secPerClus.toNat)
    (volume : disk.hdr.totSec32.toNat * disk.hdr.bytsPerSec.toNat < 2 ^ 31)
    (regions : disk.hdr.regions ≤ disk.hdr.totSec32.toNat)
    (accepted : disk.hdr.Accepted disk.size) : Covered disk := by
  intro j low high
  obtain ⟨cluster, found, inside⟩ := counted_cluster_inside sized volume regions low high
  have size := accepted.2
  rw [u32_small (Nat.lt_trans volume (by decide))] at size
  exact ⟨cluster, found, size ▸ inside⟩

/-- get_pic_sha_num_and_print meets no fault at a picture exactly where the size field neither is
    zero nor makes the number of clusters wrap around, the header lies in buf, a picture that is
    not reassembled lies in the image, a line of one that is fits in a cluster, and the clusters
    it is compared with lie in the image. Where all clusters do, its fields decide. -/
theorem picture_safe_iff (disk : Disk) (host : Host) (cluTable : Table) (fileName : List UInt8)
    (cluNum cluster : Nat) (sized : 0 < disk.hdr.cluSize) (low : 2 ≤ cluNum)
    (high : cluNum < disk.hdr.cluCnt) (typed : cluTable cluNum = some .bmpF)
    (classified : kindOf disk cluNum = .ok .bmpF)
    (found : clusterToAddr disk.hdr cluNum = some cluster) :
    ((∃ done, getPicShaNumAndPrint disk host cluNum cluTable fileName = .ok done) ↔
      PictureFits disk host cluNum cluster cluTable fileName) ∧
    (Covered disk →
      ((∃ done, getPicShaNumAndPrint disk host cluNum cluTable fileName = .ok done) ↔
        FieldsFit disk host cluster fileName)) := by
  have header := picture_header_inside found classified
  rw [get_pic_prints sized low high typed found header]
  have exact_fit : (∃ done, printPicture disk host cluNum cluster cluTable fileName = .ok done) ↔
      PictureFits disk host cluNum cluster cluTable fileName := by
    constructor
    · rintro ⟨done, ran⟩
      exact safe_picture_fits sized low high ran
    · intro fits
      exact picture_fits_safe sized low fits
  refine ⟨exact_fit, fun covered => ?_⟩
  constructor
  · intro safe
    exact (exact_fit.mp safe).toFieldsFit
  · intro fields
    exact exact_fit.mpr (covered_fits covered low fields)

/-- The header of a volume of ten sectors, one of them reserved and one for the FAT. -/
def tenSectors : List (Nat × UInt8) :=
  [(12, 2), (13, 1), (14, 1), (16, 1), (32, 10), (36, 1), (510, 0x55), (511, 0xaa)]

def pictureDisk (low high : UInt8) : Disk where
  size := 5120
  bytes p :=
    if p < 1024 then (tenSectors.lookup p).getD 0
    else ([0x42, 0x4d, low, high, 0, 0, 0, 0, 0, 0, 54, 0, 0, 0, 40, 0, 0, 0, 3, 0, 0, 0, 5, 0, 0, 0,
      1, 0, 24, 0] : List UInt8).getD (p - 1024) 0

def plainHost : Host := ⟨fun _ => true, fun _ => true, fun _ => 0⟩

theorem picture_safe_two_clusters : ∃ done, getPicShaNumAndPrint (pictureDisk 0x58 2) plainHost 2
    (fun _ => some .bmpF) [] = .ok done := by
  have lines : 0 < paddedOf (headBytes (pictureDisk 0x58 2) plainHost 1024) ∧
      paddedOf (headBytes (pictureDisk 0x58 2) plainHost 1024) ≤ 512 := by decide +kernel
  have curved : ¬Straight (headBytes (pictureDisk 0x58 2) plainHost 1024) := by decide +kernel
  have fields : FieldsFit (pictureDisk 0x58 2) plainHost 1024 [] :=
    ⟨by decide, by decide +kernel, by decide +kernel, by decide +kernel,
      fun straight => absurd straight curved, fun _ _ => lines⟩
  have covered : Covered (pictureDisk 0x58 2) :=
    volume_covered (by decide) (by decide) (by decide) ⟨rfl, by decide⟩
  have safe := picture_safe_iff (pictureDisk 0x58 2) plainHost (fun _ => some .bmpF) [] 2 1024
    (by decide) (by decide) (by decide) rfl (by decide +kernel) (by decide)
  exact (safe.2 covered).mpr fields

/-- A picture whose size field is zero is copied to a buffer of no bytes. -/
theorem picture_without_size :
    (pictureDisk 0 0).hdr.Accepted (pictureDisk 0 0).size ∧
      kindOf (pictureDisk 0 0) 2 = .ok .bmpF ∧
      getPicShaNumAndPrint (pictureDisk 0 0) plainHost 2 (fun _ => some .bmpF) [] =
        .error .buffer := by
  refine ⟨⟨rfl, by decide⟩, by decide +kernel, ?_⟩
  rfl

end Pictures

end Frecov
