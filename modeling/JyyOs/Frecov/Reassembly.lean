import JyyOs.Frecov.Classify
import JyyOs.Library.ByteCopy

/-!
get_pic_sha_num_and_print of frecov.c: how a picture is put together from clusters. Pointers into
buf are offsets from its start. malloc finds its memory.
-/
namespace Frecov

open Faults ByteCopy

section Code

/-- What the code meets outside of the image: whether files and pipes open, and the bytes malloc
    returns. -/
structure Host where
  fopen : List UInt8 → Bool
  popen : List UInt8 → Bool
  fresh : Nat → UInt8

structure Buffer where
  size : Nat
  bytes : Nat → UInt8

def Buffer.read (buf : Buffer) (p : Int) : Except Fault UInt8 :=
  if 0 ≤ p ∧ p < buf.size then .ok (buf.bytes p.toNat) else .error .buffer

def Buffer.read16 (buf : Buffer) (p : Int) : Except Fault Nat := do
  let low ← buf.read p
  let high ← buf.read (p + 1)
  return low.toNat + 256 * high.toNat

def Buffer.read32 (buf : Buffer) (p : Int) : Except Fault Nat := do
  let low ← buf.read16 p
  let high ← buf.read16 (p + 2)
  return low + 65536 * high

variable (disk : Disk)

def copyCluster (buf : Buffer) (bufPtr cluster : Nat) : Except Fault Buffer :=
  if disk.size < cluster + disk.hdr.cluSize then .error .image
  else if buf.size < bufPtr + disk.hdr.cluSize then .error .buffer
  else .ok ⟨buf.size, copy buf.bytes bufPtr disk.bytes cluster disk.hdr.cluSize⟩

def devLoop (buf : Buffer) (cluster : Nat) (lastLine : Int) : Nat → Nat → Nat → Except Fault Nat
  | 0, _, dev => .ok dev
  | left + 1, i, dev => do
    let clu ← disk.read (cluster + i)
    let last ← buf.read (lastLine + i)
    let diff := (clu - last).toNat
    devLoop buf cluster lastLine left (i + 1) (u32 (dev + diff * diff))

def tryCluster (buf : Buffer) (cluNum lineSize paddingSize : Nat) (lastLine : Int) :
    Except Fault Bool :=
  if disk.hdr.cluCnt ≤ cluNum ∨ cluNum < 2 then .ok false
  else do
    let cluster ← disk.address cluNum
    let length := u32 (lineSize + paddingSize)
    let dev ← devLoop disk buf cluster lastLine length 0 0
    if length = 0 then .error .divide
    else return decide (dev / length ≤ 220 * 220)

def searchLoop (buf : Buffer) (lineSize paddingSize : Nat) (lastLine : Int) :
    Nat → Nat → Except Fault (Option Nat)
  | 0, _ => .ok none
  | left + 1, j => do
    if ← tryCluster disk buf j lineSize paddingSize lastLine then return some j
    else searchLoop buf lineSize paddingSize lastLine left (j + 1)

structure Reassembly where
  buf : Buffer
  bufPtr : Nat
  img : Int
  lastCluNum : Nat
  cluTable : Table

def takeCluster (r : Reassembly) (cluNum : Nat) : Except Fault Reassembly := do
  let cluster ← disk.address cluNum
  let buf ← copyCluster disk r.buf r.bufPtr cluster
  let cluTable ← tableSet disk.hdr r.cluTable cluNum .taken
  return { r with buf, bufPtr := r.bufPtr + disk.hdr.cluSize, lastCluNum := cluNum, cluTable }

def tryNext (lineSize paddingSize : Nat) (lastLine : Int) (r : Reassembly) :
    Except Fault Bool :=
  if r.lastCluNum + 1 < disk.hdr.cluCnt then
    tryCluster disk r.buf (r.lastCluNum + 1) lineSize paddingSize lastLine
  else .ok false

def picRound (lineSize paddingSize : Nat) (r : Reassembly) : Except Fault Reassembly :=
  let paddedLineSize := u32 (lineSize + paddingSize)
  if paddedLineSize = 0 then .error .divide
  else do
    let offset := ((paddedLineSize - Int.tmod (r.bufPtr - r.img) paddedLineSize) % 2 ^ 32).toNat
    let r := { r with img := r.bufPtr + offset }
    let lastLine := (r.bufPtr : Int) - paddedLineSize
    if ← tryNext disk lineSize paddingSize lastLine r then takeCluster disk r (r.lastCluNum + 1)
    else
      let found ← searchLoop disk r.buf lineSize paddingSize lastLine (disk.hdr.cluCnt - 2) 2
      match found with
      | some j => takeCluster disk r j
      | none => return r

def picLoop (lineSize paddingSize : Nat) : Nat → Reassembly → Except Fault Reassembly
  | 0, r => .ok r
  | left + 1, r => do
    let r ← picRound disk lineSize paddingSize r
    picLoop lineSize paddingSize left r

inductive Data where
  | cluster
  | buf

/-- The do-while of get_pic_sha_num_and_print, which is left in front of the loop for a compressed
    picture or one without padding. -/
def reassemble (numClus : Nat) (r : Reassembly) : Except Fault (Data × Reassembly) := do
  let compression ← r.buf.read32 30
  if compression ≠ 0 then return (.cluster, r)
  let bits ← r.buf.read16 28
  let width ← r.buf.read32 18
  let lineSize := u32 (bits / 8 * width)
  let paddingSize := (4 - lineSize % 4) % 4
  if paddingSize = 0 then return (.cluster, r)
  let offset ← r.buf.read32 10
  let r ← picLoop disk lineSize paddingSize (numClus - 1) { r with img := offset }
  return (.buf, r)

/-- store_pic_in_tmp reads what it writes to the file, where that opens. -/
def storePicInTmp (buf : Buffer) (cluster : Nat) (data : Data) (fsize : Nat) (opens : Bool) :
    Except Fault Bool :=
  if opens then
    match data with
    | .cluster => if disk.size < cluster + fsize then .error .image else .ok true
    | .buf => if buf.size < fsize then .error .buffer else .ok true
  else .ok false

def getPicShaNumAndPrint (host : Host) (cluNum : Nat) (cluTable : Table) (fileName : List UInt8) :
    Except Fault (Bool × Table) :=
  if disk.hdr.cluCnt ≤ cluNum ∨ cluNum < 2 then .ok (false, cluTable)
  else if cluTable cluNum ≠ some .bmpF then .ok (false, cluTable)
  else do
    let cluSize := disk.hdr.cluSize
    let cluster ← disk.address cluNum
    let fsize ← disk.read32 (cluster + 2)
    if cluSize = 0 then .error .divide
    else do
      let numClus := u32 (fsize + (cluSize - 1)) / cluSize
      let buf ← copyCluster disk ⟨u32 (cluSize * numClus), host.fresh⟩ 0 cluster
      let (data, r) ← reassemble disk numClus ⟨buf, cluSize, 0, cluNum, cluTable⟩
      let stored ← storePicInTmp disk r.buf cluster data fsize (host.fopen fileName)
      return (stored && host.popen fileName, r.cluTable)

end Code

section Reads

theorem le32_small (bytes : Nat → UInt8) (p : Nat) : le32 bytes p < 2 ^ 32 := by
  have b0 := (bytes p).toNat_lt
  have b1 := (bytes (p + 1)).toNat_lt
  have b2 := (bytes (p + 2)).toNat_lt
  have b3 := (bytes (p + 2 + 1)).toNat_lt
  unfold le32 le16
  omega

variable {disk : Disk} {buf : Buffer} {p : Nat}

theorem disk_read32 (inside : p + 4 ≤ disk.size) : disk.read32 p = .ok (le32 disk.bytes p) := by
  have read : ∀ i, i < 4 → disk.read (p + i) = .ok (disk.bytes (p + i)) :=
    fun i small => if_pos (by omega)
  have r0 := read 0 (by decide)
  have r1 := read 1 (by decide)
  have r2 := read 2 (by decide)
  have r3 := read 3 (by decide)
  rw [Nat.add_zero] at r0
  simp only [Disk.read32, Disk.read16, r0, r1, r2, Nat.add_assoc, r3]
  rfl

theorem disk_read_ok {v : UInt8} (ran : disk.read p = .ok v) : p < disk.size := by
  unfold Disk.read at ran
  split at ran
  · assumption
  · cases ran

theorem disk_read32_ok {v : Nat} (ran : disk.read32 p = .ok v) : p + 4 ≤ disk.size := by
  obtain ⟨low, _, ran⟩ := bind_ok.mp ran
  obtain ⟨high, read, _⟩ := bind_ok.mp ran
  obtain ⟨b2, _, read⟩ := bind_ok.mp read
  obtain ⟨b3, read, _⟩ := bind_ok.mp read
  have inside := disk_read_ok read
  omega

theorem buffer_read (inside : p < buf.size) : buf.read p = .ok (buf.bytes p) :=
  if_pos ⟨Int.natCast_nonneg p, Int.ofNat_lt.mpr inside⟩

theorem buffer_read_ok {p : Int} {v : UInt8} (ran : buf.read p = .ok v) :
    0 ≤ p ∧ p < buf.size := by
  unfold Buffer.read at ran
  split at ran
  · assumption
  · cases ran

theorem buffer_read16 (inside : p + 2 ≤ buf.size) : buf.read16 p = .ok (le16 buf.bytes p) := by
  have r0 : buf.read p = .ok (buf.bytes p) := buffer_read (by omega)
  have r1 : buf.read ((p : Int) + 1) = .ok (buf.bytes (p + 1)) := buffer_read (p := p + 1) (by omega)
  simp only [Buffer.read16, r0, r1]
  rfl

theorem buffer_read32 (inside : p + 4 ≤ buf.size) : buf.read32 p = .ok (le32 buf.bytes p) := by
  have low : buf.read16 p = .ok (le16 buf.bytes p) := buffer_read16 (by omega)
  have high : buf.read16 ((p : Int) + 2) = .ok (le16 buf.bytes (p + 2)) :=
    buffer_read16 (p := p + 2) (by omega)
  simp only [Buffer.read32, low, high]
  rfl

theorem buffer_read32_ok {p : Int} {v : Nat} (ran : buf.read32 p = .ok v) : p + 4 ≤ buf.size := by
  obtain ⟨low, _, ran⟩ := bind_ok.mp ran
  obtain ⟨high, read, _⟩ := bind_ok.mp ran
  obtain ⟨b2, _, read⟩ := bind_ok.mp read
  obtain ⟨b3, read, _⟩ := bind_ok.mp read
  have inside := (buffer_read_ok read).2
  omega

end Reads

section Conditions

variable (disk : Disk)

def numClusters (fsize : Nat) : Nat := u32 (fsize + (disk.hdr.cluSize - 1)) / disk.hdr.cluSize

def pictureSize (cluster : Nat) : Nat := le32 disk.bytes (cluster + 2)

def headBytes (host : Host) (cluster : Nat) : Nat → UInt8 :=
  copy host.fresh 0 disk.bytes cluster disk.hdr.cluSize

def lineSizeOf (head : Nat → UInt8) : Nat := u32 (le16 head 28 / 8 * le32 head 18)

def paddingOf (head : Nat → UInt8) : Nat := (4 - lineSizeOf head % 4) % 4

/-- padded_line_size, which wraps around to 0 for the longest lines. -/
def paddedOf (head : Nat → UInt8) : Nat := u32 (lineSizeOf head + paddingOf head)

def Straight (head : Nat → UInt8) : Prop := le32 head 30 ≠ 0 ∨ paddingOf head = 0

instance (head : Nat → UInt8) : Decidable (Straight head) := instDecidableOr

def firstCluster (host : Host) (cluNum cluster : Nat) (cluTable : Table) : Reassembly :=
  let head := headBytes disk host cluster
  ⟨⟨disk.hdr.cluSize * numClusters disk (pictureSize disk cluster), head⟩, disk.hdr.cluSize,
    le32 head 10, cluNum, cluTable⟩

def fitOf (lineSize paddingSize : Nat) (r : Reassembly) (j : Nat) : Except Fault Bool :=
  tryCluster disk r.buf j lineSize paddingSize ((r.bufPtr : Int) - u32 (lineSize + paddingSize))

/-- A round compares the cluster behind the last one, and where that does not fit, the clusters
    from 2 on up to the first that fits. -/
inductive Tries (lineSize paddingSize : Nat) (r : Reassembly) : Nat → Prop
  | next (known : r.lastCluNum + 1 < disk.hdr.cluCnt) :
      Tries lineSize paddingSize r (r.lastCluNum + 1)
  | search {j : Nat} (miss : r.lastCluNum + 1 < disk.hdr.cluCnt →
      fitOf disk lineSize paddingSize r (r.lastCluNum + 1) = .ok false)
      (low : 2 ≤ j) (high : j < disk.hdr.cluCnt)
      (before : ∀ i, 2 ≤ i → i < j → fitOf disk lineSize paddingSize r i = .ok false) :
      Tries lineSize paddingSize r j

/-- The bytes of cluster `j` that are compared lie in the image, and all of it where it fits. -/
def Near (lineSize paddingSize : Nat) (r : Reassembly) (j : Nat) : Prop :=
  ∃ cluster, clusterToAddr disk.hdr j = some cluster ∧
    cluster + u32 (lineSize + paddingSize) ≤ disk.size ∧
      (fitOf disk lineSize paddingSize r j = .ok true → cluster + disk.hdr.cluSize ≤ disk.size)

structure FieldsFit (host : Host) (cluster : Nat) (fileName : List UInt8) : Prop where
  image : cluster + disk.hdr.cluSize ≤ disk.size
  some_byte : 1 ≤ pictureSize disk cluster
  no_wrap : pictureSize disk cluster + disk.hdr.cluSize ≤ 2 ^ 32
  header : 34 ≤ disk.hdr.cluSize * numClusters disk (pictureSize disk cluster)
  straight : Straight (headBytes disk host cluster) → host.fopen fileName = true →
    cluster + pictureSize disk cluster ≤ disk.size
  lines : ¬Straight (headBytes disk host cluster) →
    2 ≤ numClusters disk (pictureSize disk cluster) →
      0 < paddedOf (headBytes disk host cluster) ∧
        paddedOf (headBytes disk host cluster) ≤ disk.hdr.cluSize

/-- So do the clusters it is compared with: they lie in the image. -/
structure PictureFits (host : Host) (cluNum cluster : Nat) (cluTable : Table)
    (fileName : List UInt8) : Prop extends FieldsFit disk host cluster fileName where
  tried : ¬Straight (headBytes disk host cluster) →
    ∀ rounds r, rounds + 1 < numClusters disk (pictureSize disk cluster) →
      picLoop disk (lineSizeOf (headBytes disk host cluster))
        (paddingOf (headBytes disk host cluster)) rounds
        (firstCluster disk host cluNum cluster cluTable) = .ok r →
      ∀ j, Tries disk (lineSizeOf (headBytes disk host cluster))
          (paddingOf (headBytes disk host cluster)) r j →
        Near disk (lineSizeOf (headBytes disk host cluster))
          (paddingOf (headBytes disk host cluster)) r j

/-- Every cluster main counts lies in the image. -/
def Covered : Prop :=
  ∀ j, 2 ≤ j → j < disk.hdr.cluCnt →
    ∃ cluster, clusterToAddr disk.hdr j = some cluster ∧ cluster + disk.hdr.cluSize ≤ disk.size

end Conditions

section Rounds

variable {disk : Disk} {buf : Buffer} {r r' : Reassembly}
  {lineSize paddingSize n numClus rounds : Nat}

theorem disk_address {cluster : Nat} (found : clusterToAddr disk.hdr n = some cluster) :
    disk.address n = .ok cluster := by
  rw [Disk.address, found]

theorem disk_address_ok {cluster : Nat} (ran : disk.address n = .ok cluster) :
    clusterToAddr disk.hdr n = some cluster := by
  unfold Disk.address at ran
  split at ran
  · cases ran
    assumption
  · cases ran

theorem dev_loop_ok {cluster : Nat} {lastLine : Int} (left i dev : Nat)
    (clu_inside : cluster + i + left ≤ disk.size) (low : 0 ≤ lastLine)
    (high : lastLine + i + left ≤ buf.size) :
    ∃ dev', devLoop disk buf cluster lastLine left i dev = .ok dev' := by
  induction left generalizing i dev with
  | zero => exact ⟨dev, rfl⟩
  | succ left ih =>
    have clu : disk.read (cluster + i) = .ok (disk.bytes (cluster + i)) := if_pos (by omega)
    have last : buf.read (lastLine + i) = .ok (buf.bytes (lastLine + i).toNat) :=
      if_pos ⟨by omega, by omega⟩
    obtain ⟨dev', ran⟩ := ih (i + 1)
      (u32 (dev + (disk.bytes (cluster + i) - buf.bytes (lastLine + i).toNat).toNat *
        (disk.bytes (cluster + i) - buf.bytes (lastLine + i).toNat).toNat)) (by omega) (by omega)
    refine ⟨dev', ?_⟩
    rw [devLoop, clu, last]
    exact ran

theorem dev_loop_inside {cluster : Nat} {lastLine : Int} {left i dev dev' : Nat}
    (some_byte : 0 < left) (ran : devLoop disk buf cluster lastLine left i dev = .ok dev') :
    0 ≤ lastLine + i ∧ cluster + i + left ≤ disk.size := by
  induction left generalizing i dev with
  | zero => exact absurd some_byte (Nat.lt_irrefl 0)
  | succ left ih =>
    obtain ⟨clu, read, ran⟩ := bind_ok.mp ran
    obtain ⟨last, read', ran⟩ := bind_ok.mp ran
    have image := disk_read_ok read
    have line := (buffer_read_ok read').1
    refine ⟨line, ?_⟩
    rcases Nat.eq_zero_or_pos left with none_left | more
    · omega
    · have rest := (ih more ran).2
      omega

/-- Between two rounds: how much of buf is filled, and which cluster was the last. -/
structure Filled (disk : Disk) (numClus rounds : Nat) (r : Reassembly) : Prop where
  size : r.buf.size = disk.hdr.cluSize * numClus
  some_cluster : disk.hdr.cluSize ≤ r.bufPtr
  few : r.bufPtr ≤ disk.hdr.cluSize * rounds
  known : 2 ≤ r.lastCluNum

structure LineFits (disk : Disk) (lineSize paddingSize : Nat) : Prop where
  line : 0 < u32 (lineSize + paddingSize)
  short : u32 (lineSize + paddingSize) ≤ disk.hdr.cluSize

theorem fit_ok {cluster : Nat} (fits : LineFits disk lineSize paddingSize)
    (some_cluster : disk.hdr.cluSize ≤ r.bufPtr) (room : r.bufPtr ≤ r.buf.size)
    (found : clusterToAddr disk.hdr n = some cluster)
    (near : cluster + u32 (lineSize + paddingSize) ≤ disk.size) :
    ∃ fit, fitOf disk lineSize paddingSize r n = .ok fit := by
  obtain ⟨line, short⟩ := fits
  by_cases outside : disk.hdr.cluCnt ≤ n ∨ n < 2
  · exact ⟨false, if_pos outside⟩
  · have compared : ∃ dev, devLoop disk r.buf cluster
        ((r.bufPtr : Int) - u32 (lineSize + paddingSize)) (u32 (lineSize + paddingSize)) 0 0 =
          .ok dev := dev_loop_ok _ 0 0 (by omega) (by omega) (by omega)
    obtain ⟨dev, ran⟩ := compared
    refine ⟨decide (dev / u32 (lineSize + paddingSize) ≤ 220 * 220), ?_⟩
    rw [fitOf, tryCluster, if_neg outside]
    exact bind_ok.mpr ⟨cluster, disk_address found,
      bind_ok.mpr ⟨dev, ran, if_neg (Nat.ne_of_gt line)⟩⟩

theorem fit_inside {fit : Bool} (line : 0 < u32 (lineSize + paddingSize)) (low : 2 ≤ n)
    (high : n < disk.hdr.cluCnt) (ran : fitOf disk lineSize paddingSize r n = .ok fit) :
    u32 (lineSize + paddingSize) ≤ r.bufPtr ∧ ∃ cluster,
      clusterToAddr disk.hdr n = some cluster ∧
        cluster + u32 (lineSize + paddingSize) ≤ disk.size := by
  rw [fitOf, tryCluster, if_neg (by omega)] at ran
  obtain ⟨cluster, found, ran⟩ := bind_ok.mp ran
  obtain ⟨dev, compared, _⟩ := bind_ok.mp ran
  have inside := dev_loop_inside line compared
  exact ⟨by omega, cluster, disk_address_ok found, by omega⟩

theorem search_loop_tried {found : Option Nat} (left j : Nat)
    (ran : searchLoop disk r.buf lineSize paddingSize
      ((r.bufPtr : Int) - u32 (lineSize + paddingSize)) left j = .ok found)
    (n : Nat) (low : j ≤ n) (high : n < j + left)
    (before : ∀ i, j ≤ i → i < n → fitOf disk lineSize paddingSize r i = .ok false) :
    ∃ fit, fitOf disk lineSize paddingSize r n = .ok fit ∧ (fit = true → found = some n) := by
  induction left generalizing j with
  | zero => omega
  | succ left ih =>
    obtain ⟨fit, tried, rest⟩ := bind_ok.mp ran
    rcases Nat.eq_or_lt_of_le low with here | later
    · subst here
      refine ⟨fit, tried, fun fits => ?_⟩
      rw [fits] at rest
      cases rest
      rfl
    · have miss := before j (Nat.le_refl j) later
      have same := Except.ok.inj (tried.symm.trans miss)
      rw [same] at rest
      exact ih (j + 1) rest later (by omega) fun i behind upto => before i (by omega) upto

theorem search_loop_range {lastLine : Int} (left j : Nat) (ran : searchLoop disk buf lineSize
    paddingSize lastLine left j = .ok (some n)) : j ≤ n ∧ n < j + left := by
  induction left generalizing j with
  | zero => cases ran
  | succ left ih =>
    obtain ⟨fit, _, rest⟩ := bind_ok.mp ran
    cases fit with
    | true =>
      cases rest
      exact ⟨Nat.le_refl n, by omega⟩
    | false =>
      have later := ih (j + 1) rest
      exact ⟨by omega, by omega⟩

theorem search_loop_ok (left j : Nat) (each : ∀ n, j ≤ n → n < j + left →
      (∀ i, j ≤ i → i < n → fitOf disk lineSize paddingSize r i = .ok false) →
        ∃ fit, fitOf disk lineSize paddingSize r n = .ok fit) :
    ∃ found, searchLoop disk r.buf lineSize paddingSize
        ((r.bufPtr : Int) - u32 (lineSize + paddingSize)) left j = .ok found ∧
      ∀ n, found = some n → j ≤ n ∧ n < j + left ∧
        fitOf disk lineSize paddingSize r n = .ok true ∧
          ∀ i, j ≤ i → i < n → fitOf disk lineSize paddingSize r i = .ok false := by
  induction left generalizing j with
  | zero =>
    refine ⟨none, rfl, fun n same => ?_⟩
    cases same
  | succ left ih =>
    obtain ⟨fit, tried⟩ := each j (Nat.le_refl j) (by omega) fun i low high => by omega
    cases fit with
    | true =>
      refine ⟨some j, bind_ok.mpr ⟨true, tried, rfl⟩, fun n same => ?_⟩
      cases same
      exact ⟨Nat.le_refl j, by omega, tried, fun i low high => by omega⟩
    | false =>
      have extend : ∀ n, (∀ i, j + 1 ≤ i → i < n →
          fitOf disk lineSize paddingSize r i = .ok false) →
            ∀ i, j ≤ i → i < n → fitOf disk lineSize paddingSize r i = .ok false := by
        intro n before i low high
        rcases Nat.eq_or_lt_of_le low with here | later
        · rw [← here]
          exact tried
        · exact before i later high
      obtain ⟨found, searched, place⟩ := ih (j + 1) fun n low high before =>
        each n (by omega) (by omega) (extend n before)
      refine ⟨found, bind_ok.mpr ⟨false, tried, searched⟩, fun n same => ?_⟩
      obtain ⟨low, high, fits, before⟩ := place n same
      exact ⟨by omega, by omega, fits, extend n before⟩

theorem copy_cluster_ok {bufPtr cluster : Nat} (image : cluster + disk.hdr.cluSize ≤ disk.size)
    (room : bufPtr + disk.hdr.cluSize ≤ buf.size) : copyCluster disk buf bufPtr cluster =
      .ok ⟨buf.size, copy buf.bytes bufPtr disk.bytes cluster disk.hdr.cluSize⟩ := by
  rw [copyCluster, if_neg (by omega), if_neg (by omega)]

theorem copy_cluster_inside {buf' : Buffer} {bufPtr cluster : Nat}
    (ran : copyCluster disk buf bufPtr cluster = .ok buf') :
    cluster + disk.hdr.cluSize ≤ disk.size ∧ bufPtr + disk.hdr.cluSize ≤ buf.size ∧
      buf'.size = buf.size := by
  unfold copyCluster at ran
  split at ran
  · cases ran
  · rename_i image
    split at ran
    · cases ran
    · rename_i room
      cases ran
      exact ⟨Nat.le_of_not_lt image, Nat.le_of_not_lt room, rfl⟩

theorem take_cluster_filled {cluster : Nat} (filled : Filled disk numClus rounds r)
    (more : rounds + 1 ≤ numClus) (low : 2 ≤ n) (high : n < disk.hdr.cluCnt)
    (found : clusterToAddr disk.hdr n = some cluster)
    (fits : cluster + disk.hdr.cluSize ≤ disk.size) :
    ∃ r', takeCluster disk r n = .ok r' ∧ Filled disk numClus (rounds + 1) r' := by
  have next : disk.hdr.cluSize * (rounds + 1) = disk.hdr.cluSize * rounds + disk.hdr.cluSize :=
    Nat.mul_succ ..
  have few := filled.few
  have total : disk.hdr.cluSize * (rounds + 1) ≤ disk.hdr.cluSize * numClus :=
    Nat.mul_le_mul_left _ more
  have room : r.bufPtr + disk.hdr.cluSize ≤ r.buf.size := by
    rw [filled.size]
    omega
  refine ⟨_, bind_ok.mpr ⟨cluster, disk_address found, bind_ok.mpr ⟨_, copy_cluster_ok fits room,
    bind_ok.mpr ⟨_, if_pos high, rfl⟩⟩⟩, ?_⟩
  exact ⟨filled.size, Nat.le_add_left .., by dsimp only; omega, low⟩

theorem take_cluster_inside {cluster : Nat} (found : clusterToAddr disk.hdr n = some cluster)
    (ran : takeCluster disk r n = .ok r') : cluster + disk.hdr.cluSize ≤ disk.size := by
  obtain ⟨cluster', address, ran⟩ := bind_ok.mp ran
  rw [disk_address found] at address
  cases address
  obtain ⟨buf, copied, _⟩ := bind_ok.mp ran
  exact (copy_cluster_inside copied).1

theorem filled_room (filled : Filled disk numClus rounds r) (more : rounds + 1 ≤ numClus) :
    r.bufPtr ≤ r.buf.size := by
  have few := filled.few
  have total : disk.hdr.cluSize * rounds ≤ disk.hdr.cluSize * numClus :=
    Nat.mul_le_mul_left _ (by omega)
  rw [filled.size]
  omega

theorem pic_round_filled (fits : LineFits disk lineSize paddingSize)
    (filled : Filled disk numClus rounds r) (more : rounds + 1 ≤ numClus)
    (near : ∀ j, Tries disk lineSize paddingSize r j → Near disk lineSize paddingSize r j) :
    ∃ r', picRound disk lineSize paddingSize r = .ok r' ∧ Filled disk numClus (rounds + 1) r' := by
  have few := filled.few
  have last := filled.known
  have next_total : disk.hdr.cluSize * rounds ≤ disk.hdr.cluSize * (rounds + 1) :=
    Nat.mul_le_mul_left _ (Nat.le_succ rounds)
  have room := filled_room filled more
  obtain ⟨img, moved⟩ : ∃ img : Int, img = r.bufPtr + ((u32 (lineSize + paddingSize) -
    Int.tmod (r.bufPtr - r.img) (u32 (lineSize + paddingSize))) % 2 ^ 32).toNat := ⟨_, rfl⟩
  have filled' : Filled disk numClus rounds { r with img } :=
    ⟨filled.size, filled.some_cluster, filled.few, filled.known⟩
  have next_fits : ∃ fit, tryNext disk lineSize paddingSize
      ((r.bufPtr : Int) - u32 (lineSize + paddingSize)) { r with img } = .ok fit ∧
        (fit = true → r.lastCluNum + 1 < disk.hdr.cluCnt) ∧
        (r.lastCluNum + 1 < disk.hdr.cluCnt →
          fitOf disk lineSize paddingSize r (r.lastCluNum + 1) = .ok fit) := by
    by_cases known : r.lastCluNum + 1 < disk.hdr.cluCnt
    · obtain ⟨cluster, found, compared, _⟩ := near _ (.next known)
      obtain ⟨fit, ran⟩ := fit_ok fits filled.some_cluster room found compared
      exact ⟨fit, (if_pos known).trans ran, fun _ => known, fun _ => ran⟩
    · refine ⟨false, if_neg known, ?_, fun known' => absurd known' known⟩
      intro fit
      cases fit
  obtain ⟨fit, tried, known, fit_next⟩ := next_fits
  unfold picRound
  dsimp only
  rw [if_neg (Nat.ne_of_gt fits.line), ← moved]
  cases fit with
  | true =>
    obtain ⟨cluster, found, _, whole⟩ := near _ (.next (known rfl))
    obtain ⟨r', taken, filled''⟩ := take_cluster_filled filled' more (by omega) (known rfl) found
      (whole (fit_next (known rfl)))
    exact ⟨r', bind_ok.mpr ⟨true, tried, taken⟩, filled''⟩
  | false =>
    have searched := search_loop_ok (disk.hdr.cluCnt - 2) 2 fun n low high before => by
      obtain ⟨cluster, found, compared, _⟩ :=
        near n (.search fit_next low (by omega) before)
      exact fit_ok fits filled.some_cluster room found compared
    obtain ⟨found, searched, place⟩ := searched
    cases found with
    | some j =>
      obtain ⟨low, high, fit_j, before⟩ := place j rfl
      have inside : j < disk.hdr.cluCnt := by omega
      obtain ⟨cluster, address, _, whole⟩ := near j (.search fit_next low inside before)
      obtain ⟨r', taken, filled''⟩ :=
        take_cluster_filled filled' more low inside address (whole fit_j)
      exact ⟨r', bind_ok.mpr ⟨false, tried, bind_ok.mpr ⟨some j, searched, taken⟩⟩, filled''⟩
    | none =>
      exact ⟨_, bind_ok.mpr ⟨false, tried, bind_ok.mpr ⟨none, searched, rfl⟩⟩, filled'.size,
        filled'.some_cluster, Nat.le_trans few next_total, filled'.known⟩

inductive RoundEnds (disk : Disk) (lineSize paddingSize : Nat) (r r' : Reassembly) : Prop
  | next (img : Int) (known : r.lastCluNum + 1 < disk.hdr.cluCnt)
      (fits : fitOf disk lineSize paddingSize r (r.lastCluNum + 1) = .ok true)
      (taken : takeCluster disk { r with img } (r.lastCluNum + 1) = .ok r')
  | search (img : Int) (found : Option Nat)
      (miss : r.lastCluNum + 1 < disk.hdr.cluCnt →
        fitOf disk lineSize paddingSize r (r.lastCluNum + 1) = .ok false)
      (searched : searchLoop disk r.buf lineSize paddingSize
        ((r.bufPtr : Int) - u32 (lineSize + paddingSize)) (disk.hdr.cluCnt - 2) 2 = .ok found)
      (taken : ∀ j, found = some j → takeCluster disk { r with img } j = .ok r')
      (kept : found = none → r'.lastCluNum = r.lastCluNum)

theorem pic_round_ends (ran : picRound disk lineSize paddingSize r = .ok r') :
    0 < u32 (lineSize + paddingSize) ∧ RoundEnds disk lineSize paddingSize r r' := by
  unfold picRound at ran
  dsimp only at ran
  split at ran
  · cases ran
  · rename_i some_line
    refine ⟨Nat.pos_of_ne_zero some_line, ?_⟩
    obtain ⟨fit, tried, rest⟩ := bind_ok.mp ran
    have tried_known : r.lastCluNum + 1 < disk.hdr.cluCnt →
        fitOf disk lineSize paddingSize r (r.lastCluNum + 1) = .ok fit :=
      fun known => (if_pos known).symm.trans tried
    cases fit with
    | true =>
      by_cases known : r.lastCluNum + 1 < disk.hdr.cluCnt
      · exact .next _ known (tried_known known) rest
      · cases (if_neg known).symm.trans tried
    | false =>
      obtain ⟨found, searched, rest⟩ := bind_ok.mp rest
      apply RoundEnds.search _ found tried_known searched
      · intro j here
        subst here
        exact rest
      · intro missing
        subst missing
        cases rest
        rfl

theorem pic_round_near (low : 2 ≤ r.lastCluNum)
    (ran : picRound disk lineSize paddingSize r = .ok r') :
    ∀ j, Tries disk lineSize paddingSize r j → Near disk lineSize paddingSize r j := by
  obtain ⟨line, ends⟩ := pic_round_ends ran
  intro j tries
  cases tries with
  | next known =>
    have next_low : 2 ≤ r.lastCluNum + 1 := Nat.le_succ_of_le low
    cases ends with
    | next img _ fits taken =>
      obtain ⟨_, cluster, found, compared⟩ := fit_inside line next_low known fits
      exact ⟨cluster, found, compared, fun _ => take_cluster_inside found taken⟩
    | search img found miss =>
      obtain ⟨_, cluster, found, compared⟩ := fit_inside line next_low known (miss known)
      refine ⟨cluster, found, compared, fun fits => ?_⟩
      cases (miss known).symm.trans fits
  | search miss low' high before =>
    cases ends with
    | next img known fits => cases (miss known).symm.trans fits
    | search img found _ searched taken =>
      obtain ⟨fit, tried, placed⟩ :=
        search_loop_tried (disk.hdr.cluCnt - 2) 2 searched j low' (by omega) before
      obtain ⟨_, cluster, address, compared⟩ := fit_inside line low' high tried
      refine ⟨cluster, address, compared, fun fits => ?_⟩
      have fit_true := Except.ok.inj (tried.symm.trans fits)
      exact take_cluster_inside address (taken j (placed fit_true))

theorem pic_round_line (low : 2 ≤ r.lastCluNum) (high : r.lastCluNum < disk.hdr.cluCnt)
    (ran : picRound disk lineSize paddingSize r = .ok r') :
    0 < u32 (lineSize + paddingSize) ∧ u32 (lineSize + paddingSize) ≤ r.bufPtr := by
  obtain ⟨line, ends⟩ := pic_round_ends ran
  refine ⟨line, ?_⟩
  cases ends with
  | next img known fits => exact (fit_inside line (Nat.le_succ_of_le low) known fits).1
  | search img found _ searched =>
    obtain ⟨fit, tried, _⟩ := search_loop_tried (disk.hdr.cluCnt - 2) 2 searched 2
      (Nat.le_refl 2) (by omega) (fun i behind upto => by omega)
    exact (fit_inside line (Nat.le_refl 2) (Nat.lt_of_le_of_lt low high) tried).1

theorem pic_loop_succ (rounds : Nat) (r : Reassembly) :
    picLoop disk lineSize paddingSize (rounds + 1) r =
      picLoop disk lineSize paddingSize rounds r >>= picRound disk lineSize paddingSize := by
  induction rounds generalizing r with
  | zero =>
    have once : picLoop disk lineSize paddingSize 1 r =
        picRound disk lineSize paddingSize r >>= fun r => .ok r := rfl
    rw [Nat.zero_add, once, picLoop]
    cases ran : picRound disk lineSize paddingSize r with
    | error e => exact ran.symm
    | ok r' => exact ran.symm
  | succ rounds ih =>
    rw [picLoop]
    conv_rhs => rw [picLoop]
    cases first : picRound disk lineSize paddingSize r with
    | error e => rfl
    | ok mid => exact ih mid

theorem pic_loop_filled (fits : LineFits disk lineSize paddingSize)
    (filled : Filled disk numClus 1 r) (rounds : Nat) (more : rounds + 1 ≤ numClus)
    (near : ∀ k mid, k + 1 < numClus → picLoop disk lineSize paddingSize k r = .ok mid →
      ∀ j, Tries disk lineSize paddingSize mid j → Near disk lineSize paddingSize mid j) :
    ∃ r', picLoop disk lineSize paddingSize rounds r = .ok r' ∧
      Filled disk numClus (rounds + 1) r' := by
  induction rounds with
  | zero => exact ⟨r, rfl, filled⟩
  | succ rounds ih =>
    obtain ⟨mid, ran, filled'⟩ := ih (by omega)
    obtain ⟨r', last, filled''⟩ :=
      pic_round_filled fits filled' more (near rounds mid (by omega) ran)
    refine ⟨r', ?_, filled''⟩
    rw [pic_loop_succ]
    exact bind_ok.mpr ⟨mid, ran, last⟩

theorem pic_loop_front (ran : picLoop disk lineSize paddingSize rounds r = .ok r') {k : Nat}
    (before : k < rounds) :
    ∃ mid next, picLoop disk lineSize paddingSize k r = .ok mid ∧
      picRound disk lineSize paddingSize mid = .ok next := by
  induction rounds generalizing r' with
  | zero => exact absurd before (Nat.not_lt_zero k)
  | succ rounds ih =>
    rw [pic_loop_succ] at ran
    obtain ⟨mid, front, last⟩ := bind_ok.mp ran
    rcases Nat.eq_or_lt_of_le (Nat.le_of_lt_succ before) with here | earlier
    · rw [here]
      exact ⟨mid, r', front, last⟩
    · exact ih front earlier

theorem take_cluster_last (taken : takeCluster disk r n = .ok r') : r'.lastCluNum = n := by
  obtain ⟨cluster, _, taken⟩ := bind_ok.mp taken
  obtain ⟨buf, _, taken⟩ := bind_ok.mp taken
  obtain ⟨cluTable, _, taken⟩ := bind_ok.mp taken
  cases taken
  rfl

theorem pic_round_known (low : 2 ≤ r.lastCluNum)
    (ran : picRound disk lineSize paddingSize r = .ok r') : 2 ≤ r'.lastCluNum := by
  cases (pic_round_ends ran).2 with
  | next img _ _ taken =>
    rw [take_cluster_last taken]
    exact Nat.le_succ_of_le low
  | search img found _ searched taken kept =>
    cases found with
    | none => exact (kept rfl).symm ▸ low
    | some j =>
      rw [take_cluster_last (taken j rfl)]
      exact (search_loop_range _ _ searched).1

end Rounds

end Frecov
