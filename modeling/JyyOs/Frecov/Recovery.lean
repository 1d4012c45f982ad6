import JyyOs.Frecov.DirScan
import JyyOs.Frecov.PictureSafe

/-!
The recovery of frecov.c as a whole: which clusters it considers, and where it writes its table.
-/
namespace Frecov

open Faults

section Code

variable (disk : Disk) (host : Host)

def Disk.behind (p : Nat) : Cluster := ⟨disk.size - p, fun k => disk.bytes (p + k)⟩

/-- get_pic_sha_num_and_print over the table, or over the fault that ended the run. -/
def printPic : Recovery (Except Fault Table)
  | .error f, _, _ => (false, .error f)
  | .ok cluTable, cluNum, fileName =>
    match getPicShaNumAndPrint disk host cluNum cluTable fileName with
    | .error f => (false, .error f)
    | .ok (isSuccess, cluTable) => (isSuccess, .ok cluTable)

def recoverDirAt (cluster : Nat) (cluTable : Table) :
    Except ScanFault (Progress (Except Fault Table)) :=
  recoverTheDirLoop (printPic disk host) (disk.behind cluster) disk.hdr.cluSize
    (disk.hdr.cluSize / 32 + 2) 0 ⟨.ok cluTable, []⟩

def recoverDirNode (cluNum : Nat) (cluTable : Table) : Except Fault Table := do
  let cluster ← disk.address cluNum
  match recoverDirAt disk host cluster cluTable with
  | .error _ => .error .image
  | .ok s => s.state

/-- recovery over the list of directories: the ones it visits, and how it ends. -/
def recovery : List Nat → Table → List Nat × Except Fault Table
  | [], cluTable => ([], .ok cluTable)
  | cluNum :: nxt, cluTable =>
    match recoverDirNode disk host cluNum cluTable with
    | .error f => ([cluNum], .error f)
    | .ok cluTable =>
      let (visited, ended) := recovery nxt cluTable
      (cluNum :: visited, ended)

def Fat32Hdr.HasClusters (hdr : Fat32Hdr) (count : Nat) : Prop :=
  hdr.regions + count * hdr.secPerClus.toNat ≤ hdr.totSec32.toNat ∧
    hdr.totSec32.toNat < hdr.regions + (count + 1) * hdr.secPerClus.toNat

instance (hdr : Fat32Hdr) (count : Nat) : Decidable (hdr.HasClusters count) := instDecidableAnd

/-- The clusters from 2 up to `last` are typed, the directories among them listed once, and the
    directories of the list visited once, with no write behind the table. Each visit ends. -/
structure ConsidersUpTo (c : Classes) (last : Nat) : Prop where
  typed : ∀ n, 2 ≤ n → n < last → ∃ type, kindOf disk n = .ok type ∧ c.cluTable n = some type
  listed : ∀ n, 2 ≤ n → n < last → kindOf disk n = .ok .dir → c.dirBegin.count n = 1
  nodup : c.dirBegin.Nodup
  visited : (recovery disk host c.dirBegin c.cluTable).1 <+: c.dirBegin
  all : ∀ cluTable, (recovery disk host c.dirBegin c.cluTable).2 = .ok cluTable →
    (recovery disk host c.dirBegin c.cluTable).1 = c.dirBegin
  inside : (recovery disk host c.dirBegin c.cluTable).2 ≠ .error .table
  ends : ∀ cluster cluTable, recoverDirAt disk host cluster cluTable ≠ .error .rounds

def Considers (count : Nat) : Prop :=
  ∃ c, classifyTheCluster disk = .ok c ∧ ConsidersUpTo disk host c (count + 2)

end Code

section TableWrites

abbrev Inside (f : Fault) : Prop := f ≠ .table

variable {disk : Disk} {host : Host} {buf : Buffer} {r : Reassembly} {n p lineSize paddingSize : Nat}

theorem read_stops : Stops Inside (disk.read p) :=
  stops_ite (fun _ => stops_ok _) fun _ => stops_error (by decide)

theorem read16_stops : Stops Inside (disk.read16 p) :=
  stops_bind read_stops fun _ _ => stops_bind read_stops fun _ _ => stops_pure _

theorem read32_stops : Stops Inside (disk.read32 p) :=
  stops_bind read16_stops fun _ _ => stops_bind read16_stops fun _ _ => stops_pure _

theorem address_stops : Stops Inside (disk.address n) := by
  unfold Disk.address
  split
  · exact stops_ok _
  · exact stops_error (by decide)

theorem table_set_stops {cluTable : Table} {type : CluType} (inside : n < disk.hdr.cluCnt) :
    Stops Inside (tableSet disk.hdr cluTable n type) := by
  rw [tableSet, if_pos inside]
  exact stops_ok _

section Judging

theorem judge_if_bmp_hdr_stops : Stops Inside (judgeIfBmpHdr disk p) := by
  apply stops_bind read16_stops
  intro type _
  apply stops_return
  intro _
  apply stops_bind read16_stops
  intro reserved1 _
  apply stops_return
  intro _
  apply stops_bind read16_stops
  intro reserved2 _
  apply stops_return
  intro _
  exact stops_bind read32_stops fun _ _ => stops_pure _

theorem zero_words_stops (left : Nat) : Stops Inside (zeroWords disk p left) := by
  induction left generalizing p with
  | zero => exact stops_ok _
  | succ left ih =>
    apply stops_bind read16_stops
    intro word _
    exact stops_return _ fun _ => ih

theorem judge_if_unused_stops : Stops Inside (judgeIfUnused disk p) := by
  apply stops_bind (zero_words_stops 16)
  intro zero _
  apply stops_ite
  · intro _
    exact stops_bind read16_stops fun _ _ => stops_pure _
  · intro _
    exact stops_pure _

theorem bmp_name_stops : Stops Inside (bmpName disk p) := by
  have last : ∀ c : UInt8, Stops Inside (disk.read (p + 2) >>= fun x => pure (decide (x = c))) :=
    fun c => stops_bind read_stops fun _ _ => stops_pure _
  apply stops_bind read_stops
  intro b _
  apply stops_return
  intro _
  apply stops_bind read_stops
  intro m _
  apply stops_ite
  · intro _
    exact last 0x50
  · intro _
    exact stops_ite (fun _ => last 0x70) fun _ => stops_pure _

theorem bmp_names_stops (left i bmpCnt : Nat) : Stops Inside (bmpNames disk p left i bmpCnt) := by
  induction left generalizing i bmpCnt with
  | zero => exact stops_ok _
  | succ left ih =>
    apply stops_ite
    · intro _
      exact stops_error (by decide)
    · intro _
      apply stops_bind bmp_name_stops
      intro name _
      exact stops_ite (fun _ => ih _ _) fun _ => ih _ _

theorem decide_clu_type_stops : Stops Inside (decideCluType disk p) := by
  apply stops_bind judge_if_bmp_hdr_stops
  intro header _
  apply stops_return
  intro _
  apply stops_bind judge_if_unused_stops
  intro unused _
  apply stops_return
  intro _
  apply stops_bind
  · exact stops_bind (bmp_names_stops _ _ _) fun _ _ => stops_pure _
  · intro dir _
    exact stops_return _ fun _ => stops_pure _

theorem classify_loop_stops (left : Nat) (c : Classes) (inside : n + left ≤ disk.hdr.cluCnt) :
    Stops Inside (classifyLoop disk left n c) := by
  induction left generalizing n c with
  | zero => exact stops_ok _
  | succ left ih =>
    apply stops_bind
    · apply stops_bind address_stops
      intro cluster _
      apply stops_bind decide_clu_type_stops
      intro type _
      exact stops_bind (table_set_stops (by omega)) fun _ _ => stops_pure _
    · intro c' _
      exact ih c' (by omega)

theorem classify_stops (disk : Disk) : Stops Inside (classifyTheCluster disk) := by
  by_cases some_cluster : 2 ≤ disk.hdr.cluCnt
  · exact classify_loop_stops _ _ (by omega)
  · have none_left : disk.hdr.cluCnt - 2 = 0 := by omega
    rw [classifyTheCluster, none_left]
    exact stops_ok _

end Judging

section Pictures

theorem buffer_read_stops {p : Int} : Stops Inside (buf.read p) :=
  stops_ite (fun _ => stops_ok _) fun _ => stops_error (by decide)

theorem buffer_read16_stops {p : Int} : Stops Inside (buf.read16 p) :=
  stops_bind buffer_read_stops fun _ _ => stops_bind buffer_read_stops fun _ _ => stops_pure _

theorem buffer_read32_stops {p : Int} : Stops Inside (buf.read32 p) :=
  stops_bind buffer_read16_stops fun _ _ => stops_bind buffer_read16_stops fun _ _ => stops_pure _

theorem copy_cluster_stops {bufPtr : Nat} : Stops Inside (copyCluster disk buf bufPtr p) := by
  apply stops_ite
  · intro _
    exact stops_error (by decide)
  · intro _
    exact stops_ite (fun _ => stops_error (by decide)) fun _ => stops_ok _

theorem dev_loop_stops {lastLine : Int} (left i dev : Nat) :
    Stops Inside (devLoop disk buf p lastLine left i dev) := by
  induction left generalizing i dev with
  | zero => exact stops_ok _
  | succ left ih =>
    apply stops_bind read_stops
    intro clu _
    exact stops_bind buffer_read_stops fun _ _ => ih _ _

theorem try_cluster_stops {lastLine : Int} :
    Stops Inside (tryCluster disk buf n lineSize paddingSize lastLine) := by
  apply stops_ite
  · intro _
    exact stops_ok _
  · intro _
    apply stops_bind address_stops
    intro cluster _
    apply stops_bind (dev_loop_stops _ _ _)
    intro dev _
    exact stops_ite (fun _ => stops_error (by decide)) fun _ => stops_pure _

theorem search_loop_stops {lastLine : Int} (left : Nat) :
    Stops Inside (searchLoop disk buf lineSize paddingSize lastLine left n) := by
  induction left generalizing n with
  | zero => exact stops_ok _
  | succ left ih =>
    apply stops_bind try_cluster_stops
    intro fit _
    exact stops_return _ fun _ => ih

theorem take_cluster_stops (inside : n < disk.hdr.cluCnt) :
    Stops Inside (takeCluster disk r n) := by
  apply stops_bind address_stops
  intro cluster _
  apply stops_bind copy_cluster_stops
  intro buf' _
  exact stops_bind (table_set_stops inside) fun _ _ => stops_pure _

theorem pic_round_stops : Stops Inside (picRound disk lineSize paddingSize r) := by
  apply stops_ite
  · intro _
    exact stops_error (by decide)
  · intro _
    apply stops_bind
    · exact stops_ite (fun _ => try_cluster_stops) fun _ => stops_ok _
    · intro fit tried
      apply stops_ite
      · intro fits
        apply take_cluster_stops
        by_contra unknown
        rw [tryNext, if_neg unknown] at tried
        cases tried
        cases fits
      · intro _
        apply stops_bind (search_loop_stops _)
        intro found searched
        cases found with
        | some j =>
          have place := search_loop_range _ _ searched
          exact take_cluster_stops (by omega)
        | none => exact stops_pure _

theorem pic_loop_stops (rounds : Nat) : Stops Inside (picLoop disk lineSize paddingSize rounds r) := by
  induction rounds generalizing r with
  | zero => exact stops_ok _
  | succ rounds ih => exact stops_bind pic_round_stops fun _ _ => ih

theorem reassemble_stops {numClus : Nat} : Stops Inside (reassemble disk numClus r) := by
  apply stops_bind buffer_read32_stops
  intro compression _
  apply stops_return
  intro _
  apply stops_bind buffer_read16_stops
  intro bits _
  apply stops_bind buffer_read32_stops
  intro width _
  apply stops_return
  intro _
  apply stops_bind buffer_read32_stops
  intro offset _
  exact stops_bind (pic_loop_stops _) fun _ _ => stops_pure _

theorem store_pic_stops {data : Data} {fsize : Nat} {opens : Bool} :
    Stops Inside (storePicInTmp disk buf p data fsize opens) := by
  apply stops_ite
  · intro _
    cases data with
    | cluster => exact stops_ite (fun _ => stops_error (by decide)) fun _ => stops_ok _
    | buf => exact stops_ite (fun _ => stops_error (by decide)) fun _ => stops_ok _
  · intro _
    exact stops_ok _

theorem get_pic_stops (disk : Disk) (host : Host) (cluNum : Nat) (cluTable : Table)
    (fileName : List UInt8) :
    Stops Inside (getPicShaNumAndPrint disk host cluNum cluTable fileName) := by
  apply stops_ite
  · intro _
    exact stops_ok _
  · intro _
    apply stops_ite
    · intro _
      exact stops_ok _
    · intro _
      apply stops_bind address_stops
      intro cluster _
      apply stops_bind read32_stops
      intro fsize _
      apply stops_ite
      · intro _
        exact stops_error (by decide)
      · intro _
        apply stops_bind copy_cluster_stops
        intro buf _
        apply stops_bind reassemble_stops
        intro done _
        exact stops_bind store_pic_stops fun _ _ => stops_pure _

theorem print_pic_stops (state : Except Fault Table) (cluNum : Nat) (fileName : List UInt8)
    (inside : Stops Inside state) : Stops Inside (printPic disk host state cluNum fileName).2 := by
  cases state with
  | error f => exact inside
  | ok cluTable =>
    rw [printPic]
    cases ran : getPicShaNumAndPrint disk host cluNum cluTable fileName with
    | error f => exact stops_error (get_pic_stops disk host cluNum cluTable fileName f ran)
    | ok done => exact stops_ok _

theorem recover_dir_stops (cluTable : Table) :
    Stops Inside (recoverDirNode disk host n cluTable) := by
  apply stops_bind address_stops
  intro cluster _
  split
  · exact stops_error (by decide)
  · rename_i s ran
    exact loop_keeps (clu_size_small disk.hdr) print_pic_stops (stops_ok cluTable) ran

theorem recover_dir_ends (cluster : Nat) (cluTable : Table) :
    recoverDirAt disk host cluster cluTable ≠ .error .rounds :=
  loop_ends (clu_size_small disk.hdr) (by omega)

end Pictures

end TableWrites

section Considered

variable {disk : Disk} {host : Host} {c : Classes} {count : Nat}

theorem recovery_visits (disk : Disk) (host : Host) (dirs : List Nat) (cluTable : Table) :
    (recovery disk host dirs cluTable).1 <+: dirs ∧
      (∀ cluTable', (recovery disk host dirs cluTable).2 = .ok cluTable' →
        (recovery disk host dirs cluTable).1 = dirs) ∧
      (recovery disk host dirs cluTable).2 ≠ .error .table := by
  induction dirs generalizing cluTable with
  | nil => exact ⟨List.nil_prefix, fun _ _ => rfl, by simp [recovery]⟩
  | cons cluNum nxt ih =>
    rw [recovery]
    cases ran : recoverDirNode disk host cluNum cluTable with
    | error f =>
      refine ⟨⟨nxt, rfl⟩, ?_, ?_⟩
      · intro _ ended
        cases ended
      · intro same
        cases same
        exact recover_dir_stops cluTable .table ran rfl
    | ok cluTable' =>
      obtain ⟨front, whole, inside⟩ := ih cluTable'
      refine ⟨(List.prefix_cons_inj cluNum).mpr front, fun last ended => ?_, inside⟩
      exact congrArg (cluNum :: ·) (whole last ended)

theorem has_clusters_counted {hdr : Fat32Hdr} (data : hdr.HasClusters count) :
    hdr.cluCnt = count := by
  obtain ⟨room, full⟩ := data
  rw [clu_cnt_eq (Nat.le_trans (Nat.le_add_right ..) room), Fat32Hdr.dataClusters]
  exact Nat.div_eq_of_lt_le (by omega) (by omega)

theorem classified (data : disk.hdr.HasClusters count) (ran : classifyTheCluster disk = .ok c) :
    Extends disk 2 (count - 2) ⟨fun _ => none, []⟩ c := by
  rw [classifyTheCluster, has_clusters_counted data] at ran
  exact classify_loop_extends ran

theorem considers_front (host : Host) (data : disk.hdr.HasClusters count)
    (ran : classifyTheCluster disk = .ok c) : ConsidersUpTo disk host c count := by
  have spread := classified data ran
  obtain ⟨found, listed, nodup, members⟩ := spread.listed
  rw [List.append_nil] at listed
  obtain ⟨front, whole, inside⟩ := recovery_visits disk host c.dirBegin c.cluTable
  refine ⟨fun n low high => spread.typed n low (by omega), fun n low high dir => ?_,
    listed ▸ nodup, front, whole, inside, recover_dir_ends⟩
  rw [listed]
  exact List.count_eq_one_of_mem nodup ((members n).mpr ⟨low, by omega, dir⟩)

theorem last_clusters_untyped (data : disk.hdr.HasClusters count)
    (ran : classifyTheCluster disk = .ok c) (n : Nat) (last : count ≤ n) : c.cluTable n = none := by
  have untyped : n < 2 ∨ 2 + (count - 2) ≤ n := by omega
  exact (classified data ran).kept n untyped

theorem considered_none (data : disk.hdr.HasClusters count)
    (considers : Considers disk host count) : count = 0 := by
  obtain ⟨c, ran, considered⟩ := considers
  by_contra some_cluster
  obtain ⟨type, _, typed⟩ := considered.typed (count + 1) (by omega) (by omega)
  rw [last_clusters_untyped data ran (count + 1) (Nat.le_succ count)] at typed
  cases typed

/-- Of the data clusters 2 to `count + 1` the recovery considers those below `count`: every data
    cluster only where there is none. The table is written where it is, each directory listed once
    and visited once. -/
theorem clusters_considered_iff (disk : Disk) (host : Host) (count : Nat)
    (data : disk.hdr.HasClusters count) :
    (Considers disk host count ↔ count = 0) ∧ classifyTheCluster disk ≠ .error .table ∧
      ∀ c, classifyTheCluster disk = .ok c → ConsidersUpTo disk host c count ∧
        ∀ n, count ≤ n → c.cluTable n = none := by
  refine ⟨⟨considered_none data, ?_⟩, ?_, fun c ran => ?_⟩
  · rintro rfl
    have none_left : classifyTheCluster disk = .ok ⟨fun _ => none, []⟩ := by
      rw [classifyTheCluster, has_clusters_counted data]
      rfl
    have front := considers_front host data none_left
    refine ⟨_, none_left, fun n low high => absurd high (by omega),
      fun n low high => absurd high (by omega), front.nodup, front.visited, front.all,
      front.inside, front.ends⟩
  · intro stopped
    exact classify_stops disk .table stopped rfl
  · exact ⟨considers_front host data ran, last_clusters_untyped data ran⟩

theorem clusters_considered_ten_sectors :
    ¬Considers (pictureDisk 0x58 2) plainHost 8 ∧
      classifyTheCluster (pictureDisk 0x58 2) ≠ .error .table := by
  have considered := clusters_considered_iff (pictureDisk 0x58 2) plainHost 8 (by decide)
  exact ⟨fun all => absurd (considered.1.mp all) (by decide), considered.2.1⟩

/-- Ten sectors with two in front of eight clusters: clusters 8 and 9 have no type. -/
theorem last_clusters_left_out :
    (pictureDisk 0x58 2).hdr.Accepted (pictureDisk 0x58 2).size ∧
      (pictureDisk 0x58 2).hdr.HasClusters 8 ∧ ¬Considers (pictureDisk 0x58 2) plainHost 8 := by
  have data : (pictureDisk 0x58 2).hdr.HasClusters 8 := by decide
  refine ⟨⟨rfl, by decide⟩, data, fun considers => ?_⟩
  exact absurd (considered_none data considers) (by decide)

end Considered

end Frecov
