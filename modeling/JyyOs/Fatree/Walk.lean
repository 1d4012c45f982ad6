import JyyOs.Frecov.Classify
import JyyOs.Frecov.LongName
import Mathlib.Data.List.GetD

/-!
fatree.c: dfs lists the files of a FAT32 image along the cluster chains of its table. `none` is a
read outside of the image, an int that overflows or a walk that takes more rounds; what is printed
is the list of the printf calls, with the spaces of one line as one call.
-/
namespace Fatree

open Frecov

def clusInvalid : Nat := 0xffffff7

def attrHidden : UInt8 := 0x02

def attrDirectory : UInt8 := 0x10

inductive Out where
  | spaces (count : Nat)
  | entry (fname : List UInt8) (fileSize : Nat)
  | newline
  | cluster (clusId : Nat)
  deriving DecidableEq

/-- What dfs reads of a struct fat32dent; dataClus is put together from its two halves. -/
structure Dent where
  dirName : List UInt8
  dirAttr : UInt8
  dataClus : Nat
  fileSize : Nat

variable (disk : Disk)

def rootClus : Option Nat := (disk.read32 44).toOption

def nextCluster (n : Nat) : Option Nat :=
  let fat := disk.hdr.rsvdSecCnt.toNat * disk.hdr.bytsPerSec.toNat
  if fat < 2 ^ 31 then (disk.read32 (fat + 4 * n)).toOption else none

def getFilename (dirName : List UInt8) : List UInt8 :=
  dirName.zipIdx.flatMap fun (ch, i) =>
    if ch ≠ 32 then (if i = 8 then [46, ch] else [ch]) else []

def readDent (p : Nat) : Option (Option Dent) := do
  let first ← (disk.read p).toOption
  if first = 0x00 ∨ first = 0xe5 then return none
  else
    let attr ← (disk.read (p + 11)).toOption
    if attr &&& attrHidden ≠ 0 then return none
    else
      let name ← (List.range 11).mapM fun i => (disk.read (p + i)).toOption
      let high ← (disk.read16 (p + 20)).toOption
      let low ← (disk.read16 (p + 26)).toOption
      let size ← (disk.read32 (p + 28)).toOption
      return some ⟨name, attr, low ||| high <<< 16, size⟩

def dentAt (clusId d : Nat) : Option (Option Dent) := do
  let sec ← clusterToSec disk.hdr clusId
  readDent disk (sec + 32 * d)

def ndents : Nat := disk.hdr.cluSize / 32

def Dent.isDirectory (dent : Dent) : Bool := dent.dirAttr &&& attrDirectory ≠ 0

/-- Entries whose name starts with a dot are not entered. -/
def Dent.isDots (dent : Dent) : Bool := dent.dirName.head? = some 46

def Dent.heading (dent : Dent) (depth : Nat) : List Out :=
  [.spaces (4 * depth), .entry (cString (getFilename dent.dirName)) dent.fileSize]

def visit (walk : Nat → Bool → Option (List Out)) (depth : Nat) :
    Option Dent → Option (List Out)
  | none => some []
  | some dent =>
    if dent.isDirectory then
      if dent.isDots then some (dent.heading depth ++ [.newline])
      else (walk dent.dataClus true).map fun out => dent.heading depth ++ [.newline] ++ out
    else (walk dent.dataClus false).map fun out => dent.heading depth ++ out ++ [.newline]

def visitAll (walk : Nat → Bool → Option (List Out)) (depth : Nat) :
    List (Nat × Nat) → Option (List Out)
  | [] => some []
  | (clusId, d) :: rest => do
    let dent ← dentAt disk clusId d
    let here ← visit walk depth dent
    let later ← visitAll walk depth rest
    return here ++ later

def slotsAt (clusId : Nat) : List (Nat × Nat) := (List.range (ndents disk)).map fun d => (clusId, d)

def readCluster (walk : Nat → Bool → Option (List Out)) (depth clusId : Nat) :
    Bool → Option (List Out)
  | true => visitAll disk walk depth (slotsAt disk clusId)
  | false => some [.cluster clusId]

/-- dfs, with a bound on its rounds and its depth together. -/
def dfs : Nat → Nat → Nat → Bool → Option (List Out)
  | 0, _, _, _ => none
  | rounds + 1, clusId, depth, isDir =>
    if clusId < clusInvalid then do
      let here ← readCluster disk (fun clusId isDir => dfs rounds clusId (depth + 1) isDir) depth
        clusId isDir
      let next ← nextCluster disk clusId
      let later ← dfs rounds next depth isDir
      return here ++ later
    else some []

instance decidableAccepted (size : Nat) : Decidable (disk.hdr.Accepted size) :=
  inferInstanceAs (Decidable (_ ∧ _))

/-- main, from the checks of map_disk on. -/
def tree (rounds : Nat) : Option (List Out) :=
  if disk.hdr.Accepted disk.size then do
    let root ← rootClus disk
    dfs disk rounds root 0 true
  else none

inductive Chain : Nat → List Nat → Prop
  | stop {clusId : Nat} (last : ¬ clusId < clusInvalid) : Chain clusId []
  | link {clusId next : Nat} {rest : List Nat} (valid : clusId < clusInvalid)
    (linked : nextCluster disk clusId = some next) (chain : Chain next rest) :
    Chain clusId (clusId :: rest)

inductive Forest where
  | nil
  | file (name : List UInt8) (size : Nat) (clusters : List Nat) (rest : Forest)
  | dots (name : List UInt8) (size : Nat) (rest : Forest)
  | directory (name : List UInt8) (size : Nat) (files rest : Forest)

/-- Name and extension without their blanks, and a dot between them unless the extension starts
    with a blank. -/
def shortName (dirName : List UInt8) : List UInt8 :=
  (dirName.take 8).filter (· ≠ 32) ++ (if dirName.getD 8 32 ≠ 32 then [46] else []) ++
    (dirName.drop 8).filter (· ≠ 32)

def Dent.name (dent : Dent) : List UInt8 := cString (shortName dent.dirName)

/-- The slots of a directory store these files: a file its chain of clusters, a directory the
    files in the slots of its chain. -/
inductive Stores : List (Nat × Nat) → Forest → Prop
  | nil : Stores [] .nil
  | free {clusId d : Nat} {slots : List (Nat × Nat)} {forest : Forest}
    (unused : dentAt disk clusId d = some none) (rest : Stores slots forest) :
    Stores ((clusId, d) :: slots) forest
  | file {clusId d : Nat} {slots : List (Nat × Nat)} {forest : Forest} {dent : Dent}
    {clusters : List Nat} (used : dentAt disk clusId d = some (some dent))
    (plain : dent.isDirectory = false) (chain : Chain disk dent.dataClus clusters)
    (rest : Stores slots forest) :
    Stores ((clusId, d) :: slots) (.file dent.name dent.fileSize clusters forest)
  | dots {clusId d : Nat} {slots : List (Nat × Nat)} {forest : Forest} {dent : Dent}
    (used : dentAt disk clusId d = some (some dent)) (isDir : dent.isDirectory = true)
    (same : dent.isDots = true) (rest : Stores slots forest) :
    Stores ((clusId, d) :: slots) (.dots dent.name dent.fileSize forest)
  | directory {clusId d : Nat} {slots : List (Nat × Nat)} {files forest : Forest} {dent : Dent}
    {clusters : List Nat} (used : dentAt disk clusId d = some (some dent))
    (isDir : dent.isDirectory = true) (below : dent.isDots = false)
    (chain : Chain disk dent.dataClus clusters)
    (inside : Stores (clusters.flatMap (slotsAt disk)) files) (rest : Stores slots forest) :
    Stores ((clusId, d) :: slots) (.directory dent.name dent.fileSize files forest)

def Holds (clusId : Nat) (forest : Forest) : Prop :=
  ∃ clusters, Chain disk clusId clusters ∧ Stores disk (clusters.flatMap (slotsAt disk)) forest

/-- A line for each file, with the files of a directory under its own line and one level deeper,
    and the clusters of a plain file on its line. -/
def Forest.listing (depth : Nat) : Forest → List Out
  | .nil => []
  | .file name size clusters rest =>
    [.spaces (4 * depth), .entry name size] ++ clusters.map .cluster ++ [.newline] ++
      rest.listing depth
  | .dots name size rest =>
    [.spaces (4 * depth), .entry name size] ++ [.newline] ++ rest.listing depth
  | .directory name size files rest =>
    [.spaces (4 * depth), .entry name size] ++ [.newline] ++ files.listing (depth + 1) ++
      rest.listing depth

def Forest.append : Forest → Forest → Forest
  | .nil, more => more
  | .file name size clusters rest, more => .file name size clusters (rest.append more)
  | .dots name size rest, more => .dots name size (rest.append more)
  | .directory name size files rest, more => .directory name size files (rest.append more)

variable {disk}

section Names

theorem no_dot (name : List UInt8) (start : Nat)
    (away : ∀ i, start ≤ i → i < start + name.length → i ≠ 8) :
    ((name.zipIdx start).flatMap fun (ch, i) =>
      if ch ≠ 32 then (if i = 8 then [46, ch] else [ch]) else []) = name.filter (· ≠ 32) := by
  induction name generalizing start with
  | nil => rfl
  | cons ch rest ih =>
    have here : start ≠ 8 := away start (Nat.le_refl _) (by simp)
    have later := ih (start + 1) (by
      intro i low high
      apply away i (Nat.le_of_succ_le low)
      rw [List.length_cons]
      omega)
    rw [List.zipIdx_cons, List.flatMap_cons, later]
    by_cases blank : ch = 32
    · simp [blank]
    · simp [blank, here]

theorem get_filename_eq (dirName : List UInt8) : getFilename dirName = shortName dirName := by
  have parts := List.take_append_drop 8 dirName
  unfold getFilename shortName
  conv_lhs => rw [← parts]
  rw [List.zipIdx_append, List.flatMap_append]
  have base := no_dot (dirName.take 8) 0 (by
    intro i _ high
    have short := List.length_take_le 8 dirName
    omega)
  rw [base, List.append_assoc]
  congr 1
  by_cases long : 8 < dirName.length
  · have eight : (dirName.take 8).length = 8 := List.length_take_of_le (Nat.le_of_lt long)
    have split := List.drop_eq_getElem_cons long
    have ext := no_dot (dirName.drop 9) 9 (by
      intro i low _
      omega)
    rw [eight, split, List.zipIdx_cons, List.flatMap_cons, List.getD_eq_getElem _ _ long]
    simp only [Nat.zero_add]
    rw [ext]
    by_cases blank : dirName[8] = 32
    · simp [blank]
    · have kept : (dirName[8] :: dirName.drop 9).filter (· ≠ 32) =
          dirName[8] :: (dirName.drop 9).filter (· ≠ 32) :=
        List.filter_cons_of_pos (by simp [blank])
      rw [kept]
      simp [blank]
  · have none_left : dirName.drop 8 = [] := List.drop_eq_nil_of_le (Nat.le_of_not_lt long)
    rw [none_left, List.getD_eq_default _ _ (Nat.le_of_not_lt long)]
    rfl

theorem heading_eq (dent : Dent) (depth : Nat) :
    dent.heading depth = [.spaces (4 * depth), .entry dent.name dent.fileSize] := by
  unfold Dent.heading Dent.name
  rw [get_filename_eq]

end Names

section Unique

theorem Chain.unique {clusId : Nat} {first second : List Nat} (chain : Chain disk clusId first)
    (again : Chain disk clusId second) : first = second := by
  induction chain generalizing second with
  | stop last =>
    cases again with
    | stop _ => rfl
    | link valid _ _ => exact absurd valid last
  | link valid linked _ ih =>
    cases again with
    | stop last => exact absurd valid last
    | link _ linked' rest =>
      cases linked.symm.trans linked'
      rw [ih rest]

theorem Stores.unique {slots : List (Nat × Nat)} {first second : Forest}
    (stores : Stores disk slots first) (again : Stores disk slots second) : first = second := by
  induction stores generalizing second with
  | nil =>
    cases again
    rfl
  | free unused _ ih =>
    cases again with
    | free _ rest => exact ih rest
    | file used => cases unused.symm.trans used
    | dots used => cases unused.symm.trans used
    | directory used => cases unused.symm.trans used
  | file used plain chain _ ih =>
    cases again with
    | free unused => cases used.symm.trans unused
    | file used' _ chain' rest =>
      cases used.symm.trans used'
      rw [chain.unique chain', ih rest]
    | dots used' isDir =>
      cases used.symm.trans used'
      cases plain.symm.trans isDir
    | directory used' isDir =>
      cases used.symm.trans used'
      cases plain.symm.trans isDir
  | dots used isDir same _ ih =>
    cases again with
    | free unused => cases used.symm.trans unused
    | file used' plain =>
      cases used.symm.trans used'
      cases plain.symm.trans isDir
    | dots used' _ _ rest =>
      cases used.symm.trans used'
      rw [ih rest]
    | directory used' _ below =>
      cases used.symm.trans used'
      cases same.symm.trans below
  | directory used isDir below chain _ _ inside ih =>
    cases again with
    | free unused => cases used.symm.trans unused
    | file used' plain =>
      cases used.symm.trans used'
      cases plain.symm.trans isDir
    | dots used' _ same =>
      cases used.symm.trans used'
      cases same.symm.trans below
    | directory used' _ _ chain' inside' rest =>
      cases used.symm.trans used'
      cases chain.unique chain'
      rw [inside inside', ih rest]

/-- An image has one tree below a cluster at most. -/
theorem Holds.unique {clusId : Nat} {first second : Forest} (holds : Holds disk clusId first)
    (again : Holds disk clusId second) : first = second := by
  obtain ⟨clusters, chain, stores⟩ := holds
  obtain ⟨clusters', chain', stores'⟩ := again
  cases chain.unique chain'
  exact stores.unique stores'

end Unique

section Walk

variable {walk walk' : Nat → Bool → Option (List Out)} {depth : Nat} {slots : List (Nat × Nat)}
  {out : List Out}

theorem stores_append {more : List (Nat × Nat)} {first second : Forest}
    (front : Stores disk slots first) (behind : Stores disk more second) :
    Stores disk (slots ++ more) (first.append second) := by
  induction front with
  | nil => exact behind
  | free unused _ ih => exact .free unused ih
  | file used plain chain _ ih => exact .file used plain chain ih
  | dots used isDir same _ ih => exact .dots used isDir same ih
  | directory used isDir below chain inside _ _ ih =>
    exact .directory used isDir below chain inside ih

theorem listing_append (first second : Forest) :
    (first.append second).listing depth = first.listing depth ++ second.listing depth := by
  induction first with
  | nil => rfl
  | file name size clusters rest ih => simp [Forest.append, Forest.listing, ih]
  | dots name size rest ih => simp [Forest.append, Forest.listing, ih]
  | directory name size files rest _ ih => simp [Forest.append, Forest.listing, ih]

theorem visit_some {dent : Dent} :
    visit walk depth (some dent) = some out ↔
      (dent.isDirectory = false ∧ ∃ inner, walk dent.dataClus false = some inner ∧
        dent.heading depth ++ inner ++ [.newline] = out) ∨
      (dent.isDirectory = true ∧ dent.isDots = true ∧ dent.heading depth ++ [.newline] = out) ∨
      (dent.isDirectory = true ∧ dent.isDots = false ∧ ∃ inner,
        walk dent.dataClus true = some inner ∧
          dent.heading depth ++ [.newline] ++ inner = out) := by
  unfold visit
  cases isDir : dent.isDirectory with
  | false => simp [isDir]
  | true =>
    cases same : dent.isDots with
    | false => simp [isDir, same]
    | true => simp [isDir, same]

theorem visit_mono (more : ∀ clusId isDir out, walk clusId isDir = some out →
    walk' clusId isDir = some out) {dent : Option Dent}
    (ran : visit walk depth dent = some out) : visit walk' depth dent = some out := by
  cases dent with
  | none => exact ran
  | some dent =>
    apply visit_some.mpr
    obtain ⟨plain, inner, walked, same⟩ | dots | ⟨isDir, below, inner, walked, same⟩ :=
      visit_some.mp ran
    · exact .inl ⟨plain, inner, more _ _ _ walked, same⟩
    · exact .inr (.inl dots)
    · exact .inr (.inr ⟨isDir, below, inner, more _ _ _ walked, same⟩)

theorem visit_all_cons {clusId d : Nat} :
    visitAll disk walk depth ((clusId, d) :: slots) = some out ↔
      ∃ dent here later, dentAt disk clusId d = some dent ∧ visit walk depth dent = some here ∧
        visitAll disk walk depth slots = some later ∧ out = here ++ later := by
  rw [visitAll]
  simp only [Option.bind_eq_bind, Option.bind_eq_some_iff, Option.pure_def, Option.some.injEq]
  constructor
  · intro ran
    obtain ⟨dent, read, here, visited, later, rest, same⟩ := ran
    exact ⟨dent, here, later, read, visited, rest, same.symm⟩
  · intro ran
    obtain ⟨dent, here, later, read, visited, rest, same⟩ := ran
    exact ⟨dent, read, here, visited, later, rest, same.symm⟩

theorem visit_all_mono (more : ∀ clusId isDir out, walk clusId isDir = some out →
    walk' clusId isDir = some out) (ran : visitAll disk walk depth slots = some out) :
    visitAll disk walk' depth slots = some out := by
  induction slots generalizing out with
  | nil => exact ran
  | cons slot rest ih =>
    obtain ⟨clusId, d⟩ := slot
    obtain ⟨dent, here, later, read, visited, walked, same⟩ := visit_all_cons.mp ran
    exact visit_all_cons.mpr ⟨dent, here, later, read, visit_mono more visited, ih walked, same⟩

theorem visit_all_append {more : List (Nat × Nat)} :
    visitAll disk walk depth (slots ++ more) = some out ↔
      ∃ here later, visitAll disk walk depth slots = some here ∧
        visitAll disk walk depth more = some later ∧ out = here ++ later := by
  induction slots generalizing out with
  | nil =>
    constructor
    · intro ran
      exact ⟨[], out, rfl, ran, rfl⟩
    · intro ran
      obtain ⟨here, later, ⟨⟩, walked, same⟩ := ran
      rw [same]
      exact walked
  | cons slot rest ih =>
    obtain ⟨clusId, d⟩ := slot
    constructor
    · intro ran
      obtain ⟨dent, here, later, read, visited, walked, same⟩ := visit_all_cons.mp ran
      obtain ⟨front, behind, first, second, both⟩ := ih.mp walked
      refine ⟨here ++ front, behind, ?_, second, ?_⟩
      · exact visit_all_cons.mpr ⟨dent, here, front, read, visited, first, rfl⟩
      · rw [same, both, List.append_assoc]
    · intro ran
      obtain ⟨front, behind, first, second, both⟩ := ran
      obtain ⟨dent, here, later, read, visited, walked, same⟩ := visit_all_cons.mp first
      refine visit_all_cons.mpr ⟨dent, here, later ++ behind, read, visited, ?_, ?_⟩
      · exact ih.mpr ⟨later, behind, walked, second, rfl⟩
      · rw [both, same, List.append_assoc]

theorem read_cluster_mono (more : ∀ clusId isDir out, walk clusId isDir = some out →
    walk' clusId isDir = some out) {clusId : Nat} {isDir : Bool}
    (ran : readCluster disk walk depth clusId isDir = some out) :
    readCluster disk walk' depth clusId isDir = some out := by
  cases isDir with
  | false => exact ran
  | true => exact visit_all_mono more ran

theorem dfs_round {rounds clusId : Nat} {isDir : Bool} (valid : clusId < clusInvalid) :
    dfs disk (rounds + 1) clusId depth isDir = some out ↔
      ∃ here next later,
        readCluster disk (fun clusId isDir => dfs disk rounds clusId (depth + 1) isDir) depth clusId
          isDir = some here ∧ nextCluster disk clusId = some next ∧
        dfs disk rounds next depth isDir = some later ∧ out = here ++ later := by
  rw [dfs, if_pos valid]
  simp only [Option.bind_eq_bind, Option.bind_eq_some_iff, Option.pure_def, Option.some.injEq]
  constructor
  · intro ran
    obtain ⟨here, visited, next, linked, later, walked, same⟩ := ran
    exact ⟨here, next, later, visited, linked, walked, same.symm⟩
  · intro ran
    obtain ⟨here, next, later, visited, linked, walked, same⟩ := ran
    exact ⟨here, visited, next, linked, later, walked, same.symm⟩

theorem dfs_end {rounds clusId : Nat} {isDir : Bool} (last : ¬ clusId < clusInvalid) :
    dfs disk (rounds + 1) clusId depth isDir = some [] := by
  rw [dfs, if_neg last]

theorem dfs_mono {rounds rounds' clusId : Nat} {isDir : Bool} (more : rounds ≤ rounds')
    (ran : dfs disk rounds clusId depth isDir = some out) :
    dfs disk rounds' clusId depth isDir = some out := by
  induction rounds generalizing rounds' clusId depth isDir out with
  | zero =>
    rw [dfs] at ran
    cases ran
  | succ rounds ih =>
    obtain ⟨rounds', rfl⟩ := Nat.exists_eq_add_one_of_ne_zero
      (Nat.ne_of_gt (Nat.lt_of_lt_of_le (Nat.succ_pos rounds) more))
    have fewer : rounds ≤ rounds' := Nat.le_of_succ_le_succ more
    by_cases valid : clusId < clusInvalid
    · obtain ⟨here, next, later, visited, linked, walked, same⟩ := (dfs_round valid).mp ran
      refine (dfs_round valid).mpr ⟨here, next, later, ?_, linked, ih fewer walked, same⟩
      exact read_cluster_mono (fun _ _ _ => ih fewer) visited
    · rw [dfs_end valid] at ran ⊢
      exact ran

theorem file_walk {clusId : Nat} {clusters : List Nat} (chain : Chain disk clusId clusters)
    (depth : Nat) :
    dfs disk (clusters.length + 1) clusId depth false = some (clusters.map .cluster) := by
  induction chain with
  | stop last => exact dfs_end last
  | link valid linked _ ih => exact (dfs_round valid).mpr ⟨_, _, _, rfl, linked, ih, rfl⟩

theorem directory_walk {rounds clusId : Nat} {clusters : List Nat}
    (chain : Chain disk clusId clusters)
    (ran : visitAll disk (fun clusId isDir => dfs disk rounds clusId (depth + 1) isDir) depth
      (clusters.flatMap (slotsAt disk)) = some out) :
    dfs disk (rounds + clusters.length + 1) clusId depth true = some out := by
  induction chain generalizing out with
  | stop last =>
    cases ran
    exact dfs_end last
  | link valid linked _ ih =>
    rw [List.flatMap_cons] at ran
    obtain ⟨here, later, first, second, same⟩ := visit_all_append.mp ran
    refine (dfs_round valid).mpr ⟨here, _, later, ?_, linked, ih second, same⟩
    refine visit_all_mono ?_ first
    intro clusId isDir out walked
    exact dfs_mono (by omega) walked

theorem stores_walk {forest : Forest} (stores : Stores disk slots forest) (depth : Nat) :
    ∃ rounds, visitAll disk (fun clusId isDir => dfs disk rounds clusId (depth + 1) isDir) depth
      slots = some (forest.listing depth) := by
  induction stores generalizing depth with
  | nil => exact ⟨0, rfl⟩
  | free unused _ ih =>
    obtain ⟨rounds, walked⟩ := ih depth
    exact ⟨rounds, visit_all_cons.mpr ⟨none, [], _, unused, rfl, walked, rfl⟩⟩
  | @file clusId d slots forest dent clusters used plain chain _ ih =>
    obtain ⟨rounds, walked⟩ := ih depth
    have before : rounds ≤ max rounds (clusters.length + 1) := le_max_left ..
    have enough : clusters.length + 1 ≤ max rounds (clusters.length + 1) := le_max_right ..
    have printed := dfs_mono enough (file_walk chain (depth + 1))
    refine ⟨_, visit_all_cons.mpr ⟨some dent,
      dent.heading depth ++ clusters.map .cluster ++ [.newline], forest.listing depth, used,
      visit_some.mpr (.inl ⟨plain, _, printed, rfl⟩),
      visit_all_mono (fun _ _ _ => dfs_mono before) walked, ?_⟩⟩
    rw [heading_eq, Forest.listing]
  | @dots clusId d slots forest dent used isDir same _ ih =>
    obtain ⟨rounds, walked⟩ := ih depth
    refine ⟨rounds, visit_all_cons.mpr ⟨some dent, dent.heading depth ++ [.newline],
      forest.listing depth, used, visit_some.mpr (.inr (.inl ⟨isDir, same, rfl⟩)), walked, ?_⟩⟩
    rw [heading_eq, Forest.listing]
  | @directory clusId d slots files forest dent clusters used isDir below chain _ _ inner ih =>
    obtain ⟨rounds, walked⟩ := ih depth
    obtain ⟨deeper, entered⟩ := inner (depth + 1)
    have before : rounds ≤ max rounds (deeper + clusters.length + 1) := le_max_left ..
    have enough : deeper + clusters.length + 1 ≤ max rounds (deeper + clusters.length + 1) :=
      le_max_right ..
    have printed := dfs_mono enough (directory_walk chain entered)
    refine ⟨_, visit_all_cons.mpr ⟨some dent,
      dent.heading depth ++ [.newline] ++ files.listing (depth + 1), forest.listing depth, used,
      visit_some.mpr (.inr (.inr ⟨isDir, below, _, printed, rfl⟩)),
      visit_all_mono (fun _ _ _ => dfs_mono before) walked, ?_⟩⟩
    rw [heading_eq, Forest.listing]

variable (disk) in
def Walked (clusId depth : Nat) (isDir : Bool) (out : List Out) : Prop :=
  if isDir then ∃ forest, Holds disk clusId forest ∧ out = forest.listing depth
  else ∃ clusters, Chain disk clusId clusters ∧ out = clusters.map .cluster

theorem walk_stores
    (inside : ∀ clusId isDir out, walk clusId isDir = some out →
      Walked disk clusId (depth + 1) isDir out)
    (ran : visitAll disk walk depth slots = some out) :
    ∃ forest, Stores disk slots forest ∧ out = forest.listing depth := by
  induction slots generalizing out with
  | nil =>
    cases ran
    exact ⟨.nil, .nil, rfl⟩
  | cons slot rest ih =>
    obtain ⟨clusId, d⟩ := slot
    obtain ⟨dent, here, later, read, visited, walked, rfl⟩ := visit_all_cons.mp ran
    obtain ⟨forest, stores, rfl⟩ := ih walked
    cases dent with
    | none =>
      cases visited
      exact ⟨forest, .free read stores, rfl⟩
    | some dent =>
      obtain ⟨plain, inner, printed, rfl⟩ | ⟨isDir, same, rfl⟩ |
        ⟨isDir, below, inner, printed, rfl⟩ := visit_some.mp visited
      · obtain ⟨clusters, chain, rfl⟩ := inside _ _ _ printed
        refine ⟨_, .file read plain chain stores, ?_⟩
        rw [heading_eq, Forest.listing]
      · refine ⟨_, .dots read isDir same stores, ?_⟩
        rw [heading_eq, Forest.listing]
      · obtain ⟨files, ⟨clusters, chain, entered⟩, rfl⟩ := inside _ _ _ printed
        refine ⟨_, .directory read isDir below chain entered stores, ?_⟩
        rw [heading_eq, Forest.listing]

theorem dfs_walked {rounds clusId : Nat} {isDir : Bool}
    (ran : dfs disk rounds clusId depth isDir = some out) : Walked disk clusId depth isDir out := by
  induction rounds generalizing clusId depth isDir out with
  | zero =>
    rw [dfs] at ran
    cases ran
  | succ rounds ih =>
    by_cases valid : clusId < clusInvalid
    · obtain ⟨here, next, later, visited, linked, walked, rfl⟩ := (dfs_round valid).mp ran
      have behind := ih walked
      cases isDir with
      | false =>
        cases visited
        obtain ⟨clusters, chain, rfl⟩ := behind
        exact ⟨clusId :: clusters, .link valid linked chain, rfl⟩
      | true =>
        obtain ⟨first, here, rfl⟩ := walk_stores (fun _ _ _ => ih) visited
        obtain ⟨second, ⟨clusters, chain, rest⟩, rfl⟩ := behind
        refine ⟨first.append second, ⟨clusId :: clusters, .link valid linked chain, ?_⟩, ?_⟩
        · exact stores_append here rest
        · exact (listing_append first second).symm
    · rw [dfs_end valid] at ran
      cases ran
      cases isDir with
      | false => exact ⟨[], .stop valid, rfl⟩
      | true => exact ⟨.nil, ⟨[], .stop valid, .nil⟩, rfl⟩

/-- The walk ends where the directories of the image form a finite tree with finite chains, and
    prints the listing of that tree. -/
theorem tree_printed (disk : Disk) (out : List Out) :
    (∃ rounds, tree disk rounds = some out) ↔
      disk.hdr.Accepted disk.size ∧ ∃ root forest, rootClus disk = some root ∧
        Holds disk root forest ∧ out = forest.listing 0 := by
  constructor
  · intro printed
    obtain ⟨rounds, ran⟩ := printed
    unfold tree at ran
    split at ran
    · obtain ⟨root, found, walked⟩ := Option.bind_eq_some_iff.mp ran
      obtain ⟨forest, holds, same⟩ := dfs_walked walked
      exact ⟨‹_›, root, forest, found, holds, same⟩
    · cases ran
  · intro stored
    obtain ⟨accepted, root, forest, found, ⟨clusters, chain, stores⟩, rfl⟩ := stored
    obtain ⟨rounds, walked⟩ := stores_walk stores 0
    have ran := directory_walk chain walked
    refine ⟨rounds + clusters.length + 1, ?_⟩
    rw [tree, if_pos accepted]
    exact Option.bind_eq_some_iff.mpr ⟨root, found, ran⟩

example :
    tree ⟨512, fun p => (List.lookup p [(11, 32), (13, 1), (14, 2), (16, 1), (32, 16), (36, 1),
        (44, 2), (75, 16), (79, 16), (80, 5), (87, 16), (96, 68), (107, 16), (122, 3), (128, 65),
        (154, 4), (156, 5), (510, 85), (511, 170)]).getD 0⟩ 5 =
      some [.spaces 0, .entry [68] 0, .newline, .spaces 4, .entry [65] 5, .cluster 4, .cluster 5,
        .newline] := by
  decide

end Walk

end Fatree
