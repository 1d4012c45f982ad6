import JyyOs.Frecov.LongName

/-!
recover_the_dir: what a round of the scan does at each entry of a directory cluster.
-/
namespace Frecov

variable {σ : Type}

section Code

structure DirCluster extends Cluster where
  entries : Nat
  whole : size = 32 * entries
  small : size < 2 ^ 24

inductive Round (σ : Type) where
  | stop (s : Progress σ)
  | go (i : Nat) (s : Progress σ)

/-- The body of the loop in recover_the_dir over the first `cluSize` bytes of what can be read; the
    entry size is multiplied in twice. -/
def dirRound (pic : Recovery σ) (cluster : Cluster) (cluSize i : Nat) (s : Progress σ) :
    Option (Round σ) :=
  if i < cluSize then do
    let entry ← cluster.entry i
    if entry.dirName0 = 0 then return .stop s
    else if entry.dirName0 = 0xe5 then return .go (u32 (i + 32)) s
    else if entry.dirAttr = 0x0f then
      let remainDir := u32 (cluSize + (2 ^ 32 - u32 (i * 32)))
      let (skip, s) ← recoverLongNameFile pic cluster i entry remainDir s
      return .go (u32 (u32 (i + skip) + 32)) s
    else
      let (skip, s) := recoverShortNameFile pic i entry s
      return .go (u32 (u32 (i + skip) + 32)) s
  else some (.stop s)

inductive ScanFault where
  | outside
  | rounds

def recoverTheDirLoop (pic : Recovery σ) (cluster : Cluster) (cluSize : Nat) :
    Nat → Nat → Progress σ → Except ScanFault (Progress σ)
  | 0, _, _ => .error .rounds
  | rounds + 1, i, s =>
    match dirRound pic cluster cluSize i s with
    | none => .error .outside
    | some (.stop s) => .ok s
    | some (.go i s) => recoverTheDirLoop pic cluster cluSize rounds i s

/-- recover_the_dir, with a round for each entry and one to end. -/
def recoverTheDir (pic : Recovery σ) (cluster : DirCluster) (s : Progress σ) :
    Except ScanFault (Progress σ) :=
  recoverTheDirLoop pic cluster.toCluster cluster.size (cluster.entries + 1) 0 s

end Code

section AnySize

variable {pic : Recovery σ} {cluster : Cluster} {cluSize i i' p rounds skip : Nat} {entry : Entry}
  {remainDir : Nat} {s s' : Progress σ}

def Continues (pic : Recovery σ) (s s' : Progress σ) : Prop :=
  s' = s ∨ ∃ h, s' = (s.hand pic h).2

theorem low_half_small (ord : UInt8) : (ord &&& 0x0f).toNat < 16 := by
  rw [UInt8.toNat_and]
  exact Nat.and_lt_two_pow _ (by decide : _ < 2 ^ 4)

theorem recover_long_step
    (ran : recoverLongNameFile pic cluster p entry remainDir s = some (skip, s')) :
    skip < 512 ∧ Continues pic s s' := by
  have few := low_half_small entry.ord
  unfold recoverLongNameFile at ran
  dsimp only at ran
  split at ran
  · split at ran
    · cases ran
      exact ⟨by omega, .inl rfl⟩
    · obtain ⟨fileName, _, ran⟩ := Option.bind_eq_some_iff.mp ran
      obtain ⟨sfn, _, ran⟩ := Option.bind_eq_some_iff.mp ran
      split at ran
      · cases ran
        exact ⟨by omega, .inr ⟨_, rfl⟩⟩
      · cases ran
        exact ⟨by omega, .inr ⟨_, rfl⟩⟩
  · cases ran
    exact ⟨by decide, .inl rfl⟩

theorem dir_round_goes (small : cluSize < 2 ^ 24)
    (went : dirRound pic cluster cluSize i s = some (.go i' s')) :
    i + 32 ≤ i' ∧ Continues pic s s' := by
  unfold dirRound at went
  split at went
  · rename_i inside
    obtain ⟨entry, _, went⟩ := Option.bind_eq_some_iff.mp went
    split at went
    · cases went
    · split at went
      · cases went
        rw [u32_small (by omega)]
        exact ⟨Nat.le_refl _, .inl rfl⟩
      · split at went
        · obtain ⟨⟨skip, mid⟩, ran, went⟩ := Option.bind_eq_some_iff.mp went
          obtain ⟨short, handed⟩ := recover_long_step ran
          cases went
          rw [u32_small (v := i + skip) (by omega), u32_small (by omega)]
          exact ⟨by omega, handed⟩
        · cases went
          rw [u32_small (v := i + 0) (by omega), u32_small (by omega)]
          exact ⟨Nat.le_refl _, .inr ⟨_, rfl⟩⟩
  · cases went

theorem dir_round_stops (stopped : dirRound pic cluster cluSize i s = some (.stop s')) :
    s' = s := by
  unfold dirRound at stopped
  split at stopped
  · obtain ⟨entry, _, stopped⟩ := Option.bind_eq_some_iff.mp stopped
    split at stopped
    · cases stopped
      rfl
    · split at stopped
      · cases stopped
      · split at stopped
        · obtain ⟨_, _, stopped⟩ := Option.bind_eq_some_iff.mp stopped
          cases stopped
        · cases stopped
  · cases stopped
    rfl

/-- The offset grows by an entry in every round, so the rounds do not run out. -/
theorem loop_ends (small : cluSize < 2 ^ 24) (enough : cluSize ≤ i + 32 * rounds) :
    recoverTheDirLoop pic cluster cluSize (rounds + 1) i s ≠ .error .rounds := by
  induction rounds generalizing i s with
  | zero =>
    rw [recoverTheDirLoop, dirRound, if_neg (by omega)]
    simp
  | succ rounds ih =>
    rw [recoverTheDirLoop]
    cases went : dirRound pic cluster cluSize i s with
    | none => simp
    | some round =>
      cases round with
      | stop => simp
      | go i' s' =>
        have later := (dir_round_goes small went).1
        exact ih (by omega)

theorem loop_keeps {P : σ → Prop} (small : cluSize < 2 ^ 24)
    (kept : ∀ state cluNum fileName, P state → P (pic state cluNum fileName).2)
    (holds : P s.state) (ran : recoverTheDirLoop pic cluster cluSize rounds i s = .ok s') :
    P s'.state := by
  induction rounds generalizing i s with
  | zero => cases ran
  | succ rounds ih =>
    rw [recoverTheDirLoop] at ran
    cases went : dirRound pic cluster cluSize i s with
    | none =>
      rw [went] at ran
      cases ran
    | some round =>
      rw [went] at ran
      cases round with
      | stop mid =>
        cases ran
        rw [dir_round_stops went]
        exact holds
      | go i' mid =>
        rcases (dir_round_goes small went).2 with same | ⟨h, same⟩
        · exact ih (same ▸ holds) ran
        · exact ih (same ▸ kept _ _ _ holds) ran

end AnySize

section Contents

variable (cluster : DirCluster)

def DirCluster.at (k : Nat) : Entry := fun b => cluster.bytes (32 * k + b)

/-- Entry `k` is in the cluster, and no entry up to it is free with all behind it. -/
def Live (k : Nat) : Prop := k < cluster.entries ∧ ∀ j, j ≤ k → (cluster.at j).dirName0 ≠ 0

structure Short (k : Nat) : Prop where
  live : Live cluster k
  kept : (cluster.at k).dirName0 ≠ 0xe5
  short : (cluster.at k).dirAttr ≠ 0x0f

structure Group (k n : Nat) : Prop where
  some_entry : 0 < n
  few : n ≤ 20
  long : ∀ j, j < n → (cluster.at (k + j)).dirAttr = 0x0f
  ord : ∀ j, j < n → (cluster.at (k + j)).ord = groupOrd n j
  sfn : Short cluster (k + n)

def Lone (k : Nat) : Prop := Short cluster k ∧ ∀ j n, Group cluster j n → k ≠ j + n

/-- The entry recover_long_name_file takes for the first of a group. -/
structure Heads (k : Nat) : Prop where
  inside : k < cluster.entries
  used : (cluster.at k).dirName0 ≠ 0
  kept : (cluster.at k).dirName0 ≠ 0xe5
  long : (cluster.at k).dirAttr = 0x0f
  first : (cluster.at k).ord &&& 0x40 ≠ 0

def entryCnt (k : Nat) : Nat := ((cluster.at k).ord &&& 0x0f).toNat

/-- The remaining size at entry `k` is below that of `n` long entries and a short one. It is
    computed from 32 times the offset, and huge once that passes the cluster size. -/
def Refused (k n : Nat) : Prop := 32 * k ≤ cluster.entries ∧ cluster.entries < 32 * k + n + 1

instance (k n : Nat) : Decidable (Refused cluster k n) := instDecidableAnd

def recovered (pic : Recovery σ) (k n : Nat) (s : Progress σ) : Bool :=
  match getLongFillName cluster.toCluster (32 * k) n, cluster.entry (32 * k + 32 * n) with
  | some fileName, some sfn => (pic s.state sfn.fstClus fileName).1
  | _, _ => false

def landing (pic : Recovery σ) (k : Nat) (s : Progress σ) : Nat :=
  if Refused cluster k (entryCnt cluster k) then k + (cluster.entries - 32 * k) + 1
  else if recovered cluster pic k (entryCnt cluster k) s then k + entryCnt cluster k + 1
  else k + 1

inductive Reached (pic : Recovery σ) (state : σ) : Nat → Progress σ → Prop
  | start : Reached pic state 0 ⟨state, []⟩
  | round {k k' : Nat} {s s' : Progress σ} (before : Reached pic state k s)
      (went : dirRound pic cluster.toCluster cluster.size (32 * k) s = some (.go (32 * k') s')) :
      Reached pic state k' s'

/-- A whole group of at most 15 long entries is not refused and its picture recovered. -/
def GroupKept (pic : Recovery σ) (k n : Nat) (s : Progress σ) : Prop :=
  n ≤ 15 ∧ ¬Refused cluster k n ∧ recovered cluster pic k n s

/-- An entry that heads no whole group names no short entry, and the scan jumps past none and past
    no group. -/
structure StrayHarmless (pic : Recovery σ) (k : Nat) (s : Progress σ) : Prop where
  inside : ¬Refused cluster k (entryCnt cluster k) → k + entryCnt cluster k < cluster.entries
  other : ¬Refused cluster k (entryCnt cluster k) → ¬Short cluster (k + entryCnt cluster k)
  passes : ∀ j, k < j → j < landing cluster pic k s → ¬Short cluster j ∧ ∀ n, ¬Group cluster j n

def Sound (pic : Recovery σ) (k : Nat) (s : Progress σ) : Prop :=
  Heads cluster k → (∀ n, Group cluster k n → GroupKept cluster pic k n s) ∧
    ((∀ n, ¬Group cluster k n) → StrayHarmless cluster pic k s)

def startsOf (handed : List Handed) (q : Nat) : List Nat :=
  (handed.filter (fun h => h.sfn = q)).map Handed.start

/-- Every short entry was handed on once, with its long entries where it has some. -/
structure HandedOnce (handed : List Handed) : Prop where
  lone : ∀ k, Lone cluster k → startsOf handed (32 * k) = [32 * k]
  group : ∀ k n, Group cluster k n → startsOf handed (32 * (k + n)) = [32 * k]

/-- The scan ends, reads nothing outside of the cluster, and hands every entry on once. -/
def ScansWhole (pic : Recovery σ) (state : σ) : Prop :=
  ∃ s, recoverTheDir pic cluster ⟨state, []⟩ = .ok s ∧ HandedOnce cluster s.handed

end Contents

section Rounds

variable {pic : Recovery σ} {cluster : DirCluster} {k : Nat} {s : Progress σ}

theorem entry_at (inside : k < cluster.entries) :
    cluster.entry (32 * k) = some (cluster.at k) := by
  have size := cluster.whole
  exact entry_inside (by omega)

theorem round_end (outside : cluster.entries ≤ k) :
    dirRound pic cluster.toCluster cluster.size (32 * k) s = some (.stop s) := by
  have size := cluster.whole
  rw [dirRound, if_neg (by omega)]

theorem round_free (inside : k < cluster.entries) (free : (cluster.at k).dirName0 = 0) :
    dirRound pic cluster.toCluster cluster.size (32 * k) s = some (.stop s) := by
  have size := cluster.whole
  rw [dirRound, if_pos (by omega), entry_at inside]
  simp only [Option.bind_eq_bind, Option.bind_some, if_pos free, Option.pure_def]

theorem next_offset (inside : k < cluster.entries) : u32 (32 * k + 32) = 32 * (k + 1) := by
  have size := cluster.whole
  have small := cluster.small
  rw [u32_small (by omega)]
  omega

theorem round_deleted (inside : k < cluster.entries)
    (deleted : (cluster.at k).dirName0 = 0xe5) :
    dirRound pic cluster.toCluster cluster.size (32 * k) s = some (.go (32 * (k + 1)) s) := by
  have size := cluster.whole
  have used : ¬(cluster.at k).dirName0 = 0 := by
    rw [deleted]
    decide
  rw [dirRound, if_pos (by omega), entry_at inside]
  simp only [Option.bind_eq_bind, Option.bind_some, if_neg used, if_pos deleted, Option.pure_def,
    next_offset inside]

theorem offset_behind (cluster : DirCluster) {k m : Nat} (inside : k + m ≤ 32 * cluster.entries) :
    u32 (u32 (32 * k + 32 * m) + 32) = 32 * (k + m + 1) := by
  have size := cluster.whole
  have small := cluster.small
  have first : u32 (32 * k + 32 * m) = 32 * k + 32 * m := u32_small (by omega)
  rw [first, u32_small (by omega)]
  omega

def shortHanded (cluster : DirCluster) (k : Nat) : Handed :=
  ⟨32 * k, 32 * k, getShortFillName (cluster.at k), (cluster.at k).fstClus⟩

theorem round_short (inside : k < cluster.entries) (used : (cluster.at k).dirName0 ≠ 0)
    (kept : (cluster.at k).dirName0 ≠ 0xe5) (short : (cluster.at k).dirAttr ≠ 0x0f) :
    dirRound pic cluster.toCluster cluster.size (32 * k) s =
      some (.go (32 * (k + 1)) (s.hand pic (shortHanded cluster k)).2) := by
  have size := cluster.whole
  have next : u32 (u32 (32 * k + 32 * 0) + 32) = 32 * (k + 0 + 1) := offset_behind cluster (by omega)
  rw [dirRound, if_pos (by omega), entry_at inside]
  simp only [Option.bind_eq_bind, Option.bind_some, if_neg used, if_neg kept, if_neg short,
    Option.pure_def]
  exact congrArg (fun i => some (Round.go i (s.hand pic (shortHanded cluster k)).2)) next

/-- The remaining size for entry `k`, which is less than the true one or wraps around. -/
theorem remain_dir (inside : k < cluster.entries) :
    (32 * k ≤ cluster.entries ∧
      u32 (cluster.size + (2 ^ 32 - u32 (32 * k * 32))) = 32 * (cluster.entries - 32 * k)) ∨
    (cluster.entries < 32 * k ∧
      2 ^ 31 ≤ u32 (cluster.size + (2 ^ 32 - u32 (32 * k * 32)))) := by
  have size := cluster.whole
  have small := cluster.small
  have product : u32 (32 * k * 32) = 32 * k * 32 := u32_small (by omega)
  rw [product]
  unfold u32
  by_cases ahead : 32 * k ≤ cluster.entries
  · exact .inl ⟨ahead, by omega⟩
  · exact .inr ⟨by omega, by omega⟩

theorem round_long (inside : k < cluster.entries) (used : (cluster.at k).dirName0 ≠ 0)
    (kept : (cluster.at k).dirName0 ≠ 0xe5) (long : (cluster.at k).dirAttr = 0x0f) :
    dirRound pic cluster.toCluster cluster.size (32 * k) s =
      (recoverLongNameFile pic cluster.toCluster (32 * k) (cluster.at k)
        (u32 (cluster.size + (2 ^ 32 - u32 (32 * k * 32)))) s).map
          fun (skip, s) => .go (u32 (u32 (32 * k + skip) + 32)) s := by
  have size := cluster.whole
  rw [dirRound, if_pos (by omega), entry_at inside]
  simp only [Option.bind_eq_bind, Option.bind_some, if_neg used, if_neg kept, if_pos long,
    Option.pure_def]
  exact (Option.map_eq_bind ..).symm

theorem round_inner (inside : k < cluster.entries) (used : (cluster.at k).dirName0 ≠ 0)
    (kept : (cluster.at k).dirName0 ≠ 0xe5) (long : (cluster.at k).dirAttr = 0x0f)
    (inner : (cluster.at k).ord &&& 0x40 = 0) :
    dirRound pic cluster.toCluster cluster.size (32 * k) s = some (.go (32 * (k + 1)) s) := by
  have next : u32 (u32 (32 * k + 32 * 0) + 32) = 32 * (k + 0 + 1) := offset_behind cluster (by omega)
  rw [round_long inside used kept long, recoverLongNameFile, if_neg (not_not.mpr inner)]
  exact congrArg (fun i => some (Round.go i s)) next

theorem entry_cnt_small (cluster : DirCluster) (k : Nat) : entryCnt cluster k < 16 :=
  low_half_small _

theorem refused_iff (inside : k < cluster.entries) {n : Nat} (few : n < 16) :
    u32 (cluster.size + (2 ^ 32 - u32 (32 * k * 32))) < (n + 1) * 32 ↔ Refused cluster k n := by
  unfold Refused
  rcases remain_dir inside with ⟨ahead, value⟩ | ⟨behind, huge⟩
  · rw [value]
    omega
  · omega

theorem round_refused (heads : Heads cluster k)
    (refused : Refused cluster k (entryCnt cluster k)) :
    dirRound pic cluster.toCluster cluster.size (32 * k) s =
      some (.go (32 * (k + (cluster.entries - 32 * k) + 1)) s) := by
  have inside := heads.inside
  have below := (refused_iff inside (entry_cnt_small cluster k)).mpr refused
  rcases remain_dir inside with ⟨ahead, value⟩ | ⟨behind, _⟩
  · have next : u32 (u32 (32 * k + 32 * (cluster.entries - 32 * k)) + 32) =
        32 * (k + (cluster.entries - 32 * k) + 1) := offset_behind cluster (by omega)
    rw [round_long inside heads.used heads.kept heads.long, recoverLongNameFile,
      if_pos heads.first]
    dsimp only
    rw [← entryCnt, if_pos below, value]
    exact congrArg (fun i => some (Round.go i s)) next
  · exact absurd refused.1 (Nat.not_le_of_lt behind)

theorem long_fill_some {n : Nat} (inside : k + n ≤ cluster.entries) :
    ∃ chars, longFillLoop cluster.toCluster (32 * k) n = some chars ∧ chars.length = 13 * n := by
  induction n with
  | zero => exact ⟨[], rfl, rfl⟩
  | succ n ih =>
    obtain ⟨chars, filled, length⟩ := ih (by omega)
    have read : cluster.entry (32 * (k + n)) = some (cluster.at (k + n)) :=
      entry_at (by omega)
    rw [Nat.mul_add] at read
    refine ⟨(cluster.at (k + n)).units.map UInt8.ofNat ++ chars, ?_, ?_⟩
    · rw [longFillLoop, read, filled]
      rfl
    · rw [List.length_append, length]
      simp [Entry.units]
      omega

theorem get_long_fill_name_some {n : Nat} (inside : k + n ≤ cluster.entries) (few : n < 16) :
    ∃ fileName, getLongFillName cluster.toCluster (32 * k) n = some fileName := by
  obtain ⟨chars, filled, length⟩ := long_fill_some inside
  refine ⟨chars ++ [0], ?_⟩
  rw [getLongFillName, filled]
  exact if_pos (by rw [length, fileNameSize]; omega)

theorem round_accepted (pic : Recovery σ) (s : Progress σ) (heads : Heads cluster k)
    (kept : ¬Refused cluster k (entryCnt cluster k))
    (whole : k + entryCnt cluster k < cluster.entries) :
    ∃ h : Handed, h.start = 32 * k ∧ h.sfn = 32 * (k + entryCnt cluster k) ∧
      (s.hand pic h).1 = recovered cluster pic k (entryCnt cluster k) s ∧
      dirRound pic cluster.toCluster cluster.size (32 * k) s =
        some (.go (32 * landing cluster pic k s) (s.hand pic h).2) := by
  have inside := heads.inside
  have few := entry_cnt_small cluster k
  have above := (refused_iff inside few).not.mpr kept
  obtain ⟨fileName, filled⟩ := get_long_fill_name_some (Nat.le_of_lt whole) few
  have read : cluster.entry (32 * (k + entryCnt cluster k)) = some _ := entry_at whole
  rw [Nat.mul_add] at read
  obtain ⟨h, picture⟩ : ∃ h : Handed, h = ⟨32 * k, 32 * k + 32 * entryCnt cluster k, fileName,
    (cluster.at (k + entryCnt cluster k)).fstClus⟩ := ⟨_, rfl⟩
  have found : (s.hand pic h).1 = recovered cluster pic k (entryCnt cluster k) s := by
    rw [recovered, filled, read, picture]
    rfl
  refine ⟨h, ?_, ?_, found, ?_⟩
  · rw [picture]
  · rw [picture, Nat.mul_add]
  · rw [round_long inside heads.used heads.kept heads.long, recoverLongNameFile,
      if_pos heads.first]
    dsimp only
    rw [← entryCnt, if_neg above, filled, read]
    simp only [Option.bind_eq_bind, Option.bind_some]
    rw [← picture, found, landing, if_neg kept]
    split
    · have next : u32 (u32 (32 * k + 32 * entryCnt cluster k) + 32) =
          32 * (k + entryCnt cluster k + 1) := offset_behind cluster (by omega)
      rw [Nat.mul_comm (entryCnt cluster k) 32]
      exact congrArg (fun i => some (Round.go i (s.hand pic h).2)) next
    · have next : u32 (u32 (32 * k + 32 * 0) + 32) = 32 * (k + 0 + 1) :=
        offset_behind cluster (by omega)
      exact congrArg (fun i => some (Round.go i (s.hand pic h).2)) next

theorem round_outside (heads : Heads cluster k)
    (kept : ¬Refused cluster k (entryCnt cluster k))
    (outside : cluster.entries ≤ k + entryCnt cluster k) :
    dirRound pic cluster.toCluster cluster.size (32 * k) s = none := by
  have size := cluster.whole
  have inside := heads.inside
  have above := (refused_iff inside (entry_cnt_small cluster k)).not.mpr kept
  have unread : cluster.entry (32 * k + 32 * entryCnt cluster k) = none := if_neg (by omega)
  rw [round_long inside heads.used heads.kept heads.long, recoverLongNameFile, if_pos heads.first]
  dsimp only
  rw [← entryCnt, if_neg above, unread]
  cases getLongFillName cluster.toCluster (32 * k) (entryCnt cluster k) <;> rfl

inductive RoundIs (pic : Recovery σ) (cluster : DirCluster) (k : Nat) (s : Progress σ) :
    Option (Round σ) → Prop
  | stop (stops : k < cluster.entries → (cluster.at k).dirName0 = 0) :
      RoundIs pic cluster k s (some (.stop s))
  | pass (inside : k < cluster.entries) (other : ¬Short cluster k) (inner : ¬Heads cluster k) :
      RoundIs pic cluster k s (some (.go (32 * (k + 1)) s))
  | short (inside : k < cluster.entries) (short : (cluster.at k).dirAttr ≠ 0x0f) :
      RoundIs pic cluster k s
        (some (.go (32 * (k + 1)) (s.hand pic (shortHanded cluster k)).2))
  | refused (heads : Heads cluster k) (refused : Refused cluster k (entryCnt cluster k)) :
      RoundIs pic cluster k s (some (.go (32 * landing cluster pic k s) s))
  | outside (heads : Heads cluster k) (kept : ¬Refused cluster k (entryCnt cluster k))
      (outside : cluster.entries ≤ k + entryCnt cluster k) : RoundIs pic cluster k s none
  | accepted (heads : Heads cluster k) (kept : ¬Refused cluster k (entryCnt cluster k))
      (whole : k + entryCnt cluster k < cluster.entries) (h : Handed) (start : h.start = 32 * k)
      (sfn : h.sfn = 32 * (k + entryCnt cluster k)) :
      RoundIs pic cluster k s (some (.go (32 * landing cluster pic k s) (s.hand pic h).2))

theorem round_is (pic : Recovery σ) (cluster : DirCluster) (k : Nat) (s : Progress σ) :
    RoundIs pic cluster k s (dirRound pic cluster.toCluster cluster.size (32 * k) s) := by
  by_cases inside : k < cluster.entries
  · by_cases free : (cluster.at k).dirName0 = 0
    · rw [round_free inside free]
      exact .stop fun _ => free
    · by_cases deleted : (cluster.at k).dirName0 = 0xe5
      · rw [round_deleted inside deleted]
        exact .pass inside (fun entry => entry.kept deleted) (fun heads => heads.kept deleted)
      · by_cases long : (cluster.at k).dirAttr = 0x0f
        · by_cases inner : (cluster.at k).ord &&& 0x40 = 0
          · rw [round_inner inside free deleted long inner]
            exact .pass inside (fun entry => entry.short long) (fun heads => heads.first inner)
          · have heads : Heads cluster k := ⟨inside, free, deleted, long, inner⟩
            by_cases refused : Refused cluster k (entryCnt cluster k)
            · have there : landing cluster pic k s = k + (cluster.entries - 32 * k) + 1 :=
                if_pos refused
              rw [round_refused heads refused, ← there]
              exact .refused heads refused
            · by_cases whole : k + entryCnt cluster k < cluster.entries
              · obtain ⟨h, start, sfn, _, went⟩ :=
                  round_accepted pic s heads refused whole
                rw [went]
                exact .accepted heads refused whole h start sfn
              · rw [round_outside heads refused (Nat.le_of_not_lt whole)]
                exact .outside heads refused (Nat.le_of_not_lt whole)
        · rw [round_short inside free deleted long]
          exact .short inside long
  · rw [round_end (Nat.le_of_not_lt inside)]
    exact .stop fun inside' => absurd inside' inside

theorem landing_later (cluster : DirCluster) (pic : Recovery σ) (k : Nat) (s : Progress σ) :
    k < landing cluster pic k s := by
  unfold landing
  split
  · omega
  · split <;> omega

theorem round_goes {i : Nat} {s' : Progress σ}
    (went : dirRound pic cluster.toCluster cluster.size (32 * k) s = some (.go i s')) :
    ∃ k' new, i = 32 * k' ∧ k < k' ∧ s'.handed = s.handed ++ new ∧
      ∀ h ∈ new, h.start = 32 * k := by
  have cases := round_is pic cluster k s
  rw [went] at cases
  have later := landing_later cluster pic k s
  cases cases with
  | pass => exact ⟨k + 1, [], rfl, Nat.lt_succ_self k, (List.append_nil _).symm, by simp⟩
  | short => exact ⟨k + 1, [shortHanded cluster k], rfl, Nat.lt_succ_self k, rfl, by simp [shortHanded]⟩
  | refused => exact ⟨_, [], rfl, later, (List.append_nil _).symm, by simp⟩
  | accepted _ _ _ h start _ => exact ⟨_, [h], rfl, later, rfl, by simp [start]⟩

end Rounds

end Frecov
