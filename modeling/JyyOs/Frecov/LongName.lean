import JyyOs.Frecov.Header
import Mathlib.Data.List.Basic

/-!
Directory entries of frecov.c and the names in them. A cluster is its bytes, and `none` is a read
outside of it or a write behind a buffer. What becomes of a picture is a function of the state the
recovery is in, the first cluster and the name.
-/
namespace Frecov

section Entries

structure Cluster where
  size : Nat
  bytes : Nat → UInt8

/-- The bytes of a directory entry, which is read as a struct fat32dent or a struct longentry. -/
abbrev Entry := Nat → UInt8

def Entry.dirName0 (e : Entry) : UInt8 := e 0

def Entry.dirAttr (e : Entry) : UInt8 := e 11

def Entry.fstClus (e : Entry) : Nat := le16 e 20 * 2 ^ 16 + le16 e 26

def Entry.ord (e : Entry) : UInt8 := e 0

def Entry.units (e : Entry) : List Nat :=
  (List.range 5).map (fun i => le16 e (1 + 2 * i)) ++
    (List.range 6).map (fun i => le16 e (14 + 2 * i)) ++
      (List.range 2).map (fun i => le16 e (28 + 2 * i))

def Cluster.entry (cluster : Cluster) (p : Nat) : Option Entry :=
  if p + 32 ≤ cluster.size then some (fun k => cluster.bytes (p + k)) else none

end Entries

section Names

def longFillLoop (cluster : Cluster) (entry : Nat) : Nat → Option (List UInt8)
  | 0 => some []
  | j + 1 => do
    let curDir ← cluster.entry (entry + 32 * j)
    let rest ← longFillLoop cluster entry j
    return curDir.units.map UInt8.ofNat ++ rest

def fileNameSize : Nat := 256

def getLongFillName (cluster : Cluster) (entry entryCnt : Nat) : Option (List UInt8) := do
  let chars ← longFillLoop cluster entry entryCnt
  if chars.length < fileNameSize then some (chars ++ [0]) else none

/-- get_short_fill_name, which puts no NUL behind the extension. -/
def getShortFillName (e : Entry) : List UInt8 :=
  (List.range 8).map e ++ [46] ++ (List.range 3).map (fun i => e (8 + i))

def cString (buffer : List UInt8) : List UInt8 := buffer.takeWhile (· ≠ 0)

structure Handed where
  start : Nat
  sfn : Nat
  fileName : List UInt8
  picCluNum : Nat

/-- get_pic_sha_num_and_print: whether it succeeds, and the state after it. -/
abbrev Recovery (σ : Type) := σ → Nat → List UInt8 → Bool × σ

variable {σ : Type}

structure Progress (σ : Type) where
  state : σ
  handed : List Handed

def Progress.hand (s : Progress σ) (pic : Recovery σ) (h : Handed) : Bool × Progress σ :=
  let (isSuccess, state) := pic s.state h.picCluNum h.fileName
  (isSuccess, { state, handed := s.handed ++ [h] })

def recoverShortNameFile (pic : Recovery σ) (p : Nat) (entry : Entry) (s : Progress σ) :
    Nat × Progress σ :=
  let (_, s) := s.hand pic ⟨p, p, getShortFillName entry, entry.fstClus⟩
  (0, s)

def recoverLongNameFile (pic : Recovery σ) (cluster : Cluster) (p : Nat) (entry : Entry)
    (remainDir : Nat) (s : Progress σ) : Option (Nat × Progress σ) :=
  if entry.ord &&& 0x40 ≠ 0 then
    let entryCnt := (entry.ord &&& 0x0f).toNat
    if remainDir < (entryCnt + 1) * 32 then some (remainDir, s)
    else do
      let fileName ← getLongFillName cluster p entryCnt
      let sfn ← cluster.entry (p + 32 * entryCnt)
      let (isSuccess, s) := s.hand pic ⟨p, p + 32 * entryCnt, fileName, sfn.fstClus⟩
      if isSuccess then return (entryCnt * 32, s) else return (0, s)
  else some (0, s)

end Names

section Encoding

/-- The units a name is stored in: its characters, a NUL, and 0xFFFF up to the end. -/
def nameUnit (name : List UInt8) (k : Nat) : Nat :=
  if k < name.length then (name.getD k 0).toNat else if k = name.length then 0 else 0xffff

def nameEntries (name : List UInt8) : Nat := (name.length + 12) / 13

def groupOrd (count j : Nat) : UInt8 :=
  if j = 0 then UInt8.ofNat (count ||| 0x40) else UInt8.ofNat (count - j)

structure Stored (cluster : Cluster) (p : Nat) (name : List UInt8) : Prop where
  inside : p + 32 * (nameEntries name + 1) ≤ cluster.size
  ord : ∀ j, j < nameEntries name →
    cluster.bytes (p + 32 * j) = groupOrd (nameEntries name) j
  units : ∀ j e, j < nameEntries name → cluster.entry (p + 32 * j) = some e →
    e.units = (List.range' (13 * (nameEntries name - 1 - j)) 13).map (nameUnit name)

/-- The entries are counted right, and the picture is handed on under the name, with the first
    cluster of the short entry. -/
def DecodesName (pic : Recovery σ) (cluster : Cluster) (p remainDir : Nat) (name : List UInt8)
    (s : Progress σ) : Prop :=
  ∃ entry sfn ret s' h, cluster.entry p = some entry ∧
    cluster.entry (p + 32 * nameEntries name) = some sfn ∧
    recoverLongNameFile pic cluster p entry remainDir s = some (ret, s') ∧
    s'.handed = s.handed ++ [h] ∧ h.sfn = p + 32 * nameEntries name ∧
    cString h.fileName = name ∧ h.picCluNum = sfn.fstClus

variable {cluster : Cluster} {p : Nat} {name : List UInt8}

theorem group_ord_bits {count : Nat} (some_entry : 0 < count) (few : count ≤ 20) :
    groupOrd count 0 &&& 0x40 ≠ 0 ∧ (groupOrd count 0 &&& 0x0f).toNat = count % 16 := by
  have all : ∀ c : Fin 21, 0 < c.val → groupOrd c 0 &&& 0x40 ≠ 0 ∧
      (groupOrd c 0 &&& 0x0f).toNat = c % 16 := by decide
  exact all ⟨count, by omega⟩ some_entry

theorem entry_inside (inside : p + 32 ≤ cluster.size) :
    cluster.entry p = some fun k => cluster.bytes (p + k) := if_pos inside

theorem long_fill_units (stored : Stored cluster p name) (j : Nat) (few : j ≤ nameEntries name) :
    longFillLoop cluster p j = some
      (((List.range' (13 * (nameEntries name - j)) (13 * j)).map (nameUnit name)).map
        UInt8.ofNat) := by
  induction j with
  | zero => rfl
  | succ j ih =>
    have inside := stored.inside
    have read : cluster.entry (p + 32 * j) = some _ := entry_inside (by omega)
    have block := stored.units j _ few read
    have first : nameEntries name - (j + 1) = nameEntries name - 1 - j := by omega
    have next : 13 * (nameEntries name - j) = 13 * (nameEntries name - 1 - j) + 13 := by omega
    have parts : 13 * (j + 1) = 13 + 13 * j := by omega
    rw [longFillLoop, read, ih (Nat.le_of_succ_le few), first, next, parts, ← List.range'_append_1,
      List.map_append, List.map_append, ← block]
    rfl

theorem name_units_front (name : List UInt8) :
    ((List.range name.length).map (nameUnit name)).map UInt8.ofNat = name := by
  apply List.ext_getElem
  · simp
  · intro i _ inside
    simp [nameUnit, inside]

theorem name_units_string (real : ∀ b ∈ name, b ≠ 0) (total : Nat)
    (room : name.length ≤ total) :
    cString (((List.range total).map (nameUnit name)).map UInt8.ofNat ++ [0]) = name := by
  obtain ⟨pad, rfl⟩ := Nat.exists_eq_add_of_le room
  have all : ∀ b ∈ name, decide (b ≠ 0) = true := fun b mem => decide_eq_true (real b mem)
  rw [List.range_add, List.map_append, List.map_append, name_units_front, List.append_assoc,
    cString, List.takeWhile_append_of_pos all]
  cases pad with
  | zero => simp
  | succ pad => simp [List.range_succ_eq_map, nameUnit]

theorem name_entries_bounds (name : List UInt8) :
    name.length ≤ 13 * nameEntries name ∧ 13 * nameEntries name < name.length + 13 := by
  unfold nameEntries
  omega

theorem get_long_fill_name_stored (stored : Stored cluster p name) (few : nameEntries name ≤ 15) :
    getLongFillName cluster p (nameEntries name) = some
      (((List.range (13 * nameEntries name)).map (nameUnit name)).map UInt8.ofNat ++ [0]) := by
  have filled := long_fill_units stored (nameEntries name) (Nat.le_refl _)
  rw [Nat.sub_self, Nat.mul_zero, ← List.range_eq_range'] at filled
  have fits : (((List.range (13 * nameEntries name)).map (nameUnit name)).map
      UInt8.ofNat).length < fileNameSize := by
    rw [List.length_map, List.length_map, List.length_range, fileNameSize]
    omega
  simp only [getLongFillName, filled, Option.bind_eq_bind, Option.bind_some, if_pos fits]

theorem recover_long_group (pic : Recovery σ) (cluster : Cluster) (p : Nat) (entry : Entry)
    {count remainDir : Nat} (s : Progress σ) (ord : entry.ord = groupOrd count 0) (some_entry : 0 < count)
    (few : count ≤ 20) (room : ¬remainDir < (count % 16 + 1) * 32) :
    recoverLongNameFile pic cluster p entry remainDir s = do
      let fileName ← getLongFillName cluster p (count % 16)
      let sfn ← cluster.entry (p + 32 * (count % 16))
      let (isSuccess, s) := s.hand pic ⟨p, p + 32 * (count % 16), fileName, sfn.fstClus⟩
      if isSuccess then return (count % 16 * 32, s) else return (0, s) := by
  obtain ⟨first, masked⟩ := group_ord_bits some_entry few
  rw [recoverLongNameFile, ord, if_pos first]
  dsimp only
  rw [masked, if_neg room]

theorem hand_handed (pic : Recovery σ) (s : Progress σ) (h : Handed) :
    (s.hand pic h).2.handed = s.handed ++ [h] := rfl

section Decode

variable {pic : Recovery σ} {remainDir : Nat} {s : Progress σ}

theorem decoded_name_short (some_name : name ≠ []) (short : name.length ≤ 255)
    (stored : Stored cluster p name) (room : 32 * (nameEntries name + 1) ≤ remainDir)
    (decodes : DecodesName pic cluster p remainDir name s) : name.length ≤ 195 := by
  have bounds := name_entries_bounds name
  have some_char : 0 < name.length := List.length_pos_iff.mpr some_name
  have some_entry : 0 < nameEntries name := by omega
  obtain ⟨entry, sfn, ret, s', h, read, _, ran, handed, at_sfn, _⟩ := decodes
  have inside := stored.inside
  rw [entry_inside (by omega)] at read
  cases read
  rw [recover_long_group pic cluster p (fun k => cluster.bytes (p + k)) s
    (stored.ord 0 some_entry) some_entry (by omega) (by omega)] at ran
  simp only [Option.bind_eq_bind, Option.bind_eq_some_iff] at ran
  obtain ⟨fileName, _, found, _, ran⟩ := ran
  have logged : s'.handed = s.handed ++
      [⟨p, p + 32 * (nameEntries name % 16), fileName, found.fstClus⟩] := by
    split at ran <;> cases ran <;> rfl
  rw [handed] at logged
  cases List.append_cancel_left logged
  dsimp only at at_sfn
  omega

theorem short_name_decoded (some_name : name ≠ []) (real : ∀ b ∈ name, b ≠ 0)
    (stored : Stored cluster p name) (room : 32 * (nameEntries name + 1) ≤ remainDir)
    (short : name.length ≤ 195) : DecodesName pic cluster p remainDir name s := by
  have bounds := name_entries_bounds name
  have some_char : 0 < name.length := List.length_pos_iff.mpr some_name
  have some_entry : 0 < nameEntries name := by omega
  have inside := stored.inside
  have read : cluster.entry p = some fun k => cluster.bytes (p + k) := entry_inside (by omega)
  have count : nameEntries name % 16 = nameEntries name := by omega
  have sfn_read : cluster.entry (p + 32 * nameEntries name) = some _ := entry_inside (by omega)
  have masked_room : ¬remainDir < (nameEntries name % 16 + 1) * 32 := by omega
  have runs := recover_long_group pic cluster p (fun k => cluster.bytes (p + k)) s
    (stored.ord 0 some_entry) some_entry (by omega) masked_room
  rw [count, get_long_fill_name_stored stored (by omega), sfn_read] at runs
  simp only [Option.bind_eq_bind, Option.bind_some] at runs
  have string := name_units_string real (13 * nameEntries name) (by omega)
  split at runs <;>
    exact ⟨_, _, _, _, _, read, sfn_read, runs, rfl, rfl, string, rfl⟩

end Decode

/-- A long name is read back exactly up to 195 characters, where its entries are at most 15. -/
theorem decodes_name_iff (pic : Recovery σ) (cluster : Cluster) (p remainDir : Nat)
    (name : List UInt8) (s : Progress σ) (some_name : name ≠ []) (short : name.length ≤ 255)
    (real : ∀ b ∈ name, b ≠ 0) (stored : Stored cluster p name)
    (room : 32 * (nameEntries name + 1) ≤ remainDir) :
    DecodesName pic cluster p remainDir name s ↔ name.length ≤ 195 :=
  ⟨decoded_name_short some_name short stored room,
    short_name_decoded some_name real stored room⟩

def unitByte (name : List UInt8) (unit half : Nat) : UInt8 :=
  UInt8.ofNat (if half = 0 then nameUnit name unit else nameUnit name unit / 256)

def storedByte (name : List UInt8) (first k : Nat) : UInt8 :=
  if k = 11 then 0x0f
  else if k < 11 then unitByte name (first + (k - 1) / 2) ((k - 1) % 2)
  else if k < 26 then unitByte name (first + 5 + (k - 14) / 2) ((k - 14) % 2)
  else unitByte name (first + 11 + (k - 28) / 2) ((k - 28) % 2)

def storeName (name : List UInt8) : Cluster where
  size := 32 * (nameEntries name + 1)
  bytes q :=
    if q / 32 < nameEntries name then
      if q % 32 = 0 then groupOrd (nameEntries name) (q / 32)
      else storedByte name (13 * (nameEntries name - 1 - q / 32)) (q % 32)
    else 0

theorem name_unit_small (name : List UInt8) (k : Nat) : nameUnit name k < 2 ^ 16 := by
  have byte := (name.getD k 0).toNat_lt
  unfold nameUnit
  split
  · omega
  · split <;> decide

theorem unit_of_bytes {e : Entry} {k unit : Nat} (low : e k = unitByte name unit 0)
    (high : e (k + 1) = unitByte name unit 1) : le16 e k = nameUnit name unit := by
  have small := name_unit_small name unit
  rw [le16, low, high, unitByte, unitByte, if_pos rfl, if_neg Nat.one_ne_zero,
    UInt8.toNat_ofNat', UInt8.toNat_ofNat']
  omega

theorem stored_name1 (name : List UInt8) (first : Nat) {i : Nat} (small : i < 5) :
    le16 (storedByte name first) (1 + 2 * i) = nameUnit name (first + i) := by
  apply unit_of_bytes
  · have half : (1 + 2 * i - 1) / 2 = i ∧ (1 + 2 * i - 1) % 2 = 0 := by omega
    rw [storedByte, if_neg (by omega), if_pos (by omega), half.1, half.2]
  · have half : (1 + 2 * i + 1 - 1) / 2 = i ∧ (1 + 2 * i + 1 - 1) % 2 = 1 := by omega
    rw [storedByte, if_neg (by omega), if_pos (by omega), half.1, half.2]

theorem stored_name2 (name : List UInt8) (first : Nat) {i : Nat} (small : i < 6) :
    le16 (storedByte name first) (14 + 2 * i) = nameUnit name (first + 5 + i) := by
  apply unit_of_bytes
  · have half : (14 + 2 * i - 14) / 2 = i ∧ (14 + 2 * i - 14) % 2 = 0 := by omega
    rw [storedByte, if_neg (by omega), if_neg (by omega), if_pos (by omega), half.1, half.2]
  · have half : (14 + 2 * i + 1 - 14) / 2 = i ∧ (14 + 2 * i + 1 - 14) % 2 = 1 := by omega
    rw [storedByte, if_neg (by omega), if_neg (by omega), if_pos (by omega), half.1, half.2]

theorem stored_name3 (name : List UInt8) (first : Nat) {i : Nat} (small : i < 2) :
    le16 (storedByte name first) (28 + 2 * i) = nameUnit name (first + 11 + i) := by
  apply unit_of_bytes
  · have half : (28 + 2 * i - 28) / 2 = i ∧ (28 + 2 * i - 28) % 2 = 0 := by omega
    rw [storedByte, if_neg (by omega), if_neg (by omega), if_neg (by omega), half.1, half.2]
  · have half : (28 + 2 * i + 1 - 28) / 2 = i ∧ (28 + 2 * i + 1 - 28) % 2 = 1 := by omega
    rw [storedByte, if_neg (by omega), if_neg (by omega), if_neg (by omega), half.1, half.2]

theorem stored_units (name : List UInt8) (first : Nat) :
    Entry.units (storedByte name first) = (List.range' first 13).map (nameUnit name) := by
  have name1 : (List.range 5).map (fun i => le16 (storedByte name first) (1 + 2 * i)) =
      (List.range' first 5).map (nameUnit name) := by
    rw [List.range'_eq_map_range, List.map_map]
    exact List.map_congr_left fun i mem => stored_name1 name first (List.mem_range.mp mem)
  have name2 : (List.range 6).map (fun i => le16 (storedByte name first) (14 + 2 * i)) =
      (List.range' (first + 5) 6).map (nameUnit name) := by
    rw [List.range'_eq_map_range, List.map_map]
    exact List.map_congr_left fun i mem => stored_name2 name first (List.mem_range.mp mem)
  have name3 : (List.range 2).map (fun i => le16 (storedByte name first) (28 + 2 * i)) =
      (List.range' (first + 11) 2).map (nameUnit name) := by
    rw [List.range'_eq_map_range, List.map_map]
    exact List.map_congr_left fun i mem => stored_name3 name first (List.mem_range.mp mem)
  rw [Entry.units, name1, name2, name3, ← List.map_append, ← List.map_append,
    List.range'_append_1, List.range'_append_1]

theorem units_congr {e e' : Entry} (same : ∀ k, 0 < k → k < 32 → e k = e' k) :
    e.units = e'.units := by
  have unit : ∀ k, 0 < k → k + 1 < 32 → le16 e k = le16 e' k := by
    intro k positive inside
    rw [le16, le16, same k positive (by omega), same (k + 1) (by omega) inside]
  have part : ∀ a b, 0 < a → a + 2 * b ≤ 32 →
      (List.range b).map (fun i => le16 e (a + 2 * i)) =
        (List.range b).map (fun i => le16 e' (a + 2 * i)) := by
    intro a b positive inside
    apply List.map_congr_left
    intro i mem
    have small := List.mem_range.mp mem
    exact unit _ (by omega) (by omega)
  rw [Entry.units, Entry.units, part 1 5, part 14 6, part 28 2] <;> decide

theorem store_name_stored (name : List UInt8) : Stored (storeName name) 0 name where
  inside := Nat.le_of_eq (Nat.zero_add _)
  ord := by
    intro j inside
    have place : (0 + 32 * j) / 32 = j ∧ (0 + 32 * j) % 32 = 0 := by omega
    simp only [storeName, place.1, place.2, if_pos inside, if_pos]
  units := by
    intro j e inside read
    have size : (storeName name).size = 32 * (nameEntries name + 1) := rfl
    have room : 0 + 32 * j + 32 ≤ (storeName name).size := by omega
    rw [entry_inside room] at read
    cases read
    rw [← stored_units]
    apply units_congr
    intro k positive small
    have place : (0 + 32 * j + k) / 32 = j ∧ (0 + 32 * j + k) % 32 = k := by omega
    simp only [storeName, place.1, place.2, if_pos inside, if_neg (Nat.ne_of_gt positive)]

def noPicture : Recovery Unit := fun s _ _ => (false, s)

theorem decodes_one_letter :
    DecodesName noPicture (storeName [0x61]) 0 64 [0x61] ⟨(), []⟩ :=
  (decodes_name_iff noPicture (storeName [0x61]) 0 64 [0x61] ⟨(), []⟩ (by simp) (by simp)
    (by simp) (store_name_stored _) (by decide)).mpr (by simp)

def letters (count : Nat) : List UInt8 := List.replicate count 0x61

/-- A name of 196 letters has 16 entries, of which none are counted. -/
theorem long_name_lost :
    ¬DecodesName noPicture (storeName (letters 196)) 0 544 (letters 196) ⟨(), []⟩ := by
  have count : (letters 196).length = 196 := List.length_replicate
  have some_name : letters 196 ≠ [] := List.ne_nil_of_length_pos (by omega)
  have room : 32 * (nameEntries (letters 196) + 1) ≤ 544 := by
    rw [nameEntries, count]
  intro decodes
  have short := decoded_name_short some_name (by omega) (store_name_stored _) room decodes
  omega

end Encoding

end Frecov
