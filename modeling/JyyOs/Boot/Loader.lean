import Mathlib.Algebra.Order.Ring.Int
import Mathlib.Logic.Function.Basic

/-!
boot/main.c: the boot loader reads the head of the kernel file from the disk and loads the segments
it lists. Physical addresses are below 2^32 and arithmetic on them wraps around. A loop that does
not end is `none`. The code and the stack of the loader itself are not in the memory.
-/
namespace Boot

abbrev Mem := Nat → UInt8

def sectSize : Nat := 512

def argSize : Nat := 1024

def elfAddr : Nat := 0x8000

def mainargAddr : Nat := 0x10000

def emX8664 : Nat := 62

def wrap (v : Nat) : Nat := v % 2 ^ 32

def toInt32 (v : Nat) : Int := if v < 2 ^ 31 then v else (v : Int) - 2 ^ 32

/-- read_disk: the data port gives the bytes of the sector, whose number has 28 bits. -/
def readDisk (disk : Nat → UInt8) (mem : Mem) (buf sect : Nat) : Mem := fun a =>
  if buf ≤ a ∧ a < buf + sectSize then disk (sectSize * (sect % 2 ^ 28) + (a - buf)) else mem a

def copyLoop (disk : Nat → UInt8) (ed : Nat) : Nat → Nat → Nat → Mem → Option Mem
  | 0, _, _, _ => none
  | fuel + 1, cur, sect, mem =>
    if cur < ed then
      copyLoop disk ed fuel (wrap (cur + sectSize)) (wrap (sect + 1)) (readDisk disk mem cur sect)
    else some mem

/-- A loop of more rounds has met every sector of the memory and never ends. -/
def copyRounds : Nat := 2 ^ 23 + 1

def copyFromDisk (disk : Nat → UInt8) (mem : Mem) (buf nbytes : Nat) (diskOffset : Int) :
    Option Mem :=
  let cur := buf / sectSize * sectSize
  let ed := wrap (buf + nbytes)
  let sect := ((diskOffset.tdiv sectSize + (argSize / sectSize : Nat) + 1) % 2 ^ 32).toNat
  copyLoop disk ed copyRounds cur sect mem

/-- The loop of load_program, which counts up to memsz and wraps around. -/
def bssLoop : Nat → Nat → Mem → Mem
  | 0, _, mem => mem
  | rounds + 1, bss, mem => bssLoop rounds (wrap (bss + 1)) (Function.update mem bss 0)

structure Phdr where
  filesz : Nat
  memsz : Nat
  paddr : Nat
  offset : Nat
  deriving DecidableEq

def loadProgram (disk : Nat → UInt8) (mem : Mem) (ph : Phdr) : Option Mem :=
  (copyFromDisk disk mem ph.paddr ph.filesz (toInt32 ph.offset)).map fun mem =>
    bssLoop (wrap (ph.memsz + (2 ^ 32 - ph.filesz))) (wrap (ph.paddr + ph.filesz)) mem

/-- Where Elf32_Ehdr and Elf32_Phdr, or Elf64_Ehdr and Elf64_Phdr, keep what the loader reads. -/
structure Layout where
  word : Nat
  entry : Nat
  phoff : Nat
  phnum : Nat
  phdrSize : Nat
  offset : Nat
  paddr : Nat
  filesz : Nat
  memsz : Nat

def elf32 : Layout := ⟨4, 24, 28, 44, 32, 4, 12, 16, 20⟩

def elf64 : Layout := ⟨8, 24, 32, 56, 56, 8, 24, 32, 40⟩

def le (mem : Mem) (p : Nat) : Nat → Nat
  | 0 => 0
  | n + 1 => (mem (wrap p)).toNat + 256 * le mem (p + 1) n

variable (layout : Layout)

/-- The fields at `ph`, each cast to uint32_t. -/
def phdrAt (mem : Mem) (ph : Nat) : Phdr where
  filesz := wrap (le mem (ph + layout.filesz) layout.word)
  memsz := wrap (le mem (ph + layout.memsz) layout.word)
  paddr := wrap (le mem (ph + layout.paddr) layout.word)
  offset := wrap (le mem (ph + layout.offset) layout.word)

/-- The number of program headers has 16 bits. -/
def loadLoop (disk : Nat → UInt8) : Nat → Nat → Nat → Mem → Option Mem
  | 0, _, _, _ => none
  | fuel + 1, i, ph, mem =>
    if i < le mem (elfAddr + layout.phnum) 2 then
      (loadProgram disk mem (phdrAt layout mem ph)).bind
        (loadLoop disk fuel (i + 1) (wrap (ph + layout.phdrSize)))
    else some mem

def loadElf (disk : Nat → UInt8) (mem : Mem) : Option Mem :=
  loadLoop layout disk (2 ^ 16 + 1) 0
    (wrap (elfAddr + le mem (elfAddr + layout.phoff) layout.word)) mem

def loadElf64 : (Nat → UInt8) → Mem → Option Mem := loadElf elf64

def loadElf32 : (Nat → UInt8) → Mem → Option Mem := loadElf elf32

def machine (mem : Mem) : Nat := le mem (elfAddr + 18) 2

def loadAll (disk : Nat → UInt8) (mem : Mem) : Option Mem := do
  let mem ← copyFromDisk disk mem mainargAddr argSize (-argSize)
  let mem ← copyFromDisk disk mem elfAddr 4096 0
  if machine mem = emX8664 then loadElf64 disk mem else loadElf32 disk mem

/-- load_kernel: the memory it leaves and the address it calls. -/
def loadKernel (disk : Nat → UInt8) (isAp : Bool) (mem : Mem) : Option (Mem × Nat) := do
  let mem ← if isAp then some mem else loadAll disk mem
  if machine mem = emX8664 then return (mem, wrap (le mem (elfAddr + elf64.entry) elf64.word))
  else return (mem, wrap (le mem (elfAddr + elf32.entry) elf32.word))

/-- The kernel file: it follows the boot sector and the arguments on the disk. -/
def fileByte (disk : Nat → UInt8) (k : Nat) : UInt8 := disk (sectSize + argSize + k)

def headerMem (disk : Nat → UInt8) : Mem := fun a => fileByte disk (a - elfAddr)

def layoutOf (disk : Nat → UInt8) : Layout :=
  if machine (headerMem disk) = emX8664 then elf64 else elf32

def phnumOf (disk : Nat → UInt8) : Nat := le (headerMem disk) (elfAddr + (layoutOf disk).phnum) 2

def phoffOf (disk : Nat → UInt8) : Nat :=
  le (headerMem disk) (elfAddr + (layoutOf disk).phoff) (layoutOf disk).word

def entryOf (disk : Nat → UInt8) : Nat :=
  wrap (le (headerMem disk) (elfAddr + (layoutOf disk).entry) (layoutOf disk).word)

def segment (disk : Nat → UInt8) (i : Nat) : Phdr :=
  phdrAt (layoutOf disk) (headerMem disk)
    (elfAddr + phoffOf disk + i * (layoutOf disk).phdrSize)

variable {layout}

def Phdr.start (ph : Phdr) : Nat := ph.paddr / sectSize * sectSize

def Phdr.sectors (ph : Phdr) : Nat :=
  (ph.paddr + ph.filesz - ph.start + (sectSize - 1)) / sectSize

def Phdr.Writes (ph : Phdr) (a : Nat) : Prop :=
  ph.start ≤ a ∧ a < ph.start + sectSize * ph.sectors ∨
    ph.paddr + ph.filesz ≤ a ∧ a < ph.paddr + ph.memsz

/-- A segment that lies in the memory and whose bytes have the same place in their sectors as in
    the file. -/
structure Phdr.Fits (ph : Phdr) : Prop where
  sizes : ph.filesz ≤ ph.memsz
  aligned : ph.paddr % sectSize = ph.offset % sectSize
  inFile : ph.offset + ph.filesz < 2 ^ 31
  inMemory : ph.paddr + ph.memsz + sectSize ≤ 2 ^ 32

/-- What the loader relies on: the program headers are in the part of the file it reads first, and
    no segment is written on the header, on the arguments or on an earlier segment. -/
structure Loadable (disk : Nat → UInt8) : Prop where
  table : phoffOf disk + phnumOf disk * (layoutOf disk).phdrSize ≤ 4096
  fits : ∀ i < phnumOf disk, (segment disk i).Fits
  header : ∀ i < phnumOf disk, ∀ a, elfAddr ≤ a → a < elfAddr + 4096 → ¬ (segment disk i).Writes a
  args : ∀ i < phnumOf disk, ∀ a, mainargAddr ≤ a → a < mainargAddr + argSize →
    ¬ (segment disk i).Writes a
  apart : ∀ j < phnumOf disk, ∀ i < j, ∀ k < (segment disk i).memsz,
    ¬ (segment disk j).Writes ((segment disk i).paddr + k)

def segmentByte (disk : Nat → UInt8) (ph : Phdr) (k : Nat) : UInt8 :=
  if k < ph.filesz then fileByte disk (ph.offset + k) else 0

/-- The memory `mem'` holds the kernel, and is otherwise what `mem` was. -/
structure KernelLoaded (disk : Nat → UInt8) (mem mem' : Mem) : Prop where
  segments : ∀ i < phnumOf disk, ∀ k < (segment disk i).memsz,
    mem' ((segment disk i).paddr + k) = segmentByte disk (segment disk i) k
  args : ∀ k < argSize, mem' (mainargAddr + k) = disk (sectSize + k)
  header : ∀ k < 4096, mem' (elfAddr + k) = fileByte disk k
  rest : ∀ a, (∀ i < phnumOf disk, ¬ (segment disk i).Writes a) →
    ¬ (elfAddr ≤ a ∧ a < elfAddr + 4096) → ¬ (mainargAddr ≤ a ∧ a < mainargAddr + argSize) →
      mem' a = mem a

section Copy

variable {disk : Nat → UInt8} {mem : Mem} {ph : Phdr}

theorem wrap_small {v : Nat} (small : v < 2 ^ 32) : wrap v = v := Nat.mod_eq_of_lt small

def copied (disk : Nat → UInt8) (cur sect n : Nat) (mem : Mem) : Mem := fun a =>
  if cur ≤ a ∧ a < cur + sectSize * n then disk (sectSize * sect + (a - cur)) else mem a

theorem copy_loop_ok {ed : Nat} (n : Nat) {fuel cur sect : Nat} (enough : n < fuel)
    (covers : ed ≤ cur + sectSize * n) (last : cur + sectSize * n < ed + sectSize)
    (inside : cur + sectSize * n < 2 ^ 32) (numbered : sect + n ≤ 2 ^ 28) :
    copyLoop disk ed fuel cur sect mem = some (copied disk cur sect n mem) := by
  induction n generalizing fuel cur sect mem with
  | zero =>
    obtain ⟨fuel, rfl⟩ := Nat.exists_eq_add_one_of_ne_zero (Nat.ne_of_gt enough)
    unfold copyLoop
    rw [if_neg (by omega)]
    congr 1
    funext a
    unfold copied
    rw [if_neg (by omega)]
  | succ n ih =>
    obtain ⟨fuel, rfl⟩ := Nat.exists_eq_add_one_of_ne_zero (Nat.ne_of_gt (Nat.zero_lt_of_lt enough))
    rw [Nat.mul_succ] at covers last inside
    have next : wrap (cur + sectSize) = cur + sectSize := by
      apply wrap_small
      omega
    have number : wrap (sect + 1) = sect + 1 := by
      apply wrap_small
      omega
    unfold copyLoop
    rw [if_pos (by omega), next, number, ih (by omega)]
    · refine congrArg some ?_
      funext a
      unfold copied readDisk
      rw [Nat.mod_eq_of_lt (show sect < 2 ^ 28 by omega), Nat.mul_succ, Nat.mul_succ]
      by_cases first : cur ≤ a ∧ a < cur + sectSize
      · rw [if_neg (by omega), if_pos first, if_pos (by omega)]
      · by_cases later : cur + sectSize ≤ a ∧ a < cur + sectSize + sectSize * n
        · rw [if_pos later, if_pos (by omega)]
          refine congrArg disk ?_
          omega
        · rw [if_neg later, if_neg first, if_neg (by omega)]
    · omega
    · omega
    · omega
    · omega

theorem bss_loop_ok (n : Nat) {bss : Nat} (inside : bss + n < 2 ^ 32) (a : Nat) :
    bssLoop n bss mem a = if bss ≤ a ∧ a < bss + n then 0 else mem a := by
  induction n generalizing bss mem with
  | zero =>
    unfold bssLoop
    rw [if_neg (by omega)]
  | succ n ih =>
    have next : wrap (bss + 1) = bss + 1 := by
      apply wrap_small
      omega
    unfold bssLoop
    rw [next, ih (by omega)]
    by_cases first : a = bss
    · subst first
      rw [if_neg (by omega), if_pos (by omega), Function.update_self]
    · rw [Function.update_of_ne first]
      by_cases later : bss + 1 ≤ a ∧ a < bss + 1 + n
      · rw [if_pos later, if_pos (by omega)]
      · rw [if_neg later, if_neg (by omega)]

theorem sector_of {offset : Nat} (small : offset < 2 ^ 31) :
    (((toInt32 offset).tdiv sectSize + (argSize / sectSize : Nat) + 1) % 2 ^ 32).toNat =
      offset / sectSize + 3 := by
  unfold toInt32 argSize sectSize
  rw [if_pos small]
  have quotient : (offset : Int).tdiv (512 : Nat) = ((offset / 512 : Nat) : Int) :=
    (Int.ofNat_tdiv offset 512).symm
  rw [quotient]
  omega

theorem copy_from_disk_ok (fits : ph.Fits) :
    copyFromDisk disk mem ph.paddr ph.filesz (toInt32 ph.offset) =
      some (copied disk ph.start (ph.offset / sectSize + 3) ph.sectors mem) := by
  have sizes := fits.sizes
  have inFile := fits.inFile
  have inMemory := fits.inMemory
  unfold sectSize at inMemory
  have ed : wrap (ph.paddr + ph.filesz) = ph.paddr + ph.filesz := by
    apply wrap_small
    omega
  unfold copyFromDisk
  simp only
  rw [sector_of (by omega), ed]
  apply copy_loop_ok
  · unfold Phdr.sectors Phdr.start copyRounds sectSize
    omega
  · unfold Phdr.sectors Phdr.start sectSize
    omega
  · unfold Phdr.sectors Phdr.start sectSize
    omega
  · unfold Phdr.sectors Phdr.start sectSize
    omega
  · unfold Phdr.sectors Phdr.start sectSize
    omega

theorem load_program_ok (disk : Nat → UInt8) (fits : ph.Fits) (mem : Mem) :
    ∃ mem', loadProgram disk mem ph = some mem' ∧
      (∀ k < ph.memsz, mem' (ph.paddr + k) = segmentByte disk ph k) ∧
      ∀ a, ¬ ph.Writes a → mem' a = mem a := by
  have sizes := fits.sizes
  have aligned := fits.aligned
  have inMemory := fits.inMemory
  unfold sectSize at inMemory aligned
  have rounds : wrap (ph.memsz + (2 ^ 32 - ph.filesz)) = ph.memsz - ph.filesz := by
    unfold wrap
    omega
  have bss : wrap (ph.paddr + ph.filesz) = ph.paddr + ph.filesz := by
    apply wrap_small
    omega
  refine ⟨_, by rw [loadProgram, copy_from_disk_ok fits]; rfl, ?_, ?_⟩
  · intro k inside
    simp only
    rw [rounds, bss, bss_loop_ok _ (by omega)]
    unfold segmentByte
    by_cases file : k < ph.filesz
    · rw [if_neg (by omega), if_pos file]
      unfold copied fileByte
      rw [if_pos]
      · congr 1
        unfold Phdr.start sectSize argSize
        omega
      · unfold Phdr.sectors Phdr.start sectSize
        omega
    · rw [if_pos (by omega), if_neg file]
  · intro a outside
    simp only
    unfold Phdr.Writes at outside
    rw [rounds, bss, bss_loop_ok _ (by omega), if_neg (by omega)]
    unfold copied
    rw [if_neg (by omega)]

end Copy

section Header

variable {disk : Nat → UInt8} {mem mem' mem₀ : Mem}

def SameHeader (disk : Nat → UInt8) (mem : Mem) : Prop :=
  ∀ a, elfAddr ≤ a → a < elfAddr + 4096 → mem a = headerMem disk a

theorem le_header (same : SameHeader disk mem) (n : Nat) {p : Nat} (low : elfAddr ≤ p)
    (high : p + n ≤ elfAddr + 4096) : le mem p n = le (headerMem disk) p n := by
  induction n generalizing p with
  | zero => rfl
  | succ n ih =>
    have here : wrap p = p := by
      apply wrap_small
      unfold elfAddr at high
      omega
    unfold le
    rw [here, same p low (by omega), ih (by omega) (by omega)]

theorem le_small (mem : Mem) (n p : Nat) : le mem p n < 256 ^ n := by
  induction n generalizing p with
  | zero => exact Nat.one_pos
  | succ n ih =>
    have byte := (mem (wrap p)).toNat_lt
    have later := ih (p + 1)
    unfold le
    rw [Nat.pow_succ]
    omega

theorem layout_bounds (disk : Nat → UInt8) :
    ((layoutOf disk).phnum + 2 ≤ 4096 ∧ (layoutOf disk).phoff + (layoutOf disk).word ≤ 4096 ∧
      (layoutOf disk).entry + (layoutOf disk).word ≤ 4096) ∧
      (layoutOf disk).filesz + (layoutOf disk).word ≤ (layoutOf disk).phdrSize ∧
      (layoutOf disk).memsz + (layoutOf disk).word ≤ (layoutOf disk).phdrSize ∧
      (layoutOf disk).paddr + (layoutOf disk).word ≤ (layoutOf disk).phdrSize ∧
      (layoutOf disk).offset + (layoutOf disk).word ≤ (layoutOf disk).phdrSize := by
  unfold layoutOf
  split
  · decide
  · decide

theorem segment_read (loadable : Loadable disk) (same : SameHeader disk mem) {i : Nat}
    (inside : i < phnumOf disk) :
    phdrAt (layoutOf disk) mem (elfAddr + phoffOf disk + i * (layoutOf disk).phdrSize) =
      segment disk i := by
  have table := loadable.table
  have entries : (i + 1) * (layoutOf disk).phdrSize ≤ phnumOf disk * (layoutOf disk).phdrSize :=
    Nat.mul_le_mul_right _ inside
  rw [Nat.add_mul, Nat.one_mul] at entries
  obtain ⟨_, filesz, memsz, paddr, offset⟩ := layout_bounds disk
  unfold segment phdrAt
  rw [le_header same _ (by omega) (by omega), le_header same _ (by omega) (by omega),
    le_header same _ (by omega) (by omega), le_header same _ (by omega) (by omega)]

structure Progress (disk : Nat → UInt8) (mem₀ : Mem) (i : Nat) (mem : Mem) : Prop where
  header : SameHeader disk mem
  segments : ∀ j < i, ∀ k < (segment disk j).memsz,
    mem ((segment disk j).paddr + k) = segmentByte disk (segment disk j) k
  rest : ∀ a, (∀ j < i, ¬ (segment disk j).Writes a) → mem a = mem₀ a

theorem Progress.next (loadable : Loadable disk) {i : Nat} (progress : Progress disk mem₀ i mem)
    (inside : i < phnumOf disk)
    (loaded : ∀ k < (segment disk i).memsz,
      mem' ((segment disk i).paddr + k) = segmentByte disk (segment disk i) k)
    (kept : ∀ a, ¬ (segment disk i).Writes a → mem' a = mem a) :
    Progress disk mem₀ (i + 1) mem' := by
  constructor
  · intro a low high
    rw [kept a (loadable.header i inside a low high), progress.header a low high]
  · intro j before k small
    rcases Nat.lt_succ_iff_lt_or_eq.mp before with earlier | here
    · rw [kept _ (loadable.apart i inside j earlier k small), progress.segments j earlier k small]
    · subst here
      exact loaded k small
  · intro a untouched
    rw [kept a (untouched i (Nat.lt_succ_self i))]
    apply progress.rest
    intro j before
    exact untouched j (Nat.lt_succ_of_lt before)

theorem load_loop_ok (loadable : Loadable disk) (n : Nat) {fuel i : Nat}
    (left : phnumOf disk = i + n) (enough : n < fuel) (progress : Progress disk mem₀ i mem) :
    ∃ mem', loadLoop (layoutOf disk) disk fuel i
        (elfAddr + phoffOf disk + i * (layoutOf disk).phdrSize) mem = some mem' ∧
      Progress disk mem₀ (phnumOf disk) mem' := by
  obtain ⟨⟨phnum, _, _⟩, _⟩ := layout_bounds disk
  have count : le mem (elfAddr + (layoutOf disk).phnum) 2 = phnumOf disk :=
    le_header progress.header 2 (Nat.le_add_right ..) (by omega)
  induction n generalizing fuel i mem with
  | zero =>
    obtain ⟨fuel, rfl⟩ := Nat.exists_eq_add_one_of_ne_zero (Nat.ne_of_gt enough)
    unfold loadLoop
    rw [count, if_neg (by omega)]
    refine ⟨mem, rfl, ?_⟩
    rw [left]
    exact progress
  | succ n ih =>
    obtain ⟨fuel, rfl⟩ := Nat.exists_eq_add_one_of_ne_zero (Nat.ne_of_gt (Nat.zero_lt_of_lt enough))
    have inside : i < phnumOf disk := by omega
    obtain ⟨mem', ran, loaded, kept⟩ := load_program_ok disk (loadable.fits i inside) mem
    have after := progress.next loadable inside loaded kept
    have next : wrap (elfAddr + phoffOf disk + i * (layoutOf disk).phdrSize +
        (layoutOf disk).phdrSize) =
          elfAddr + phoffOf disk + (i + 1) * (layoutOf disk).phdrSize := by
      have table := loadable.table
      have entries : (i + 1) * (layoutOf disk).phdrSize ≤
          phnumOf disk * (layoutOf disk).phdrSize := Nat.mul_le_mul_right _ inside
      rw [Nat.add_mul, Nat.one_mul] at entries ⊢
      rw [wrap_small, Nat.add_assoc]
      unfold elfAddr
      omega
    unfold loadLoop
    rw [count, if_pos inside, segment_read loadable progress.header inside, ran, next]
    exact ih (by omega) (by omega) after
      (le_header after.header 2 (Nat.le_add_right ..) (by omega))

theorem args_copied (disk : Nat → UInt8) (mem : Mem) :
    copyFromDisk disk mem mainargAddr argSize (-argSize) =
      some (copied disk mainargAddr 1 2 mem) := by
  exact copy_loop_ok 2 (by decide) (by decide) (by decide) (by decide) (by decide)

theorem header_copied (disk : Nat → UInt8) (mem : Mem) :
    copyFromDisk disk mem elfAddr 4096 0 = some (copied disk elfAddr 3 8 mem) := by
  exact copy_loop_ok 8 (by decide) (by decide) (by decide) (by decide) (by decide)

theorem header_same (disk : Nat → UInt8) (mem : Mem) :
    SameHeader disk (copied disk elfAddr 3 8 mem) := by
  intro a low high
  unfold copied headerMem fileByte
  rw [if_pos ⟨low, high⟩]
  rfl

theorem machine_same (same : SameHeader disk mem) : machine mem = machine (headerMem disk) :=
  le_header same 2 (by decide) (by decide)

theorem load_by_machine (same : SameHeader disk mem) :
    (if machine mem = emX8664 then loadElf64 disk mem else loadElf32 disk mem) =
      loadElf (layoutOf disk) disk mem := by
  rw [machine_same same]
  unfold layoutOf
  split
  · rfl
  · rfl

theorem entry_by_machine (same : SameHeader disk mem) :
    (if machine mem = emX8664 then
        some (mem, wrap (le mem (elfAddr + elf64.entry) elf64.word))
      else some (mem, wrap (le mem (elfAddr + elf32.entry) elf32.word))) =
      some (mem, entryOf disk) := by
  obtain ⟨⟨_, _, entry⟩, _⟩ := layout_bounds disk
  have here := le_header same (layoutOf disk).word (Nat.le_add_right elfAddr (layoutOf disk).entry)
    (by omega)
  unfold entryOf
  rw [← here, machine_same same]
  unfold layoutOf
  split
  · rfl
  · rfl

theorem load_elf_ok (loadable : Loadable disk) (same : SameHeader disk mem) :
    ∃ mem', loadElf (layoutOf disk) disk mem = some mem' ∧
      Progress disk mem (phnumOf disk) mem' := by
  obtain ⟨⟨_, phoff, _⟩, _⟩ := layout_bounds disk
  have table := loadable.table
  have first : wrap (elfAddr + le mem (elfAddr + (layoutOf disk).phoff) (layoutOf disk).word) =
      elfAddr + phoffOf disk + 0 * (layoutOf disk).phdrSize := by
    rw [le_header same _ (Nat.le_add_right ..) (by omega), Nat.zero_mul, Nat.add_zero]
    change wrap (elfAddr + phoffOf disk) = _
    rw [wrap_small]
    unfold elfAddr
    omega
  have few : phnumOf disk < 256 ^ 2 := le_small ..
  unfold loadElf
  rw [first]
  apply load_loop_ok loadable (phnumOf disk) (Nat.zero_add _).symm
  · omega
  · constructor
    · exact same
    · exact fun j before => absurd before (Nat.not_lt_zero j)
    · exact fun a _ => rfl

end Header

/-- The loader ends with the kernel in memory and calls its entry, and so do the other CPUs, which
    find it loaded. -/
theorem kernel_loaded (disk : Nat → UInt8) (mem : Mem) (loadable : Loadable disk) :
    ∃ mem', loadKernel disk false mem = some (mem', entryOf disk) ∧ KernelLoaded disk mem mem' ∧
      loadKernel disk true mem' = some (mem', entryOf disk) := by
  have same := header_same disk (copied disk mainargAddr 1 2 mem)
  obtain ⟨mem', ran, progress⟩ := load_elf_ok loadable same
  have loaded : loadAll disk mem = some mem' := by
    unfold loadAll
    rw [args_copied, Option.bind_eq_bind, Option.bind_some, header_copied, Option.bind_some,
      load_by_machine same, ran]
  refine ⟨mem', ?_, ?_, ?_⟩
  · unfold loadKernel
    rw [loaded]
    exact entry_by_machine progress.header
  · constructor
    · exact progress.segments
    · intro k inside
      rw [progress.rest _ fun i small => loadable.args i small _ (Nat.le_add_right ..) (by omega)]
      unfold copied
      unfold argSize at inside
      unfold elfAddr mainargAddr sectSize
      rw [if_neg (by omega), if_pos (by omega)]
      refine congrArg disk ?_
      omega
    · intro k inside
      rw [progress.header _ (Nat.le_add_right ..) (by omega)]
      unfold headerMem
      rw [Nat.add_sub_cancel_left]
    · intro a untouched header args
      rw [progress.rest a untouched]
      unfold copied
      unfold argSize at args
      unfold sectSize
      rw [if_neg header, if_neg args]
  · unfold loadKernel
    exact entry_by_machine progress.header

/-- A 32-bit kernel with one segment of three bytes and two zeros. -/
def smallKernel : Nat → UInt8 := fun a =>
  ([(1554, 3), (1562, 0x10), (1564, 52), (1580, 1), (1593, 2), (1602, 0x10), (1604, 3), (1608, 5),
    (2048, 0xeb), (2049, 0xfe), (2050, 0x90)].lookup a).getD 0

theorem small_kernel_loadable : Loadable smallKernel := by
  have count : phnumOf smallKernel = 1 := by decide
  have only : segment smallKernel 0 = ⟨3, 5, 0x100000, 512⟩ := by decide
  constructor
  · decide
  · rw [count]
    intro i first
    rw [Nat.lt_one_iff.mp first, only]
    exact ⟨by decide, by decide, by decide, by decide⟩
  · rw [count]
    intro i first a _ high
    rw [Nat.lt_one_iff.mp first, only]
    unfold Phdr.Writes Phdr.sectors Phdr.start sectSize
    unfold elfAddr at high
    simp only
    omega
  · rw [count]
    intro i first a _ high
    rw [Nat.lt_one_iff.mp first, only]
    unfold Phdr.Writes Phdr.sectors Phdr.start sectSize
    unfold mainargAddr argSize at high
    simp only
    omega
  · rw [count]
    intro j first i before
    omega

theorem kernel_loaded_small : ∃ mem', loadKernel smallKernel false (fun _ => 0xff) =
    some (mem', 0x100000) ∧ KernelLoaded smallKernel (fun _ => 0xff) mem' ∧
      loadKernel smallKernel true mem' = some (mem', 0x100000) :=
  kernel_loaded smallKernel (fun _ => 0xff) small_kernel_loadable

end Boot
