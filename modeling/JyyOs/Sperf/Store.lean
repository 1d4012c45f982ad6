import Mathlib.Algebra.BigOperators.Group.List.Basic
import Mathlib.Algebra.Order.Field.Rat
import Mathlib.Data.List.Sort
import Mathlib.Data.List.TakeWhile
import Mathlib.Tactic.Ring
import Mathlib.Tactic.Linarith

/-!
sperf.c: store_in_matrix reads the name and the time of a call in a line of strace and adds the
time to the table. Times are rationals; a text is the list of its bytes.
-/
namespace Sperf

section Code

structure Syscall where
  name : List UInt8
  timeCnt : ℚ
  deriving DecidableEq

def maxSyscalls : Nat := 256

structure Stats where
  syscalls : List Syscall
  totalTime : ℚ
  deriving DecidableEq

def started : Stats := ⟨[], 0⟩

def compare (a b : Syscall) : Int :=
  let diff := b.timeCnt - a.timeCnt
  (if diff > 0 then 1 else 0) - if diff < 0 then 1 else 0

def Digit (c : UInt8) : Prop := 48 ≤ c ∧ c ≤ 57

instance (c : UInt8) : Decidable (Digit c) := instDecidableAnd

def digitsValue (digits : List UInt8) : Nat := digits.foldl (fun n c => n * 10 + (c.toNat - 48)) 0

def decimal (whole frac : List UInt8) : ℚ :=
  digitsValue whole + digitsValue frac / 10 ^ frac.length

/-- qsort with compare, which may put equal times in any order, and what atof reads. -/
structure Libc where
  qsort : List Syscall → List Syscall
  perm : ∀ list, (qsort list).Perm list
  sorted : ∀ list, (qsort list).Pairwise fun a b => compare a b ≤ 0
  atof : List UInt8 → ℚ
  numeral : ∀ whole frac, (∀ c ∈ whole, Digit c) → (∀ c ∈ frac, Digit c) → whole ≠ [] →
    frac ≠ [] → atof (whole ++ 46 :: frac) = decimal whole frac

def strrchr : List UInt8 → UInt8 → Option Nat
  | [], _ => none
  | x :: rest, c =>
    match strrchr rest c with
    | some i => some (i + 1)
    | none => if x = c then some 0 else none

inductive Parsed where
  | nothing
  | wraps
  | call (name : List UInt8) (callTime : ℚ)
  deriving DecidableEq

variable (libc : Libc)

/-- The bytes 60, 62 and 40 are the angle brackets and the opening parenthesis. A negative `len` is
    a huge size_t: malloc gives NULL and strncpy writes through it. -/
def parseLine (buffer : List UInt8) : Parsed :=
  match strrchr buffer 60 with
  | none => .nothing
  | some l =>
    match strrchr buffer 62 with
    | none => .nothing
    | some r =>
      let len : Int := r - l - 1
      if len = 0 then .nothing
      else if len < 0 then .wraps
      else
        let callTime := libc.atof ((buffer.drop (l + 1)).take len.toNat)
        if callTime ≤ 0 then .nothing
        else
          match strrchr buffer 40 with
          | none => .nothing
          | some nameLen => .call (buffer.take nameLen) callTime

def addTime (name : List UInt8) (callTime : ℚ) : List Syscall → ℚ → Bool →
    List Syscall × ℚ × Bool
  | [], totalTime, stored => ([], totalTime, stored)
  | entry :: rest, totalTime, stored =>
    if entry.name = name then
      let later := addTime name callTime rest (totalTime + callTime) true
      ({ entry with timeCnt := entry.timeCnt + callTime } :: later.1, later.2)
    else
      let later := addTime name callTime rest totalTime stored
      (entry :: later.1, later.2)

def storeCall (s : Stats) (name : List UInt8) (callTime : ℚ) : Stats :=
  let added := addTime name callTime s.syscalls s.totalTime false
  if added.2.2 then ⟨added.1, added.2.1⟩
  else if added.1.length < maxSyscalls then
    ⟨added.1 ++ [⟨name, callTime⟩], added.2.1 + callTime⟩
  else ⟨added.1.set (maxSyscalls - 1) ⟨name, callTime⟩, added.2.1 + callTime⟩

/-- `none` is a process that died. -/
def storeInMatrix (s : Stats) (buffer : List UInt8) : Option Stats :=
  match parseLine libc buffer with
  | .wraps => none
  | .nothing => some s
  | .call name callTime =>
    let stored := storeCall s name callTime
    some { stored with syscalls := libc.qsort stored.syscalls }

def toInt (q : ℚ) : Int := q.num.tdiv q.den

def printMaxFive (s : Stats) : List (List UInt8 × Int) :=
  (s.syscalls.take 5).map fun call => (call.name, toInt (call.timeCnt / s.totalTime * 100))

end Code

section Search

variable {c : UInt8} {before after list : List UInt8}

theorem strrchr_none (out : c ∉ list) : strrchr list c = none := by
  induction list with
  | nil => rfl
  | cons x rest ih =>
    have first : x ≠ c := fun same => out (same ▸ List.mem_cons_self)
    rw [strrchr, ih fun mem => out (List.mem_cons_of_mem _ mem)]
    exact if_neg first

theorem strrchr_last (before : List UInt8) (out : c ∉ after) :
    strrchr (before ++ c :: after) c = some before.length := by
  induction before with
  | nil =>
    rw [List.nil_append, strrchr, strrchr_none out]
    exact if_pos rfl
  | cons x before ih =>
    rw [List.cons_append, strrchr, ih]
    rfl

theorem strrchr_cases (list : List UInt8) (c : UInt8) :
    strrchr list c = none ∧ c ∉ list ∨ ∃ before after, list = before ++ c :: after ∧ c ∉ after ∧
      strrchr list c = some before.length := by
  induction list with
  | nil => exact .inl ⟨rfl, List.not_mem_nil⟩
  | cons x rest ih =>
    rcases ih with ⟨_, out⟩ | ⟨before, after, rfl, out, _⟩
    · by_cases here : x = c
      · subst here
        exact .inr ⟨[], rest, rfl, out, strrchr_last [] out⟩
      · have absent : c ∉ x :: rest := fun mem =>
          (List.mem_cons.mp mem).elim (fun same => here same.symm) out
        exact .inl ⟨strrchr_none absent, absent⟩
    · exact .inr ⟨x :: before, after, rfl, out, strrchr_last (x :: before) out⟩

end Search

section Table

inductive Recorded (table : List Syscall) (name : List UInt8) (callTime : ℚ) :
    List Syscall → Prop
  | found {before after : List Syscall} {entry : Syscall} (split : table = before ++ entry :: after)
      (here : entry.name = name) :
      Recorded table name callTime (before ++ ⟨name, entry.timeCnt + callTime⟩ :: after)
  | added (absent : name ∉ table.map Syscall.name) (room : table.length < maxSyscalls) :
      Recorded table name callTime (table ++ [⟨name, callTime⟩])
  | replaced {before : List Syscall} {entry : Syscall} (split : table = before ++ [entry])
      (absent : name ∉ table.map Syscall.name) (full : table.length = maxSyscalls) :
      Recorded table name callTime (before ++ [⟨name, callTime⟩])

variable {table : List Syscall} {name : List UInt8} {callTime totalTime : ℚ} {s : Stats}

theorem add_time_absent (absent : name ∉ table.map Syscall.name) (stored : Bool) :
    addTime name callTime table totalTime stored = (table, totalTime, stored) := by
  induction table with
  | nil => rfl
  | cons entry rest ih =>
    have other := List.ne_of_not_mem_cons absent
    rw [addTime, if_neg (Ne.symm other), ih (List.not_mem_of_not_mem_cons absent)]

theorem add_time_found {before after : List Syscall} {entry : Syscall} (here : entry.name = name)
    (before_out : name ∉ before.map Syscall.name) (after_out : name ∉ after.map Syscall.name)
    (stored : Bool) : addTime name callTime (before ++ entry :: after) totalTime stored =
      (before ++ ⟨name, entry.timeCnt + callTime⟩ :: after, totalTime + callTime, true) := by
  induction before with
  | nil =>
    rw [List.nil_append, addTime, if_pos here, add_time_absent after_out, here]
    rfl
  | cons x before ih =>
    have other := List.ne_of_not_mem_cons before_out
    rw [List.cons_append, addTime, if_neg (Ne.symm other),
      ih (List.not_mem_of_not_mem_cons before_out)]
    rfl

theorem names_apart {before after : List Syscall} {entry : Syscall}
    (names : ((before ++ entry :: after).map Syscall.name).Nodup) :
    entry.name ∉ before.map Syscall.name ∧ entry.name ∉ after.map Syscall.name := by
  rw [List.map_append, List.map_cons] at names
  obtain ⟨_, later, apart⟩ := List.nodup_append.mp names
  refine ⟨fun mem => apart _ mem _ List.mem_cons_self rfl, (List.nodup_cons.mp later).1⟩

theorem store_call_recorded (names : (s.syscalls.map Syscall.name).Nodup)
    (few : s.syscalls.length ≤ maxSyscalls) (name : List UInt8) (callTime : ℚ) :
    Recorded s.syscalls name callTime (storeCall s name callTime).syscalls ∧
      (storeCall s name callTime).totalTime = s.totalTime + callTime := by
  by_cases listed : name ∈ s.syscalls.map Syscall.name
  · obtain ⟨entry, mem, here⟩ := List.mem_map.mp listed
    obtain ⟨before, after, split⟩ := List.append_of_mem mem
    rw [split] at names
    obtain ⟨before_out, after_out⟩ := names_apart names
    rw [here] at before_out after_out
    rw [storeCall, split, add_time_found here before_out after_out]
    exact ⟨.found rfl here, rfl⟩
  · rw [storeCall, add_time_absent listed]
    by_cases room : s.syscalls.length < maxSyscalls
    · simp only [if_pos room]
      exact ⟨.added listed room, rfl⟩
    · have full : s.syscalls.length = maxSyscalls := Nat.le_antisymm few (Nat.le_of_not_lt room)
      simp only [if_neg room]
      refine ⟨?_, rfl⟩
      rcases List.eq_nil_or_concat s.syscalls with empty | ⟨before, entry, split⟩
      · rw [empty] at full
        cases full
      · rw [List.concat_eq_append] at split
        have last : before.length = maxSyscalls - 1 := by
          rw [split, List.length_append] at full
          exact (Nat.sub_eq_of_eq_add full.symm).symm
        have cut : s.syscalls.set (maxSyscalls - 1) ⟨name, callTime⟩ =
            before ++ [⟨name, callTime⟩] := by
          rw [split, List.set_append_right _ _ (Nat.le_of_eq last), last, Nat.sub_self]
          rfl
        rw [cut]
        exact .replaced split listed full

theorem recorded_names (names : (table.map Syscall.name).Nodup) {entries : List Syscall}
    (recorded : Recorded table name callTime entries) : (entries.map Syscall.name).Nodup := by
  cases recorded with
  | found split here =>
    rw [split] at names
    simpa [here] using names
  | added absent room =>
    rw [List.map_append, List.nodup_append]
    refine ⟨names, List.nodup_singleton _, fun x mem y last => ?_⟩
    rw [List.mem_singleton.mp last]
    exact fun same : x = name => absent (same ▸ mem)
  | replaced split absent full =>
    rw [split, List.map_append] at names absent
    rw [List.map_append, List.nodup_append]
    refine ⟨(List.nodup_append.mp names).1, List.nodup_singleton _, fun x mem y last => ?_⟩
    rw [List.mem_singleton.mp last]
    exact fun same : x = name => absent (same ▸ List.mem_append_left _ mem)

theorem recorded_few (few : table.length ≤ maxSyscalls) {entries : List Syscall}
    (recorded : Recorded table name callTime entries) : entries.length ≤ maxSyscalls := by
  cases recorded with
  | found split here =>
    rw [split] at few
    simpa using few
  | added absent room =>
    rw [List.length_append]
    exact room
  | replaced split absent full =>
    rw [split] at few
    simpa using few

theorem recorded_positive (positive : ∀ entry ∈ table, 0 < entry.timeCnt) (real : 0 < callTime)
    {entries : List Syscall} (recorded : Recorded table name callTime entries) :
    ∀ entry ∈ entries, 0 < entry.timeCnt := by
  intro x mem
  cases recorded with
  | found split here =>
    rw [split] at positive
    rcases List.mem_append.mp mem with mem | mem
    · exact positive x (List.mem_append_left _ mem)
    · rcases List.mem_cons.mp mem with rfl | mem
      · exact add_pos (positive _ (List.mem_append_right _ List.mem_cons_self)) real
      · exact positive x (List.mem_append_right _ (List.mem_cons_of_mem _ mem))
  | added absent room =>
    rcases List.mem_append.mp mem with mem | mem
    · exact positive x mem
    · rw [List.mem_singleton.mp mem]
      exact real
  | replaced split absent full =>
    rw [split] at positive
    rcases List.mem_append.mp mem with mem | mem
    · exact positive x (List.mem_append_left _ mem)
    · rw [List.mem_singleton.mp mem]
      exact real

def timeSum (table : List Syscall) : ℚ := (table.map Syscall.timeCnt).sum

theorem time_sum_append (front back : List Syscall) :
    timeSum (front ++ back) = timeSum front + timeSum back := by
  rw [timeSum, List.map_append, List.sum_append]
  rfl

theorem time_sum_cons (entry : Syscall) (rest : List Syscall) :
    timeSum (entry :: rest) = entry.timeCnt + timeSum rest := by
  rw [timeSum, List.map_cons, List.sum_cons]
  rfl

theorem time_sum_perm {front back : List Syscall} (perm : front.Perm back) :
    timeSum front = timeSum back := (perm.map Syscall.timeCnt).sum_eq

theorem recorded_sum {entries : List Syscall} (recorded : Recorded table name callTime entries) :
    timeSum entries = timeSum table + callTime ∧
        (name ∈ table.map Syscall.name ∨ table.length < maxSyscalls) ∨
      ∃ entry ∈ table, timeSum entries + entry.timeCnt = timeSum table + callTime ∧
        name ∉ table.map Syscall.name ∧ table.length = maxSyscalls := by
  cases recorded with
  | found split here =>
    refine .inl ⟨?_, .inl ?_⟩
    · rw [split, time_sum_append, time_sum_cons, time_sum_append, time_sum_cons]
      ring
    · rw [split, ← here]
      simp
  | added absent room =>
    refine .inl ⟨?_, .inr room⟩
    rw [time_sum_append, time_sum_cons]
    exact congrArg _ (add_zero callTime)
  | @replaced before entry split absent full =>
    refine .inr ⟨entry, split ▸ List.mem_append_right _ List.mem_cons_self, ?_, absent, full⟩
    rw [split, time_sum_append, time_sum_cons, time_sum_append, time_sum_cons]
    ring

end Table

section Sorting

theorem compare_iff {a b : Syscall} : compare a b ≤ 0 ↔ b.timeCnt ≤ a.timeCnt := by
  rcases lt_trichotomy b.timeCnt a.timeCnt with below | same | above
  · have diff := sub_neg.mpr below
    rw [compare, if_neg (not_lt.mpr (le_of_lt diff)), if_pos diff]
    exact iff_of_true (by decide) (le_of_lt below)
  · rw [compare, same, sub_self, if_neg (lt_irrefl 0)]
    exact iff_of_true (by decide) (le_refl _)
  · have diff := sub_pos.mpr above
    rw [compare, if_pos diff, if_neg (not_lt.mpr (le_of_lt diff))]
    exact iff_of_false (by decide) (not_le.mpr above)

instance : Std.Total fun a b : Syscall => compare a b ≤ 0 :=
  ⟨fun _ _ => (le_total _ _).imp compare_iff.mpr compare_iff.mpr⟩

instance : IsTrans Syscall fun a b => compare a b ≤ 0 :=
  ⟨fun _ _ _ first second =>
    compare_iff.mpr (le_trans (compare_iff.mp second) (compare_iff.mp first))⟩

def decimalAtof (text : List UInt8) : ℚ :=
  decimal (text.takeWhile fun c => Digit c)
    ((text.dropWhile fun c => Digit c).tail.takeWhile fun c => Digit c)

/-- A stable qsort, and an atof for numerals without sign and exponent. -/
def glibc : Libc where
  qsort list := list.insertionSort fun a b => compare a b ≤ 0
  perm list := List.perm_insertionSort _ list
  sorted list := List.pairwise_insertionSort _ list
  atof := decimalAtof
  numeral whole frac whole_digits frac_digits _ _ := by
    have digits : ∀ c ∈ whole, decide (Digit c) = true :=
      fun c mem => decide_eq_true (whole_digits c mem)
    have all_read : frac.takeWhile (fun c => Digit c) = frac :=
      List.takeWhile_eq_self_iff.mpr fun c mem => decide_eq_true (frac_digits c mem)
    have point : decide (Digit 46) = false := by decide
    rw [decimalAtof, List.takeWhile_append_of_pos digits, List.dropWhile_append_of_pos digits]
    simp [point, all_read]

end Sorting

section Steps

variable {libc : Libc} {s s' : Stats} {line name : List UInt8} {callTime : ℚ}

theorem parsed_positive (parsed : parseLine libc line = .call name callTime) : 0 < callTime := by
  unfold parseLine at parsed
  split at parsed
  · cases parsed
  · split at parsed
    · cases parsed
    · simp only at parsed
      split at parsed
      · cases parsed
      · split at parsed
        · cases parsed
        · split at parsed
          · cases parsed
          · rename_i real
            split at parsed
            · cases parsed
            · cases parsed
              exact not_le.mp real

structure Table (s : Stats) : Prop where
  few : s.syscalls.length ≤ maxSyscalls
  names : (s.syscalls.map Syscall.name).Nodup
  sorted : s.syscalls.Pairwise fun a b => b.timeCnt ≤ a.timeCnt
  positive : ∀ entry ∈ s.syscalls, 0 < entry.timeCnt
  covered : timeSum s.syscalls ≤ s.totalTime

theorem table_started : Table started where
  few := Nat.zero_le _
  names := List.nodup_nil
  sorted := List.Pairwise.nil
  positive := fun _ mem => absurd mem List.not_mem_nil
  covered := le_refl _

theorem store_cases (table : Table s) (stored : storeInMatrix libc s line = some s') :
    parseLine libc line = .nothing ∧ s' = s ∨
      ∃ name callTime entries, parseLine libc line = .call name callTime ∧ 0 < callTime ∧
        Recorded s.syscalls name callTime entries ∧ s'.syscalls.Perm entries ∧
        s'.syscalls = libc.qsort entries ∧ s'.totalTime = s.totalTime + callTime := by
  unfold storeInMatrix at stored
  split at stored
  · cases stored
  · rename_i parsed
    cases stored
    exact .inl ⟨parsed, rfl⟩
  · rename_i name callTime parsed
    cases stored
    obtain ⟨recorded, total⟩ := store_call_recorded table.names table.few name callTime
    exact .inr ⟨name, callTime, _, parsed, parsed_positive parsed, recorded, libc.perm _, rfl,
      total⟩

theorem table_step (table : Table s) (stored : storeInMatrix libc s line = some s') :
    Table s' := by
  rcases store_cases table stored with ⟨_, rfl⟩ |
    ⟨name, callTime, entries, _, real, recorded, perm, sorted, total⟩
  · exact table
  · constructor
    · rw [perm.length_eq]
      exact recorded_few table.few recorded
    · exact (perm.map Syscall.name).nodup_iff.mpr (recorded_names table.names recorded)
    · rw [sorted]
      exact (libc.sorted entries).imp compare_iff.mp
    · exact fun entry mem =>
        recorded_positive table.positive real recorded entry (perm.mem_iff.mp mem)
    · have covered := table.covered
      rw [time_sum_perm perm, total]
      rcases recorded_sum recorded with ⟨sum, _⟩ | ⟨entry, mem, sum, _⟩
      · linarith
      · have gone := table.positive entry mem
        linarith

end Steps

end Sperf
