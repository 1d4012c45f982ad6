import JyyOs.Library.PartialRun
import JyyOs.Sperf.Lines

/-!
Which entries a line changes, and which lines of strace are credited to their call: a parenthesis
in the arguments or the result ends up in the name.
-/
namespace Sperf

open PartialRun

section Times

def timeOf (table : List Syscall) (name : List UInt8) : ℚ :=
  timeSum (table.filter fun entry => entry.name = name)

variable {table front back entries : List Syscall} {name other : List UInt8} {callTime : ℚ}

theorem time_of_append : timeOf (front ++ back) name = timeOf front name + timeOf back name := by
  rw [timeOf, List.filter_append, time_sum_append]
  rfl

theorem time_of_cons (entry : Syscall) (rest : List Syscall) (name : List UInt8) :
    timeOf (entry :: rest) name =
      (if entry.name = name then entry.timeCnt else 0) + timeOf rest name := by
  by_cases here : entry.name = name
  · rw [if_pos here, timeOf, List.filter_cons_of_pos (by simp [here]), time_sum_cons]
    rfl
  · rw [if_neg here, timeOf, List.filter_cons_of_neg (by simp [here]), zero_add]
    rfl

theorem time_of_perm (perm : front.Perm back) : timeOf front name = timeOf back name :=
  time_sum_perm (perm.filter _)

theorem recorded_keeps (recorded : Recorded table name callTime entries)
    (kept : name ∈ table.map Syscall.name ∨ table.length < maxSyscalls) :
    (∀ entry ∈ table, entry.name ∈ entries.map Syscall.name) ∧
      ∀ other, timeOf entries other = timeOf table other + if name = other then callTime else 0 := by
  cases recorded with
  | @found before after entry split here =>
    subst here
    rw [split]
    refine ⟨fun e mem => ?_, fun other => ?_⟩
    · have names := List.mem_map_of_mem (f := Syscall.name) mem
      simpa using names
    · rw [time_of_append, time_of_append, time_of_cons, time_of_cons]
      by_cases here : entry.name = other
      · simp only [if_pos here]
        ring
      · simp only [if_neg here]
        ring
  | added absent room =>
    refine ⟨fun entry mem => ?_, fun other => ?_⟩
    · rw [List.map_append]
      exact List.mem_append_left _ (List.mem_map_of_mem mem)
    · rw [time_of_append, time_of_cons]
      exact congrArg _ (add_zero _)
  | replaced split absent full =>
    rcases kept with listed | room
    · exact absurd listed absent
    · exact absurd full (Nat.ne_of_lt room)

theorem recorded_evicts (names : (table.map Syscall.name).Nodup)
    (recorded : Recorded table name callTime entries) (absent : name ∉ table.map Syscall.name)
    (full : table.length = maxSyscalls) :
    ∃ entry ∈ table, entry.name ∉ entries.map Syscall.name ∧
      ∀ other, timeOf entries other + (if entry.name = other then entry.timeCnt else 0) =
        timeOf table other + if name = other then callTime else 0 := by
  cases recorded with
  | found split here =>
    rw [split] at absent
    exact absurd (by simp [here]) absent
  | added absent room => exact absurd full (Nat.ne_of_lt room)
  | @replaced before entry split absent full =>
    have mem : entry ∈ table := split ▸ List.mem_append_right _ List.mem_cons_self
    refine ⟨entry, mem, fun stays => ?_, fun other => ?_⟩
    · rw [List.map_append] at stays
      rcases List.mem_append.mp stays with front | last
      · rw [split] at names
        exact (names_apart names).1 front
      · have same : entry.name = name := List.mem_singleton.mp last
        exact absent (same ▸ List.mem_map_of_mem mem)
    · rw [split, time_of_append, time_of_append, time_of_cons, time_of_cons]
      ring

theorem recorded_credits_iff (names : (table.map Syscall.name).Nodup)
    (positive : ∀ entry ∈ table, 0 < entry.timeCnt) (few : table.length ≤ maxSyscalls)
    (real : 0 < callTime) (recorded : Recorded table name callTime entries) :
    timeOf entries other = timeOf table other + callTime ↔ name = other := by
  by_cases kept : name ∈ table.map Syscall.name ∨ table.length < maxSyscalls
  · rw [(recorded_keeps recorded kept).2 other]
    by_cases here : name = other
    · rw [if_pos here]
      exact iff_of_true rfl here
    · rw [if_neg here]
      refine iff_of_false (fun same => ?_) here
      linarith
  · obtain ⟨absent, crowded⟩ := not_or.mp kept
    have full := Nat.le_antisymm few (Nat.le_of_not_lt crowded)
    obtain ⟨entry, mem, gone, times⟩ := recorded_evicts names recorded absent full
    have time := times other
    by_cases here : name = other
    · have stays : entry.name ≠ other := by
        rintro rfl
        exact absent (here ▸ List.mem_map_of_mem mem)
      rw [if_pos here, if_neg stays, add_zero] at time
      exact iff_of_true time here
    · refine iff_of_false (fun same => ?_) here
      have lost := positive entry mem
      rw [if_neg here, same] at time
      split at time <;> linarith

end Times

section Credit

variable (libc : Libc)

def Credits (s : Stats) (line name : List UInt8) (time : ℚ) : Prop :=
  ∃ s', storeInMatrix libc s line = some s' ∧
    timeOf s'.syscalls name = timeOf s.syscalls name + time

/-- Every entry stays, and only the time read from the line is added. -/
def Harmless (s : Stats) (line : List UInt8) : Prop :=
  ∃ s', storeInMatrix libc s line = some s' ∧
    (∀ entry ∈ s.syscalls, entry.name ∈ s'.syscalls.map Syscall.name) ∧
    ((∀ other, timeOf s'.syscalls other = timeOf s.syscalls other) ∨
      ∃ name time, Reads libc line name time ∧ ∀ other,
        timeOf s'.syscalls other = timeOf s.syscalls other + if name = other then time else 0)

variable {libc} {s : Stats} {line name found : List UInt8} {time : ℚ}

theorem credits_reads_iff (table : Table s) (reads : Reads libc line found time) :
    Credits libc s line name time ↔ found = name := by
  obtain ⟨s', entries, stored, perm, recorded⟩ := store_reads table reads
  rw [← recorded_credits_iff table.names table.positive table.few reads.positive recorded,
    ← time_of_perm perm]
  constructor
  · rintro ⟨s'', stored', credited⟩
    cases stored.symm.trans stored'
    exact credited
  · exact fun credited => ⟨s', stored, credited⟩

theorem harmless_iff (table : Table s) :
    Harmless libc s line ↔ ¬ Crossed line ∧ ¬ Evicts libc s line := by
  constructor
  · rintro ⟨s', stored, stay, _⟩
    refine ⟨fun crossed => ?_, ?_⟩
    · rw [storeInMatrix, parse_crossed crossed] at stored
      cases stored
    · rintro ⟨name, time, reads, absent, full⟩
      obtain ⟨s'', entries, stored', perm, recorded⟩ := store_reads table reads
      cases stored.symm.trans stored'
      obtain ⟨entry, mem, gone, _⟩ := recorded_evicts table.names recorded absent full
      exact gone ((perm.map Syscall.name).mem_iff.mp (stay entry mem))
  · rintro ⟨ordered, keeps⟩
    cases parsed : parseLine libc line with
    | wraps => exact absurd (parse_wraps_iff.mp parsed) ordered
    | nothing =>
      refine ⟨s, ?_, fun entry mem => List.mem_map_of_mem mem, .inl fun _ => rfl⟩
      rw [storeInMatrix, parsed]
    | call name time =>
      have reads := parse_call_iff.mp parsed
      obtain ⟨s', entries, stored, perm, recorded⟩ := store_reads table reads
      have kept : name ∈ s.syscalls.map Syscall.name ∨ s.syscalls.length < maxSyscalls := by
        by_contra not_kept
        obtain ⟨absent, crowded⟩ := not_or.mp not_kept
        exact keeps ⟨name, time, reads, absent, Nat.le_antisymm table.few (Nat.le_of_not_lt crowded)⟩
      obtain ⟨stay, times⟩ := recorded_keeps recorded kept
      refine ⟨s', stored, fun entry mem => ?_, .inr ⟨name, time, reads, fun other => ?_⟩⟩
      · exact (perm.map Syscall.name).mem_iff.mpr (stay entry mem)
      · rw [time_of_perm perm]
        exact times other

end Credit

section Trace

def Letter (c : UInt8) : Prop := 65 ≤ c ∧ c ≤ 90 ∨ 97 ≤ c ∧ c ≤ 122 ∨ c = 95

instance (c : UInt8) : Decidable (Letter c) := instDecidableOr

def Identifier : List UInt8 → Prop
  | [] => False
  | c :: rest => Letter c ∧ ∀ d ∈ rest, Letter d ∨ Digit d

/-- A line name(args) = result <whole.frac>, with blanks up to the column of the results, and a
    newline where fgets has read one. -/
structure Traced (line name args result whole frac : List UInt8) : Prop where
  identifier : Identifier name
  whole_digits : ∀ c ∈ whole, Digit c
  frac_digits : ∀ c ∈ frac, Digit c
  some_whole : whole ≠ []
  some_frac : frac ≠ []
  shape : ∃ pad tail, (tail = [] ∨ tail = [10]) ∧ line =
    name ++ 40 :: (args ++ 41 :: (List.replicate (pad + 1) 32 ++ 61 :: 32 ::
      (result ++ 32 :: 60 :: ((whole ++ 46 :: frac) ++ 62 :: tail))))

variable (libc : Libc)

def ParsedRight (s : Stats) (line : List UInt8) : Prop :=
  (∀ name args result whole frac, Traced line name args result whole frac →
      Credits libc s line name (decimal whole frac)) ∧
    ((¬ ∃ name args result whole frac, Traced line name args result whole frac) →
      Harmless libc s line)

/-- No parenthesis in arguments and result, unless there is no time to credit; in other lines no
    crossed brackets, and no new name for a full table. -/
def Readable (s : Stats) (line : List UInt8) : Prop :=
  (∀ name args result whole frac, Traced line name args result whole frac →
      decimal whole frac = 0 ∨ 40 ∉ args ∧ 40 ∉ result) ∧
    ((¬ ∃ name args result whole frac, Traced line name args result whole frac) →
      ¬ Crossed line ∧ ¬ Evicts libc s line)

variable {libc} {s : Stats} {line name args result whole frac : List UInt8}

theorem decimal_nonneg (whole frac : List UInt8) : 0 ≤ decimal whole frac :=
  add_nonneg (Nat.cast_nonneg _)
    (div_nonneg (Nat.cast_nonneg _) (pow_nonneg (Nat.cast_nonneg 10) _))

theorem numeral_plain (traced : Traced line name args result whole frac) {c : UInt8}
    (digit : ¬ Digit c) (point : c ≠ 46) : c ∉ whole ++ 46 :: frac := by
  intro mem
  rcases List.mem_append.mp mem with mem | mem
  · exact digit (traced.whole_digits c mem)
  · rcases List.mem_cons.mp mem with same | mem
    · exact point same
    · exact digit (traced.frac_digits c mem)

theorem traced_times (traced : Traced line name args result whole frac) :
    ∃ body back, line = (name ++ 40 :: body) ++ 60 :: ((whole ++ 46 :: frac) ++ 62 :: back) ∧
      60 ∉ back ∧ 62 ∉ back ∧ 40 ∉ back ∧ (40 ∉ body ↔ 40 ∉ args ∧ 40 ∉ result) := by
  obtain ⟨pad, tail, ends, rfl⟩ := traced.shape
  refine ⟨args ++ 41 :: (List.replicate (pad + 1) 32 ++ 61 :: 32 :: (result ++ [32])), tail,
    by simp, ?_, ?_, ?_, ?_⟩
  · rcases ends with rfl | rfl <;> decide
  · rcases ends with rfl | rfl <;> decide
  · rcases ends with rfl | rfl <;> decide
  · simp

theorem traced_untimed (traced : Traced line name args result whole frac)
    (untimed : decimal whole frac = 0) : parseLine libc line = .nothing := by
  obtain ⟨body, back, rfl, back_out, last, _, _⟩ := traced_times traced
  have read := libc.numeral whole frac traced.whole_digits traced.frac_digits traced.some_whole
    traced.some_frac
  rw [parse_ordered (numeral_plain traced (by decide) (by decide)) back_out last, read, untimed]
  exact if_pos (.inr (le_refl _))

theorem traced_reads (libc : Libc) (traced : Traced line name args result whole frac)
    (timed : decimal whole frac ≠ 0) : ∃ found, Reads libc line found (decimal whole frac) ∧
      (found = name ↔ 40 ∉ args ∧ 40 ∉ result) := by
  obtain ⟨body, back, split, back_out, last, plain_back, plain⟩ := traced_times traced
  have text_out := numeral_plain traced (c := 60) (by decide) (by decide)
  have positive := lt_of_le_of_ne (decimal_nonneg whole frac) (Ne.symm timed)
  have read := libc.numeral whole frac traced.whole_digits traced.frac_digits traced.some_whole
    traced.some_frac
  have times : ∃ front text back, line = front ++ 60 :: (text ++ 62 :: back) ∧ text ≠ [] ∧
      60 ∉ text ∧ 60 ∉ back ∧ 62 ∉ back ∧ decimal whole frac = libc.atof text :=
    ⟨_, _, back, split, List.append_ne_nil_of_left_ne_nil traced.some_whole _, text_out, back_out,
      last, read.symm⟩
  have named : line = name ++ 40 :: (body ++ 60 :: ((whole ++ 46 :: frac) ++ 62 :: back)) := by
    rw [split, List.append_assoc, List.cons_append]
  rcases strrchr_cases line 40 with ⟨_, missing⟩ | ⟨found, rest, split', out, _⟩
  · rw [named] at missing
    exact absurd (List.mem_append_right _ List.mem_cons_self) missing
  · refine ⟨found, ⟨times, positive, rest, split', out⟩, ?_⟩
    rw [← plain]
    constructor
    · rintro rfl
      have same := List.append_cancel_left (named.symm.trans split')
      cases same
      exact fun mem => out (List.mem_append_left _ mem)
    · intro body_out
      refine last_place_unique out (fun mem => ?_) (split'.symm.trans named)
      rcases List.mem_append.mp mem with mem | mem
      · exact body_out mem
      · rcases List.mem_cons.mp mem with same | mem
        · exact absurd same (by decide)
        · rcases List.mem_append.mp mem with mem | mem
          · exact numeral_plain traced (by decide) (by decide) mem
          · exact (List.mem_cons.mp mem).elim (by decide) plain_back

theorem traced_credits_iff (table : Table s) (traced : Traced line name args result whole frac) :
    Credits libc s line name (decimal whole frac) ↔
      decimal whole frac = 0 ∨ 40 ∉ args ∧ 40 ∉ result := by
  by_cases untimed : decimal whole frac = 0
  · refine iff_of_true ⟨s, ?_, ?_⟩ (.inl untimed)
    · rw [storeInMatrix, traced_untimed traced untimed]
    · rw [untimed, add_zero]
  · obtain ⟨found, reads, plain⟩ := traced_reads libc traced untimed
    rw [credits_reads_iff table reads, plain, or_iff_right untimed]

theorem parsed_right_iff (table : Table s) (line : List UInt8) :
    ParsedRight libc s line ↔ Readable libc s line := by
  refine and_congr ?_ (imp_congr_right fun _ => harmless_iff table)
  constructor
  · exact fun right name args result whole frac traced =>
      (traced_credits_iff table traced).mp (right name args result whole frac traced)
  · exact fun readable name args result whole frac traced =>
      (traced_credits_iff table traced).mpr (readable name args result whole frac traced)

/-- In every state a trace leads to, the next line is parsed correctly exactly when it is
    readable. -/
theorem lines_parsed_iff (libc : Libc) (lines : List (List UInt8)) :
    Throughout (storeInMatrix libc) (fun s => ∀ line, ParsedRight libc s line ↔ Readable libc s line)
      started lines :=
  throughout_of_invariant (fun _ _ _ table stored => table_step table stored)
    (fun _ table line => parsed_right_iff table line) lines table_started

/-- The line close(9) = -1 EBADF (Bad file descriptor) <0.000010>, with a newline behind it. -/
def failedClose : List UInt8 :=
  [99, 108, 111, 115, 101, 40, 57, 41, 32, 61, 32, 45, 49, 32, 69, 66, 65, 68, 70, 32, 40, 66, 97,
    100, 32, 102, 105, 108, 101, 32, 100, 101, 115, 99, 114, 105, 112, 116, 111, 114, 41, 32, 60, 48,
    46, 48, 48, 48, 48, 49, 48, 62, 10]

theorem failed_close_traced : Traced failedClose [99, 108, 111, 115, 101] [57]
    [45, 49, 32, 69, 66, 65, 68, 70, 32, 40, 66, 97, 100, 32, 102, 105, 108, 101, 32, 100, 101, 115,
      99, 114, 105, 112, 116, 111, 114, 41] [48] [48, 48, 48, 48, 49, 48] where
  identifier := by
    simp [Identifier, Letter]
  whole_digits := by
    simp [Digit]
  frac_digits := by
    simp [Digit]
  some_whole := List.cons_ne_nil _ _
  some_frac := List.cons_ne_nil _ _
  shape := ⟨0, [10], .inr rfl, rfl⟩

/-- The time of a close that failed goes to an entry with the name close(9) = -1 EBADF. -/
theorem error_text_in_name : ¬ Throughout (storeInMatrix glibc)
    (fun s => ∀ line, ParsedRight glibc s line) started [] := by
  intro right
  have credits := (throughout_start right failedClose).1 _ _ _ _ _ failed_close_traced
  rcases (traced_credits_iff table_started failed_close_traced).mp credits with untimed | ⟨_, plain⟩
  · exact absurd untimed (by simp [decimal, digitsValue])
  · exact absurd plain (by decide)

end Trace

end Sperf
