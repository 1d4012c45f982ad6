import JyyOs.Library.PartialRun
import JyyOs.Sperf.Lines
import Mathlib.Algebra.Order.BigOperators.Group.List
import Mathlib.Algebra.Order.Floor.Ring
import Mathlib.Data.Rat.Floor

/-!
Runs of store_in_matrix over the lines of a trace: what the table and total_time have in common.
-/
namespace Sperf

open PartialRun

section Percent

variable {table : List Syscall} {total : ℚ}

theorem to_int_le {q : ℚ} (nonneg : 0 ≤ q) : (toInt q : ℚ) ≤ q := by
  have num : 0 ≤ q.num := Rat.num_nonneg.mpr nonneg
  have floor : toInt q = ⌊q⌋ := by
    rw [toInt, Int.tdiv_eq_ediv_of_nonneg num, Rat.floor_def']
  rw [floor]
  exact Int.floor_le q

theorem percents_bounded (positive : ∀ entry ∈ table, 0 < entry.timeCnt) (real : 0 < total) :
    (((table.map fun call => toInt (call.timeCnt / total * 100)).sum : Int) : ℚ) ≤
      timeSum table / total * 100 := by
  induction table with
  | nil => simp [timeSum]
  | cons entry rest ih =>
    have here := to_int_le (q := entry.timeCnt / total * 100)
      (mul_nonneg (div_nonneg (le_of_lt (positive entry List.mem_cons_self)) (le_of_lt real))
        (by norm_num))
    have later := ih fun e mem => positive e (List.mem_cons_of_mem _ mem)
    rw [List.map_cons, List.sum_cons, time_sum_cons, Int.cast_add, add_div, add_mul]
    exact add_le_add here later

theorem time_sum_nonneg (positive : ∀ entry ∈ table, 0 < entry.timeCnt) : 0 ≤ timeSum table := by
  refine List.sum_nonneg fun x mem => ?_
  obtain ⟨entry, inside, rfl⟩ := List.mem_map.mp mem
  exact le_of_lt (positive entry inside)

theorem printed_bounded {s : Stats} (table : Table s) :
    ((printMaxFive s).map Prod.snd).sum ≤ 100 := by
  have printed : (printMaxFive s).map Prod.snd =
      (s.syscalls.take 5).map fun call => toInt (call.timeCnt / s.totalTime * 100) := by
    rw [printMaxFive, List.map_map]
    rfl
  rw [printed]
  have first : ∀ entry ∈ s.syscalls.take 5, 0 < entry.timeCnt :=
    fun entry mem => table.positive entry (List.mem_of_mem_take mem)
  have rest : ∀ entry ∈ s.syscalls.drop 5, 0 < entry.timeCnt :=
    fun entry mem => table.positive entry (List.mem_of_mem_drop mem)
  have split : timeSum s.syscalls = timeSum (s.syscalls.take 5) + timeSum (s.syscalls.drop 5) := by
    rw [← time_sum_append, List.take_append_drop]
  have covered := table.covered
  have front := time_sum_nonneg first
  have back := time_sum_nonneg rest
  rcases lt_or_eq_of_le (show 0 ≤ s.totalTime by linarith) with real | none_stored
  · have bounded := percents_bounded first real
    have share : timeSum (s.syscalls.take 5) / s.totalTime ≤ 1 := by
      rw [div_le_one real]
      linarith
    have most : (((s.syscalls.take 5).map fun call =>
        toInt (call.timeCnt / s.totalTime * 100)).sum : ℚ) ≤ 100 := by
      linarith
    exact_mod_cast most
  · rw [← none_stored]
    simp [toInt]

end Percent

section Runs

variable (libc : Libc)

structure Conserved (s : Stats) : Prop where
  few : s.syscalls.length ≤ maxSyscalls
  names : (s.syscalls.map Syscall.name).Nodup
  sorted : s.syscalls.Pairwise fun a b => b.timeCnt ≤ a.timeCnt
  total : s.totalTime = timeSum s.syscalls
  printed : ((printMaxFive s).map Prod.snd).sum ≤ 100

variable {libc} {s s' : Stats} {line : List UInt8}

theorem conserved_iff (table : Table s) : Conserved s ↔ s.totalTime = timeSum s.syscalls :=
  ⟨Conserved.total, fun total =>
    ⟨table.few, table.names, table.sorted, total, printed_bounded table⟩⟩

/-- The time of the entry that goes stays in total_time. -/
theorem step_conserves_iff (table : Table s) (total : s.totalTime = timeSum s.syscalls)
    (stored : storeInMatrix libc s line = some s') :
    s'.totalTime = timeSum s'.syscalls ↔ ¬ Evicts libc s line := by
  rcases store_cases table stored with ⟨parsed, rfl⟩ |
    ⟨name, callTime, entries, parsed, _, recorded, perm, _, total'⟩
  · refine iff_of_true total fun ⟨name, time, reads, _⟩ => ?_
    rw [reads_parsed reads] at parsed
    cases parsed
  · have reads := parse_call_iff.mp parsed
    rw [total', time_sum_perm perm, total]
    rcases recorded_sum recorded with ⟨sum, kept⟩ | ⟨entry, mem, sum, absent, full⟩
    · refine iff_of_true sum.symm fun ⟨name', time', reads', absent, full⟩ => ?_
      cases (reads_parsed reads').symm.trans parsed
      rcases kept with listed | room
      · exact absent listed
      · exact absurd full (Nat.ne_of_lt room)
    · have gone := table.positive entry mem
      refine iff_of_false (fun same => ?_) fun keeps => keeps ⟨name, callTime, reads, absent, full⟩
      linarith

theorem step_conserved_iff (table : Table s) (conserved : Conserved s)
    (stored : storeInMatrix libc s line = some s') : Conserved s' ↔ ¬ Evicts libc s line :=
  (conserved_iff (table_step table stored)).trans (step_conserves_iff table conserved.total stored)

/-- The time is conserved in a run exactly when no line evicts an entry. -/
theorem time_conserved_iff (libc : Libc) (lines : List (List UInt8)) :
    Throughout (storeInMatrix libc) Conserved started lines ↔
      EachStep (storeInMatrix libc) (fun s line => ¬ Evicts libc s line) started lines :=
  throughout_iff_each_step (fun _ _ _ table stored => table_step table stored)
    (fun _ _ _ table conserved stored => step_conserved_iff table conserved stored) lines
    table_started ((conserved_iff table_started).mpr rfl)

def callName (k : Nat) : List UInt8 := List.replicate (k + 1) 97

/-- The line a...a() = 0 <1.0>. -/
def callLine (k : Nat) : List UInt8 :=
  callName k ++ 40 :: [41, 32, 61, 32, 48, 32, 60, 49, 46, 48, 62]

theorem call_name_injective : Function.Injective callName := fun i j same => by
  have lengths := congrArg List.length same
  rw [callName, callName, List.length_replicate, List.length_replicate] at lengths
  exact Nat.succ.inj lengths

theorem call_line_reads (libc : Libc) (k : Nat) : Reads libc (callLine k) (callName k) 1 where
  times := by
    have one : decimal [49] [48] = 1 := by
      simp [decimal, digitsValue]
    have read := libc.numeral [49] [48] (by simp [Digit]) (by simp [Digit]) (by simp) (by simp)
    refine ⟨callName k ++ [40, 41, 32, 61, 32, 48, 32], [49, 46, 48], [], ?_, by decide, by decide,
      by decide, by decide, one.symm.trans read.symm⟩
    rw [callLine, List.append_assoc]
    rfl
  positive := one_pos
  named := ⟨_, rfl, by decide⟩

theorem calls_listed {k : Nat} (names : (s.syscalls.map Syscall.name).Perm
    ((List.range k).map callName)) :
    s.syscalls.length = k ∧ callName k ∉ s.syscalls.map Syscall.name := by
  constructor
  · have lengths := names.length_eq
    rwa [List.length_map, List.length_map, List.length_range] at lengths
  · intro listed
    obtain ⟨i, inside, same⟩ := List.mem_map.mp (names.mem_iff.mp listed)
    rw [call_name_injective same] at inside
    exact absurd (List.mem_range.mp inside) (Nat.lt_irrefl k)

theorem one_more_call {k : Nat}
    (ran : run (storeInMatrix libc) started ((List.range k).map callLine) = some s)
    (stored : storeInMatrix libc s (callLine k) = some s') :
    run (storeInMatrix libc) started ((List.range (k + 1)).map callLine) = some s' := by
  rw [List.range_succ, List.map_append]
  exact run_append ran (by rw [List.map_singleton, run, stored]; rfl)

theorem calls_stored (libc : Libc) (k : Nat) (few : k ≤ maxSyscalls) :
    ∃ s, run (storeInMatrix libc) started ((List.range k).map callLine) = some s ∧ Table s ∧
      s.totalTime = timeSum s.syscalls ∧
      (s.syscalls.map Syscall.name).Perm ((List.range k).map callName) := by
  induction k with
  | zero => exact ⟨started, rfl, table_started, rfl, List.Perm.nil⟩
  | succ k ih =>
    obtain ⟨s, ran, table, total, names⟩ := ih (Nat.le_of_succ_le few)
    obtain ⟨size, absent⟩ := calls_listed names
    have room : s.syscalls.length ≠ maxSyscalls := by
      rw [size]
      exact Nat.ne_of_lt few
    obtain ⟨s', entries, stored, perm, recorded⟩ := store_reads table (call_line_reads libc k)
    refine ⟨s', one_more_call ran stored, table_step table stored, ?_, ?_⟩
    · refine (step_conserves_iff table total stored).mpr ?_
      rintro ⟨_, _, _, _, full⟩
      exact room full
    · refine (perm.map Syscall.name).trans ?_
      cases recorded with
      | found split here =>
        rw [split] at absent
        exact absurd (by simp [here]) absent
      | added _ _ =>
        rw [List.range_succ, List.map_append, List.map_append]
        exact names.append_right _
      | replaced _ _ full => exact absurd full room

/-- The entry that goes for the name after the last one that fits leaves its time behind. -/
theorem evicted_time_stays : ¬ Throughout (storeInMatrix glibc) Conserved started
    ((List.range (maxSyscalls + 1)).map callLine) := by
  intro conserved
  obtain ⟨s, ran, table, total, names⟩ := calls_stored glibc maxSyscalls (Nat.le_refl _)
  obtain ⟨full, absent⟩ := calls_listed names
  have reads := call_line_reads glibc maxSyscalls
  obtain ⟨s', _, stored, _, _⟩ := store_reads table reads
  have last := throughout_of_run conserved (one_more_call ran stored)
  exact (step_conserves_iff table total stored).mp last.total ⟨_, _, reads, absent, full⟩

end Runs

end Sperf
