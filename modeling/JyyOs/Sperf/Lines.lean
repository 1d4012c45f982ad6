import JyyOs.Sperf.Store

/-!
What store_in_matrix reads in a line. It looks for the last bracket of each kind.
-/
namespace Sperf

section Places

variable {α : Type} {x y : α} {front front' back back' : List α}

theorem two_places (different : x ≠ y) (same : front ++ x :: back = front' ++ y :: back') :
    (∃ between, front' = front ++ x :: between ∧ back = between ++ y :: back') ∨
      ∃ between, front = front' ++ y :: between ∧ back' = between ++ x :: back := by
  rcases List.append_eq_append_iff.mp same with ⟨rest, ends, starts⟩ | ⟨rest, ends, starts⟩
  · cases rest with
    | nil =>
      cases starts
      exact absurd rfl different
    | cons z between =>
      cases starts
      exact .inl ⟨between, ends, rfl⟩
  · cases rest with
    | nil =>
      cases starts
      exact absurd rfl different
    | cons z between =>
      cases starts
      exact .inr ⟨between, ends, rfl⟩

theorem last_place_unique (out : x ∉ back) (out' : x ∉ back')
    (same : front ++ x :: back = front' ++ x :: back') : front = front' := by
  rcases List.append_eq_append_iff.mp same with ⟨rest, ends, starts⟩ | ⟨rest, ends, starts⟩
  · cases rest with
    | nil => rw [ends, List.append_nil]
    | cons z between =>
      cases starts
      exact absurd (List.mem_append_right _ List.mem_cons_self) out
  · cases rest with
    | nil => rw [ends, List.append_nil]
    | cons z between =>
      cases starts
      exact absurd (List.mem_append_right _ List.mem_cons_self) out'

end Places

section Reading

variable (libc : Libc)

/-- A positive time between the last opening and the last closing bracket, and the text in front of
    the last parenthesis. -/
structure Reads (line name : List UInt8) (time : ℚ) : Prop where
  times : ∃ front text back, line = front ++ 60 :: (text ++ 62 :: back) ∧ text ≠ [] ∧ 60 ∉ text ∧
    60 ∉ back ∧ 62 ∉ back ∧ time = libc.atof text
  positive : 0 < time
  named : ∃ back, line = name ++ 40 :: back ∧ 40 ∉ back

def Crossed (line : List UInt8) : Prop :=
  ∃ front text back, line = front ++ 62 :: (text ++ 60 :: back) ∧ 62 ∉ text ∧ 62 ∉ back ∧ 60 ∉ back

def Evicts (s : Stats) (line : List UInt8) : Prop :=
  ∃ name time, Reads libc line name time ∧ name ∉ s.syscalls.map Syscall.name ∧
    s.syscalls.length = maxSyscalls

variable {libc} {s : Stats} {line name front text back : List UInt8} {time : ℚ}

theorem parse_unbracketed (missing : 60 ∉ line ∨ 62 ∉ line) : parseLine libc line = .nothing := by
  rcases missing with missing | missing
  · rw [parseLine, strrchr_none missing]
  · rw [parseLine, strrchr_none missing]
    cases strrchr line 60 <;> rfl

theorem parse_crossed (crossed : Crossed line) : parseLine libc line = .wraps := by
  obtain ⟨front, text, back, rfl, text_out, back_out, last⟩ := crossed
  have closing : strrchr (front ++ 62 :: (text ++ 60 :: back)) 62 = some front.length := by
    refine strrchr_last front fun mem => ?_
    rcases List.mem_append.mp mem with mem | mem
    · exact text_out mem
    · exact (List.mem_cons.mp mem).elim (by decide) back_out
  have opening : strrchr (front ++ 62 :: (text ++ 60 :: back)) 60 =
      some (front ++ 62 :: text).length := by
    have found := strrchr_last (front ++ 62 :: text) last
    rwa [List.append_assoc, List.cons_append] at found
  have behind : (front.length : Int) - (front ++ 62 :: text).length - 1 < 0 := by
    rw [List.length_append, List.length_cons]
    omega
  rw [parseLine, opening, closing]
  simp only
  rw [if_neg (ne_of_lt behind), if_pos behind]

theorem parse_ordered (text_out : 60 ∉ text) (back_out : 60 ∉ back) (last : 62 ∉ back) :
    parseLine libc (front ++ 60 :: (text ++ 62 :: back)) =
      if text = [] ∨ libc.atof text ≤ 0 then .nothing
      else match strrchr (front ++ 60 :: (text ++ 62 :: back)) 40 with
        | none => .nothing
        | some nameLen =>
          .call ((front ++ 60 :: (text ++ 62 :: back)).take nameLen) (libc.atof text) := by
  have opening : strrchr (front ++ 60 :: (text ++ 62 :: back)) 60 = some front.length := by
    refine strrchr_last front fun mem => ?_
    rcases List.mem_append.mp mem with mem | mem
    · exact text_out mem
    · exact (List.mem_cons.mp mem).elim (by decide) back_out
  have closing : strrchr (front ++ 60 :: (text ++ 62 :: back)) 62 =
      some (front ++ 60 :: text).length := by
    have found := strrchr_last (front ++ 60 :: text) last
    rwa [List.append_assoc, List.cons_append] at found
  have len : ((front ++ 60 :: text).length : Int) - front.length - 1 = text.length := by
    rw [List.length_append, List.length_cons]
    omega
  have between : ((front ++ 60 :: (text ++ 62 :: back)).drop (front.length + 1)).take text.length =
      text := by
    rw [← List.drop_drop, List.drop_left, List.drop_one, List.tail_cons, List.take_left]
  rw [parseLine, opening, closing]
  simp only [len, Int.toNat_natCast, between]
  by_cases empty : text = []
  · rw [if_pos (by rw [empty]; rfl), if_pos (.inl empty)]
  · have some_text : (text.length : Int) ≠ 0 := by
      exact_mod_cast fun none_left => empty (List.length_eq_zero_iff.mp none_left)
    rw [if_neg some_text, if_neg (Int.not_lt.mpr (Int.natCast_nonneg _))]
    by_cases real : libc.atof text ≤ 0
    · rw [if_pos real, if_pos (.inr real)]
    · refine (if_neg real).trans (Eq.trans ?_ (if_neg (not_or.mpr ⟨empty, real⟩)).symm)
      cases strrchr (front ++ 60 :: (text ++ 62 :: back)) 40 <;> rfl

theorem brackets_cases (line : List UInt8) : (60 ∉ line ∨ 62 ∉ line) ∨ Crossed line ∨
    ∃ front text back, line = front ++ 60 :: (text ++ 62 :: back) ∧ 60 ∉ text ∧ 60 ∉ back ∧
      62 ∉ back := by
  rcases strrchr_cases line 60 with ⟨_, missing⟩ | ⟨front, back, split, out, _⟩
  · exact .inl (.inl missing)
  · rcases strrchr_cases line 62 with ⟨_, missing⟩ | ⟨front', back', split', out', _⟩
    · exact .inl (.inr missing)
    · rw [split] at split'
      rcases two_places (by decide) split' with ⟨between, _, rfl⟩ | ⟨between, rfl, rfl⟩
      · obtain ⟨text_out, later⟩ := not_or.mp (mt List.mem_append.mpr out)
        exact .inr (.inr ⟨front, between, back', split, text_out,
          List.not_mem_of_not_mem_cons later, out'⟩)
      · obtain ⟨text_out, later⟩ := not_or.mp (mt List.mem_append.mpr out')
        refine .inr (.inl ⟨front', between, back, ?_, text_out,
          List.not_mem_of_not_mem_cons later, out⟩)
        rw [split, List.append_assoc, List.cons_append]

theorem parse_wraps_iff : parseLine libc line = .wraps ↔ Crossed line := by
  refine ⟨fun wraps => ?_, parse_crossed⟩
  rcases brackets_cases line with missing | crossed |
    ⟨front, text, back, rfl, text_out, back_out, last⟩
  · rw [parse_unbracketed missing] at wraps
    cases wraps
  · exact crossed
  · rw [parse_ordered text_out back_out last] at wraps
    split at wraps
    · cases wraps
    · split at wraps <;> cases wraps

theorem reads_parsed (reads : Reads libc line name time) :
    parseLine libc line = .call name time := by
  obtain ⟨front, text, back, split, some_text, text_out, back_out, last, rfl⟩ := reads.times
  obtain ⟨args, named, out⟩ := reads.named
  have opening : strrchr line 40 = some name.length := by
    rw [named]
    exact strrchr_last name out
  have cut : line.take name.length = name := by
    rw [named]
    exact List.take_left
  rw [split] at opening cut ⊢
  rw [parse_ordered text_out back_out last,
    if_neg (not_or.mpr ⟨some_text, not_le.mpr reads.positive⟩), opening]
  simp only
  rw [cut]

theorem parse_call_iff : parseLine libc line = .call name time ↔ Reads libc line name time := by
  refine ⟨fun call => ?_, reads_parsed⟩
  rcases brackets_cases line with missing | crossed |
    ⟨front, text, back, split, text_out, back_out, last⟩
  · rw [parse_unbracketed missing] at call
    cases call
  · rw [parse_crossed crossed] at call
    cases call
  · rcases strrchr_cases line 40 with ⟨missing, _⟩ | ⟨before, args, named, out, opening⟩
    · rw [split] at call missing
      rw [parse_ordered text_out back_out last, missing] at call
      split at call <;> cases call
    · have cut : line.take before.length = before := by
        rw [named]
        exact List.take_left
      rw [split] at call opening cut
      rw [parse_ordered text_out back_out last, opening] at call
      split at call
      · cases call
      · rename_i timed
        obtain ⟨some_text, real⟩ := not_or.mp timed
        simp only [cut] at call
        cases call
        exact ⟨⟨front, text, back, split, some_text, text_out, back_out, last, rfl⟩,
          not_le.mp real, args, named, out⟩

theorem store_reads (table : Table s) (reads : Reads libc line name time) :
    ∃ s' entries, storeInMatrix libc s line = some s' ∧ s'.syscalls.Perm entries ∧
      Recorded s.syscalls name time entries := by
  obtain ⟨recorded, _⟩ := store_call_recorded table.names table.few name time
  refine ⟨⟨libc.qsort (storeCall s name time).syscalls, (storeCall s name time).totalTime⟩, _, ?_,
    libc.perm _, recorded⟩
  rw [storeInMatrix, reads_parsed reads]

end Reading

end Sperf
