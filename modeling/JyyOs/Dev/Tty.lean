import JyyOs.Library.Ring
import JyyOs.Library.PartialRun
import Mathlib.Data.Int.Basic

/-!
dev_tty.c: the line discipline of a tty. tty_cook and the part of tty_read under tty->lock are one
step each, the wait for tty->cooked is a step of its own. Positions count from q->buf, so q->end
is TTY_COOK_BUF_SZ. A panic and a loop that finds no end of line are `none`.
-/
namespace DevTty

open PartialRun

def ttyCookBufSz : Nat := 1024

def newline : UInt8 := 10
def backspace : UInt8 := 8

structure TtyQueue where
  buf : Nat → UInt8
  front : Nat
  rear : Nat

/-- A position that has reached q->end goes on at q->buf. -/
def wrap (pos : Nat) : Nat := if pos = ttyCookBufSz then 0 else pos

def ttyEnqueue (q : TtyQueue) (ch : UInt8) : Option TtyQueue :=
  let q := { q with buf := Function.update q.buf q.rear ch, rear := wrap (q.rear + 1) }
  if q.rear = q.front then none else some { q with buf := Function.update q.buf q.rear 0 }

def ttyPopBack (q : TtyQueue) : TtyQueue × Nat :=
  if q.front ≠ ttyCookBufSz then
    let pos := if q.rear = 0 then ttyCookBufSz else q.rear
    if q.buf (pos - 1) ≠ 0 then
      ({ q with rear := pos - 1, buf := Function.update q.buf (pos - 1) 0 }, 0)
    else (q, 1)
  else (q, 1)

def ttyReadLoop (count : Int) : Nat → TtyQueue → List UInt8 → Option (TtyQueue × List UInt8)
  | 0, _, _ => none
  | fuel + 1, q, buf =>
    let ch := q.buf q.front
    let buf := if (buf.length : Int) < count ∧ ch ≠ 0 then buf ++ [ch] else buf
    let q := { q with front := wrap (q.front + 1) }
    if ch = 0 then some (q, buf) else ttyReadLoop count fuel q buf

/-- `cooked` is the count of tty->cooked and `entered` the number of tty_read calls past their wait
    for it. `ret` is the result of the last tty_cook; `typed` and `reads` record what was typed and
    the completed tty_read calls with their count and result. -/
structure Tty where
  queue : TtyQueue
  cooked : Nat
  entered : Nat
  ret : Nat
  typed : List UInt8
  reads : List (Int × List UInt8)

inductive Event where
  | cook (ch : UInt8)
  | enter
  | read (count : Int)

def ttyCook (s : Tty) (ch : UInt8) : Option Tty :=
  let s := { s with ret := 0, typed := s.typed ++ [ch] }
  if ch = newline then
    match ttyEnqueue s.queue ch with
    | none => none
    | some q =>
      match ttyEnqueue q 0 with
      | none => none
      | some q => some { s with queue := q, cooked := s.cooked + 1 }
  else if ch = backspace then
    let popped := ttyPopBack s.queue
    some { s with queue := popped.1, ret := popped.2 }
  else
    match ttyEnqueue s.queue ch with
    | none => none
    | some q => some { s with queue := q }

/-- tty_read between the lock and the unlock of tty->lock. A loop of more than TTY_COOK_BUF_SZ
    rounds has seen every cell and never ends. -/
def ttyRead (s : Tty) (count : Int) : Option Tty :=
  match ttyReadLoop count ttyCookBufSz s.queue [] with
  | none => none
  | some (q, buf) =>
    some { s with queue := q, entered := s.entered - 1, reads := s.reads ++ [(count, buf)] }

/-- dev_tty_task cooks only characters other than NUL. -/
def step (s : Tty) : Event → Option Tty
  | .cook ch => if ch = 0 then none else ttyCook s ch
  | .enter =>
    if s.cooked = 0 then none
    else some { s with cooked := s.cooked - 1, entered := s.entered + 1 }
  | .read count => if s.entered = 0 then none else ttyRead s count

/-- The queue of tty_init, on a buffer with any contents. -/
def ttyInit (buf : Nat → UInt8) : Tty := ⟨⟨buf, 0, 0⟩, 0, 0, 0, [], []⟩

/-- The completed lines, each with its newline, and the current line. -/
def typeChar (lines : List (List UInt8) × List UInt8) (ch : UInt8) :
    List (List UInt8) × List UInt8 :=
  if ch = newline then (lines.1 ++ [lines.2 ++ [newline]], [])
  else if ch = backspace then (lines.1, lines.2.dropLast)
  else (lines.1, lines.2 ++ [ch])

def Tty.lines (s : Tty) : List (List UInt8) × List UInt8 := s.typed.foldl typeChar ([], [])

def Tty.completed (s : Tty) : List (List UInt8) := s.lines.1

def Tty.current (s : Tty) : List UInt8 := s.lines.2

/-- The k-th read returned the start of the k-th line. -/
def LinesRead (s : Tty) : Prop :=
  ∀ (k : Nat) (count : Int) (buf : List UInt8), s.reads[k]? = some (count, buf) →
    ∃ line : List UInt8, s.completed[k]? = some line ∧ buf = line.take count.toNat

/-- A backspace on an empty line changes nothing and is reported. -/
def BackspaceIgnored (s : Tty) (e : Event) : Prop :=
  e = .cook backspace → s.current = [] →
    ∀ s', step s e = some s' → s'.queue = s.queue ∧ s'.ret = 1

/-- A backspace comes on an empty line before the first newline only if the last byte of the
    buffer is NUL. -/
def CleanStart (s : Tty) (e : Event) : Prop :=
  e = .cook backspace → s.current = [] → s.completed = [] → s.queue.buf (ttyCookBufSz - 1) = 0

def stored (unread : List (List UInt8)) : List UInt8 := unread.flatMap (· ++ [0])

def beforeLine (q : TtyQueue) (unread : List (List UInt8)) : Nat :=
  (q.front + (stored unread).length + (ttyCookBufSz - 1)) % ttyCookBufSz

structure LineInv (s : Tty) (unread : List (List UInt8)) : Prop where
  ring : Ring.Holds ttyCookBufSz s.queue.buf s.queue.front s.queue.rear
    (stored unread ++ s.current)
  passed : s.reads.length ≤ s.completed.length
  left : s.completed.drop s.reads.length = unread
  tokens : unread.length = s.cooked + s.entered
  chars : ∀ line ∈ unread, ∀ ch ∈ line, ch ≠ 0
  current : ∀ ch ∈ s.current, ch ≠ 0
  fenced : s.completed ≠ [] → s.queue.buf (beforeLine s.queue unread) = 0
  first : s.completed = [] → s.queue.front = 0
  reads : LinesRead s

section Queue

variable {q q' : TtyQueue} {list : List UInt8} {ch : UInt8}

theorem wrap_mod {p : Nat} (small : p ≤ ttyCookBufSz) : wrap p = p % ttyCookBufSz := by
  unfold wrap
  split
  · rename_i full
    rw [full, Nat.mod_self]
  · exact (Nat.mod_eq_of_lt (by omega)).symm

/-- tty_enqueue appends, and clears or leaves every cell outside the queue. -/
theorem enqueue_ok (holds : Ring.Holds ttyCookBufSz q.buf q.front q.rear list)
    (ran : ttyEnqueue q ch = some q') :
    Ring.Holds ttyCookBufSz q'.buf q'.front q'.rear (list ++ [ch]) ∧ q'.front = q.front ∧
      ∀ k, k < ttyCookBufSz → k ≠ list.length →
        q.buf ((q.front + k) % ttyCookBufSz) = 0 → q'.buf ((q.front + k) % ttyCookBufSz) = 0 := by
  have rear_in := Ring.holds_rear holds
  have room := holds.room
  have here := holds.rear_at
  simp only [ttyEnqueue, wrap_mod (p := q.rear + 1) rear_in] at ran
  split at ran
  · cases ran
  · rename_i free
    cases ran
    have next : (q.rear + 1) % ttyCookBufSz = (q.front + (list.length + 1)) % ttyCookBufSz := by
      rw [here, Nat.mod_add_mod, Nat.add_assoc]
    have more : list.length + 1 < ttyCookBufSz := by
      refine Nat.lt_of_le_of_ne room fun full => free ?_
      rw [next, full, Nat.add_mod_right, Nat.mod_eq_of_lt holds.front_in]
    have pushed := Ring.holds_push holds more ch
    refine ⟨?_, rfl, fun k inside apart clear => ?_⟩
    · simp only [next] at pushed ⊢
      exact Ring.holds_update pushed (by simp) more 0
    · simp only
      by_cases last : (q.front + k) % ttyCookBufSz = (q.rear + 1) % ttyCookBufSz
      · rw [last, Function.update_self]
      · rw [Function.update_of_ne last, Function.update_of_ne, clear]
        rw [here]
        exact fun same => apart (Ring.offsets_apart inside room same)

theorem pop_back_pos (inside : q.rear < ttyCookBufSz) :
    (if q.rear = 0 then ttyCookBufSz else q.rear) - 1 =
      (q.rear + ttyCookBufSz - 1) % ttyCookBufSz := by
  split
  · rename_i start
    rw [start, Nat.zero_add]
    exact (Nat.mod_eq_of_lt (Nat.sub_one_lt_of_lt inside)).symm
  · have back : q.rear + ttyCookBufSz - 1 = q.rear - 1 + ttyCookBufSz := by omega
    rw [back, Nat.add_mod_right, Nat.mod_eq_of_lt (by omega)]

theorem pop_back_ignored (holds : Ring.Holds ttyCookBufSz q.buf q.front q.rear list)
    (clear : q.buf ((q.rear + ttyCookBufSz - 1) % ttyCookBufSz) = 0) : ttyPopBack q = (q, 1) := by
  rw [← pop_back_pos (Ring.holds_rear holds)] at clear
  rw [ttyPopBack, if_pos (Nat.ne_of_lt holds.front_in)]
  simp only [clear, ne_eq, not_true_eq_false, if_false]

theorem pop_back_ok (holds : Ring.Holds ttyCookBufSz q.buf q.front q.rear (list ++ [ch]))
    (real : ch ≠ 0) :
    Ring.Holds ttyCookBufSz (ttyPopBack q).1.buf (ttyPopBack q).1.front (ttyPopBack q).1.rear
        list ∧
      (ttyPopBack q).1.front = q.front ∧ ∀ x, q.buf x = 0 → (ttyPopBack q).1.buf x = 0 := by
  obtain ⟨last, popped⟩ := Ring.holds_pop_back holds
  have pos := pop_back_pos (Ring.holds_rear holds)
  have taken : ttyPopBack q =
      (⟨Function.update q.buf ((q.rear + ttyCookBufSz - 1) % ttyCookBufSz) 0, q.front,
        (q.rear + ttyCookBufSz - 1) % ttyCookBufSz⟩, 0) := by
    rw [ttyPopBack, if_pos (Nat.ne_of_lt holds.front_in)]
    simp only [pos, last, ne_eq, real, not_false_eq_true, if_true]
  rw [taken]
  refine ⟨?_, rfl, fun x clear => ?_⟩
  · have at_end := popped.rear_at
    simp only
    have cleared := Ring.holds_update popped (Nat.le_refl _) popped.room 0
    rwa [← at_end] at cleared
  · simp only
    by_cases here : x = (q.rear + ttyCookBufSz - 1) % ttyCookBufSz
    · rw [here, Function.update_self]
    · rw [Function.update_of_ne here, clear]

theorem read_loop_ok {line more : List UInt8} (buf : List UInt8) {count : Int} (fuel : Nat)
    (holds : Ring.Holds ttyCookBufSz q.buf q.front q.rear (line ++ 0 :: more))
    (chars : ∀ ch ∈ line, ch ≠ 0) (enough : line.length < fuel) :
    ∃ q', ttyReadLoop count fuel q buf = some (q', buf ++ line.take (count.toNat - buf.length)) ∧
      Ring.Holds ttyCookBufSz q'.buf q'.front q'.rear more ∧ q'.buf = q.buf ∧
      q'.front = (q.front + (line.length + 1)) % ttyCookBufSz := by
  induction line generalizing q buf fuel with
  | nil =>
    obtain ⟨fuel, rfl⟩ := Nat.exists_eq_add_one_of_ne_zero (Nat.ne_of_gt enough)
    obtain ⟨here, popped⟩ := Ring.holds_pop holds
    rw [← wrap_mod (p := q.front + 1) holds.front_in] at popped
    refine ⟨{ q with front := wrap (q.front + 1) }, ?_, popped, rfl, wrap_mod holds.front_in⟩
    simp only [ttyReadLoop, here, ne_eq, not_true_eq_false, and_false, if_false, if_true,
      List.take_nil, List.append_nil]
  | cons ch line ih =>
    obtain ⟨fuel, rfl⟩ := Nat.exists_eq_add_one_of_ne_zero (Nat.ne_of_gt (Nat.zero_lt_of_lt enough))
    obtain ⟨here, popped⟩ := Ring.holds_pop holds
    have real := chars ch List.mem_cons_self
    rw [← wrap_mod (p := q.front + 1) holds.front_in] at popped
    obtain ⟨q', ran, left, same, front⟩ := ih (q := { q with front := wrap (q.front + 1) })
      (if (buf.length : Int) < count then buf ++ [ch] else buf) fuel popped
      (fun x mem => chars x (List.mem_cons_of_mem _ mem)) (Nat.lt_of_succ_lt_succ enough)
    refine ⟨q', ?_, left, same, ?_⟩
    · simp only [ttyReadLoop, here, ne_eq, real, not_false_eq_true, and_true, if_false]
      rw [ran]
      split
      · rename_i wanted
        have room : count.toNat - buf.length = count.toNat - (buf ++ [ch]).length + 1 := by
          rw [List.length_append, List.length_singleton]
          omega
        rw [room, List.take_succ_cons, List.append_assoc]
        rfl
      · have room : count.toNat - buf.length = 0 := by omega
        rw [room, List.take_zero, List.take_zero]
    · rw [front]
      simp only [wrap_mod (p := q.front + 1) holds.front_in, List.length_cons]
      rw [Nat.mod_add_mod]
      congr 1
      omega

end Queue

section Lines

variable {s s' : Tty} {unread : List (List UInt8)} {ch : UInt8}

theorem typed_lines (same : s'.typed = s.typed ++ [ch]) : s'.lines = typeChar s.lines ch := by
  rw [Tty.lines, same, List.foldl_append, List.foldl_cons, List.foldl_nil, ← Tty.lines]

theorem stored_cons (line : List UInt8) (rest : List (List UInt8)) :
    stored (line :: rest) = line ++ 0 :: stored rest := by
  rw [stored, List.flatMap_cons, List.append_assoc]
  rfl

theorem stored_concat (line : List UInt8) :
    stored (unread ++ [line]) = stored unread ++ line ++ [0] := by
  rw [stored, List.flatMap_append, List.flatMap_singleton, ← stored, ← List.append_assoc]

/-- Where the cell before the current line is, counted from the front of the queue. -/
theorem fence_offset (q : TtyQueue) (fits : (stored unread).length < ttyCookBufSz) :
    ∃ k, k < ttyCookBufSz ∧ beforeLine q unread = (q.front + k) % ttyCookBufSz ∧
      (k + 1 = (stored unread).length ∨ k + 1 = ttyCookBufSz) := by
  by_cases none_stored : (stored unread).length = 0
  · refine ⟨ttyCookBufSz - 1, by omega, ?_, .inr (by omega)⟩
    rw [beforeLine, none_stored, Nat.add_zero]
  · refine ⟨(stored unread).length - 1, by omega, ?_, .inl (by omega)⟩
    have total : q.front + (stored unread).length + (ttyCookBufSz - 1) =
        q.front + ((stored unread).length - 1) + ttyCookBufSz := by omega
    rw [beforeLine, total, Nat.add_mod_right]

theorem LineInv.stored_fits (inv : LineInv s unread) : (stored unread).length < ttyCookBufSz := by
  have room := inv.ring.room
  rw [List.length_append] at room
  omega

theorem lines_read_mono (read : LinesRead s) (same : s'.reads = s.reads)
    (grown : s.completed <+: s'.completed) : LinesRead s' := by
  intro k count buf found
  rw [same] at found
  obtain ⟨line, at_k, taken⟩ := read k count buf found
  obtain ⟨more, grown⟩ := grown
  refine ⟨line, ?_, taken⟩
  have inside : k < s.completed.length := (List.getElem?_eq_some_iff.mp at_k).1
  rw [← grown, List.getElem?_append_left inside, at_k]

theorem char_inv {q : TtyQueue} (inv : LineInv s unread) (real : ch ≠ 0)
    (typed : s'.typed = s.typed ++ [ch]) (ordinary : ch ≠ newline ∧ ch ≠ backspace)
    (ran : ttyEnqueue s.queue ch = some q) (queue : s'.queue = q)
    (cooked : s'.cooked = s.cooked) (entered : s'.entered = s.entered)
    (reads : s'.reads = s.reads) : LineInv s' unread := by
  have lines : s'.lines = (s.completed, s.current ++ [ch]) := by
    rw [typed_lines typed, typeChar, if_neg ordinary.1, if_neg ordinary.2]
    rfl
  have completed : s'.completed = s.completed := by rw [Tty.completed, lines]
  have current : s'.current = s.current ++ [ch] := by rw [Tty.current, lines]
  obtain ⟨ring, front, clears⟩ := enqueue_ok inv.ring ran
  obtain ⟨k, inside, place, close⟩ := fence_offset s.queue inv.stored_fits
  have fence : s.queue.buf (beforeLine s.queue unread) = 0 →
      q.buf (beforeLine q unread) = 0 := by
    have same : beforeLine q unread = beforeLine s.queue unread := by
      rw [beforeLine, front, ← beforeLine]
    rw [same, place]
    refine clears k inside ?_
    have room := ring.room
    rw [List.length_append, List.length_append, List.length_singleton] at room
    rw [List.length_append]
    omega
  refine ⟨?_, ?_, ?_, ?_, inv.chars, ?_, ?_, ?_, ?_⟩
  · rw [queue, current, ← List.append_assoc]
    exact ring
  · rw [completed, reads]
    exact inv.passed
  · rw [completed, reads]
    exact inv.left
  · rw [cooked, entered]
    exact inv.tokens
  · rw [current]
    intro x mem
    rcases List.mem_append.mp mem with old | new
    · exact inv.current x old
    · rw [List.mem_singleton.mp new]
      exact real
  · rw [completed, queue]
    exact fun some_line => fence (inv.fenced some_line)
  · rw [completed, queue, front]
    exact inv.first
  · exact lines_read_mono inv.reads reads (completed ▸ List.prefix_refl _)

theorem newline_inv {mid q : TtyQueue} (inv : LineInv s unread)
    (typed : s'.typed = s.typed ++ [newline]) (first : ttyEnqueue s.queue newline = some mid)
    (second : ttyEnqueue mid 0 = some q) (queue : s'.queue = q)
    (cooked : s'.cooked = s.cooked + 1) (entered : s'.entered = s.entered)
    (reads : s'.reads = s.reads) : LineInv s' (unread ++ [s.current ++ [newline]]) := by
  have lines : s'.lines = (s.completed ++ [s.current ++ [newline]], []) := by
    rw [typed_lines typed, typeChar, if_pos rfl]
    rfl
  have completed : s'.completed = s.completed ++ [s.current ++ [newline]] := by
    rw [Tty.completed, lines]
  have current : s'.current = [] := by rw [Tty.current, lines]
  obtain ⟨ring₁, front₁, _⟩ := enqueue_ok inv.ring first
  obtain ⟨ring, front₂, _⟩ := enqueue_ok ring₁ second
  have held : stored unread ++ s.current ++ [newline] ++ [0] =
      stored (unread ++ [s.current ++ [newline]]) := by
    rw [stored_concat, List.append_assoc (stored unread)]
  rw [held] at ring
  have size : 0 < (stored (unread ++ [s.current ++ [newline]])).length := by
    rw [← held, List.length_append]
    exact Nat.succ_pos _
  refine ⟨?_, ?_, ?_, ?_, ?_, ?_, fun _ => ?_, ?_, ?_⟩
  · rw [queue, current, List.append_nil]
    exact ring
  · rw [completed, reads, List.length_append]
    exact Nat.le_add_right_of_le inv.passed
  · rw [completed, reads, List.drop_append_of_le_length inv.passed, inv.left]
  · rw [cooked, entered, List.length_append, inv.tokens]
    simp only [List.length_singleton]
    omega
  · intro line mem
    rcases List.mem_append.mp mem with old | new
    · exact inv.chars line old
    · rw [List.mem_singleton.mp new]
      intro x mem
      rcases List.mem_append.mp mem with old | new
      · exact inv.current x old
      · rw [List.mem_singleton.mp new]
        decide
  · rw [current]
    nofun
  · have last := ring.cell ((stored (unread ++ [s.current ++ [newline]])).length - 1) (by omega)
    have place : beforeLine q (unread ++ [s.current ++ [newline]]) =
        (q.front + ((stored (unread ++ [s.current ++ [newline]])).length - 1)) %
          ttyCookBufSz := by
      have total : q.front + (stored (unread ++ [s.current ++ [newline]])).length +
          (ttyCookBufSz - 1) = q.front + ((stored (unread ++ [s.current ++ [newline]])).length - 1) +
            ttyCookBufSz := by
        have small := ring.room
        omega
      rw [beforeLine, total, Nat.add_mod_right]
    rw [queue, place, last]
    simp only [← held]
    rw [List.getElem_concat_length]
    simp
  · intro none_line
    rw [completed] at none_line
    exact absurd none_line (by simp)
  · exact lines_read_mono inv.reads reads (completed ▸ List.prefix_append _ _)

/-- Before the first newline an empty line starts at q->buf. -/
theorem LineInv.at_start (inv : LineInv s unread) (empty : s.current = [])
    (no_line : s.completed = []) : s.queue.rear = 0 := by
  have none_left : unread = [] := by
    rw [← inv.left, no_line, List.drop_nil]
  rw [inv.ring.rear_at, inv.first no_line, none_left, empty]
  rfl

theorem backspace_inv (inv : LineInv s unread) (typed : s'.typed = s.typed ++ [backspace])
    (clean : CleanStart s (.cook backspace)) (queue : s'.queue = (ttyPopBack s.queue).1)
    (cooked : s'.cooked = s.cooked) (entered : s'.entered = s.entered)
    (reads : s'.reads = s.reads) :
    LineInv s' unread ∧ (s.current = [] → ttyPopBack s.queue = (s.queue, 1)) := by
  have lines : s'.lines = (s.completed, s.current.dropLast) := by
    rw [typed_lines typed, typeChar, if_neg (by decide), if_pos rfl]
    rfl
  have completed : s'.completed = s.completed := by rw [Tty.completed, lines]
  have current : s'.current = s.current.dropLast := by rw [Tty.current, lines]
  have kept : ∀ q : TtyQueue, s'.queue = q →
      Ring.Holds ttyCookBufSz q.buf q.front q.rear (stored unread ++ s.current.dropLast) →
      q.front = s.queue.front → (∀ x, s.queue.buf x = 0 → q.buf x = 0) → LineInv s' unread := by
    intro q here ring front clears
    refine ⟨?_, ?_, ?_, ?_, inv.chars, ?_, ?_, ?_, ?_⟩
    · rw [here, current]
      exact ring
    · rw [completed, reads]
      exact inv.passed
    · rw [completed, reads]
      exact inv.left
    · rw [cooked, entered]
      exact inv.tokens
    · rw [current]
      exact fun x mem => inv.current x (List.dropLast_subset _ mem)
    · rw [completed, here, beforeLine, front, ← beforeLine]
      exact fun some_line => clears _ (inv.fenced some_line)
    · rw [completed, here, front]
      exact inv.first
    · exact lines_read_mono inv.reads reads (completed ▸ List.prefix_refl _)
  by_cases empty : s.current = []
  · have ignored : ttyPopBack s.queue = (s.queue, 1) := by
      have ring := inv.ring
      rw [empty, List.append_nil] at ring
      refine pop_back_ignored ring ?_
      by_cases no_line : s.completed = []
      · rw [inv.at_start empty no_line, Nat.zero_add, Nat.mod_eq_of_lt (by decide)]
        exact clean rfl empty no_line
      · have fence := inv.fenced no_line
        have place : beforeLine s.queue unread =
            (s.queue.rear + ttyCookBufSz - 1) % ttyCookBufSz := by
          have step : s.queue.rear + ttyCookBufSz - 1 = s.queue.rear + (ttyCookBufSz - 1) :=
            Nat.add_sub_assoc (by decide) _
          rw [step, ring.rear_at, Nat.mod_add_mod, ← beforeLine]
        rw [place] at fence
        exact fence
    refine ⟨kept s.queue (by rw [queue, ignored]) ?_ rfl (fun _ clear => clear),
      fun _ => ignored⟩
    have ring := inv.ring
    rwa [empty] at ring ⊢
  · have split : s.current = s.current.dropLast ++ [s.current.getLast empty] :=
      (List.dropLast_append_getLast empty).symm
    have real : s.current.getLast empty ≠ 0 := inv.current _ (List.getLast_mem empty)
    have ring := inv.ring
    rw [split, ← List.append_assoc] at ring
    obtain ⟨popped, front, clears⟩ := pop_back_ok ring real
    exact ⟨kept _ queue popped front clears, fun none_typed => absurd none_typed empty⟩

theorem line_read_inv {line : List UInt8} {rest : List (List UInt8)} {q : TtyQueue} {count : Int}
    (inv : LineInv s (line :: rest))
    (ring : Ring.Holds ttyCookBufSz q.buf q.front q.rear (stored rest ++ s.current))
    (same : q.buf = s.queue.buf) (front : q.front = (s.queue.front + (line.length + 1)) % ttyCookBufSz)
    (queue : s'.queue = q) (typed : s'.typed = s.typed)
    (tokens : rest.length = s'.cooked + s'.entered)
    (reads : s'.reads = s.reads ++ [(count, line.take count.toNat)]) : LineInv s' rest := by
  have completed : s'.completed = s.completed := by
    rw [Tty.completed, Tty.lines, typed, ← Tty.lines, ← Tty.completed]
  have current : s'.current = s.current := by
    rw [Tty.current, Tty.lines, typed, ← Tty.lines, ← Tty.current]
  have inside : s.reads.length < s.completed.length := by
    have count_left := congrArg List.length inv.left
    rw [List.length_drop, List.length_cons] at count_left
    omega
  have here : s.completed[s.reads.length]? = some line := by
    rw [← Nat.add_zero s.reads.length, ← List.getElem?_drop, inv.left]
    rfl
  refine ⟨?_, ?_, ?_, tokens, ?_, ?_, fun some_line => ?_, fun no_line => ?_, ?_⟩
  · rw [queue, current]
    exact ring
  · rw [completed, reads, List.length_append]
    exact inside
  · rw [completed, reads, List.length_append, List.length_singleton, ← List.drop_drop, inv.left]
    rfl
  · exact fun later mem => inv.chars later (List.mem_cons_of_mem _ mem)
  · rw [current]
    exact inv.current
  · rw [completed] at some_line
    have fence := inv.fenced some_line
    have place : beforeLine q rest = beforeLine s.queue (line :: rest) := by
      have total : s.queue.front + (line.length + 1) + ((stored rest).length + (ttyCookBufSz - 1)) =
          s.queue.front + (stored (line :: rest)).length + (ttyCookBufSz - 1) := by
        rw [stored_cons, List.length_append, List.length_cons]
        omega
      rw [beforeLine, front, Nat.add_assoc, Nat.mod_add_mod, total, ← beforeLine]
    rw [queue, place, same, fence]
  · rw [completed] at no_line
    rw [no_line] at inside
    cases inside
  · intro k c buf found
    rw [reads] at found
    rw [completed]
    rcases Nat.lt_or_ge k s.reads.length with old | new
    · rw [List.getElem?_append_left old] at found
      exact inv.reads k c buf found
    · rw [List.getElem?_append_right new] at found
      have last : k = s.reads.length := by
        have bound := (List.getElem?_eq_some_iff.mp found).1
        rw [List.length_singleton] at bound
        omega
      subst last
      rw [Nat.sub_self] at found
      cases found
      exact ⟨line, here, rfl⟩

theorem read_inv {count : Int} (inv : LineInv s unread) (some_entered : s.entered ≠ 0)
    (stepped : ttyRead s count = some s') : ∃ unread', LineInv s' unread' := by
  have tokens := inv.tokens
  cases unread with
  | nil =>
    rw [List.length_nil] at tokens
    omega
  | cons line rest =>
    have ring := inv.ring
    rw [stored_cons, List.append_assoc, List.cons_append] at ring
    have room := ring.room
    rw [List.length_append] at room
    obtain ⟨q, ran, left, same, front⟩ := read_loop_ok [] ttyCookBufSz ring
      (inv.chars line List.mem_cons_self) (show line.length < ttyCookBufSz by omega)
    rw [ttyRead, ran] at stepped
    cases stepped
    have reads : s.reads ++ [(count, [] ++ line.take (count.toNat - ([] : List UInt8).length))] =
        s.reads ++ [(count, line.take count.toNat)] := rfl
    refine ⟨rest, line_read_inv inv left same front rfl rfl ?_ reads⟩
    rw [List.length_cons] at tokens
    simp only
    omega

theorem init_inv (buf : Nat → UInt8) : LineInv (ttyInit buf) [] := by
  refine ⟨Ring.holds_empty buf (Nat.succ_pos 1023), Nat.le_refl 0, rfl, rfl, ?_, ?_, ?_, fun _ => rfl, ?_⟩
  · nofun
  · nofun
  · exact fun some_line => absurd rfl some_line
  · nofun

theorem step_inv {e : Event} (inv : LineInv s unread) (clean : CleanStart s e)
    (stepped : step s e = some s') :
    (∃ unread', LineInv s' unread') ∧ BackspaceIgnored s e := by
  have stepped_e := stepped
  cases e with
  | cook ch =>
    simp only [step] at stepped
    split at stepped
    · cases stepped
    · rename_i real
      simp only [ttyCook] at stepped
      split at stepped
      · rename_i line_end
        subst line_end
        refine ⟨?_, fun same => by cases same⟩
        split at stepped
        · cases stepped
        · rename_i mid first
          split at stepped
          · cases stepped
          · rename_i q second
            cases stepped
            exact ⟨_, newline_inv inv rfl first second rfl rfl rfl rfl⟩
      · rename_i in_line
        split at stepped
        · rename_i erases
          subst erases
          have result := Option.some.inj stepped
          have kept : LineInv s' unread ∧ (s.current = [] → ttyPopBack s.queue = (s.queue, 1)) := by
            refine backspace_inv inv ?_ clean ?_ ?_ ?_ ?_ <;> rw [← result]
          refine ⟨⟨_, kept.1⟩, fun _ empty s'' taken => ?_⟩
          rw [stepped_e] at taken
          cases taken
          rw [← result]
          simp only [kept.2 empty, and_self]
        · rename_i other
          refine ⟨?_, fun same => absurd (Event.cook.inj same) other⟩
          split at stepped
          · cases stepped
          · rename_i q ran
            cases stepped
            exact ⟨_, char_inv inv real rfl ⟨in_line, other⟩ ran rfl rfl rfl rfl⟩
  | enter =>
    obtain ⟨some_line, ⟨⟩⟩ := Option.ite_none_left_eq_some.mp stepped
    have tokens := inv.tokens
    refine ⟨⟨unread, inv.ring, inv.passed, inv.left, ?_, inv.chars, inv.current, inv.fenced, inv.first,
      inv.reads⟩, nofun⟩
    simp only
    omega
  | read count =>
    obtain ⟨some_entered, ran⟩ := Option.ite_none_left_eq_some.mp stepped
    exact ⟨read_inv inv some_entered ran, nofun⟩

end Lines

/-- Reads return the lines that were typed, and backspaces on an empty line are ignored, exactly in
    the runs where no backspace on the empty first line meets a stale byte. -/
theorem line_discipline_iff (buf : Nat → UInt8) (events : List Event) :
    (Throughout step LinesRead (ttyInit buf) events ∧
        EachStep step BackspaceIgnored (ttyInit buf) events) ↔
      EachStep step CleanStart (ttyInit buf) events := by
  refine throughout_and_each_iff (I := fun s => ∃ unread, LineInv s unread) ?_ ?_ events
    ⟨[], init_inv buf⟩ (init_inv buf).reads
  · rintro s e s' ⟨unread, inv⟩ clean stepped
    obtain ⟨⟨unread', inv'⟩, ignored⟩ := step_inv inv clean stepped
    exact ⟨⟨unread', inv'⟩, inv'.reads, ignored⟩
  · rintro s e s' ⟨unread, inv⟩ stepped _ ignored rfl empty no_line
    obtain ⟨_, reported⟩ := ignored rfl empty s' stepped
    rw [step, if_neg (by decide)] at stepped
    simp only [ttyCook, if_neg (show ¬ backspace = newline by decide), if_true] at stepped
    rw [← Option.some.inj stepped] at reported
    simp only [ttyPopBack, inv.at_start empty no_line, inv.first no_line] at reported
    by_cases clear : s.queue.buf (ttyCookBufSz - 1) = 0
    · exact clear
    · rw [if_pos (by decide)] at reported
      simp only [if_true, if_pos (show s.queue.buf (ttyCookBufSz - 1) ≠ 0 from clear)] at reported
      cases reported

/-- On a buffer that ends in a stale byte the first backspace moves the rear end to that byte. -/
theorem stale_byte_erased :
    ¬ (Throughout step LinesRead (ttyInit fun _ => 1) [.cook backspace] ∧
      EachStep step BackspaceIgnored (ttyInit fun _ => 1) [.cook backspace]) := by
  rintro ⟨_, each⟩
  have stepped : ∃ s', step (ttyInit fun _ => 1) (.cook backspace) = some s' ∧ s'.ret = 0 :=
    ⟨_, rfl, rfl⟩
  obtain ⟨s', taken, erased⟩ := stepped
  have ignored := (each s' taken).1 rfl rfl s' taken
  rw [erased] at ignored
  exact absurd ignored.2 (by decide)

end DevTty
