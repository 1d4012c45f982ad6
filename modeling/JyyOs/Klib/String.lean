import JyyOs.Library.ByteCopy
import Mathlib.Logic.Function.Basic
import Mathlib.Data.List.Lex
import Mathlib.Algebra.Order.Ring.Int

/-!
string.c of klib: memmove and the comparisons of strings and buffers. char is signed. A pointer
that is only read is the list of the bytes from it on to the end of its object; `none` is a failed
assertion, a read behind that end or a loop without end.
-/
namespace Klib

open ByteCopy

section Memmove

/-- The loop of memmove for `dst > src`. It counts `i` up; with `left` rounds to go `i` is
    `2 ^ 31 - left`, and past INT_MAX it has no value. -/
def memmoveBehind (dst src : Nat) : Nat → (Nat → UInt8) → Option (Nat → UInt8)
  | 0, _ => none
  | left + 1, mem =>
    let i := 2 ^ 31 - (left + 1)
    memmoveBehind dst src left (Function.update mem (dst + i) (mem (src + i)))

def memmoveAhead (dst src : Nat) : Nat → Nat → (Nat → UInt8) → Option (Nat → UInt8)
  | 0, _, mem => some mem
  | left + 1, i, mem =>
    if i = 2 ^ 31 - 1 then none
    else memmoveAhead dst src left (i + 1) (Function.update mem (dst + i) (mem (src + i)))

def memmove (mem : Nat → UInt8) (dst src n : Nat) : Option (Nat → UInt8) :=
  if dst = 0 ∨ src = 0 then none
  else if src < dst then
    -- The size_t `n - 1` as an int, -1 for no bytes.
    let i := Int.bmod ((n : Int) - 1) (2 ^ 32)
    if i < 0 then some mem else memmoveBehind dst src (2 ^ 31 - i.toNat) mem
  else memmoveAhead dst src n 0 mem

structure Moved (mem mem' : Nat → UInt8) (dst src n : Nat) : Prop where
  copied : ∀ i, i < n → mem' (dst + i) = mem (src + i)
  kept : ∀ a, a < dst ∨ dst + n ≤ a → mem' a = mem a

variable {mem : Nat → UInt8} {dst src n : Nat}

theorem memmove_behind_none (dst src left : Nat) (mem : Nat → UInt8) :
    memmoveBehind dst src left mem = none := by
  induction left generalizing mem with
  | zero => rfl
  | succ left ih => exact ih _

/-- One round extends the copied range. The byte it reads lies behind that range. -/
theorem copied_step (ahead : dst ≤ src) (i : Nat) :
    Function.update (copy mem dst mem src i) (dst + i) (copy mem dst mem src i (src + i)) =
      copy mem dst mem src (i + 1) := by
  have read : copy mem dst mem src i (src + i) = mem (src + i) := copy_outside (by omega)
  funext a
  by_cases here : a = dst + i
  · rw [here, Function.update_self, read, copy_at (Nat.lt_succ_self i)]
  · rw [Function.update_of_ne here]
    by_cases inside : dst ≤ a ∧ a < dst + i
    · rw [copy_inside inside.1 inside.2, copy_inside inside.1 (by omega)]
    · rw [copy_outside (by omega), copy_outside (by omega)]

theorem memmove_ahead_copies (ahead : dst ≤ src) (left i : Nat) (small : i + left < 2 ^ 31) :
    memmoveAhead dst src left i (copy mem dst mem src i) =
      some (copy mem dst mem src (i + left)) := by
  induction left generalizing i with
  | zero => rfl
  | succ left ih =>
    rw [memmoveAhead, if_neg (by omega), copied_step ahead, ih (i + 1) (by omega)]
    congr 2
    omega

theorem starts_below_zero (small : n < 2 ^ 31) :
    Int.bmod ((n : Int) - 1) (2 ^ 32) < 0 ↔ n = 0 := by
  rw [Int.bmod_eq_of_le (by omega) (by omega)]
  omega

theorem moved_copy : Moved mem (copy mem dst mem src n) dst src n := by
  constructor
  · intro i inside
    exact copy_at inside
  · intro a outside
    exact copy_outside outside

/-- memmove moves unless the destination lies behind the source. -/
theorem memmove_moves_iff (mem : Nat → UInt8) (dst src n : Nat) (small : n < 2 ^ 31) :
    (∃ mem', memmove mem dst src n = some mem' ∧ Moved mem mem' dst src n) ↔
      dst ≠ 0 ∧ src ≠ 0 ∧ (dst ≤ src ∨ n = 0) := by
  constructor
  · rintro ⟨mem', ran, _⟩
    unfold memmove at ran
    split at ran
    · cases ran
    · rename_i real
      rw [not_or] at real
      refine ⟨real.1, real.2, ?_⟩
      split at ran
      · dsimp only at ran
        split at ran
        · rename_i below
          exact .inr ((starts_below_zero small).mp below)
        · rw [memmove_behind_none] at ran
          cases ran
      · rename_i ahead
        exact .inl (Nat.le_of_not_lt ahead)
  · rintro ⟨dst_real, src_real, holds⟩
    have real : ¬(dst = 0 ∨ src = 0) := not_or.mpr ⟨dst_real, src_real⟩
    unfold memmove
    rw [if_neg real]
    by_cases behind : src < dst
    · have none_left : n = 0 := holds.resolve_left (Nat.not_le_of_lt behind)
      refine ⟨mem, ?_, ?_⟩
      · rw [if_pos behind]
        exact if_pos ((starts_below_zero small).mpr none_left)
      · subst none_left
        exact ⟨fun i inside => absurd inside (Nat.not_lt_zero i), fun a _ => rfl⟩
    · have ahead : dst ≤ src := Nat.le_of_not_lt behind
      refine ⟨copy mem dst mem src n, ?_, moved_copy⟩
      have runs : memmoveAhead dst src n 0 (copy mem dst mem src 0) =
          some (copy mem dst mem src (0 + n)) := memmove_ahead_copies ahead n 0 (by omega)
      rw [copy_none, Nat.zero_add] at runs
      rw [if_neg behind, runs]

theorem memmove_moves_down :
    ∃ mem', memmove (fun a => UInt8.ofNat a) 100 102 3 = some mem' ∧
      Moved (fun a => UInt8.ofNat a) mem' 100 102 3 :=
  (memmove_moves_iff (fun a => UInt8.ofNat a) 100 102 3 (by decide)).mpr (by decide)

/-- Three bytes moved up by two. -/
theorem memmove_up_never_ends :
    ¬∃ mem', memmove (fun a => UInt8.ofNat a) 102 100 3 = some mem' ∧
      Moved (fun a => UInt8.ofNat a) mem' 102 100 3 := by
  rintro ⟨mem', ran, _⟩
  unfold memmove at ran
  rw [if_neg (by decide), if_pos (by decide)] at ran
  dsimp only at ran
  rw [if_neg (by decide), memmove_behind_none] at ran
  cases ran

end Memmove

section Compare

def signed (b : UInt8) : Int := if b < 128 then b.toNat else (b.toNat : Int) - 256

/-- The loop of memcmp and of strncmp, which does not stop at a NUL. -/
def compareLoop : Nat → List UInt8 → List UInt8 → Option Int
  | 0, _, _ => some 0
  | left + 1, a :: s1, b :: s2 =>
    if a ≠ b then some (signed a - signed b) else compareLoop left s1 s2
  | _ + 1, _, _ => none

def memcmp (s1 s2 : List UInt8) (n : Nat) : Option Int := compareLoop n s1 s2

def strncmp (s1 s2 : List UInt8) (n : Nat) : Option Int := compareLoop n s1 s2

def strlenLoop : List UInt8 → Nat → Option Nat
  | [], _ => none
  | b :: p, len => if b = 0 then some len else strlenLoop p (len + 1)

def strlen (s : List UInt8) : Option Nat := strlenLoop s 0

def strcmp (s1 s2 : List UInt8) : Option Int := do
  let len1 ← strlen s1
  let len2 ← strlen s2
  let n := if len1 < len2 then len1 else len2
  strncmp s1 s2 (n + 1)

/-- The bytes of a string in front of its NUL. -/
structure Text where
  bytes : List UInt8
  nonzero : ∀ b ∈ bytes, b ≠ 0

/-- A pointer to `s`, with `rest` behind the NUL. -/
def Text.pointer (s : Text) (rest : List UInt8) : List UInt8 := s.bytes ++ 0 :: rest

def Orders (v : Int) (s t : List UInt8) : Prop :=
  (v < 0 ↔ s < t) ∧ (v = 0 ↔ s = t) ∧ (0 < v ↔ t < s)

/-- The first bytes that differ, with a NUL at the end of each text, lie on one side of 0x80. -/
def SameHalf : List UInt8 → List UInt8 → Prop
  | a :: s, b :: t => if a = b then SameHalf s t else (a < 128 ↔ b < 128)
  | [], b :: _ => b < 128
  | a :: _, [] => a < 128
  | [], [] => True

def textDiff : Nat → List UInt8 → List UInt8 → Int
  | 0, _, _ => 0
  | n + 1, a :: s, b :: t => if a ≠ b then signed a - signed b else textDiff n s t
  | _ + 1, [], b :: _ => -signed b
  | _ + 1, a :: _, [] => signed a
  | _ + 1, [], [] => 0

variable {a b : UInt8} {s t : List UInt8} {n : Nat}

theorem signed_zero : signed 0 = 0 := by decide

theorem signed_cases (b : UInt8) :
    b.toNat < 128 ∧ signed b = b.toNat ∨ 128 ≤ b.toNat ∧ signed b = (b.toNat : Int) - 256 := by
  have half : b < 128 ↔ b.toNat < 128 := UInt8.lt_iff_toNat_lt
  unfold signed
  by_cases low : b < 128
  · rw [if_pos low]
    exact .inl ⟨half.mp low, rfl⟩
  · rw [if_neg low]
    exact .inr ⟨Nat.le_of_not_lt (half.not.mp low), rfl⟩

theorem signed_inj : signed a = signed b ↔ a = b := by
  constructor
  · intro same
    apply UInt8.toNat_inj.mp
    have bound := a.toNat_lt
    have bound' := b.toNat_lt
    rcases signed_cases a with ⟨_, value⟩ | ⟨_, value⟩ <;>
      rcases signed_cases b with ⟨_, value'⟩ | ⟨_, value'⟩ <;> omega
  · intro same
    rw [same]

/-- Two chars compare as unsigned bytes do on one side of 0x80. -/
theorem signed_sub_sign (other : a ≠ b) :
    (signed a - signed b < 0 ↔ a < b) ↔ (a < 128 ↔ b < 128) := by
  have half : a < 128 ↔ a.toNat < 128 := UInt8.lt_iff_toNat_lt
  have half' : b < 128 ↔ b.toNat < 128 := UInt8.lt_iff_toNat_lt
  have less : a < b ↔ a.toNat < b.toNat := UInt8.lt_iff_toNat_lt
  have apart : a.toNat ≠ b.toNat := fun same => other (UInt8.toNat_inj.mp same)
  have bound := a.toNat_lt
  have bound' := b.toNat_lt
  rw [half, half', less]
  rcases signed_cases a with ⟨_, value⟩ | ⟨_, value⟩ <;>
    rcases signed_cases b with ⟨_, value'⟩ | ⟨_, value'⟩ <;> omega

theorem orders_first (other : a ≠ b) (s t : List UInt8) :
    Orders (signed a - signed b) (a :: s) (b :: t) ↔ (a < 128 ↔ b < 128) := by
  have never : signed a - signed b ≠ 0 := by
    intro same
    exact other (signed_inj.mp (Int.sub_eq_zero.mp same))
  have less : a :: s < b :: t ↔ a < b := by
    simp [List.cons_lt_cons_iff, other]
  have more : b :: t < a :: s ↔ b < a := by
    simp [List.cons_lt_cons_iff, other.symm]
  have half := signed_sub_sign other
  have half' := signed_sub_sign other.symm
  have apart : a :: s ≠ b :: t := fun same => other (List.cons.inj same).1
  unfold Orders
  rw [less, more]
  constructor
  · intro orders
    exact half.mp orders.1
  · intro same
    refine ⟨half.mpr same, ⟨fun zero => absurd zero never, fun eq => absurd eq apart⟩, ?_⟩
    rw [← half'.mpr same.symm]
    omega

theorem orders_same (v : Int) (s t : List UInt8) : Orders v (a :: s) (a :: t) ↔ Orders v s t := by
  simp [Orders]

theorem orders_end (real : b ≠ 0) (t : List UInt8) :
    (Orders (-signed b) [] (b :: t) ↔ b < 128) ∧ (Orders (signed b) (b :: t) [] ↔ b < 128) := by
  have zero : ∀ v s t, Orders v [] (b :: t) ↔ Orders v (0 :: s) (b :: t) := by
    intro v s t
    have first : (0 : UInt8) < b := UInt8.pos_iff_ne_zero.mpr real
    simp [Orders, List.cons_lt_cons_iff, first, real.symm, real]
  have zero' : ∀ v s t, Orders v (b :: t) [] ↔ Orders v (b :: t) (0 :: s) := by
    intro v s t
    have first : (0 : UInt8) < b := UInt8.pos_iff_ne_zero.mpr real
    simp [Orders, List.cons_lt_cons_iff, first, real.symm, real]
  have below : (0 : UInt8) < 128 := by decide
  constructor
  · rw [zero _ [] t, ← Int.zero_sub, ← signed_zero, orders_first real.symm]
    simp [below]
  · rw [zero' _ [] t, ← Int.sub_zero (signed b), ← signed_zero, orders_first real]
    simp [below]

def Comparable (s t : List UInt8) : Prop :=
  ((∀ b ∈ s, b ≠ 0) ∧ ∀ b ∈ t, b ≠ 0) ∨ s.length = t.length

theorem Comparable.tail (both : Comparable (a :: s) (b :: t)) : Comparable s t := by
  rcases both with ⟨left, right⟩ | same
  · exact .inl ⟨(List.forall_mem_cons.mp left).2, (List.forall_mem_cons.mp right).2⟩
  · exact .inr (Nat.succ.inj same)

theorem orders_text_diff (both : Comparable s t) :
    Orders (textDiff n s t) (s.take n) (t.take n) ↔ SameHalf (s.take n) (t.take n) := by
  induction n generalizing s t with
  | zero => simp [textDiff, Orders, SameHalf]
  | succ n ih =>
    cases s with
    | nil =>
      cases t with
      | nil => simp [textDiff, Orders, SameHalf]
      | cons b t =>
        have real : b ≠ 0 := by
          rcases both with ⟨_, right⟩ | same
          · exact right b List.mem_cons_self
          · cases same
        exact (orders_end real _).1
    | cons a s =>
      cases t with
      | nil =>
        have real : a ≠ 0 := by
          rcases both with ⟨left, _⟩ | same
          · exact left a List.mem_cons_self
          · cases same
        exact (orders_end real _).2
      | cons b t =>
        rw [textDiff, List.take_succ_cons, List.take_succ_cons, SameHalf]
        by_cases same : a = b
        · subst same
          rw [if_neg (not_not.mpr rfl), if_pos rfl, orders_same]
          exact ih both.tail
        · rw [if_pos same, if_neg same]
          exact orders_first same _ _

section Loops

variable {rest rest' : List UInt8}

theorem compare_texts (left : ∀ b ∈ s, b ≠ 0) (right : ∀ b ∈ t, b ≠ 0)
    (reach : s = t → n ≤ s.length + 1) :
    compareLoop n (s ++ 0 :: rest) (t ++ 0 :: rest') = some (textDiff n s t) := by
  induction n generalizing s t with
  | zero => cases s <;> cases t <;> rfl
  | succ n ih =>
    cases s with
    | nil =>
      cases t with
      | nil =>
        have last : n = 0 := Nat.le_zero.mp (Nat.le_of_succ_le_succ (reach rfl))
        subst last
        rfl
      | cons b t =>
        have real : (0 : UInt8) ≠ b := (right b List.mem_cons_self).symm
        simp only [List.nil_append, List.cons_append, compareLoop, if_pos real, textDiff,
          signed_zero, Int.zero_sub]
    | cons a s =>
      cases t with
      | nil =>
        have real : a ≠ 0 := left a List.mem_cons_self
        simp only [List.nil_append, List.cons_append, compareLoop, if_pos real, textDiff,
          signed_zero, Int.sub_zero]
      | cons b t =>
        simp only [List.cons_append, compareLoop, textDiff]
        by_cases same : a = b
        · rw [if_neg (not_not.mpr same), if_neg (not_not.mpr same)]
          refine ih (List.forall_mem_cons.mp left).2 (List.forall_mem_cons.mp right).2 fun eq => ?_
          exact Nat.le_of_succ_le_succ (reach (by rw [same, eq]))
        · rw [if_pos same, if_pos same]

/-- Nothing stops the comparison of equal strings at their NUL. -/
theorem compare_reads_on (long : s.length + 1 < n) :
    compareLoop n (s ++ [0]) (s ++ [0]) = none := by
  induction s generalizing n with
  | nil =>
    obtain ⟨left, rfl⟩ : ∃ left, n = left + 2 := ⟨n - 2, by simp at long; omega⟩
    rfl
  | cons a s ih =>
    obtain ⟨left, rfl⟩ := Nat.exists_eq_add_one_of_ne_zero (Nat.ne_zero_of_lt long)
    rw [List.cons_append, compareLoop, if_neg (not_not.mpr rfl)]
    exact ih (Nat.lt_of_succ_lt_succ long)

theorem compare_buffers (same : s.length = t.length) (inside : n ≤ s.length) :
    compareLoop n (s ++ rest) (t ++ rest') = some (textDiff n s t) := by
  induction n generalizing s t with
  | zero => cases s <;> cases t <;> cases rest <;> cases rest' <;> rfl
  | succ n ih =>
    cases s with
    | nil => exact absurd inside (Nat.not_succ_le_zero n)
    | cons a s =>
      cases t with
      | nil => cases same
      | cons b t =>
        simp only [List.cons_append, compareLoop, textDiff]
        split
        · rfl
        · exact ih (Nat.succ.inj same) (Nat.le_of_succ_le_succ inside)

theorem strlen_loop_text (left : ∀ b ∈ s, b ≠ 0) (len : Nat) :
    strlenLoop (s ++ 0 :: rest) len = some (len + s.length) := by
  induction s generalizing len with
  | nil => rfl
  | cons a s ih =>
    have real : a ≠ 0 := left a List.mem_cons_self
    rw [List.cons_append, strlenLoop, if_neg real, ih (List.forall_mem_cons.mp left).2,
      List.length_cons]
    congr 1
    omega

theorem strlen_text (s : Text) (rest : List UInt8) :
    strlen (s.pointer rest) = some s.bytes.length := by
  rw [strlen, Text.pointer, strlen_loop_text s.nonzero, Nat.zero_add]

theorem text_diff_enough {k : Nat} (enough : min s.length t.length < n)
    (enough' : min s.length t.length < k) : textDiff n s t = textDiff k s t := by
  induction n generalizing s t k with
  | zero => exact absurd enough (Nat.not_lt_zero _)
  | succ n ih =>
    obtain ⟨k, rfl⟩ := Nat.exists_eq_add_one_of_ne_zero (Nat.ne_zero_of_lt enough')
    cases s with
    | nil => cases t <;> rfl
    | cons a s =>
      cases t with
      | nil => rfl
      | cons b t =>
        rw [List.length_cons, List.length_cons] at enough enough'
        have later : textDiff n s t = textDiff k s t := ih (by omega) (by omega)
        rw [textDiff, textDiff, later]

def Text.diff (s t : Text) : Int :=
  textDiff (min s.bytes.length t.bytes.length + 1) s.bytes t.bytes

theorem strcmp_diff (s t : Text) (rest rest' : List UInt8) :
    strcmp (s.pointer rest) (t.pointer rest') = some (s.diff t) := by
  have shorter : (if s.bytes.length < t.bytes.length then s.bytes.length else t.bytes.length) =
      min s.bytes.length t.bytes.length := by
    split <;> omega
  simp only [strcmp, strlen_text, Option.bind_eq_bind, Option.bind_some, strncmp, shorter]
  refine compare_texts s.nonzero t.nonzero fun same => ?_
  rw [same, Nat.min_self]

theorem diff_full (s t : Text) {n : Nat} (long : s.bytes.length ≤ n) (long' : t.bytes.length ≤ n) :
    s.diff t = textDiff (n + 1) s.bytes t.bytes :=
  text_diff_enough (Nat.lt_succ_self _) (by omega)

end Loops

section Order

/-- The order strcmp uses: that of the chars, NUL included. -/
def key (s : List UInt8) : List Int := s.map signed ++ [0]

theorem signed_real (real : b ≠ 0) : signed b ≠ 0 := by
  intro zero
  exact real (signed_inj.mp (zero.trans signed_zero.symm))

theorem text_diff_key (left : ∀ b ∈ s, b ≠ 0) (right : ∀ b ∈ t, b ≠ 0)
    (enough : min s.length t.length < n) : textDiff n s t < 0 ↔ key s < key t := by
  induction n generalizing s t with
  | zero => exact absurd enough (Nat.not_lt_zero _)
  | succ n ih =>
    cases s with
    | nil =>
      cases t with
      | nil => simp [textDiff, key]
      | cons b t =>
        have real := (signed_real (right b List.mem_cons_self)).symm
        simp [textDiff, key, List.cons_lt_cons_iff, real]
    | cons a s =>
      cases t with
      | nil =>
        have real := signed_real (left a List.mem_cons_self)
        simp [textDiff, key, List.cons_lt_cons_iff, real]
      | cons b t =>
        rw [List.length_cons, List.length_cons] at enough
        by_cases same : a = b
        · subst same
          have later := ih (List.forall_mem_cons.mp left).2 (List.forall_mem_cons.mp right).2
            (by omega)
          simpa [textDiff, key] using later
        · have other : signed a ≠ signed b := fun eq => same (signed_inj.mp eq)
          simp [textDiff, key, List.cons_lt_cons_iff, same, other]

theorem text_diff_swap (n : Nat) (s t : List UInt8) : textDiff n t s = -textDiff n s t := by
  induction n generalizing s t with
  | zero => rfl
  | succ n ih =>
    cases s with
    | nil => cases t <;> simp [textDiff]
    | cons a s =>
      cases t with
      | nil => simp [textDiff]
      | cons b t =>
        rw [textDiff, textDiff]
        by_cases same : a = b
        · rw [if_neg (not_not.mpr same.symm), if_neg (not_not.mpr same)]
          exact ih s t
        · rw [if_pos (Ne.symm same), if_pos same, Int.neg_sub]

theorem diff_swap (s t : Text) : t.diff s = -s.diff t := by
  rw [Text.diff, Nat.min_comm, text_diff_swap]
  rfl

theorem diff_key (s t : Text) : s.diff t < 0 ↔ key s.bytes < key t.bytes :=
  text_diff_key s.nonzero t.nonzero (Nat.lt_succ_self _)

theorem diff_trans {s t u : Text} (first : s.diff t ≤ 0) (second : t.diff u ≤ 0) :
    s.diff u ≤ 0 := by
  have le_key : ∀ s t : Text, s.diff t ≤ 0 ↔ key s.bytes ≤ key t.bytes := by
    intro s t
    rw [← not_lt, ← not_lt, ← diff_key t s, diff_swap s t]
    omega
  rw [le_key] at first second ⊢
  exact le_trans first second

theorem diff_zero (s t : Text) : s.diff t = 0 ↔ s.bytes = t.bytes := by
  constructor
  · intro zero
    have swapped := diff_swap s t
    have low : key s.bytes ≤ key t.bytes := by
      rw [← not_lt, ← diff_key t s]
      omega
    have high : key t.bytes ≤ key s.bytes := by
      rw [← not_lt, ← diff_key s t]
      omega
    have same := List.append_cancel_right (le_antisymm low high)
    exact List.map_injective_iff.mpr (fun _ _ => signed_inj.mp) same
  · intro same
    have swapped := diff_swap s t
    have equal : t.diff s = s.diff t := by rw [Text.diff, Text.diff, same]
    omega

/-- dev_lookup of dev.c; running out of devices is a panic. -/
def devLookup : List Text → Text → Option Text
  | [], _ => none
  | d :: devices, name =>
    if strcmp (d.pointer []) (name.pointer []) = some 0 then some d else devLookup devices name

theorem dev_lookup_first (devices : List Text) (name : Text) :
    devLookup devices name = devices.find? (fun d => d.bytes = name.bytes) := by
  induction devices with
  | nil => rfl
  | cons d devices ih =>
    have found : strcmp (d.pointer []) (name.pointer []) = some 0 ↔ d.bytes = name.bytes := by
      rw [strcmp_diff, Option.some_inj, diff_zero]
    rw [devLookup, List.find?_cons, ih]
    by_cases same : d.bytes = name.bytes
    · rw [if_pos (found.mpr same), decide_eq_true same]
    · rw [if_neg (found.not.mpr same), decide_eq_false same]

end Order

/-- What strcmp is called for; whatever lies behind the two texts is not read. -/
def StrcmpOrders (s t : Text) : Prop :=
  ∃ v, (∀ rest rest', strcmp (s.pointer rest) (t.pointer rest') = some v) ∧ Orders v s.bytes t.bytes

def StrncmpOrders (s t : Text) (n : Nat) : Prop :=
  ∃ v, (∀ rest rest', strncmp (s.pointer rest) (t.pointer rest') n = some v) ∧
    Orders v (s.bytes.take n) (t.bytes.take n)

def MemcmpOrders (x y : List UInt8) : Prop :=
  ∃ v, (∀ rest rest', memcmp (x ++ rest) (y ++ rest') x.length = some v) ∧ Orders v x y

theorem strcmp_orders_iff (s t : Text) : StrcmpOrders s t ↔ SameHalf s.bytes t.bytes := by
  have full := orders_text_diff (n := max s.bytes.length t.bytes.length + 1)
    (.inl ⟨s.nonzero, t.nonzero⟩)
  rw [← diff_full s t (le_max_left ..) (le_max_right ..), List.take_of_length_le (by omega),
    List.take_of_length_le (by omega)] at full
  rw [← full]
  constructor
  · rintro ⟨v, ran, orders⟩
    have value := (ran [] []).symm.trans (strcmp_diff s t [] [])
    rwa [Option.some.inj value] at orders
  · intro orders
    exact ⟨s.diff t, strcmp_diff s t, orders⟩

theorem strncmp_orders_iff (s t : Text) (n : Nat) :
    StrncmpOrders s t n ↔ SameHalf (s.bytes.take n) (t.bytes.take n) ∧
      (s.bytes = t.bytes → n ≤ s.bytes.length + 1) := by
  have both : Comparable s.bytes t.bytes := .inl ⟨s.nonzero, t.nonzero⟩
  constructor
  · rintro ⟨v, ran, orders⟩
    have reach : s.bytes = t.bytes → n ≤ s.bytes.length + 1 := by
      intro same
      apply Nat.le_of_not_lt
      intro long
      have stuck := compare_reads_on long
      have ended := ran [] []
      rw [strncmp, Text.pointer, Text.pointer, ← same, stuck] at ended
      cases ended
    have value := (ran [] []).symm.trans (compare_texts s.nonzero t.nonzero reach)
    rw [Option.some.inj value] at orders
    exact ⟨(orders_text_diff both).mp orders, reach⟩
  · rintro ⟨half, reach⟩
    exact ⟨_, fun rest rest' => compare_texts s.nonzero t.nonzero reach,
      (orders_text_diff both).mpr half⟩

theorem memcmp_orders_iff {x y : List UInt8} (same : x.length = y.length) :
    MemcmpOrders x y ↔ SameHalf x y := by
  have both : Comparable x y := .inr same
  have full := orders_text_diff (n := x.length) both
  rw [List.take_length, List.take_of_length_le (Nat.le_of_eq same.symm)] at full
  rw [← full]
  constructor
  · rintro ⟨v, ran, orders⟩
    have value := (ran [] []).symm.trans (compare_buffers same (Nat.le_refl _))
    rwa [Option.some.inj value] at orders
  · intro orders
    exact ⟨_, fun rest rest' => compare_buffers same (Nat.le_refl _), orders⟩

/-- The comparisons order strings where the first bytes that differ lie on one side of 0x80, and
    strncmp of equal strings where its bound ends at their NUL. strcmp is an order either way. -/
theorem comparisons_order_iff (s t u : Text) (n : Nat) (x y : List UInt8)
    (same : x.length = y.length) :
    (StrcmpOrders s t ↔ SameHalf s.bytes t.bytes) ∧
    (StrncmpOrders s t n ↔ SameHalf (s.bytes.take n) (t.bytes.take n) ∧
      (s.bytes = t.bytes → n ≤ s.bytes.length + 1)) ∧
    (MemcmpOrders x y ↔ SameHalf x y) ∧
    (∀ rest rest' : List UInt8, ∃ v,
      strcmp (s.pointer rest) (t.pointer rest') = some v ∧
        strcmp (t.pointer rest') (s.pointer rest) = some (-v)) ∧
    ∀ (rest rest' rest'' : List UInt8) (v w : Int),
      strcmp (s.pointer rest) (t.pointer rest') = some v → v ≤ 0 →
      strcmp (t.pointer rest') (u.pointer rest'') = some w → w ≤ 0 →
      ∃ z, strcmp (s.pointer rest) (u.pointer rest'') = some z ∧ z ≤ 0 := by
  refine ⟨strcmp_orders_iff s t, strncmp_orders_iff s t n, memcmp_orders_iff same, ?_, ?_⟩
  · intro rest rest'
    refine ⟨s.diff t, strcmp_diff .., ?_⟩
    rw [strcmp_diff, diff_swap]
  · intro rest rest' rest'' v w ran first ran' second
    rw [strcmp_diff, Option.some_inj] at ran ran'
    subst ran ran'
    exact ⟨s.diff u, strcmp_diff .., diff_trans first second⟩

def letterA : Text := ⟨[0x61], by simp⟩

def lastAscii : Text := ⟨[0x7f], by simp⟩

def firstHigh : Text := ⟨[0x80], by simp⟩

theorem comparisons_order_ascii :
    StrcmpOrders letterA lastAscii ∧ StrncmpOrders letterA letterA 2 ∧
      MemcmpOrders [0x80, 0] [0x80, 1] := by
  obtain ⟨strcmp, _, memcmp, _⟩ :=
    comparisons_order_iff letterA lastAscii firstHigh 2 [0x80, 0] [0x80, 1] rfl
  obtain ⟨_, strncmp, _⟩ := comparisons_order_iff letterA letterA letterA 2 [] [] rfl
  refine ⟨strcmp.mpr ?_, strncmp.mpr ⟨?_, ?_⟩, memcmp.mpr ?_⟩
  · exact ⟨fun _ => by decide, fun _ => by decide⟩
  · trivial
  · intro _
    decide
  · exact ⟨fun _ => by decide, fun _ => by decide⟩

/-- strcmp puts 0x80 in front of 0x7f, and strncmp reads behind the NUL of equal strings. -/
theorem comparisons_out_of_order :
    ¬StrcmpOrders firstHigh lastAscii ∧ ¬StrncmpOrders letterA letterA 5 := by
  constructor
  · rintro ⟨v, ran, orders⟩
    have value : some v = some (-255) := (ran [] []).symm
    rw [Option.some.inj value] at orders
    exact absurd (orders.1.mp (by decide)) (by decide)
  · rintro ⟨v, ran, _⟩
    cases ran [] []

end Compare

end Klib
