import JyyOs.Uproc.Kernel

/-!
ksleep against the clock. A list of AM_TIMER_UPTIME readings stands for the clock: the first is
taken on entry, the loop takes one for each test of its guard.
-/
namespace Uproc

/-- `us + second * 1000000`: an int product added to a uint64_t. -/
def wakeTime (us : Nat) (second : Int) : Nat := addLength us (toInt32 (second * 1000000))

/-- The loop of ksleep, with the reading it ends at; `none` while it still sleeps. -/
def sleepLoop (wake : Nat) : List Nat → Option Nat
  | [] => none
  | us :: later => if us < wake then sleepLoop wake later else some us

def ksleep (second : Int) : List Nat → Option Nat
  | [] => none
  | us :: later => sleepLoop (wakeTime us second) later

/-- Readings of a uint64_t clock that does not run backwards. -/
structure Clock (readings : List Nat) : Prop where
  forward : readings.Pairwise (· ≤ ·)
  fits : ∀ us ∈ readings, us < 2 ^ 64

/-- Whatever the clock shows after `us`, ksleep returns no earlier than asked. -/
def SleepsLongEnough (second : Int) (us : Nat) : Prop :=
  ∀ later, Clock (us :: later) → ∀ last, ksleep second (us :: later) = some last →
    (us : Int) + second * 1000000 ≤ last

theorem sleep_loop_ends {wake last : Nat} {later : List Nat}
    (ended : sleepLoop wake later = some last) : wake ≤ last ∧ last ∈ later := by
  induction later with
  | nil => cases ended
  | cons us rest ih =>
    unfold sleepLoop at ended
    split at ended
    · obtain ⟨reached, mem⟩ := ih ended
      exact ⟨reached, List.mem_cons_of_mem _ mem⟩
    · rename_i late
      cases ended
      exact ⟨Nat.not_lt.mp late, List.mem_cons_self⟩

/-- ksleep can return as soon as the clock has reached the deadline and its own first reading. -/
theorem sleeps_long_iff {second : Int} {us : Nat} (fits : us < 2 ^ 64) :
    SleepsLongEnough second us ↔
      (us : Int) + second * 1000000 ≤ max (us : Int) (wakeTime us second) := by
  have wake_fits : wakeTime us second < 2 ^ 64 := by
    unfold wakeTime addLength
    omega
  constructor
  · intro long
    have clock : Clock [us, max us (wakeTime us second)] := by
      constructor
      · simp only [List.pairwise_cons, List.mem_singleton, forall_eq, List.not_mem_nil,
          false_implies, implies_true, List.Pairwise.nil, and_true]
        omega
      · simp only [List.mem_cons, List.not_mem_nil, or_false, forall_eq_or_imp, forall_eq]
        omega
    have returns : ksleep second [us, max us (wakeTime us second)] =
        some (max us (wakeTime us second)) := by
      simp only [ksleep, sleepLoop]
      rw [if_neg (by omega)]
    have late := long _ clock _ returns
    omega
  · intro enough later clock last ended
    obtain ⟨reached, mem⟩ := sleep_loop_ends ended
    have after : us ≤ last := (List.pairwise_cons.mp clock.forward).1 last mem
    omega

theorem deadline_far_iff {u x p w : Int} (time : 0 ≤ u) (time_fits : u < 18446744073709551616)
    (positive : 0 ≤ x) (small : x < 2147483648000000)
    (product : p = (x + 2147483648) % 4294967296 - 2147483648)
    (sum : w = (u + p) % 18446744073709551616) :
    u + x ≤ max u w ↔ (x < 2147483648 ∧ u + x < 18446744073709551616) ∨ u + p < 0 := by
  omega

/-- ksleep sleeps as long as asked exactly when neither the product nor the deadline wraps, or
    when the product wraps to a negative number that takes the deadline below zero. -/
theorem sleep_long_enough_iff {second : Int} {us : Nat} (positive : 0 ≤ second)
    (int : second < 2 ^ 31) (fits : us < 2 ^ 64) :
    SleepsLongEnough second us ↔
      (second * 1000000 < 2 ^ 31 ∧ (us : Int) + second * 1000000 < 2 ^ 64) ∨
        (us : Int) + toInt32 (second * 1000000) < 0 := by
  rw [sleeps_long_iff fits]
  have product : toInt32 (second * 1000000) =
      (second * 1000000 + 2147483648) % 4294967296 - 2147483648 := rfl
  have sum : (wakeTime us second : Int) =
      ((us : Int) + toInt32 (second * 1000000)) % 18446744073709551616 :=
    Int.toNat_of_nonneg (Int.emod_nonneg _ (by decide))
  exact deadline_far_iff (by omega) (by omega) (by omega) (by omega) product sum

theorem sleep_long_enough_one_second : SleepsLongEnough 1 0 ↔
    ((1 : Int) * 1000000 < 2 ^ 31 ∧ ((0 : Nat) : Int) + 1 * 1000000 < 2 ^ 64) ∨
      ((0 : Nat) : Int) + toInt32 (1 * 1000000) < 0 :=
  sleep_long_enough_iff (by decide) (by decide) (by decide)

/-- Asked for 4295 seconds, ksleep returns after 32704 microseconds. -/
theorem long_sleep_returns_early :
    ksleep 4295 [1000000, 1032704] = some 1032704 ∧ ¬SleepsLongEnough 4295 1000000 := by
  have returns : ksleep 4295 [1000000, 1032704] = some 1032704 := by decide
  refine ⟨returns, fun long => ?_⟩
  have clock : Clock [1000000, 1032704] := ⟨by decide, by decide⟩
  have late := long [1032704] clock 1032704 returns
  omega

end Uproc
