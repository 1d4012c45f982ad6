import JyyOs.Frecov.DirScan

/-!
Which directory clusters recover_the_dir hands on whole: every short entry once, with its long
entries.
-/
namespace Frecov

variable {σ : Type}

section Groups

variable {cluster : DirCluster} {k n : Nat}

theorem group_ord_first (some_entry : 0 < n) (few : n ≤ 20) :
    groupOrd n 0 ≠ 0xe5 ∧ groupOrd n 0 ≠ 0 ∧
      ∀ j, 0 < j → j < n → groupOrd n j &&& 0x40 = 0 ∧ groupOrd n j ≠ 0xe5 ∧ groupOrd n j ≠ 0 := by
  have all : ∀ n j : Fin 21, 0 < n.val → groupOrd n 0 ≠ 0xe5 ∧ groupOrd n 0 ≠ 0 ∧
      (0 < j.val → j.val < n.val → groupOrd n j &&& 0x40 = 0 ∧ groupOrd n j ≠ 0xe5 ∧
        groupOrd n j ≠ 0) := by decide +kernel
  obtain ⟨kept, used, _⟩ := all ⟨n, by omega⟩ 0 some_entry
  refine ⟨kept, used, fun j positive below => ?_⟩
  exact (all ⟨n, by omega⟩ ⟨j, by omega⟩ some_entry).2.2 positive below

theorem group_inside (group : Group cluster k n) {j : Nat} (upto : j ≤ n) :
    k + j < cluster.entries ∧ (cluster.at (k + j)).dirName0 ≠ 0 := by
  obtain ⟨inside, used⟩ := group.sfn.live
  exact ⟨by omega, used (k + j) (by omega)⟩

theorem group_heads (group : Group cluster k n) : Heads cluster k where
  inside := (group_inside group (Nat.zero_le n)).1
  used := (group_inside group (Nat.zero_le n)).2
  kept := by
    have first := group.ord 0 group.some_entry
    have kept := (group_ord_first group.some_entry group.few).1
    rw [← first] at kept
    exact kept
  long := group.long 0 group.some_entry
  first := by
    have first : (cluster.at k).ord = groupOrd n 0 := group.ord 0 group.some_entry
    rw [first]
    exact (group_ord_bits group.some_entry group.few).1

theorem group_entry_cnt (group : Group cluster k n) : entryCnt cluster k = n % 16 := by
  have first : (cluster.at k).ord = groupOrd n 0 := group.ord 0 group.some_entry
  rw [entryCnt, first]
  exact (group_ord_bits group.some_entry group.few).2

theorem group_inner (group : Group cluster k n) {j : Nat} (positive : 0 < j) (below : j < n) :
    ¬Short cluster (k + j) ∧ ¬Heads cluster (k + j) := by
  constructor
  · intro short
    exact short.short (group.long j below)
  · intro heads
    have inner := ((group_ord_first group.some_entry group.few).2.2 j positive below).1
    rw [← group.ord j below] at inner
    exact heads.first inner

theorem short_heads (short : Short cluster k) : ¬Heads cluster k :=
  fun heads => short.short heads.long

theorem group_unique {m : Nat} (group : Group cluster k n) (other : Group cluster k m) : n = m := by
  rcases Nat.lt_trichotomy n m with shorter | same | longer
  · exact absurd group.sfn (group_inner other group.some_entry shorter).1
  · exact same
  · exact absurd other.sfn (group_inner group other.some_entry longer).1

theorem groups_apart {j m : Nat} (group : Group cluster k n) (other : Group cluster j m)
    (behind : k < j) : k + n < j := by
  by_contra within
  obtain ⟨d, rfl⟩ := Nat.exists_eq_add_of_le (Nat.le_of_lt behind)
  rcases Nat.lt_or_eq_of_le (show d ≤ n by omega) with inner | last
  · exact (group_inner group (by omega) inner).2 (group_heads other)
  · rw [last] at other
    exact short_heads group.sfn (group_heads other)

end Groups

section Starts

variable {handed new : List Handed} {h : Handed} {q a : Nat}

theorem starts_of_append (handed new : List Handed) (q : Nat) :
    startsOf (handed ++ new) q = startsOf handed q ++ startsOf new q := by
  simp [startsOf]

theorem mem_starts_of : a ∈ startsOf handed q ↔ ∃ h ∈ handed, h.sfn = q ∧ h.start = a := by
  simp [startsOf, and_assoc]

theorem starts_of_other (new : List Handed) (other : ∀ h ∈ new, h.sfn ≠ q) : startsOf new q = [] := by
  apply List.eq_nil_iff_forall_not_mem.mpr
  intro a mem
  obtain ⟨h, mem, same, _⟩ := mem_starts_of.mp mem
  exact other h mem same

theorem starts_of_single (same : h.sfn = q) : startsOf [h] q = [h.start] := by
  simp [startsOf, same]

end Starts

section Passing

variable {cluster : DirCluster} {handed new : List Handed} {k k' : Nat}

structure Passed (cluster : DirCluster) (k : Nat) (handed : List Handed) : Prop where
  lone : ∀ j, Lone cluster j → startsOf handed (32 * j) = if j < k then [32 * j] else []
  group : ∀ j n, Group cluster j n → (j < k → j + n < k) ∧
    startsOf handed (32 * (j + n)) = if j < k then [32 * j] else []

theorem passed_lone (passed : Passed cluster k handed) (short : Short cluster k) :
    Lone cluster k := by
  refine ⟨short, fun j n group same => ?_⟩
  have positive := group.some_entry
  have whole := (passed.group j n group).1 (by omega)
  omega

theorem passed_skip (passed : Passed cluster k handed) (later : k ≤ k')
    (between : ∀ j, k ≤ j → j < k' → ¬Short cluster j ∧ ∀ n, ¬Group cluster j n)
    (other : ∀ h ∈ new, ∀ j, Short cluster j → h.sfn ≠ 32 * j) :
    Passed cluster k' (handed ++ new) where
  lone := by
    intro j lone
    have none_new := starts_of_other new fun h mem => other h mem j lone.1
    rw [starts_of_append, none_new, List.append_nil, passed.lone j lone]
    by_cases before : j < k
    · rw [if_pos before, if_pos (by omega)]
    · have ahead : ¬j < k' := fun below => (between j (by omega) below).1 lone.1
      rw [if_neg before, if_neg ahead]
  group := by
    intro j n group
    have none_new := starts_of_other new fun h mem => other h mem (j + n) group.sfn
    obtain ⟨whole, starts⟩ := passed.group j n group
    rw [starts_of_append, none_new, List.append_nil, starts]
    by_cases before : j < k
    · have inside := whole before
      rw [if_pos before, if_pos (by omega)]
      exact ⟨fun _ => by omega, rfl⟩
    · have ahead : ¬j < k' := fun below => (between j (by omega) below).2 n group
      rw [if_neg before, if_neg ahead]
      exact ⟨fun below => absurd below ahead, rfl⟩

theorem passed_short {h : Handed} (passed : Passed cluster k handed) (short : Short cluster k)
    (start : h.start = 32 * k) (sfn : h.sfn = 32 * k) : Passed cluster (k + 1) (handed ++ [h]) where
  lone := by
    intro j lone
    rw [starts_of_append, passed.lone j lone]
    rcases Nat.lt_trichotomy j k with before | same | behind
    · rw [if_pos before, if_pos (by omega), starts_of_other, List.append_nil]
      simp [sfn]
      omega
    · subst same
      rw [if_neg (Nat.lt_irrefl j), if_pos (Nat.lt_succ_self j), starts_of_single sfn, start]
      rfl
    · rw [if_neg (by omega), if_neg (by omega), starts_of_other]
      · rfl
      · simp [sfn]
        omega
  group := by
    intro j n group
    have lone := passed_lone passed short
    have not_this : ∀ h' ∈ [h], h'.sfn ≠ 32 * (j + n) := by
      have apart := lone.2 j n group
      simp [sfn]
      omega
    have not_start : j ≠ k := by
      intro same
      subst same
      exact short_heads short (group_heads group)
    obtain ⟨whole, starts⟩ := passed.group j n group
    rw [starts_of_append, starts, starts_of_other [h] not_this, List.append_nil]
    by_cases before : j < k
    · rw [if_pos before, if_pos (by omega)]
      exact ⟨fun _ => Nat.lt_succ_of_lt (whole before), rfl⟩
    · rw [if_neg before, if_neg (by omega)]
      exact ⟨fun below => by omega, rfl⟩

theorem passed_group {h : Handed} {n : Nat} (passed : Passed cluster k handed)
    (group : Group cluster k n) (start : h.start = 32 * k) (sfn : h.sfn = 32 * (k + n)) :
    Passed cluster (k + n + 1) (handed ++ [h]) where
  lone := by
    intro j lone
    have not_this : ∀ h' ∈ [h], h'.sfn ≠ 32 * j := by
      have apart := lone.2 k n group
      simp [sfn]
      omega
    rw [starts_of_append, passed.lone j lone, starts_of_other [h] not_this, List.append_nil]
    by_cases before : j < k
    · rw [if_pos before, if_pos (by omega)]
    · have ahead : ¬j < k + n + 1 := by
        intro below
        obtain ⟨d, rfl⟩ := Nat.exists_eq_add_of_le (Nat.le_of_not_lt before)
        rcases Nat.eq_zero_or_pos d with zero | positive
        · subst zero
          exact short_heads lone.1 (group_heads group)
        · rcases Nat.lt_or_eq_of_le (show d ≤ n by omega) with inner | last
          · exact (group_inner group positive inner).1 lone.1
          · exact lone.2 k n group (by rw [last])
      rw [if_neg before, if_neg ahead]
  group := by
    intro j m other
    obtain ⟨whole, starts⟩ := passed.group j m other
    rw [starts_of_append, starts]
    rcases Nat.lt_trichotomy j k with before | same | behind
    · have inside := whole before
      rw [if_pos before, if_pos (by omega), starts_of_other, List.append_nil]
      · exact ⟨fun _ => by omega, rfl⟩
      · simp [sfn]
        omega
    · subst same
      have same := group_unique group other
      subst same
      rw [if_neg (Nat.lt_irrefl j), if_pos (by omega), starts_of_single sfn, start]
      exact ⟨fun _ => by omega, rfl⟩
    · have apart := groups_apart group other behind
      rw [if_neg (by omega), if_neg (by omega), starts_of_other]
      · exact ⟨fun below => by omega, rfl⟩
      · simp [sfn]
        omega

end Passing

section Runs

variable {pic : Recovery σ} {cluster : DirCluster} {k rounds : Nat} {s s' : Progress σ} {state : σ}

theorem recover_the_dir_ends (pic : Recovery σ) (cluster : DirCluster) (s : Progress σ) :
    recoverTheDir pic cluster s ≠ .error .rounds := by
  have size := cluster.whole
  exact loop_ends cluster.small (by omega)

theorem loop_handed
    (ran : recoverTheDirLoop pic cluster.toCluster cluster.size rounds (32 * k) s = .ok s') :
    ∃ new, s'.handed = s.handed ++ new ∧ ∀ h ∈ new, 32 * k ≤ h.start := by
  induction rounds generalizing k s with
  | zero => cases ran
  | succ rounds ih =>
    rw [recoverTheDirLoop] at ran
    cases went : dirRound pic cluster.toCluster cluster.size (32 * k) s with
    | none =>
      rw [went] at ran
      cases ran
    | some round =>
      rw [went] at ran
      cases round with
      | stop s'' =>
        cases ran
        have cases := round_is pic cluster k s
        rw [went] at cases
        cases cases with
        | stop => exact ⟨[], (List.append_nil _).symm, by simp⟩
      | go i s'' =>
        obtain ⟨k', first, rfl, later, handed, found⟩ := round_goes went
        obtain ⟨new, handed', found'⟩ := ih ran
        refine ⟨first ++ new, ?_, fun h mem => ?_⟩
        · rw [handed', handed, List.append_assoc]
        · rcases List.mem_append.mp mem with mem | mem
          · exact Nat.le_of_eq (found h mem).symm
          · exact Nat.le_trans (by omega) (found' h mem)

theorem reached_handed (reached : Reached cluster pic state k s) :
    ∀ h ∈ s.handed, h.start < 32 * k := by
  induction reached with
  | start => simp
  | round before went ih =>
    obtain ⟨k', new, same, later, handed, found⟩ := round_goes went
    intro h mem
    rw [handed] at mem
    rcases List.mem_append.mp mem with mem | mem
    · have old := ih h mem
      omega
    · have here := found h mem
      omega

theorem reached_runs (reached : Reached cluster pic state k s)
    (ran : recoverTheDir pic cluster ⟨state, []⟩ = .ok s') :
    ∃ rounds, recoverTheDirLoop pic cluster.toCluster cluster.size rounds (32 * k) s = .ok s' := by
  induction reached with
  | start => exact ⟨_, ran⟩
  | round before went ih =>
    obtain ⟨rounds, ran⟩ := ih
    cases rounds with
    | zero => cases ran
    | succ rounds =>
      rw [recoverTheDirLoop, went] at ran
      exact ⟨rounds, ran⟩

end Runs

section Sound

variable {pic : Recovery σ} {cluster : DirCluster} {k rounds : Nat} {s s' : Progress σ} {state : σ}

theorem passed_all {handed : List Handed} (passed : Passed cluster k handed)
    (stops : k < cluster.entries → (cluster.at k).dirName0 = 0) : HandedOnce cluster handed := by
  have before : ∀ j, Short cluster j → j < k := by
    intro j short
    by_contra ahead
    obtain ⟨inside, used⟩ := short.live
    exact used k (Nat.le_of_not_lt ahead) (stops (by omega))
  constructor
  · intro j lone
    rw [passed.lone j lone, if_pos (before j lone.1)]
  · intro j n group
    have inside := before (j + n) group.sfn
    rw [(passed.group j n group).2, if_pos (by omega)]

theorem group_kept_lands {n : Nat} (group : Group cluster k n)
    (kept : GroupKept cluster pic k n s) :
    entryCnt cluster k = n ∧ landing cluster pic k s = k + n + 1 := by
  obtain ⟨few, room, found⟩ := kept
  have count : entryCnt cluster k = n := by
    rw [group_entry_cnt group]
    omega
  refine ⟨count, ?_⟩
  rw [landing, count, if_neg room, if_pos found]

theorem sound_round {i : Nat} (sound : Sound cluster pic k s) (passed : Passed cluster k s.handed)
    (went : dirRound pic cluster.toCluster cluster.size (32 * k) s = some (.go i s')) :
    ∃ k', i = 32 * k' ∧ k < k' ∧ Passed cluster k' s'.handed := by
  have later := landing_later cluster pic k s
  have cases := round_is pic cluster k s
  rw [went] at cases
  cases cases with
  | pass inside other inner =>
    refine ⟨k + 1, rfl, Nat.lt_succ_self k, ?_⟩
    rw [← List.append_nil s.handed]
    refine passed_skip passed (Nat.le_succ k) (fun j from_here upto => ?_) (by simp)
    have here : j = k := by omega
    subst here
    exact ⟨other, fun n group => inner (group_heads group)⟩
  | short inside short =>
    refine ⟨k + 1, rfl, Nat.lt_succ_self k, ?_⟩
    by_cases live : Short cluster k
    · exact passed_short passed live rfl rfl
    · refine passed_skip passed (Nat.le_succ k) (fun j from_here upto => ?_) ?_
      · have here : j = k := by omega
        subst here
        exact ⟨live, fun n group => short (group_heads group).long⟩
      · intro h mem j other same
        rw [List.mem_singleton.mp mem] at same
        have here : j = k := by
          simp only [shortHanded] at same
          omega
        subst here
        exact live other
  | refused heads refused =>
    refine ⟨_, rfl, later, ?_⟩
    obtain ⟨groups, strays⟩ := sound heads
    have stray : ∀ n, ¬Group cluster k n := by
      intro n group
      have kept := groups n group
      rw [(group_kept_lands group kept).1] at refused
      exact kept.2.1 refused
    rw [← List.append_nil s.handed]
    refine passed_skip passed (Nat.le_of_lt later) (fun j from_here upto => ?_) (by simp)
    rcases Nat.eq_or_lt_of_le from_here with here | behind
    · subst here
      exact ⟨fun short => short_heads short heads, stray⟩
    · exact (strays stray).passes j behind upto
  | accepted heads kept whole h start sfn =>
    refine ⟨_, rfl, later, ?_⟩
    obtain ⟨groups, strays⟩ := sound heads
    by_cases some_group : ∃ n, Group cluster k n
    · obtain ⟨n, group⟩ := some_group
      obtain ⟨count, lands⟩ := group_kept_lands group (groups n group)
      rw [count] at sfn
      rw [lands]
      exact passed_group passed group start sfn
    · have stray : ∀ n, ¬Group cluster k n := not_exists.mp some_group
      have harmless := strays stray
      refine passed_skip passed (Nat.le_of_lt later) (fun j from_here upto => ?_) ?_
      · rcases Nat.eq_or_lt_of_le from_here with here | behind
        · subst here
          exact ⟨fun short => short_heads short heads, stray⟩
        · exact harmless.passes j behind upto
      · intro h' mem j other same
        rw [List.mem_singleton.mp mem, sfn] at same
        have here : j = k + entryCnt cluster k := by omega
        rw [here] at other
        exact harmless.other kept other

theorem sound_run (sound : ∀ k s, Reached cluster pic state k s → Sound cluster pic k s)
    (reached : Reached cluster pic state k s) (passed : Passed cluster k s.handed)
    (enough : cluster.entries - k < rounds) :
    ∃ s', recoverTheDirLoop pic cluster.toCluster cluster.size rounds (32 * k) s = .ok s' ∧
      HandedOnce cluster s'.handed := by
  induction rounds generalizing k s with
  | zero => exact absurd enough (Nat.not_lt_zero _)
  | succ rounds ih =>
    rw [recoverTheDirLoop]
    have cases := round_is pic cluster k s
    cases went : dirRound pic cluster.toCluster cluster.size (32 * k) s with
    | none =>
      rw [went] at cases
      cases cases with
      | outside heads kept outside =>
        obtain ⟨groups, strays⟩ := sound k s reached heads
        by_cases some_group : ∃ n, Group cluster k n
        · obtain ⟨n, group⟩ := some_group
          rw [(group_kept_lands group (groups n group)).1] at outside
          have inside := (group_inside group (Nat.le_refl n)).1
          omega
        · have inside := (strays (not_exists.mp some_group)).inside kept
          omega
    | some round =>
      cases round with
      | stop s' =>
        rw [went] at cases
        cases cases with
        | stop stops => exact ⟨s, rfl, passed_all passed stops⟩
      | go i s' =>
        obtain ⟨k', rfl, later, passed'⟩ := sound_round (sound k s reached) passed went
        by_cases inside : k < cluster.entries
        · exact ih (.round reached went) passed' (by omega)
        · rw [round_end (Nat.le_of_not_lt inside)] at went
          cases went

theorem inner_run {n j : Nat} (group : Group cluster k n) (positive : 0 < j) (upto : j ≤ n)
    (ran : recoverTheDirLoop pic cluster.toCluster cluster.size rounds (32 * (k + j)) s = .ok s') :
    ∃ h ∈ s'.handed, h.start = 32 * (k + n) ∧ h.sfn = 32 * (k + n) := by
  induction rounds generalizing j s with
  | zero => cases ran
  | succ rounds ih =>
    obtain ⟨inside, used⟩ := group_inside group upto
    rw [recoverTheDirLoop] at ran
    rcases Nat.lt_or_eq_of_le upto with inner | last
    · obtain ⟨no_first, kept, _⟩ :=
        (group_ord_first group.some_entry group.few).2.2 j positive inner
      rw [← group.ord j inner] at no_first kept
      rw [round_inner inside used kept (group.long j inner) no_first] at ran
      exact ih (Nat.succ_pos j) inner ran
    · subst last
      rw [round_short inside used group.sfn.kept group.sfn.short] at ran
      obtain ⟨new, handed, _⟩ := loop_handed (k := k + j + 1) ran
      refine ⟨shortHanded cluster (k + j), ?_, rfl, rfl⟩
      rw [handed, hand_handed]
      simp

theorem short_once {handed : List Handed} {q : Nat} (once : HandedOnce cluster handed)
    (short : Short cluster q) : ∃ p, startsOf handed (32 * q) = [32 * p] ∧
      (p = q ∨ ∃ n, Group cluster p n ∧ q = p + n) := by
  by_cases grouped : ∃ j n, Group cluster j n ∧ q = j + n
  · obtain ⟨j, n, group, rfl⟩ := grouped
    exact ⟨j, once.group j n group, .inr ⟨n, group, rfl⟩⟩
  · have lone : Lone cluster q := ⟨short, fun j n group same => grouped ⟨j, n, group, same⟩⟩
    exact ⟨q, once.lone q lone, .inl rfl⟩

/-- What a whole scan makes of an entry that heads a group: at most one picture is found there,
    and none between it and where the scan lands. -/
structure HeadScanned (cluster : DirCluster) (pic : Recovery σ) (k : Nat) (s final : Progress σ) :
    Prop where
  once : HandedOnce cluster final.handed
  rest : ∃ rounds mid,
    recoverTheDirLoop pic cluster.toCluster cluster.size rounds (32 * landing cluster pic k s) mid =
      .ok final
  inside : ¬Refused cluster k (entryCnt cluster k) → k + entryCnt cluster k < cluster.entries
  own : ¬Refused cluster k (entryCnt cluster k) →
    ∃ h ∈ final.handed, h.start = 32 * k ∧ h.sfn = 32 * (k + entryCnt cluster k)
  found : ∀ h ∈ final.handed, h.start < 32 * k ∨
    (¬Refused cluster k (entryCnt cluster k) ∧ h.start = 32 * k ∧
      h.sfn = 32 * (k + entryCnt cluster k)) ∨ 32 * landing cluster pic k s ≤ h.start

theorem head_scanned (whole : ScansWhole cluster pic state)
    (reached : Reached cluster pic state k s) (heads : Heads cluster k) :
    ∃ final, HeadScanned cluster pic k s final := by
  obtain ⟨final, ran, once⟩ := whole
  have before := reached_handed reached
  obtain ⟨rounds, ran⟩ := reached_runs reached ran
  cases rounds with
  | zero => cases ran
  | succ rounds =>
    rw [recoverTheDirLoop] at ran
    have cases := round_is pic cluster k s
    cases went : dirRound pic cluster.toCluster cluster.size (32 * k) s with
    | none =>
      rw [went] at ran
      cases ran
    | some round =>
      rw [went] at ran cases
      cases cases with
      | stop stops => exact absurd (stops heads.inside) heads.used
      | pass _ _ inner => exact absurd heads inner
      | short _ short => exact absurd heads.long short
      | refused _ refused =>
        obtain ⟨new, handed, found⟩ := loop_handed ran
        refine ⟨final, once, ⟨_, _, ran⟩, fun kept => absurd refused kept,
          fun kept => absurd refused kept, fun h mem => ?_⟩
        rw [handed] at mem
        rcases List.mem_append.mp mem with mem | mem
        · exact .inl (before h mem)
        · exact .inr (.inr (found h mem))
      | accepted _ kept inside h start sfn =>
        obtain ⟨new, handed, found⟩ := loop_handed ran
        rw [hand_handed] at handed
        refine ⟨final, once, ⟨_, _, ran⟩, fun _ => inside, fun _ => ⟨h, ?_, start, sfn⟩,
          fun h' mem => ?_⟩
        · rw [handed]
          simp
        · rw [handed] at mem
          rcases List.mem_append.mp mem with mem | mem
          · rcases List.mem_append.mp mem with mem | mem
            · exact .inl (before h' mem)
            · rw [List.mem_singleton.mp mem]
              exact .inr (.inl ⟨kept, start, sfn⟩)
          · exact .inr (.inr (found h' mem))

theorem head_group_kept {final : Progress σ} {n : Nat}
    (scanned : HeadScanned cluster pic k s final) (group : Group cluster k n) :
    GroupKept cluster pic k n s := by
  have later := landing_later cluster pic k s
  have starts := scanned.once.group k n group
  have mem : 32 * k ∈ startsOf final.handed (32 * (k + n)) := by
    rw [starts]
    exact List.mem_singleton_self _
  obtain ⟨h, mem, sfn, start⟩ := mem_starts_of.mp mem
  have few := group.few
  have count := group_entry_cnt group
  rcases scanned.found h mem with before | ⟨kept, _, sfn'⟩ | behind
  · omega
  · have same : entryCnt cluster k = n := by omega
    rw [same] at kept
    refine ⟨by omega, kept, ?_⟩
    by_contra lost
    have lands : landing cluster pic k s = k + 1 := by
      rw [landing, same, if_neg kept, if_neg lost]
    obtain ⟨rounds, mid, ran⟩ := scanned.rest
    rw [lands] at ran
    obtain ⟨h, mem, start, sfn⟩ := inner_run group Nat.one_pos group.some_entry ran
    have again := mem_starts_of.mpr ⟨h, mem, sfn, start⟩
    rw [starts, List.mem_singleton] at again
    have some_entry := group.some_entry
    omega
  · omega

theorem head_stray_harmless {final : Progress σ} (scanned : HeadScanned cluster pic k s final)
    (heads : Heads cluster k) (stray : ∀ n, ¬Group cluster k n) :
    StrayHarmless cluster pic k s where
  inside := scanned.inside
  other := by
    intro kept short
    obtain ⟨p, starts, whose⟩ := short_once scanned.once short
    obtain ⟨h, mem, start, sfn⟩ := scanned.own kept
    have again := mem_starts_of.mpr ⟨h, mem, sfn, start⟩
    rw [starts, List.mem_singleton] at again
    have here : p = k := by omega
    subst here
    rcases whose with same | ⟨n, group, _⟩
    · rw [← same] at short
      exact short_heads short heads
    · exact stray n group
  passes := by
    have nowhere : ∀ j, k < j → j < landing cluster pic k s →
        ∀ h ∈ final.handed, h.start ≠ 32 * j := by
      intro j behind upto h mem start
      rcases scanned.found h mem with before | ⟨_, here, _⟩ | after <;> omega
    intro j behind upto
    constructor
    · intro short
      obtain ⟨p, starts, whose⟩ := short_once scanned.once short
      have mem : 32 * p ∈ startsOf final.handed (32 * j) := by
        rw [starts]
        exact List.mem_singleton_self _
      obtain ⟨h, mem, _, start⟩ := mem_starts_of.mp mem
      rcases whose with same | ⟨n, group, same⟩
      · exact nowhere j behind upto h mem (by omega)
      · have some_entry := group.some_entry
        rcases Nat.lt_trichotomy p k with before | here | after
        · obtain ⟨d, rfl⟩ := Nat.exists_eq_add_of_le (Nat.le_of_lt before)
          exact (group_inner group (by omega) (by omega)).2 heads
        · rw [here] at group
          exact stray n group
        · exact nowhere p after (by omega) h mem start
    · intro n group
      have mem : 32 * j ∈ startsOf final.handed (32 * (j + n)) := by
        rw [scanned.once.group j n group]
        exact List.mem_singleton_self _
      obtain ⟨h, mem, _, start⟩ := mem_starts_of.mp mem
      exact nowhere j behind upto h mem start

/-- The scan of a directory ends. It is whole exactly where each group the scan comes to has at
    most 15 long entries, passes the test of the remaining size and has its picture recovered, and
    an entry that heads no group does no harm. -/
theorem scans_whole_iff (pic : Recovery σ) (cluster : DirCluster) (state : σ) :
    recoverTheDir pic cluster ⟨state, []⟩ ≠ .error .rounds ∧
      (ScansWhole cluster pic state ↔
        ∀ k s, Reached cluster pic state k s → Sound cluster pic k s) := by
  refine ⟨recover_the_dir_ends pic cluster _, ?_, ?_⟩
  · intro whole k s reached heads
    obtain ⟨final, scanned⟩ := head_scanned whole reached heads
    exact ⟨fun n group => head_group_kept scanned group,
      fun stray => head_stray_harmless scanned heads stray⟩
  · intro sound
    have passed : Passed cluster 0 [] := by
      constructor
      · intro j _
        rw [if_neg (Nat.not_lt_zero j)]
        rfl
      · intro j n _
        rw [if_neg (Nat.not_lt_zero j)]
        exact ⟨fun before => absurd before (Nat.not_lt_zero j), rfl⟩
    exact sound_run sound .start passed (Nat.lt_succ_self _)

def directory (entries : Nat) (small : 32 * entries < 2 ^ 24) (heads : List (UInt8 × UInt8)) :
    DirCluster where
  size := 32 * entries
  bytes q :=
    let head := heads.getD (q / 32) (0, 0)
    if q % 32 = 0 then head.1 else if q % 32 = 11 then head.2 else 0x20
  entries := entries
  whole := rfl
  small := small

/-- A short entry, and another one behind its long entry. -/
def secondLong : DirCluster :=
  directory 32 (by decide) [(0x41, 0x20), (0x41, 0x0f), (0x42, 0x20)]

/-- The last of 16 entries is a long one. -/
def cutGroup : DirCluster :=
  directory 16 (by decide) (List.replicate 15 (0x41, 0x20) ++ [(0x41, 0x0f)])

/-- In 1024 bytes a group behind the first entry is refused, and in 512 bytes one that is cut off
    is read to behind the cluster. -/
theorem scan_refuses_and_leaves :
    ¬ScansWhole secondLong noPicture () ∧
      recoverTheDir noPicture cutGroup ⟨(), []⟩ = .error .outside := by
  constructor
  · rintro ⟨final, ran, once⟩
    have group : Group secondLong 1 1 := by
      refine ⟨by decide, by decide, ?_, ?_, ⟨?_, ?_⟩, ?_, ?_⟩ <;> decide +kernel
    have pictures : (recoverTheDir noPicture secondLong ⟨(), []⟩).toOption.map
        (fun s => s.handed.map fun h => (h.start, h.sfn)) = some [(0, 0), (64, 64)] := by
      decide +kernel
    have starts := once.group 1 1 group
    have mem : 32 ∈ startsOf final.handed (32 * (1 + 1)) := by
      rw [starts]
      exact List.mem_singleton_self _
    obtain ⟨h, mem, sfn, start⟩ := mem_starts_of.mp mem
    rw [ran] at pictures
    have all : final.handed.map (fun h => (h.start, h.sfn)) = [(0, 0), (64, 64)] :=
      Option.some.inj pictures
    have listed := List.mem_map_of_mem (f := fun h : Handed => (h.start, h.sfn)) mem
    rw [all, sfn, start] at listed
    exact absurd listed (by decide)
  · rfl

end Sound

end Frecov
