import JyyOs.Vme.Tables

/-!
One address space: the words below its root hold the entries of a table, which protect, map and
unprotect change as they should, and a user access finds what the table says.
-/
namespace Vme

open Hoare TableTree Radix
open Uproc (Pte InArea ptPath mmapNone mmapWrite pgsize)

def encode : Option Pte → Nat
  | none => 0
  | some pte => pte.pa ||| pteP ||| pteU ||| if pte.writable then pteW else 0

/-- The table of pages after `map`, none where it panics. -/
def mapTable (t : Table Pte) (va pa prot : Nat) : Option (Table Pte) :=
  if InArea va ∧ va = baseof va ∧ pa = baseof pa then
    if prot = mmapNone then
      if (lookup t (ptPath va)).isSome then some (store t (ptPath va) none) else none
    else if (lookup t (ptPath va)).isNone then
      some (store t (ptPath va) (some ⟨pa, prot &&& mmapWrite ≠ 0⟩))
    else none
  else none

theorem kernel_map_iff {t va pa prot : Nat} {k k' : Uproc.Kernel} {u : Unit} :
    (Uproc.map t va pa prot).run k = .ok (u, k') ↔
      ∃ table, mapTable (k.tasks t).table va pa prot = some table ∧
        k' = k.setTask t { k.tasks t with table } := by
  have same : ∀ a, Uproc.roundDown a = baseof a := fun a => rfl
  simp only [Uproc.map, bind_ok, Uproc.stop_unless_ok, get_ok, mapTable, same]
  constructor
  · rintro ⟨_, _, ⟨inside, rfl⟩, _, _, ⟨page, rfl⟩, _, _, ⟨rfl, rfl⟩, ran⟩
    rw [if_pos ⟨inside, page.1, page.2⟩]
    by_cases unmaps : prot = mmapNone
    · rw [if_pos unmaps] at ran ⊢
      simp only [bind_ok, Uproc.stop_unless_ok, set_ok] at ran
      obtain ⟨_, _, ⟨mapped, rfl⟩, rfl⟩ := ran
      exact ⟨_, if_pos mapped, rfl⟩
    · rw [if_neg unmaps] at ran ⊢
      simp only [bind_ok, Uproc.stop_unless_ok, set_ok] at ran
      obtain ⟨_, _, ⟨free, rfl⟩, rfl⟩ := ran
      exact ⟨_, if_pos free, rfl⟩
  · rintro ⟨table, mapped, rfl⟩
    by_cases fine : InArea va ∧ va = baseof va ∧ pa = baseof pa
    · rw [if_pos fine] at mapped
      refine ⟨⟨⟩, _, ⟨fine.1, rfl⟩, ⟨⟩, _, ⟨fine.2, rfl⟩, _, _, ⟨rfl, rfl⟩, ?_⟩
      by_cases unmaps : prot = mmapNone
      · rw [if_pos unmaps] at mapped ⊢
        simp only [bind_ok, Uproc.stop_unless_ok, set_ok]
        split at mapped
        · rename_i present
          cases mapped
          exact ⟨⟨⟩, _, ⟨present, rfl⟩, rfl⟩
        · cases mapped
      · rw [if_neg unmaps] at mapped ⊢
        simp only [bind_ok, Uproc.stop_unless_ok, set_ok]
        split at mapped
        · rename_i free
          cases mapped
          exact ⟨⟨⟩, _, ⟨free, rfl⟩, rfl⟩
        · cases mapped
    · rw [if_neg fine] at mapped
      cases mapped

structure Space (s : Machine) (root : Nat) (t : Table Pte) : Prop where
  rooted : Rooted s 3 root
  entries : ∀ path last, Inside 512 3 path → last < 512 →
    entry next 0 s.mem root path last = encode (lookup t (path ++ [last]))
  aligned : ∀ path pte, path.length = 4 → lookup t path = some pte → pte.pa % pgsize = 0

section Words

theorem encode_some (pte : Pte) :
    encode (some pte) = pte.pa ||| (5 ||| if pte.writable then pteW else 0) := by
  rw [encode, Nat.or_assoc, Nat.or_assoc, ← Nat.or_assoc pteP]
  rfl

theorem flags_small (pte : Pte) : (5 ||| if pte.writable then pteW else 0) < 4096 := by
  cases pte.writable <;> decide

theorem encode_and {pte : Pte} {m : Nat} (aligned : pte.pa % pgsize = 0) (mask : m < 4096) :
    encode (some pte) &&& m = (5 ||| if pte.writable then pteW else 0) &&& m := by
  rw [encode_some, or_and aligned (flags_small pte) mask]

theorem encode_present {e : Option Pte} (aligned : ∀ pte, e = some pte → pte.pa % pgsize = 0) :
    encode e &&& pteP = 0 ↔ e = none := by
  cases e with
  | none => simp [encode]
  | some pte =>
    rw [encode_and (aligned pte rfl) (by decide)]
    refine iff_of_false ?_ (Option.some_ne_none pte)
    cases pte.writable <;> decide

theorem path_slots (addr : Nat) : ∃ rest last,
    ptPath addr = (addr / 2 ^ 39 % 512 :: rest) ++ [last] ∧
    Inside 512 3 (addr / 2 ^ 39 % 512 :: rest) ∧ last < 512 := by
  have small : ∀ a, a % 512 < 512 := fun a => Nat.mod_lt a (by decide)
  rw [Uproc.pt_path_eq]
  refine ⟨[addr / 2 ^ 30 % 512, addr / 2 ^ 21 % 512], addr / 2 ^ 12 % 512, rfl, ⟨rfl, ?_⟩, small _⟩
  simp only [List.mem_cons, List.not_mem_nil, or_false]
  rintro i (rfl | rfl | rfl) <;> exact small _

theorem user_slot {addr : Nat} (inside : InArea addr) : addr / 2 ^ 39 % 512 = 32 := by
  simp only [InArea, Uproc.areaStart, Uproc.areaEnd] at inside
  omega

theorem slot_user {addr : Nat} (canonical : Canonical addr) (slot : addr / 2 ^ 39 % 512 = 32) :
    InArea addr := by
  simp only [InArea, Uproc.areaStart, Uproc.areaEnd]
  rcases canonical with low | ⟨lower, upper⟩ <;> omega

end Words

section Calls

variable {s s' s'' : Machine} {root : Nat} {t t' : Table Pte} {new new' : List Nat}

structure Changed (s s' : Machine) (root : Nat) (t : Table Pte) (new : List Nat) : Prop where
  space : Space s' root t
  tables : (tablesOf s'.mem 3 root).Perm (tablesOf s.mem 3 root ++ new)
  frame : ∀ q, q ∉ tablesOf s.mem 3 root → q ∉ new → s'.mem q = s.mem q
  taken : Taken s s' new

theorem Space.grown (space : Space s root t) (grown : Grown s s' 3 root new) :
    Changed s s' root t new where
  space := ⟨grown.rooted space.rooted,
    fun path last inside small => (grown.grows.entries path last inside small).trans
      (space.entries path last inside small), space.aligned⟩
  tables := grown.grows.tables
  frame := grown.grows.frame
  taken := grown.taken

theorem Changed.trans (first : Changed s s' root t new) (second : Changed s' s'' root t' new') :
    Changed s s'' root t' (new ++ new') where
  space := second.space
  tables := by
    rw [← List.append_assoc]
    exact second.tables.trans (first.tables.append_right new')
  frame := by
    intro q out made
    rw [List.mem_append, not_or] at made
    rw [second.frame q ?_ made.2, first.frame q out made.1]
    rw [first.tables.mem_iff, List.mem_append, not_or]
    exact ⟨out, made.1⟩
  taken := first.taken.trans second.taken

theorem Space.stored {path : List Nat} {last pt : Nat} {e : Option Pte} (space : Space s root t)
    (inside : Inside 512 3 path) (small : last < 512)
    (reached : walk next s.mem path root = some pt)
    (aligned : ∀ pte, e = some pte → pte.pa % pgsize = 0) :
    Changed s { s with mem := setWord s.mem pt last (encode e) } root
      (store t (path ++ [last]) e) [] := by
  have stores : Stores next 512 Regular 0 s.mem _ 3 root path last (encode e) :=
    stores_word space.rooted.nodup inside reached
  have at_path := walk_mem inside reached
  refine ⟨⟨⟨?_, stores.all ?_ space.rooted.regular, ?_⟩, ?_, ?_⟩, ?_, ?_, ?_⟩
  · rw [tablesOf, stores.tables]
    exact space.rooted.nodup
  · rw [Regular, if_pos rfl]
    trivial
  · intro q below
    rw [tablesOf, stores.tables] at below
    exact space.rooted.mine q below
  · intro path' last' inside' small'
    by_cases here : path' = path ∧ last' = last
    · obtain ⟨rfl, rfl⟩ := here
      rw [stores.here, lookup_store]
    · rw [stores.entries path' last' inside' small' here, space.entries path' last' inside' small',
        lookup_store_other]
      · simp [inside.1, inside'.1]
      · intro same
        obtain ⟨left, right⟩ := List.append_inj' same rfl
        exact here ⟨left, List.singleton_inj.mp right⟩
  · intro path' pte depth found
    by_cases here : path' = path ++ [last]
    · rw [here, lookup_store] at found
      exact aligned pte found
    · rw [lookup_store_other _ _ (by simp [depth, inside.1]) here] at found
      exact space.aligned path' pte depth found
  · rw [tablesOf, stores.tables, List.append_nil]
  · intro q out _
    exact set_word_page fun eq => out (eq ▸ at_path)
  · exact ⟨List.nodup_nil, fun q none => absurd none List.not_mem_nil, fun q => by simp, rfl⟩

def rootWord (root : Nat) : Nat := root ||| pteP ||| pteU

theorem root_and {m : Nat} (page : root % pgsize = 0) (mask : m < 4096) :
    rootWord root &&& m = 5 &&& m := by
  rw [rootWord, Nat.or_assoc]
  exact or_and page (by decide) mask

theorem root_base (page : root % pgsize = 0) : baseof (rootWord root) = root := by
  rw [rootWord, Nat.or_assoc]
  exact base_or page (by decide)

variable {as va pa prot : Nat} {path : List Nat} {last : Nat}

theorem ptwalk_spec (s : Machine) (linked : s.ptr as = rootWord root) (page : root % pgsize = 0)
    (rooted : Rooted s 3 root) (slots : ptPath va = path ++ [last]) (inside : Inside 512 3 path)
    (user : path.head? = some 32) :
    Spec (s = ·) (ptwalk as va (pteW ||| pteU)) (fun r s' => r.2 = last ∧
      ∃ new, Grown s s' 3 root new ∧ walk next s'.mem path root = some r.1) NoMemory := by
  refine spec_read fun _ same => ?_
  subst same
  have present : ¬ s.ptr as &&& pteP = 0 := by
    rw [linked, root_and page (by decide)]
    decide
  rw [if_neg present, linked, root_base page]
  exact walk_from_spec s rooted (by decide) slots inside fun _ => user

def MapStops (t : Table Pte) (va pa prot : Nat) (e : Halt) : Prop :=
  NoMemory e ∨ e = .panic ∧ mapTable t va pa prot = none

theorem Space.word {pt : Nat} (space : Space s root t) (inside : Inside 512 3 path)
    (small : last < 512) (reached : walk next s.mem path root = some pt) :
    s.mem pt last = encode (lookup t (path ++ [last])) := by
  rw [← space.entries path last inside small, entry, reached]
  rfl

theorem Space.present {pt : Nat} (space : Space s root t) (inside : Inside 512 3 path)
    (small : last < 512) (reached : walk next s.mem path root = some pt) :
    s.mem pt last &&& pteP = 0 ↔ lookup t (path ++ [last]) = none := by
  rw [space.word inside small reached]
  exact encode_present fun pte found => space.aligned _ pte (by simp [inside.1]) found

/-- The second walk of map finds every table, or creates it. -/
theorem walk_again (s : Machine) (linked : s.ptr as = rootWord root) (page : root % pgsize = 0)
    (space : Space s root t') (slots : ptPath va = path ++ [last]) (inside : Inside 512 3 path)
    (user : path.head? = some 32) :
    Spec (s = ·) (do let _ ← ptwalk as va (pteW ||| pteU)) (fun _ s' => ∃ new,
      Changed s s' root t' new) NoMemory := by
  refine spec_bind (ptwalk_spec s linked page space.rooted slots inside user) fun r => ?_
  refine spec_pure _ ?_
  rintro s' ⟨_, new, grown, _⟩
  exact ⟨new, space.grown grown⟩

theorem map_spec (s : Machine) (va pa prot : Nat) (linked : s.ptr as = rootWord root) (page : root % pgsize = 0)
    (space : Space s root t) :
    Spec (s = ·) (map as va pa prot) (fun _ s' => ∃ t' new, mapTable t va pa prot = some t' ∧
      Changed s s' root t' new) (MapStops t va pa prot) := by
  refine spec_bind (spec_stop_unless fun outside => .inr ⟨rfl, if_neg fun fine => outside fine.1⟩)
    fun _ => spec_given fun area => ?_
  refine spec_bind (spec_stop_unless fun odd => .inr ⟨rfl, if_neg fun fine => odd fine.2⟩)
    fun _ => spec_given fun even => ?_
  obtain ⟨rest, last, slots, inside, small⟩ := path_slots va
  rw [user_slot area] at slots inside
  have fine : InArea va ∧ va = baseof va ∧ pa = baseof pa := ⟨area, even⟩
  refine spec_bind (spec_stops (ptwalk_spec s linked page space.rooted slots inside rfl) fun e =>
    .inl) fun r => ?_
  rintro mid ⟨index, new, grown, reached⟩
  obtain ⟨pt, i⟩ := r
  obtain rfl : i = last := index
  have first := space.grown grown
  have present := first.space.present inside small reached
  have linked' : mid.ptr as = rootWord root := by
    rw [first.taken.rest]
    exact linked
  have finish : ∀ e : Option Pte, (∀ pte, e = some pte → pte.pa % pgsize = 0) →
      mapTable t va pa prot = some (store t (ptPath va) e) →
      Spec (mid = ·) (do setPt pt i (encode e); let _ ← ptwalk as va (pteW ||| pteU))
        (fun _ s' => ∃ t' new, mapTable t va pa prot = some t' ∧ Changed s s' root t' new)
        (MapStops t va pa prot) := by
    intro e aligned mapped
    have second := first.space.stored inside small reached aligned
    rw [← slots] at second
    refine spec_bind (R := fun _ s' => { mid with mem := setWord mid.mem pt i (encode e) } = s')
      (spec_modify _ ?_) fun _ => ?_
    · rintro _ rfl
      rfl
    · have again := walk_again { mid with mem := setWord mid.mem pt i (encode e) } linked' page
        second.space slots inside rfl
      refine spec_weaken (spec_stops again fun e => .inl) (fun _ same => same) ?_
      rintro _ s' ⟨new', third⟩
      exact ⟨_, _, mapped, (first.trans second).trans third⟩
  refine spec_read (P := (mid = ·)) (fun _ same => ?_) mid rfl
  subst same
  refine spec_ite (fun unmaps => ?_) fun maps => ?_
  · refine spec_bind (spec_stop_unless fun absent => .inr ⟨rfl, ?_⟩) fun _ =>
      spec_given fun mapped => ?_
    · rw [not_not, present, ← slots] at absent
      rw [mapTable, if_pos fine, if_pos unmaps, absent]
      rfl
    · rw [Ne, present, ← slots] at mapped
      refine finish none (fun _ none => (nomatch none)) ?_
      rw [mapTable, if_pos fine, if_pos unmaps, if_pos (Option.isSome_iff_ne_none.mpr mapped)]
  · refine spec_bind (spec_stop_unless fun mapped => .inr ⟨rfl, ?_⟩) fun _ =>
      spec_given fun free => ?_
    · rw [present, ← slots] at mapped
      rw [mapTable, if_pos fine, if_neg maps, if_neg (by simpa using mapped)]
    · rw [present, ← slots] at free
      have word : pa ||| pteP ||| pteU ||| (if prot &&& mmapWrite ≠ 0 then pteW else 0) =
          encode (some ⟨pa, prot &&& mmapWrite ≠ 0⟩) := by
        simp [encode]
      rw [word]
      refine finish _ ?_ ?_
      · rintro _ ⟨⟩
        have base := even.2
        simp only [baseof, pgsize] at base ⊢
        omega
      · rw [mapTable, if_pos fine, if_neg maps, if_pos (Option.isNone_iff_eq_none.mpr free)]

structure Opened (s s' : Machine) (as root : Nat) : Prop where
  page : root % pgsize = 0
  ptr : s'.ptr = Function.update s.ptr as (rootWord root)
  space : Space s' root .absent
  tables : tablesOf s'.mem 3 root = [root]
  frame : ∀ q, q ≠ root → s'.mem q = s.mem q
  unheld : s.mine root = false ∧ s.theirs root = false
  mine : s'.mine = Function.update s.mine root true
  rest : s' = { s with ptr := s'.ptr, mem := s'.mem, mine := s'.mine, choices := s'.choices }

theorem blank_root (s : Machine) (held : s.mine root = true)
    (words : ∀ i < 512, s.mem root i = if i = 0 then kernelEntry else 0) :
    tablesOf s.mem 3 root = [root] ∧ Space s root .absent := by
  have unlinked : ∀ i < 512, next (s.mem root i) = none := by
    intro i small
    rw [words i small]
    split <;> decide
  have tables : tablesOf s.mem 3 root = [root] := tables_unlinked unlinked
  refine ⟨tables, ⟨?_, ?_, ?_⟩, ?_, fun path pte _ found => by simp at found⟩
  · rw [tables]
    exact List.nodup_singleton root
  · intro i small
    refine ⟨?_, fun c link => by simp [unlinked i small] at link⟩
    rw [words i small]
    by_cases user : i = 32
    · rw [regular_inner (by decide) fun _ => user, user]
      exact .inl rfl
    · rw [Regular, if_neg (by decide), if_pos ⟨rfl, user⟩]
  · rw [tables]
    intro q here
    rw [List.mem_singleton.mp here, held]
  · intro path last inside small
    obtain ⟨i, rest, rfl, here, inside⟩ := inside_succ inside
    rw [entry, walk, unlinked i here, lookup_absent]
    rfl

theorem protect_spec (s : Machine) (as : Nat) (kernel : s.kpt 0 = kernelEntry) :
    Spec (s = ·) (protect as) (fun _ s' => ∃ root, Opened s s' as root) NoMemory := by
  refine spec_bind (pgallocz_spec s) fun upt => ?_
  intro mid fresh
  have copied : kernelAddrs = [0] := rfl
  rw [copied]
  refine spec_bind (P := (mid = ·))
    (R := fun _ s' => { mid with mem := setWord mid.mem upt 0 kernelEntry } = s') ?_ (fun _ => ?_)
    mid rfl
  · refine spec_bind (R := fun _ s' => { mid with mem := setWord mid.mem upt 0 kernelEntry } = s')
      (spec_read fun s' same => ?_) fun _ => spec_pure _ fun _ same => same
    subst same
    have kept : mid.kpt 0 = kernelEntry := by
      rw [fresh.rest]
      exact kernel
    refine spec_modify _ ?_
    rintro _ rfl
    rw [show indexof 0 pml4 = 0 from rfl, kept]
  · refine spec_modify _ ?_
    rintro _ rfl
    have held : mid.mine upt = true := by rw [fresh.mine, Function.update_self]
    have words : ∀ i < 512, setWord mid.mem upt 0 kernelEntry upt i =
        if i = 0 then kernelEntry else 0 := by
      intro i small
      by_cases first : i = 0
      · rw [if_pos first, first, set_word_here]
      · rw [if_neg first, set_word_slot first, fresh.blank i small]
    obtain ⟨tables, space⟩ := blank_root { mid with
      ptr := Function.update mid.ptr as (rootWord upt)
      mem := setWord mid.mem upt 0 kernelEntry } held words
    refine ⟨upt, fresh.aligned, ?_, space, tables, ?_, ⟨fresh.notMine, fresh.notTheirs⟩,
      fresh.mine, ?_⟩
    · rw [fresh.rest]
      rfl
    · exact fun q ne => (set_word_page ne).trans (fresh.same q ne)
    · rw [fresh.rest]

theorem unprotect_spec (s : Machine) (linked : s.ptr as = rootWord root) (page : root % pgsize = 0)
    (space : Space s root t) :
    Ends (s = ·) (unprotect as) (fun _ s' => Torn s s' (tablesOf s.mem 3 root)) := by
  refine ends_get fun s' same => ?_
  subst same
  have open' : s.ptr as &&& pteP ≠ 0 ∧ s.ptr as &&& pteU ≠ 0 := by
    rw [linked, root_and page (by decide), root_and page (by decide)]
    decide
  rw [if_pos open', linked, root_base page]
  exact teardown_spec s rfl (by decide) space.rooted

def userEntry (t : Table Pte) (addr : Nat) : Option Pte :=
  if InArea addr then lookup t (ptPath addr) else none

def leaf (w : Nat) : Option (Nat × Bool) :=
  if w &&& pteP ≠ 0 ∧ w &&& pteU ≠ 0 then some (baseof w, decide (w &&& pteW ≠ 0)) else none

theorem leaf_zero : leaf 0 = none := by
  decide

theorem leaf_encode {e : Option Pte} (aligned : ∀ pte, e = some pte → pte.pa % pgsize = 0) :
    leaf (encode e) = e.map fun pte => (pte.pa, pte.writable) := by
  cases e with
  | none => rfl
  | some pte =>
    have page := aligned pte rfl
    have base : baseof (encode (some pte)) = pte.pa := by
      rw [encode_some]
      exact base_or page (flags_small pte)
    simp only [leaf, encode_and page (show pteP < 4096 by decide),
      encode_and page (show pteU < 4096 by decide), encode_and page (show pteW < 4096 by decide),
      base, Option.map_some]
    cases pte.writable <;> rfl

theorem user_walk {mem : Mem Nat} {d p addr : Nat} {infos : List PtInfo}
    (levels : infos.map (indexof addr) = path ++ [last]) (inside : Inside 512 d path)
    (regular : All next 512 Regular mem d p) :
    userWalk mem addr infos p = (walk next mem path p).bind fun q => leaf (mem q last) := by
  induction infos generalizing d p path with
  | nil => simp at levels
  | cons info below ih =>
    cases d with
    | zero =>
      obtain rfl := inside_zero inside
      cases below with
      | cons => simp at levels
      | nil =>
        simp only [List.map_cons, List.map_nil, List.nil_append, List.cons.injEq,
          and_true] at levels
        simp only [userWalk, levels, walk, Option.bind_some, leaf, Option.map_some, Bool.true_and]
    | succ d =>
      obtain ⟨i, rest, rfl, here, inside⟩ := inside_succ inside
      simp only [List.map_cons, List.cons_append, List.cons.injEq] at levels
      obtain ⟨slot, levels⟩ := levels
      obtain ⟨word, children⟩ := regular i here
      simp only [userWalk, slot, walk]
      cases link : next (mem p i) with
      | none =>
        rw [if_neg fun flags => by simp [next, flags] at link]
        rfl
      | some c =>
        obtain ⟨_, aligned, linked⟩ := regular_next (by omega) word link
        have flags : mem p i &&& pteP ≠ 0 ∧ mem p i &&& pteU ≠ 0 := by
          by_contra closed
          rw [next, if_neg closed] at link
          cases link
        have base : baseof (mem p i) = c := by
          rw [linked]
          exact base_or aligned (by decide)
        have writable : decide (mem p i &&& pteW ≠ 0) = true := by
          rw [linked, decide_eq_true_eq]
          exact link_writable aligned
        rw [if_pos flags, base, ih levels inside (children c link), writable, Option.bind_some]
        simp only [Bool.and_true, Option.map_id_fun', id]

theorem translate_spec (s : Machine) (linked : s.ptr as = rootWord root) (page : root % pgsize = 0)
    (space : Space s root t) (addr : Nat) :
    translate s as addr = (userEntry t addr).map fun pte => (pte.pa, pte.writable) := by
  obtain ⟨rest, last, slots, inside, small⟩ := path_slots addr
  by_cases canonical : Canonical addr
  · have walked : userWalk s.mem addr pgtables root = _ :=
      user_walk slots inside space.rooted.regular
    rw [translate, if_pos canonical, linked, root_base page, walked]
    by_cases area : InArea addr
    · have aligned : ∀ pte, lookup t (ptPath addr) = some pte → pte.pa % pgsize = 0 :=
        fun pte found => space.aligned _ pte rfl found
      rw [userEntry, if_pos area, ← leaf_encode aligned, slots]
      cases reached : walk next s.mem _ root with
      | none =>
        have empty := space.entries _ last inside small
        rw [entry, reached] at empty
        rw [← empty]
        exact leaf_zero.symm
      | some pt => rw [Option.bind_some, space.word inside small reached]
    · obtain ⟨word, _⟩ := space.rooted.regular _ (inside.2 _ List.mem_cons_self)
      rw [userEntry, if_neg area, walk]
      cases link : next (s.mem root (addr / 2 ^ 39 % 512)) with
      | none => rfl
      | some c =>
        exact absurd (slot_user canonical ((regular_next (by decide) word link).1 rfl)) area
  · have outside : ¬InArea addr := by
      simp only [InArea, Uproc.areaStart, Uproc.areaEnd]
      simp only [Canonical] at canonical
      omega
    rw [translate, if_neg canonical, userEntry, if_neg outside]
    rfl

end Calls

end Vme
