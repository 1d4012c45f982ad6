import JyyOs.Library.Hoare
import JyyOs.Library.TableTree
import JyyOs.Uproc.PageList
import Mathlib.Data.Nat.Bitwise

/-!
The page tables of vme.c as words in memory. `mine` are the pages pgalloc handed out, `theirs` the
blocks of one page that pmm->alloc gave to others. What pgalloc returns is read from `choices`, and
`junk` is what pmm makes of a page that pgfree takes back; both stand for any environment.
-/
namespace Vme

open Hoare TableTree
open Uproc (InArea mmapNone mmapWrite pgsize)

inductive Halt where
  | panic
  | noPage
  | badFree
  | infeasible
  deriving DecidableEq, Repr

structure PtInfo where
  mask : Nat
  shift : Nat
  bits : Nat

def pml4 : PtInfo := ⟨0xff8000000000, 39, 9⟩

def pgtables : List PtInfo :=
  [pml4, ⟨0x007fc0000000, 30, 9⟩, ⟨0x00003fe00000, 21, 9⟩, ⟨0x0000001ff000, 12, 9⟩]

structure VmArea where
  start : Nat
  stop : Nat
  kernel : Bool

def vmAreas : List VmArea := [⟨0x100000000000, 0x108000000000, false⟩, ⟨0, 0x008000000000, true⟩]

def pteP : Nat := 1
def pteW : Nat := 2
def pteU : Nat := 4

/-- `ptr` is as->ptr, by the address of the AddrSpace. -/
structure Machine where
  ptr : Nat → Nat
  mem : Mem Nat
  kpt : Nat → Nat
  mine : Nat → Bool
  theirs : Nat → Bool
  junk : Nat → Nat → Nat
  choices : List Nat
  freed : List Nat

abbrev Vm := Prog Machine Halt

def stopUnless (c : Prop) [Decidable c] (e : Halt) : Vm Unit :=
  if c then pure () else throw e

/-- pmm->alloc of a page: NULL or an aligned page that nobody holds. -/
def pgalloc : Vm Nat := do
  let s ← get
  match s.choices with
  | [] => throw .infeasible
  | page :: rest =>
    set { s with choices := rest }
    if page = 0 then return 0
    else
      stopUnless (s.mine page = false ∧ s.theirs page = false ∧ page % pgsize = 0) .infeasible
      set { s with choices := rest, mine := Function.update s.mine page true }
      return page

def pgfree (page : Nat) : Vm Unit := do
  let s ← get
  stopUnless (s.mine page = true) .badFree
  set { s with mine := Function.update s.mine page false,
               mem := Function.update s.mem page (s.junk page), freed := page :: s.freed }

def setPt (pt index w : Nat) : Vm Unit :=
  modify fun s => { s with mem := setWord s.mem pt index w }

def pgallocz : Vm Nat := do
  let base ← pgalloc
  stopUnless (base ≠ 0) .noPage
  (List.range 512).forM fun i => setPt base i 0
  return base

def indexof (addr : Nat) (info : PtInfo) : Nat := (addr &&& info.mask) >>> info.shift

def baseof (addr : Nat) : Nat := addr / pgsize * pgsize

def walkFrom (addr flags : Nat) : List PtInfo → Nat → Vm (Nat × Nat)
  | [], _ => throw .panic
  | [info], cur => return (cur, indexof addr info)
  | info :: below, cur => do
    let s ← get
    if s.mem cur (indexof addr info) &&& pteP = 0 then
      let nextPage ← pgallocz
      setPt cur (indexof addr info) (nextPage ||| pteP ||| flags)
      walkFrom addr flags below nextPage
    else walkFrom addr flags below (baseof (s.mem cur (indexof addr info)))

def ptwalk (as addr flags : Nat) : Vm (Nat × Nat) := do
  let s ← get
  if s.ptr as &&& pteP = 0 then
    let nextPage ← pgallocz
    modify fun s => { s with ptr := Function.update s.ptr as (nextPage ||| pteP ||| flags) }
    walkFrom addr flags pgtables nextPage
  else walkFrom addr flags pgtables (baseof (s.ptr as))

/-- A level beyond the last has no tables. -/
def teardown : List PtInfo → Nat → Vm Unit
  | [], _ => pure ()
  | info :: below, pt => do
    (List.range (2 ^ info.bits)).forM fun index => do
      let s ← get
      if s.mem pt index &&& pteP ≠ 0 ∧ s.mem pt index &&& pteU ≠ 0 then
        teardown below (baseof (s.mem pt index))
      else pure ()
    pgfree pt

def kernelAddrs : List Nat :=
  (vmAreas.filter VmArea.kernel).flatMap fun vma =>
    (List.range ((vma.stop - vma.start) / 2 ^ pml4.shift)).map fun k =>
      vma.start + k * 2 ^ pml4.shift

def protect (as : Nat) : Vm Unit := do
  let upt ← pgallocz
  kernelAddrs.forM fun cur => do
    let s ← get
    setPt upt (indexof cur pml4) (s.kpt (indexof cur pml4))
  modify fun s => { s with ptr := Function.update s.ptr as (upt ||| pteP ||| pteU) }

def unprotect (as : Nat) : Vm Unit := do
  let s ← get
  if s.ptr as &&& pteP ≠ 0 ∧ s.ptr as &&& pteU ≠ 0 then teardown pgtables (baseof (s.ptr as))
  else pure ()

def map (as va pa prot : Nat) : Vm Unit := do
  stopUnless (InArea va) .panic
  stopUnless (va = baseof va ∧ pa = baseof pa) .panic
  let (pt, index) ← ptwalk as va (pteW ||| pteU)
  let s ← get
  if prot = mmapNone then
    stopUnless (s.mem pt index &&& pteP ≠ 0) .panic
    setPt pt index 0
  else
    stopUnless (s.mem pt index &&& pteP = 0) .panic
    setPt pt index (pa ||| pteP ||| pteU ||| if prot &&& mmapWrite ≠ 0 then pteW else 0)
  let _ ← ptwalk as va (pteW ||| pteU)

/-- What the processor makes of a user access to `addr`: every entry on the way must be present
    and open to the user, and the page is writable when all of them are. -/
def userWalk (mem : Mem Nat) (addr : Nat) : List PtInfo → Nat → Option (Nat × Bool)
  | [], page => some (page, true)
  | info :: below, pt =>
    let w := mem pt (indexof addr info)
    if w &&& pteP ≠ 0 ∧ w &&& pteU ≠ 0 then
      (userWalk mem addr below (baseof w)).map fun (page, writable) =>
        (page, writable && decide (w &&& pteW ≠ 0))
    else none

/-- The processor refuses an address whose upper bits are not copies of bit 47. -/
def Canonical (addr : Nat) : Prop := addr < 2 ^ 47 ∨ 2 ^ 64 - 2 ^ 47 ≤ addr ∧ addr < 2 ^ 64

instance (addr : Nat) : Decidable (Canonical addr) := inferInstanceAs (Decidable (_ ∨ _))

def translate (s : Machine) (as addr : Nat) : Option (Nat × Bool) :=
  if Canonical addr then userWalk s.mem addr pgtables (baseof (s.ptr as)) else none

section Words

variable {q f m : Nat}

theorem page_or (aligned : q % pgsize = 0) (small : f < 4096) : q ||| f = q + f := by
  obtain ⟨k, rfl⟩ := Nat.dvd_of_mod_eq_zero aligned
  exact (Nat.two_pow_add_eq_or_of_lt (i := 12) small k).symm

theorem base_or (aligned : q % pgsize = 0) (small : f < 4096) : baseof (q ||| f) = q := by
  rw [page_or aligned small, baseof, pgsize]
  simp only [pgsize] at aligned
  omega

theorem or_and (aligned : q % pgsize = 0) (small : f < 4096) (mask : m < 4096) :
    (q ||| f) &&& m = f &&& m := by
  have low : (q ||| f) % 2 ^ 12 = f := by
    rw [page_or aligned small]
    simp only [pgsize] at aligned
    omega
  have below : (q ||| f) &&& m < 2 ^ 12 := Nat.lt_of_le_of_lt Nat.and_le_right mask
  rw [← Nat.mod_eq_of_lt below, Nat.and_mod_two_pow, low, Nat.mod_eq_of_lt mask]

def linkTo (q : Nat) : Nat := q ||| 7

theorem link_writable {q : Nat} (aligned : q % pgsize = 0) : linkTo q &&& pteW ≠ 0 := by
  rw [linkTo, pteW, or_and aligned (by decide) (by decide)]
  decide

theorem walk_word (q : Nat) : q ||| pteP ||| (pteW ||| pteU) = linkTo q := by
  rw [Nat.or_assoc]
  rfl

def next (w : Nat) : Option Nat :=
  if w &&& pteP ≠ 0 ∧ w &&& pteU ≠ 0 then some (baseof w) else none

theorem next_link (aligned : q % pgsize = 0) : next (linkTo q) = some q := by
  rw [next, linkTo, pteP, pteU, or_and aligned (by decide) (by decide),
    or_and aligned (by decide) (by decide), base_or aligned (by decide), if_pos (by decide)]

theorem next_zero : next 0 = none := rfl

end Words

/-- kpt[0] as start64.S leaves it: PDPT_ADDR, present and writable. -/
def kernelEntry : Nat := 0x2000 ||| pteP ||| pteW

def Regular (level slot w : Nat) : Prop :=
  if level = 0 then True
  else if level = 3 ∧ slot ≠ 32 then w = if slot = 0 then kernelEntry else 0
  else w = 0 ∨ ∃ q, q % pgsize = 0 ∧ w = linkTo q

theorem regular_inner {level slot w : Nat} (inner : level ≠ 0) (user : level = 3 → slot = 32) :
    Regular level slot w ↔ w = 0 ∨ ∃ q, q % pgsize = 0 ∧ w = linkTo q := by
  rw [Regular, if_neg inner, if_neg fun top => top.2 (user top.1)]

/-- Only the tables of the user area are linked. -/
theorem regular_next {level slot w q : Nat} (inner : level ≠ 0) (regular : Regular level slot w)
    (link : next w = some q) : (level = 3 → slot = 32) ∧ q % pgsize = 0 ∧ w = linkTo q := by
  by_cases user : level = 3 → slot = 32
  · rcases (regular_inner inner user).mp regular with rfl | ⟨c, aligned, rfl⟩
    · cases link
    · rw [next_link aligned] at link
      cases link
      exact ⟨user, aligned, rfl⟩
  · rw [Classical.not_imp] at user
    rw [Regular, if_neg inner, if_pos user] at regular
    rw [regular] at link
    split at link <;> cases link

theorem regular_zero {level slot : Nat} (below : level < 3) : Regular level slot 0 := by
  by_cases inner : level = 0
  · rw [Regular, if_pos inner]
    trivial
  · exact (regular_inner inner fun top => by omega).mpr (.inl rfl)

abbrev tablesOf (mem : Mem Nat) (d p : Nat) : List Nat := tables next 512 mem d p

section Alloc

def NoMemory (e : Halt) : Prop := e = .noPage ∨ e = .infeasible

structure Fresh (s s' : Machine) (page : Nat) : Prop where
  aligned : page % pgsize = 0
  notMine : s.mine page = false
  notTheirs : s.theirs page = false
  blank : ∀ i < 512, s'.mem page i = 0
  same : ∀ q, q ≠ page → s'.mem q = s.mem q
  mine : s'.mine = Function.update s.mine page true
  rest : s' = { s with mem := s'.mem, mine := s'.mine, choices := s'.choices }

theorem spec_stop_unless {P : Machine → Prop} {E : Halt → Prop} {c : Prop} [Decidable c] {e : Halt}
    (stops : ¬c → E e) : Spec P (stopUnless c e) (fun _ s => P s ∧ c) E := by
  refine spec_ite (fun yes => spec_pure _ fun s pre => ⟨pre, yes⟩) fun no => ?_
  exact spec_throw _ (stops no)

theorem pgalloc_spec (s : Machine) :
    Spec (s = ·) pgalloc (fun page s' => page ≠ 0 → page % pgsize = 0 ∧ s.mine page = false ∧
      s.theirs page = false ∧ ∃ rest, s' =
        { s with choices := rest, mine := Function.update s.mine page true }) NoMemory := by
  refine spec_read fun s' same => ?_
  subst same
  cases s.choices with
  | nil => exact spec_throw _ (.inr rfl)
  | cons page rest =>
    refine spec_bind (R := fun _ _ => True) (spec_set fun _ _ => trivial) fun _ => ?_
    refine spec_ite (fun null => spec_pure _ fun _ _ real => absurd rfl real) fun real => ?_
    refine spec_bind (spec_stop_unless fun _ => .inr rfl) fun _ => spec_given fun held => ?_
    refine spec_bind (spec_set (Q := fun _ t => t = _) fun _ _ => rfl) fun _ => ?_
    refine spec_pure _ fun t same _ => ⟨held.2.2, held.1, held.2.1, rest, same⟩

theorem zeroed (base n : Nat) (s : Machine) :
    ∃ mem, (List.range n).foldl (fun s i => { s with mem := setWord s.mem base i 0 }) s =
        { s with mem } ∧ (∀ i < n, mem base i = 0) ∧ ∀ q, q ≠ base → mem q = s.mem q := by
  induction n with
  | zero => exact ⟨s.mem, rfl, fun i small => absurd small (Nat.not_lt_zero i), fun _ _ => rfl⟩
  | succ n ih =>
    obtain ⟨mem, folded, blank, same⟩ := ih
    rw [List.range_succ, List.foldl_append, folded]
    refine ⟨setWord mem base n 0, rfl, ?_, fun q ne => by rw [set_word_page ne, same q ne]⟩
    intro i small
    by_cases here : i = n
    · rw [here, set_word_here]
    · rw [set_word_slot here]
      exact blank i (by omega)

theorem pgallocz_spec (s : Machine) :
    Spec (s = ·) pgallocz (fun page s' => Fresh s s' page) NoMemory := by
  refine spec_bind (pgalloc_spec s) fun page => ?_
  refine spec_bind (spec_stop_unless fun _ => .inl rfl) fun _ => ?_
  rintro mid ⟨got, real⟩
  obtain ⟨aligned, notMine, notTheirs, rest, taken⟩ := got real
  have cleared := spec_for_m (E := NoMemory)
    (fun i s => { s with mem := setWord s.mem page i 0 }) (List.range 512) mid
  refine spec_bind (P := (mid = ·)) cleared (fun _ => spec_pure _ fun s' folded => ?_) mid rfl
  obtain ⟨mem, zeros, blank, same⟩ := zeroed page 512 mid
  rw [folded, zeros]
  subst taken
  exact ⟨aligned, notMine, notTheirs, blank, same, rfl, rfl⟩

end Alloc

section Walk

structure Rooted (s : Machine) (d p : Nat) : Prop where
  nodup : (tablesOf s.mem d p).Nodup
  regular : All next 512 Regular s.mem d p
  mine : ∀ q ∈ tablesOf s.mem d p, s.mine q = true

structure Taken (s s' : Machine) (new : List Nat) : Prop where
  nodup : new.Nodup
  fresh : ∀ q ∈ new, s.mine q = false ∧ s.theirs q = false
  mine : ∀ q, s'.mine q = true ↔ s.mine q = true ∨ q ∈ new
  rest : s' = { s with mem := s'.mem, mine := s'.mine, choices := s'.choices }

structure Grown (s s' : Machine) (d p : Nat) (new : List Nat) : Prop where
  grows : Grows next 512 Regular 0 s.mem s'.mem d p new
  taken : Taken s s' new

variable {s s' s'' : Machine} {d p c i : Nat} {new new' path : List Nat} {infos : List PtInfo}
  {addr last : Nat}

theorem Rooted.unowned (rooted : Rooted s d p) {q : Nat} (unowned : s.mine q = false) :
    q ∉ tablesOf s.mem d p := by
  intro below
  rw [rooted.mine q below] at unowned
  cases unowned

theorem Rooted.child (rooted : Rooted s (d + 1) p) (here : i < 512)
    (link : next (s.mem p i) = some c) : Rooted s d c where
  nodup := child_nodup rooted.nodup here link
  regular := (rooted.regular i here).2 c link
  mine := fun q below => rooted.mine q (child_inside here link below)

theorem Taken.refl : Taken s s [] where
  nodup := List.nodup_nil
  fresh := fun _ none => absurd none List.not_mem_nil
  mine := fun q => by simp
  rest := rfl

theorem Taken.trans (first : Taken s s' new) (second : Taken s' s'' new') :
    Taken s s'' (new ++ new') where
  nodup := by
    refine List.nodup_append.mpr ⟨first.nodup, second.nodup, ?_⟩
    rintro q made _ later rfl
    have held := (first.mine q).mpr (.inr made)
    rw [(second.fresh q later).1] at held
    cases held
  fresh := by
    intro q made
    rcases List.mem_append.mp made with early | later
    · exact first.fresh q early
    · obtain ⟨unowned, foreign⟩ := second.fresh q later
      rw [first.rest] at foreign
      refine ⟨?_, foreign⟩
      by_contra held
      rw [(first.mine q).mpr (.inl (by simpa using held))] at unowned
      cases unowned
  mine := by
    intro q
    rw [second.mine, first.mine, List.mem_append, or_assoc]
  rest := by
    rw [second.rest, first.rest]

theorem Grown.refl : Grown s s d p [] := ⟨.refl, .refl⟩

theorem Grown.trans (first : Grown s s' d p new) (second : Grown s' s'' d p new') :
    Grown s s'' d p (new ++ new') :=
  ⟨first.grows.trans second.grows, first.taken.trans second.taken⟩

theorem Grown.rooted (grown : Grown s s' d p new) (rooted : Rooted s d p) : Rooted s' d p where
  nodup := by
    refine grown.grows.tables.nodup_iff.mpr
      (List.nodup_append.mpr ⟨rooted.nodup, grown.taken.nodup, ?_⟩)
    rintro q below _ made rfl
    exact rooted.unowned (grown.taken.fresh q made).1 below
  regular := grown.grows.all rooted.regular
  mine := by
    intro q below
    rw [grown.taken.mine]
    exact (List.mem_append.mp (grown.grows.tables.mem_iff.mp below)).imp_left (rooted.mine q)

theorem Grown.lift (grown : Grown s s' d c new) (rooted : Rooted s (d + 1) p) (here : i < 512)
    (link : next (s.mem p i) = some c) :
    Grown s s' (d + 1) p new ∧ next (s'.mem p i) = some c := by
  have fresh : ∀ q ∈ new, q ∉ tablesOf s.mem (d + 1) p :=
    fun q made => rooted.unowned (grown.taken.fresh q made).1
  refine ⟨⟨grown.grows.lift rooted.nodup fresh here link, grown.taken⟩, ?_⟩
  rw [(grown.grows.elsewhere rooted.nodup fresh here link).1, link]

theorem Fresh.link {page : Nat} (fresh : Fresh s s' page) (rooted : Rooted s (d + 1) p)
    (shallow : d < 3) (here : i < 512) (user : d + 1 = 3 → i = 32) (free : s.mem p i = 0) :
    Grown s { s' with mem := setWord s'.mem p i (linkTo page) } (d + 1) p [page] := by
  have word : Regular (d + 1) i (linkTo page) :=
    (regular_inner (by omega) user).mpr (.inr ⟨page, fresh.aligned, rfl⟩)
  refine ⟨?_, List.nodup_singleton page, ?_, ?_, ?_⟩
  · refine Grows.link rooted.nodup here ?_ (rooted.unowned fresh.notMine) fresh.same fresh.blank
      next_zero (next_link fresh.aligned) word ?_
    · rw [free, next_zero]
    · exact fun level below j _ => regular_zero (by omega)
  · rintro q made
    obtain rfl := List.mem_singleton.mp made
    exact ⟨fresh.notMine, fresh.notTheirs⟩
  · intro q
    simp only [fresh.mine, Function.update_apply, List.mem_singleton]
    by_cases same : q = page <;> simp [same]
  · rw [fresh.rest]

theorem present_link {q : Nat} (aligned : q % pgsize = 0) : linkTo q &&& pteP ≠ 0 := by
  rw [linkTo, pteP, or_and aligned (by decide) (by decide)]
  decide

theorem walk_from_spec (s : Machine) (rooted : Rooted s d p) (shallow : d < 4)
    (levels : infos.map (indexof addr) = path ++ [last]) (inside : Inside 512 d path)
    (user : d = 3 → path.head? = some 32) :
    Spec (s = ·) (walkFrom addr (pteW ||| pteU) infos p) (fun r s' => r.2 = last ∧
      ∃ new, Grown s s' d p new ∧ walk next s'.mem path p = some r.1) NoMemory := by
  induction infos generalizing s d p path with
  | nil => simp at levels
  | cons info below ih =>
    cases d with
    | zero =>
      obtain rfl := inside_zero inside
      cases below with
      | cons => simp at levels
      | nil =>
        simp only [List.map_cons, List.map_nil, List.nil_append, List.cons.injEq,
          and_true] at levels
        rw [walkFrom]
        refine spec_pure _ ?_
        rintro _ rfl
        exact ⟨levels, [], .refl, rfl⟩
    | succ d =>
      obtain ⟨i, rest, rfl, here, inside⟩ := inside_succ inside
      simp only [List.map_cons, List.cons_append, List.cons.injEq] at levels
      obtain ⟨slot, levels⟩ := levels
      have deeper : below ≠ [] := by
        rintro rfl
        simp at levels
      have top : d + 1 = 3 → i = 32 := fun h => by simpa using user h
      rw [walkFrom.eq_3 _ _ _ _ _ deeper, slot]
      refine spec_read fun _ same => ?_
      subst same
      have word := (regular_inner (by omega) top).mp (rooted.regular i here).1
      refine spec_ite (fun absent => ?_) fun present => ?_
      · have free : s.mem p i = 0 := by
          rcases word with free | ⟨q, aligned, linked⟩
          · exact free
          · exact absurd absent (linked ▸ present_link aligned)
        refine spec_bind (pgallocz_spec s) fun page => ?_
        intro mid fresh
        have first := fresh.link rooted (by omega) here top free
        have link : next (setWord mid.mem p i (linkTo page) p i) = some page := by
          rw [set_word_here, next_link fresh.aligned]
        have rooted' := first.rooted rooted
        have later := ih _ (rooted'.child here link) (by omega) levels inside
          (fun deep => absurd deep (by omega))
        refine spec_bind (P := (mid = ·)) (R := fun _ t => { mid with
          mem := setWord mid.mem p i (linkTo page) } = t) (spec_modify _ ?_) (fun _ => ?_) mid rfl
        · rintro _ rfl
          rw [walk_word]
        · refine spec_weaken later (fun _ same => same) ?_
          rintro r s' ⟨index, new, grown, reached⟩
          obtain ⟨grown, link⟩ := grown.lift rooted' here link
          refine ⟨index, [page] ++ new, first.trans grown, ?_⟩
          rw [walk, link, Option.bind_some, reached]
      · obtain ⟨q, aligned, linked⟩ : ∃ q, q % pgsize = 0 ∧ s.mem p i = linkTo q := by
          rcases word with free | linked
          · exact absurd (by rw [free]; rfl) present
          · exact linked
        have link : next (s.mem p i) = some q := by rw [linked, next_link aligned]
        have base : baseof (s.mem p i) = q := by
          rw [linked]
          exact base_or aligned (by decide)
        rw [base]
        refine spec_weaken (ih s (rooted.child here link) (by omega) levels inside
          (fun deep => absurd deep (by omega))) (fun _ same => same) ?_
        rintro r s' ⟨index, new, grown, reached⟩
        obtain ⟨grown, link⟩ := grown.lift rooted here link
        refine ⟨index, new, grown, ?_⟩
        rw [walk, link, Option.bind_some, reached]

end Walk

section Teardown

structure Torn (s s' : Machine) (gone : List Nat) : Prop where
  freed : ∃ order, order.Perm gone ∧ s'.freed = order ++ s.freed
  mine : ∀ q, s'.mine q = true ↔ s.mine q = true ∧ q ∉ gone
  frame : ∀ q, q ∉ gone → s'.mem q = s.mem q
  rest : s' = { s with mem := s'.mem, mine := s'.mine, freed := s'.freed }

variable {s s' s'' : Machine} {d p : Nat} {gone gone' : List Nat} {infos below : List PtInfo}

theorem Torn.refl : Torn s s [] where
  freed := ⟨[], List.Perm.refl _, rfl⟩
  mine := fun q => by simp
  frame := fun _ _ => rfl
  rest := rfl

theorem Torn.trans (first : Torn s s' gone) (second : Torn s' s'' gone') :
    Torn s s'' (gone ++ gone') where
  freed := by
    obtain ⟨early, perm, freed⟩ := first.freed
    obtain ⟨later, perm', freed'⟩ := second.freed
    refine ⟨later ++ early, List.perm_append_comm.trans (perm.append perm'), ?_⟩
    rw [freed', freed, List.append_assoc]
  mine := by
    intro q
    rw [second.mine, first.mine, List.mem_append, not_or, and_assoc]
  frame := by
    intro q out
    rw [List.mem_append, not_or] at out
    rw [second.frame q out.2, first.frame q out.1]
  rest := by
    rw [second.rest, first.rest]

theorem Torn.perm (torn : Torn s s' gone) (perm : gone.Perm gone') : Torn s s' gone' where
  freed := by
    obtain ⟨order, same, freed⟩ := torn.freed
    exact ⟨order, same.trans perm, freed⟩
  mine := fun q => by rw [torn.mine, perm.mem_iff]
  frame := fun q out => torn.frame q fun gone => out (perm.mem_iff.mp gone)
  rest := torn.rest

theorem pgfree_spec (s : Machine) (mine : s.mine p = true) :
    Ends (s = ·) (pgfree p) (fun _ s' => Torn s s' [p]) := by
  refine ends_get fun s' same => ?_
  subst same
  rw [stopUnless, if_pos mine]
  rintro _ rfl
  refine ⟨_, _, rfl, ⟨[p], List.Perm.refl _, rfl⟩, ?_, ?_, rfl⟩
  · intro q
    simp only [Function.update_apply, List.mem_singleton]
    by_cases same : q = p <;> simp [same]
  · intro q out
    exact Function.update_of_ne (by simpa using out) _ _

theorem Rooted.after {c : Nat} (rooted : Rooted s d c) (torn : Torn s s' gone)
    (apart : ∀ q ∈ tablesOf s.mem d c, q ∉ gone) :
    Rooted s' d c ∧ tablesOf s'.mem d c = tablesOf s.mem d c := by
  have same : ∀ q ∈ tablesOf s.mem d c, s'.mem q = s.mem q :=
    fun q at_c => torn.frame q (apart q at_c)
  have tables := tables_congr same
  refine ⟨⟨?_, all_congr same rooted.regular, ?_⟩, tables⟩
  · rw [tablesOf, tables]
    exact rooted.nodup
  · intro q at_c
    rw [tablesOf, tables] at at_c
    exact (torn.mine q).mpr ⟨rooted.mine q at_c, apart q at_c⟩

theorem teardown_slots {slots : List Nat}
    (sub : ∀ s c, Rooted s d c →
      Ends (s = ·) (teardown below c) (fun _ s' => Torn s s' (tablesOf s.mem d c)))
    (s : Machine) (rooted : ∀ i ∈ slots, ∀ c, next (s.mem p i) = some c → Rooted s d c)
    (nodup : (slots.flatMap (branch next 512 s.mem d p)).Nodup)
    (outside : p ∉ slots.flatMap (branch next 512 s.mem d p)) :
    Ends (s = ·) (slots.forM fun index => do
      let s ← get
      if s.mem p index &&& pteP ≠ 0 ∧ s.mem p index &&& pteU ≠ 0 then
        teardown below (baseof (s.mem p index))
      else pure ()) (fun _ s' => Torn s s' (slots.flatMap (branch next 512 s.mem d p))) := by
  induction slots generalizing s with
  | nil =>
    rintro _ rfl
    exact ⟨_, _, rfl, .refl⟩
  | cons i slots ih =>
    rw [List.flatMap_cons] at nodup outside ⊢
    obtain ⟨_, nodup_rest, apart⟩ := List.nodup_append.mp nodup
    rw [List.mem_append, not_or] at outside
    refine ends_bind (R := fun _ s' => Torn s s' (branch next 512 s.mem d p i)) ?_ fun _ => ?_
    · refine ends_get fun s' same => ?_
      subst same
      by_cases link : s.mem p i &&& pteP ≠ 0 ∧ s.mem p i &&& pteU ≠ 0
      · have target : next (s.mem p i) = some (baseof (s.mem p i)) := if_pos link
        rw [if_pos link, branch, target]
        exact sub s _ (rooted i List.mem_cons_self _ target)
      · have target : next (s.mem p i) = none := if_neg link
        rw [if_neg link, branch, target]
        rintro _ rfl
        exact ⟨_, _, rfl, .refl⟩
    · intro mid torn
      have root : mid.mem p = s.mem p := torn.frame p outside.1
      have kept : ∀ j ∈ slots, ∀ c, next (s.mem p j) = some c →
          Rooted mid d c ∧ tablesOf mid.mem d c = tablesOf s.mem d c := by
        intro j later c link
        refine (rooted j (List.mem_cons_of_mem _ later) c link).after torn fun q at_c gone => ?_
        refine apart q gone q (List.mem_flatMap.mpr ⟨j, later, ?_⟩) rfl
        rw [branch, link]
        exact at_c
      have branches : slots.flatMap (branch next 512 mid.mem d p) =
          slots.flatMap (branch next 512 s.mem d p) := by
        refine List.flatMap_congr fun j later => ?_
        rw [branch, branch, root]
        cases link : next (s.mem p j) with
        | none => rfl
        | some c => exact (kept j later c link).2
      have rest := ih mid (fun j later c link => (kept j later c (root ▸ link)).1)
        (branches ▸ nodup_rest) (branches ▸ outside.2)
      obtain ⟨_, s', ran, torn'⟩ := rest mid rfl
      rw [branches] at torn'
      exact ⟨_, s', ran, torn.trans torn'⟩

/-- teardown gives back the tables below `pt`, each once. -/
theorem teardown_spec (s : Machine) (depth : infos.length = d + 1)
    (bits : ∀ info ∈ infos, info.bits = 9) (rooted : Rooted s d p) :
    Ends (s = ·) (teardown infos p) (fun _ s' => Torn s s' (tablesOf s.mem d p)) := by
  induction infos generalizing s d p with
  | nil => cases depth
  | cons info below ih =>
    have size : 2 ^ info.bits = 512 := by
      rw [bits info List.mem_cons_self]
      rfl
    rw [teardown, size]
    cases d with
    | zero =>
      obtain rfl : below = [] := by simpa using depth
      refine ends_bind (R := fun _ s' => s = s') ?_ fun _ => ?_
      · refine ends_for_m _ fun index => ends_get fun s' same => ?_
        subst same
        rintro _ rfl
        refine ⟨⟨⟩, s, ?_, rfl⟩
        split <;> rfl
      · exact fun mid same => pgfree_spec s (rooted.mine p tables_root) mid same
    | succ d =>
      have depth' : below.length = d + 1 := by simpa using depth
      have bits' : ∀ info ∈ below, info.bits = 9 :=
        fun i later => bits i (List.mem_cons_of_mem _ later)
      have distinct := rooted.nodup
      rw [tablesOf, tables_succ] at distinct
      obtain ⟨outside, nodup⟩ := List.nodup_cons.mp distinct
      have children := teardown_slots (fun s c rooted => ih s depth' bits' rooted) s
        (fun i small c link => rooted.child (List.mem_range.mp small) link) nodup outside
      refine ends_bind children fun _ => ?_
      intro mid torn
      have held : mid.mine p = true := (torn.mine p).mpr ⟨rooted.mine p tables_root, outside⟩
      obtain ⟨_, s', ran, last⟩ := pgfree_spec mid held mid rfl
      rw [tablesOf, tables_succ]
      exact ⟨_, s', ran, (torn.trans last).perm (List.perm_append_singleton p _)⟩

end Teardown
end Vme
