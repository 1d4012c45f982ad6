import JyyOs.Vme.Spaces
import JyyOs.Library.PartialRun
import JyyOs.Uproc.Refs

/-!
Any run of the kernel over many address spaces. `Spaces` is what protect, map and unprotect mean:
a table of pages for each live AddrSpace. The words in memory represent it, whatever else is
allocated, freed and written meanwhile.
-/
namespace Vme

open Hoare TableTree Radix PartialRun
open Uproc (Pte InArea ptPath mmapNone mmapWrite pgsize)

/-- The live address spaces, by the address of the AddrSpace, and the pages others hold. -/
structure Spaces where
  table : Nat → Option (Table Pte)
  frames : Nat → Bool

def Spaces.set (a : Spaces) (as : Nat) (t : Option (Table Pte)) : Spaces :=
  { a with table := Function.update a.table as t }

@[simp] theorem set_here (a : Spaces) (as : Nat) (t : Option (Table Pte)) :
    (a.set as t).table as = t := Function.update_self ..

@[simp] theorem set_other (a : Spaces) {as other : Nat} (t : Option (Table Pte))
    (ne : other ≠ as) : (a.set as t).table other = a.table other := Function.update_of_ne ne ..

/-- `taken` and `given` are pmm->alloc and pmm->free of a page by others, `written` is a write of
    the kernel or of pmm, `store` one of the user code that runs in `as`. -/
inductive Event where
  | protect (as : Nat)
  | map (as va pa prot : Nat)
  | unprotect (as : Nat)
  | taken (page : Nat)
  | given (page : Nat)
  | written (page i w : Nat)
  | store (as addr w : Nat)

def ended (call : Vm Unit) (s : Machine) : Except Halt Machine := (call.run s).map Prod.snd

/-- A store that the tables refuse is a page fault, and writes nothing. -/
def step (s : Machine) : Event → Except Halt Machine
  | .protect as => ended (protect as) s
  | .map as va pa prot => ended (map as va pa prot) s
  | .unprotect as => ended (unprotect as) s
  | .taken page =>
    if s.mine page = false ∧ s.theirs page = false then
      .ok { s with theirs := Function.update s.theirs page true }
    else .error .infeasible
  | .given page =>
    if s.theirs page = true then
      .ok { s with theirs := Function.update s.theirs page false,
                   mem := Function.update s.mem page (s.junk page) }
    else .error .infeasible
  | .written page i w =>
    if s.mine page = false then .ok { s with mem := setWord s.mem page i w }
    else .error .infeasible
  | .store as addr w =>
    match translate s as addr with
    | some (page, true) => .ok { s with mem := setWord s.mem page (addr % pgsize / 8) w }
    | _ => .ok s

/-- What the kernel relies on: an AddrSpace is protected once and unprotected while it is live, no
    call maps a mapped page or unmaps one that is not, and user code runs only while the pages it
    can write are held. -/
def absStep (a : Spaces) : Event → Option Spaces
  | .protect as =>
    if (a.table as).isNone then some (a.set as (some .absent)) else none
  | .map as va pa prot =>
    (a.table as).bind fun t => (mapTable t va pa prot).map fun t' => a.set as (some t')
  | .unprotect as =>
    if (a.table as).isSome then some (a.set as none) else none
  | .taken page =>
    if a.frames page = false then some { a with frames := Function.update a.frames page true }
    else none
  | .given page =>
    if a.frames page = true then some { a with frames := Function.update a.frames page false }
    else none
  | .written _ _ _ => some a
  | .store as addr _ =>
    (a.table as).bind fun t =>
      if ∀ pte ∈ userEntry t addr, pte.writable = true → a.frames pte.pa = true then some a
      else none

def rootOf (s : Machine) (as : Nat) : Nat := baseof (s.ptr as)

theorem root_page (s : Machine) (as : Nat) : rootOf s as % pgsize = 0 := by
  simp only [rootOf, baseof]
  exact Nat.mul_mod_left _ _

def Holds (s : Machine) (a : Spaces) (as q : Nat) : Prop :=
  ∃ t, a.table as = some t ∧ q ∈ tablesOf s.mem 3 (rootOf s as)

/-- The tables of the live spaces are the pages of pgalloc, and each belongs to one space. -/
structure Represents (s : Machine) (a : Spaces) : Prop where
  live : ∀ as t, a.table as = some t → s.ptr as = rootWord (rootOf s as) ∧ Space s (rootOf s as) t
  apart : ∀ as as' q, as ≠ as' → Holds s a as q → ¬Holds s a as' q
  only : ∀ q, s.mine q = true → ∃ as, Holds s a as q
  frames : s.theirs = a.frames
  held : ∀ q, s.theirs q = true → s.mine q = false
  kernel : s.kpt 0 = kernelEntry

variable {s s' : Machine} {a a' : Spaces} {as as' root : Nat} {t t' : Table Pte} {new : List Nat}

theorem Represents.mine (rep : Represents s a) {q : Nat} (holds : Holds s a as q) :
    s.mine q = true := by
  obtain ⟨t, found, below⟩ := holds
  exact (rep.live as t found).2.rooted.mine q below

theorem Space.kept (space : Space s root t)
    (same : ∀ q ∈ tablesOf s.mem 3 root, s'.mem q = s.mem q ∧ s'.mine q = true) :
    Space s' root t ∧ tablesOf s'.mem 3 root = tablesOf s.mem 3 root := by
  have words : ∀ q ∈ tablesOf s.mem 3 root, s'.mem q = s.mem q := fun q below => (same q below).1
  have tables := tables_congr words
  refine ⟨⟨⟨?_, all_congr words space.rooted.regular, ?_⟩, ?_, space.aligned⟩, tables⟩
  · rw [tablesOf, tables]
    exact space.rooted.nodup
  · intro q below
    rw [tablesOf, tables] at below
    exact (same q below).2
  · intro path last inside small
    rw [entry_congr words inside, space.entries path last inside small]

theorem holds_iff (found : a.table as = some t) (q : Nat) :
    q ∈ tablesOf s.mem 3 (rootOf s as) ↔ Holds s a as q := by
  constructor
  · exact fun below => ⟨t, found, below⟩
  · rintro ⟨_, _, below⟩
    exact below

theorem Represents.keeps (rep : Represents s a) (s' : Machine) (found : a.table as = some t)
    (ptr : s'.ptr as = s.ptr as)
    (same : ∀ q, Holds s a as q → s'.mem q = s.mem q ∧ s'.mine q = true) :
    (s'.ptr as = rootWord (rootOf s' as) ∧ Space s' (rootOf s' as) t) ∧
      ∀ q, q ∈ tablesOf s'.mem 3 (rootOf s' as) ↔ Holds s a as q := by
  obtain ⟨linked, space⟩ := rep.live as t found
  obtain ⟨space, tables⟩ := space.kept fun q below => same q ⟨t, found, below⟩
  have root : rootOf s' as = rootOf s as := by rw [rootOf, rootOf, ptr]
  rw [root, ptr, tables]
  refine ⟨⟨linked, space⟩, fun q => ⟨fun below => ⟨t, found, below⟩, ?_⟩⟩
  rintro ⟨_, _, below⟩
  exact below

theorem Represents.kept (rep : Represents s a) (ptr : s'.ptr = s.ptr)
    (mem : ∀ q, s.mine q = true → s'.mem q = s.mem q) (mine : s'.mine = s.mine)
    (kpt : s'.kpt = s.kpt) (tables : a'.table = a.table) (frames : s'.theirs = a'.frames)
    (held : ∀ q, s'.theirs q = true → s.mine q = false) : Represents s' a' := by
  have keeps : ∀ as t, a.table as = some t → _ := fun as t found =>
    rep.keeps s' found (by rw [ptr]) fun q holds =>
      ⟨mem q (rep.mine holds), mine ▸ rep.mine holds⟩
  have holds : ∀ as q, Holds s' a' as q ↔ Holds s a as q := by
    intro as q
    rw [Holds, tables]
    constructor
    · rintro ⟨t, found, below⟩
      exact ((keeps as t found).2 q).mp below
    · intro holds
      obtain ⟨t, found, below⟩ := holds
      exact ⟨t, found, ((keeps as t found).2 q).mpr ⟨t, found, below⟩⟩
  refine ⟨fun as t found => (keeps as t (tables ▸ found)).1, ?_, ?_, frames,
    fun q theirs => mine ▸ held q theirs, kpt ▸ rep.kernel⟩
  · intro as as' q ne
    rw [holds, holds]
    exact rep.apart as as' q ne
  · intro q owned
    rw [mine] at owned
    obtain ⟨as, below⟩ := rep.only q owned
    exact ⟨as, (holds as q).mpr below⟩

theorem Represents.replaced (rep : Represents s a) (new : List Nat)
    (ptr : ∀ other, other ≠ as → s'.ptr other = s.ptr other)
    (linked : s'.ptr as = rootWord (rootOf s' as)) (space : Space s' (rootOf s' as) t')
    (tables : ∀ q, q ∈ tablesOf s'.mem 3 (rootOf s' as) ↔ Holds s a as q ∨ q ∈ new)
    (frame : ∀ q, s.mine q = true → ¬Holds s a as q → s'.mem q = s.mem q)
    (fresh : ∀ q ∈ new, s.mine q = false ∧ s.theirs q = false)
    (mine : ∀ q, s'.mine q = true ↔ s.mine q = true ∨ q ∈ new)
    (theirs : s'.theirs = s.theirs) (kpt : s'.kpt = s.kpt) :
    Represents s' (a.set as (some t')) := by
  have keeps : ∀ other u, other ≠ as → a.table other = some u → _ := fun other u ne found =>
    rep.keeps s' found (ptr other ne) fun q holds =>
      ⟨frame q (rep.mine holds) (rep.apart other as q ne holds),
        (mine q).mpr (.inl (rep.mine holds))⟩
  have here : ∀ q, Holds s' (a.set as (some t')) as q ↔
      Holds s a as q ∨ q ∈ new := by
    intro q
    simp only [Holds, set_here, Option.some.injEq, exists_eq_left', tables]
  have there : ∀ other q, other ≠ as →
      (Holds s' (a.set as (some t')) other q ↔
        Holds s a other q) := by
    intro other q ne
    simp only [Holds, set_other a _ ne]
    constructor
    · rintro ⟨u, found, below⟩
      exact ((keeps other u ne found).2 q).mp below
    · rintro ⟨u, found, below⟩
      exact ⟨u, found, ((keeps other u ne found).2 q).mpr ⟨u, found, below⟩⟩
  have not_new : ∀ other q, Holds s a other q → q ∉ new := by
    intro other q holds made
    have owned := rep.mine holds
    rw [(fresh q made).1] at owned
    cases owned
  refine ⟨?_, ?_, ?_, theirs.trans rep.frames, ?_, kpt ▸ rep.kernel⟩
  · intro other u found
    by_cases same : other = as
    · subst same
      rw [set_here] at found
      cases found
      exact ⟨linked, space⟩
    · rw [set_other a _ same] at found
      exact (keeps other u same found).1
  · intro left right q ne at_left at_right
    by_cases first : left = as
    · subst first
      rw [here] at at_left
      rw [there right q ne.symm] at at_right
      rcases at_left with old | made
      · exact rep.apart _ _ q ne old at_right
      · exact not_new right q at_right made
    · rw [there left q first] at at_left
      by_cases second : right = as
      · subst second
        rw [here] at at_right
        rcases at_right with old | made
        · exact rep.apart _ _ q ne at_left old
        · exact not_new left q at_left made
      · rw [there right q second] at at_right
        exact rep.apart _ _ q ne at_left at_right
  · intro q owned
    rcases (mine q).mp owned with old | made
    · obtain ⟨other, holds⟩ := rep.only q old
      by_cases same : other = as
      · exact ⟨as, (here q).mpr (.inl (same ▸ holds))⟩
      · exact ⟨other, (there other q same).mpr holds⟩
    · exact ⟨as, (here q).mpr (.inr made)⟩
  · intro q foreign
    rw [theirs] at foreign
    by_contra owned
    rcases (mine q).mp (by simpa using owned) with old | made
    · rw [rep.held q foreign] at old
      cases old
    · rw [(fresh q made).2] at foreign
      cases foreign

theorem Represents.closed (rep : Represents s a) (found : a.table as = some t)
    (torn : Torn s s' (tablesOf s.mem 3 (rootOf s as))) :
    Represents s' (a.set as none) := by
  have rest := torn.rest
  have ptr : s'.ptr = s.ptr := by rw [rest]
  have inside := holds_iff (s := s) found
  have keeps : ∀ other u, other ≠ as → a.table other = some u → _ := fun other u ne live =>
    rep.keeps s' live (by rw [ptr]) fun q holds => by
      have out : q ∉ tablesOf s.mem 3 (rootOf s as) :=
        fun below => rep.apart other as q ne holds ((inside q).mp below)
      exact ⟨torn.frame q out, (torn.mine q).mpr ⟨rep.mine holds, out⟩⟩
  have there : ∀ other q,
      Holds s' (a.set as none) other q ↔
        other ≠ as ∧ Holds s a other q := by
    intro other q
    by_cases same : other = as
    · subst same
      simp [Holds]
    · simp only [Holds, set_other a _ same, ne_eq, same, not_false_eq_true, true_and]
      constructor
      · rintro ⟨u, live, below⟩
        exact ((keeps other u same live).2 q).mp below
      · rintro ⟨u, live, below⟩
        exact ⟨u, live, ((keeps other u same live).2 q).mpr ⟨u, live, below⟩⟩
  refine ⟨?_, ?_, ?_, ?_, ?_, ?_⟩
  · intro other u live
    by_cases same : other = as
    · subst same
      simp at live
    · rw [set_other a _ same] at live
      exact (keeps other u same live).1
  · intro left right q ne at_left at_right
    exact rep.apart left right q ne ((there left q).mp at_left).2 ((there right q).mp at_right).2
  · intro q owned
    obtain ⟨old, out⟩ := (torn.mine q).mp owned
    obtain ⟨other, holds⟩ := rep.only q old
    refine ⟨other, (there other q).mpr ⟨?_, holds⟩⟩
    rintro rfl
    exact out ((inside q).mpr holds)
  · rw [rest]
    exact rep.frames
  · intro q foreign
    rw [rest] at foreign
    by_contra owned
    have old := ((torn.mine q).mp (by simpa using owned)).1
    rw [rep.held q foreign] at old
    cases old
  · rw [rest]
    exact rep.kernel

theorem spec_ended {call : Vm Unit} {Q : Machine → Prop} {E : Halt → Prop}
    (spec : Spec (s = ·) call (fun _ => Q) E) :
    (∀ s', ended call s = .ok s' → Q s') ∧ ∀ e, ended call s = .error e → E e := by
  obtain ⟨ends, stops⟩ := spec s rfl
  rw [ended]
  cases result : call.run s with
  | error e =>
    refine ⟨fun s' ran => (nomatch ran), ?_⟩
    rintro _ ⟨⟩
    exact stops e result
  | ok out =>
    refine ⟨?_, fun e ran => (nomatch ran)⟩
    rintro _ ⟨⟩
    exact ends out.1 out.2 result

theorem ends_ended {call : Vm Unit} {Q : Machine → Prop} (spec : Ends (s = ·) call (fun _ => Q)) :
    ∃ s', ended call s = .ok s' ∧ Q s' := by
  obtain ⟨u, s', ran, post⟩ := spec s rfl
  exact ⟨s', by rw [ended, ran]; rfl, post⟩

theorem Represents.opened (rep : Represents s a) (dead : a.table as = none)
    (opened : Opened s s' as root) : Represents s' (a.set as (some .absent)) := by
  have ptr : s'.ptr as = rootWord root := by rw [opened.ptr, Function.update_self]
  have same : rootOf s' as = root := by rw [rootOf, ptr, root_base opened.page]
  have fresh : ∀ q, ¬Holds s a as q := by
    rintro q ⟨t, found, _⟩
    rw [dead] at found
    cases found
  refine rep.replaced [root] ?_ (same ▸ ptr) (same ▸ opened.space) ?_ ?_ ?_ ?_ ?_ ?_
  · intro other ne
    rw [opened.ptr, Function.update_of_ne ne]
  · intro q
    rw [same, opened.tables]
    exact (or_iff_right (fresh q)).symm
  · intro q owned _
    refine opened.frame q ?_
    rintro rfl
    rw [opened.unheld.1] at owned
    cases owned
  · intro q made
    rw [List.mem_singleton.mp made]
    exact opened.unheld
  · intro q
    rw [opened.mine, Function.update_apply, List.mem_singleton]
    by_cases here : q = root <;> simp [here]
  · rw [opened.rest]
  · rw [opened.rest]

theorem Represents.changed (rep : Represents s a) (found : a.table as = some t)
    (changed : Changed s s' (rootOf s as) t' new) : Represents s' (a.set as (some t')) := by
  have rest := changed.taken.rest
  have ptr : s'.ptr = s.ptr := by rw [rest]
  have same : rootOf s' as = rootOf s as := by rw [rootOf, rootOf, ptr]
  have space : Space s' (rootOf s' as) t' := by
    rw [same]
    exact changed.space
  refine rep.replaced new (fun other _ => by rw [ptr]) ?_ space ?_ ?_
    changed.taken.fresh changed.taken.mine (by rw [rest]) (by rw [rest])
  · rw [same, ptr]
    exact (rep.live as t found).1
  · intro q
    rw [same, changed.tables.mem_iff, List.mem_append, holds_iff found]
  · intro q owned out
    refine changed.frame q (fun below => out ((holds_iff found q).mp below)) fun made => ?_
    rw [(changed.taken.fresh q made).1] at owned
    cases owned

theorem Represents.written {page i w : Nat} (rep : Represents s a) (free : s.mine page = false) :
    Represents { s with mem := setWord s.mem page i w } a := by
  refine rep.kept rfl (fun q owned => set_word_page ?_) rfl rfl rfl rep.frames rep.held
  rintro rfl
  rw [free] at owned
  cases owned

theorem Represents.taken {page : Nat} (rep : Represents s a) (free : s.mine page = false) :
    Represents { s with theirs := Function.update s.theirs page true }
      { a with frames := Function.update a.frames page true } := by
  refine rep.kept rfl (fun q _ => rfl) rfl rfl rfl (by rw [rep.frames]) fun q foreign => ?_
  by_cases same : q = page
  · rw [same, free]
  · exact rep.held q (by simpa [Function.update_of_ne same] using foreign)

theorem Represents.given {page : Nat} (rep : Represents s a) (theirs : s.theirs page = true) :
    Represents { s with theirs := Function.update s.theirs page false,
                        mem := Function.update s.mem page (s.junk page) }
      { a with frames := Function.update a.frames page false } := by
  have free := rep.held page theirs
  refine rep.kept rfl (fun q owned => Function.update_of_ne ?_ ..) rfl rfl rfl (by rw [rep.frames])
    fun q foreign => ?_
  · rintro rfl
    rw [free] at owned
    cases owned
  · by_cases same : q = page
    · rw [same, free]
    · exact rep.held q (by simpa [Function.update_of_ne same] using foreign)

theorem Represents.translate (rep : Represents s a) (found : a.table as = some t) (addr : Nat) :
    translate s as addr = (userEntry t addr).map fun pte => (pte.pa, pte.writable) := by
  obtain ⟨linked, space⟩ := rep.live as t found
  exact translate_spec s linked (root_page s as) space addr

theorem Represents.stored {addr w : Nat} (rep : Represents s a)
    (found : a.table as = some t)
    (held : ∀ pte ∈ userEntry t addr, pte.writable = true → a.frames pte.pa = true) :
    (∀ s', step s (.store as addr w) = .ok s' → Represents s' a) ∧
      ∀ h, step s (.store as addr w) ≠ .error h := by
  simp only [step, rep.translate found]
  cases user : userEntry t addr with
  | none =>
    refine ⟨?_, fun h failed => (nomatch failed)⟩
    rintro _ ⟨⟩
    exact rep
  | some pte =>
    cases writable : pte.writable with
    | false =>
      simp only [Option.map_some, writable]
      refine ⟨?_, fun h failed => (nomatch failed)⟩
      rintro _ ⟨⟩
      exact rep
    | true =>
      simp only [Option.map_some, writable]
      refine ⟨?_, fun h failed => (nomatch failed)⟩
      rintro _ ⟨⟩
      refine rep.written (rep.held _ ?_)
      rw [rep.frames]
      exact held pte user writable

theorem step_represents {e : Event} (rep : Represents s a) (allowed : absStep a e = some a') :
    (∀ s', step s e = .ok s' → Represents s' a') ∧ ∀ h, step s e = .error h → NoMemory h := by
  cases e with
  | protect as =>
    obtain ⟨dead, ⟨⟩⟩ := Option.ite_none_right_eq_some.mp allowed
    obtain ⟨ends, stops⟩ := spec_ended (protect_spec s as rep.kernel)
    refine ⟨fun s' ran => ?_, stops⟩
    obtain ⟨root, opened⟩ := ends s' ran
    exact rep.opened (Option.isNone_iff_eq_none.mp dead) opened
  | map as va pa prot =>
    obtain ⟨t, found, updated⟩ := Option.bind_eq_some_iff.mp allowed
    obtain ⟨t', mapped, rfl⟩ := Option.map_eq_some_iff.mp updated
    obtain ⟨linked, space⟩ := rep.live as t found
    obtain ⟨ends, stops⟩ := spec_ended (map_spec s va pa prot linked (root_page s as) space)
    constructor
    · intro s' ran
      obtain ⟨_, new, same, changed⟩ := ends s' ran
      obtain rfl := Option.some.inj (mapped.symm.trans same)
      exact rep.changed found changed
    · intro h failed
      rcases stops h failed with memory | ⟨_, refused⟩
      · exact memory
      · exact absurd (mapped.symm.trans refused) (Option.some_ne_none t')
  | unprotect as =>
    obtain ⟨live, ⟨⟩⟩ := Option.ite_none_right_eq_some.mp allowed
    obtain ⟨t, found⟩ := Option.isSome_iff_exists.mp live
    obtain ⟨linked, space⟩ := rep.live as t found
    obtain ⟨s', ran, torn⟩ := ends_ended (unprotect_spec s linked (root_page s as) space)
    rw [step, ran]
    refine ⟨?_, fun h failed => (nomatch failed)⟩
    rintro _ ⟨⟩
    exact rep.closed found torn
  | taken page =>
    obtain ⟨_, ⟨⟩⟩ := Option.ite_none_right_eq_some.mp allowed
    simp only [step]
    split
    · rename_i free
      refine ⟨?_, fun h failed => (nomatch failed)⟩
      rintro _ ⟨⟩
      exact rep.taken free.1
    · refine ⟨fun s' ran => (nomatch ran), ?_⟩
      rintro _ ⟨⟩
      exact .inr rfl
  | given page =>
    obtain ⟨held, ⟨⟩⟩ := Option.ite_none_right_eq_some.mp allowed
    have theirs : s.theirs page = true := by rw [rep.frames, held]
    simp only [step, if_pos theirs]
    refine ⟨?_, fun h failed => (nomatch failed)⟩
    rintro _ ⟨⟩
    exact rep.given theirs
  | written page i w =>
    cases allowed
    simp only [step]
    split
    · rename_i free
      refine ⟨?_, fun h failed => (nomatch failed)⟩
      rintro _ ⟨⟩
      exact rep.written free
    · refine ⟨fun s' ran => (nomatch ran), ?_⟩
      rintro _ ⟨⟩
      exact .inr rfl
  | store as addr w =>
    obtain ⟨t, found, guarded⟩ := Option.bind_eq_some_iff.mp allowed
    obtain ⟨held, same⟩ := Option.ite_none_right_eq_some.mp guarded
    cases same
    obtain ⟨ends, runs⟩ := rep.stored (w := w) found held
    exact ⟨ends, fun h failed => absurd failed (runs h)⟩

def advance (s : Machine) (e : Event) : Option Machine := (step s e).toOption

structure Booted (s : Machine) : Prop where
  kernel : s.kpt 0 = kernelEntry
  none : ∀ q, s.mine q = false

def noSpaces (s : Machine) : Spaces := ⟨fun _ => none, s.theirs⟩

theorem booted_represents (booted : Booted s) : Represents s (noSpaces s) where
  live := fun as t found => (nomatch found)
  apart := by
    rintro as as' q _ ⟨t, found, _⟩
    cases found
  only := by
    intro q owned
    rw [booted.none q] at owned
    cases owned
  frames := rfl
  held := fun q _ => booted.none q
  kernel := booted.kernel

variable {s₀ : Machine} {events : List Event}

theorem run_represents (booted : Booted s₀) (above : run absStep (noSpaces s₀) events = some a)
    (ran : run advance s₀ events = some s) : Represents s a := by
  refine run_related (fun s a e s' a' rep allowed taken => ?_) (booted_represents booted) above ran
  refine (step_represents rep allowed).1 s' ?_
  rw [advance] at taken
  cases result : step s e with
  | error h => simp [result, Except.toOption] at taken
  | ok next =>
    simp only [result, Except.toOption, Option.some.injEq] at taken
    rw [taken]

/-- After any run, user code in a space finds the pages that map put there, and no others. -/
theorem user_finds_table (booted : Booted s₀)
    (above : run absStep (noSpaces s₀) events = some a) (ran : run advance s₀ events = some s)
    (found : a.table as = some t) (addr : Nat) :
    translate s as addr = (userEntry t addr).map fun pte => (pte.pa, pte.writable) :=
  (run_represents booted above ran).translate found addr

def freshMachine : Machine where
  ptr := fun _ => 0
  mem := fun _ _ => 0xdead
  kpt := fun i => if i = 0 then kernelEntry else 0
  mine := fun _ => false
  theirs := fun _ => false
  junk := fun _ _ => 0xdead
  choices := [0x3000000, 0x3001000, 0x3002000, 0x3003000, 0x3004000]
  freed := []

def onePage : List Event :=
  [.taken 0x3009000, .protect 7, .map 7 0x100000002000 0x3009000 3, .store 7 0x100000002008 1]

theorem one_page_runs : (run advance freshMachine onePage).isSome = true := by
  decide +kernel

theorem one_page_table : ∃ a t, run absStep (noSpaces freshMachine) onePage = some a ∧
    a.table 7 = some t ∧ userEntry t 0x100000002008 = some ⟨0x3009000, true⟩ := by
  have computed : ((run absStep (noSpaces freshMachine) onePage).bind fun a =>
      (a.table 7).map fun t => userEntry t 0x100000002008) = some (some ⟨0x3009000, true⟩) := by
    decide +kernel
  obtain ⟨a, ran, rest⟩ := Option.bind_eq_some_iff.mp computed
  obtain ⟨t, found, entry⟩ := Option.map_eq_some_iff.mp rest
  exact ⟨a, t, ran, found, entry⟩

theorem fresh_machine_booted : Booted freshMachine := ⟨rfl, fun _ => rfl⟩

theorem user_finds_one_page : ∃ s, run advance freshMachine onePage = some s ∧
    translate s 7 0x100000002008 = some (0x3009000, true) := by
  obtain ⟨s, ran⟩ := Option.isSome_iff_exists.mp one_page_runs
  obtain ⟨a, t, above, found, entry⟩ := one_page_table
  refine ⟨s, ran, ?_⟩
  rw [user_finds_table fresh_machine_booted above ran found, entry]
  rfl

/-- The pages of pgalloc are the tables of the live spaces, none is shared, lost or given back
    twice, and what the kernel may do next stops for want of a page only. -/
theorem tables_owned (booted : Booted s₀) (above : run absStep (noSpaces s₀) events = some a)
    (ran : run advance s₀ events = some s) :
    (∀ q, s.mine q = true ↔ ∃ as, Holds s a as q) ∧
      (∀ as as' q, Holds s a as q → Holds s a as' q → as = as') ∧
      ∀ e a', absStep a e = some a' → ∀ h, step s e = .error h → NoMemory h := by
  have rep := run_represents booted above ran
  refine ⟨fun q => ⟨rep.only q, ?_⟩, ?_, fun e a' allowed => (step_represents rep allowed).2⟩
  · rintro ⟨as, holds⟩
    exact rep.mine holds
  · intro as as' q left right
    by_contra ne
    exact rep.apart as as' q ne left right

theorem tables_owned_one_page : ∃ s a, run advance freshMachine onePage = some s ∧
    run absStep (noSpaces freshMachine) onePage = some a ∧
      ∀ q, s.mine q = true ↔ ∃ as, Holds s a as q := by
  obtain ⟨s, ran⟩ := Option.isSome_iff_exists.mp one_page_runs
  obtain ⟨a, t, above, found, entry⟩ := one_page_table
  exact ⟨s, a, ran, above, (tables_owned fresh_machine_booted above ran).1⟩

/-- map changes the words as the kernel's model changes the table of a task. -/
theorem kernel_map_refined (booted : Booted s₀)
    (above : run absStep (noSpaces s₀) events = some a) (ran : run advance s₀ events = some s)
    (found : a.table as = some t) (k : Uproc.Kernel) (task va pa prot : Nat)
    (same : (k.tasks task).table = t) :
    (∀ s', step s (.map as va pa prot) = .ok s' →
      ∃ k', (Uproc.map task va pa prot).run k = .ok (⟨⟩, k') ∧ ∀ addr, translate s' as addr =
        (userEntry (k'.tasks task).table addr).map fun pte => (pte.pa, pte.writable)) ∧
      (step s (.map as va pa prot) = .error .panic →
        ∀ k', (Uproc.map task va pa prot).run k ≠ .ok (⟨⟩, k')) := by
  have rep := run_represents booted above ran
  obtain ⟨linked, space⟩ := rep.live as t found
  obtain ⟨ends, stops⟩ := spec_ended
    (map_spec s va pa prot linked (root_page s as) space)
  constructor
  · intro s' mapped
    obtain ⟨t', new, table, changed⟩ := ends s' mapped
    refine ⟨_, kernel_map_iff.mpr ⟨t', by rw [same, table], rfl⟩, fun addr => ?_⟩
    rw [(rep.changed found changed).translate (set_here ..) addr]
    simp [Uproc.Kernel.setTask]
  · intro panicked k' mapped
    obtain ⟨t', table, _⟩ := kernel_map_iff.mp mapped
    rw [same] at table
    rcases stops _ panicked with (memory | memory) | ⟨_, refused⟩
    · cases memory
    · cases memory
    · rw [table] at refused
      cases refused

theorem kernel_map_refined_one_page : ∃ s t, run advance freshMachine onePage = some s ∧
    ∀ s', step s (.map 7 0x100000002000 0 mmapNone) = .ok s' →
      ∃ k', (Uproc.map 1 0x100000002000 0 mmapNone).run (Uproc.emptyKernel.setTask 1
        { Uproc.emptyKernel.tasks 1 with table := t }) = .ok (⟨⟩, k') ∧
          ∀ addr, translate s' 7 addr =
            (userEntry (k'.tasks 1).table addr).map fun pte => (pte.pa, pte.writable) := by
  obtain ⟨s, ran⟩ := Option.isSome_iff_exists.mp one_page_runs
  obtain ⟨a, t, above, found, entry⟩ := one_page_table
  have refined := kernel_map_refined fresh_machine_booted above ran found
    (Uproc.emptyKernel.setTask 1 { Uproc.emptyKernel.tasks 1 with table := t }) 1 0x100000002000 0
    mmapNone (by simp [Uproc.Kernel.setTask])
  exact ⟨s, t, ran, refined.1⟩

end Vme
