import JyyOs.Pstree.Children
import JyyOs.Library.TreeWalk

/-!
pstree.c: build_tree and tree_print. What is read of /proc is a list of processes, and a printed
line is the number of its blanks, its name and the pid in brackets if there is one.
-/
namespace Pstree

open LinkedList PartialRun TreeWalk

section Print

/-- What build_tree reads of one directory. -/
structure Proc where
  pid : Nat
  ppid : Nat
  name : List UInt8

structure Globals where
  heap : State
  name : Nat → List UInt8

structure Line where
  blanks : Nat
  name : List UInt8
  number : Option Nat
  deriving DecidableEq

variable (malloc : Malloc)

/-- A round of build_tree, find_fpid_and_name included. -/
def buildStep (g : Globals) (proc : Proc) : Option Globals := do
  let heap ← addEdge malloc g.heap proc.ppid proc.pid
  return ⟨heap, Function.update g.name proc.pid proc.name⟩

def buildTree (procs : List Proc) : Option Globals :=
  run (buildStep malloc) ⟨started, fun _ => []⟩ procs

def neibPrint (s : State) (print : Nat → Option (List Line)) : Nat → Nat → Option (List Line)
  | 0, _ => none
  | fuel + 1, curNeib =>
    if curNeib = 0 then some []
    else do
      let here ← print (s.mem curNeib)
      let later ← neibPrint s print fuel (s.mem (curNeib + nextOff))
      return here ++ later

def treePrint (g : Globals) (ifPrintLineNumber : Bool) : Nat → Nat → Nat → Option (List Line)
  | 0, _, _ => none
  | rounds + 1, pid, count => do
    let below ← neibPrint g.heap
      (fun pid => treePrint g ifPrintLineNumber rounds pid (count + 1)) (g.heap.nodes.length + 1)
      (g.heap.faNode pid)
    return ⟨2 * count, g.name pid, if ifPrintLineNumber then some pid else none⟩ :: below

def threadTreePrint (ifPrintLineNumber : Bool) (procs : List Proc) (rounds : Nat) :
    Option (List Line) := do
  let g ← buildTree malloc procs
  treePrint g ifPrintLineNumber rounds 1 0

def edges (procs : List Proc) : List (Nat × Nat) := procs.map fun proc => (proc.ppid, proc.pid)

def nameOf (procs : List Proc) (pid : Nat) : List UInt8 :=
  ((procs.find? fun proc => proc.pid = pid).map Proc.name).getD []

def lineOf (procs : List Proc) (ifPrintLineNumber : Bool) (node : Nat × Nat) : Line :=
  ⟨2 * node.1, nameOf procs node.2, if ifPrintLineNumber then some node.2 else none⟩

def neighbours (procs : List Proc) (ppid : Nat) : List Nat :=
  insertPids (arrived (edges procs) ppid) []

/-- The processes that descend from the first one, each once with its distance and below its
    parent. -/
structure Listing (procs : List Proc) (nodes : List (Nat × Nat)) : Prop where
  once : (nodes.map Prod.snd).Nodup
  complete : ∀ steps pid, (steps, pid) ∈ nodes ↔ Below (arrived (edges procs)) 1 steps pid
  nested : Nested (arrived (edges procs)) nodes

variable {malloc} {s : State} {g : Globals} {procs : List Proc} {ifPrintLineNumber : Bool}

theorem neighbours_perm (procs : List Proc) (ppid : Nat) :
    (neighbours procs ppid).Perm (arrived (edges procs) ppid) := by
  have perm := inserts_perm (arrived (edges procs) ppid) []
  rwa [List.append_nil] at perm

theorem arrived_iff {ppid pid : Nat} :
    pid ∈ arrived (edges procs) ppid ↔ ∃ proc ∈ procs, proc.ppid = ppid ∧ proc.pid = pid := by
  simp [arrived, edges, and_assoc]

theorem edges_pids (procs : List Proc) : (edges procs).map Prod.snd = procs.map Proc.pid := by
  rw [edges, List.map_map]
  rfl

theorem neighbours_inside (ppid : Nat) : ∀ pid ∈ neighbours procs ppid,
    pid ∈ procs.map Proc.pid := by
  intro pid listed
  obtain ⟨proc, mem, _, rfl⟩ := arrived_iff.mp ((neighbours_perm procs ppid).mem_iff.mp listed)
  exact List.mem_map_of_mem mem

theorem processes_treelike (distinct : (procs.map Proc.pid).Nodup)
    (rooted : ∀ steps, ¬ Below (arrived (edges procs)) 1 (steps + 1) 1) :
    Treelike (neighbours procs) 1 := by
  constructor
  · intro ppid
    have pids : ((edges procs).map Prod.snd).Nodup := edges_pids procs ▸ distinct
    exact (neighbours_perm procs ppid).nodup_iff.mpr (arrived_distinct pids ppid)
  · intro first second pid listed listed'
    obtain ⟨proc, mem, rfl, here⟩ :=
      arrived_iff.mp ((neighbours_perm procs first).mem_iff.mp listed)
    obtain ⟨proc', mem', rfl, here'⟩ :=
      arrived_iff.mp ((neighbours_perm procs second).mem_iff.mp listed')
    rw [List.inj_on_of_nodup_map distinct mem mem' (here.trans here'.symm)]
  · intro steps below
    exact rooted steps (below_congr (fun ppid _ => (neighbours_perm procs ppid).mem_iff.mp) below)

theorem build_follows {s' : State} (distinct : (procs.map Proc.pid).Nodup)
    (ran : run (addEdgeStep malloc) g.heap (edges procs) = some s') :
    ∃ name, run (buildStep malloc) g procs = some ⟨s', name⟩ ∧ ∀ pid,
      name pid = ((procs.find? fun proc => proc.pid = pid).map Proc.name).getD (g.name pid) := by
  induction procs generalizing g with
  | nil =>
    cases ran
    exact ⟨g.name, rfl, fun _ => rfl⟩
  | cons proc procs ih =>
    obtain ⟨new, distinct⟩ := List.nodup_cons.mp distinct
    cases taken : addEdge malloc g.heap proc.ppid proc.pid with
    | none => simp [run, edges, addEdgeStep, taken] at ran
    | some heap =>
      obtain ⟨name, built, names⟩ := @ih ⟨heap, Function.update g.name proc.pid proc.name⟩ distinct
        (by simpa [run, edges, addEdgeStep, taken] using ran)
      refine ⟨name, by simpa [run, buildStep, taken] using built, fun pid => ?_⟩
      rw [names]
      by_cases here : proc.pid = pid
      · subst here
        have others : procs.find? (fun other => other.pid = proc.pid) = none := by
          rw [List.find?_eq_none]
          intro other mem same
          exact new (of_decide_eq_true same ▸ List.mem_map_of_mem mem)
        simp [others]
      · simp [here, Ne.symm here]

theorem neib_print_all {print : Nat → Option (List Line)} {out : Nat → List Line} {list : List Nat}
    {cur fuel : Nat} (linked : Linked s.mem nextOff cur list) (enough : list.length < fuel)
    (each : ∀ pid ∈ s.pids list, print pid = some (out pid)) :
    neibPrint s print fuel cur = some ((s.pids list).flatMap out) := by
  induction list generalizing cur fuel with
  | nil =>
    obtain ⟨fuel, rfl⟩ := Nat.exists_eq_add_one_of_ne_zero (Nat.ne_of_gt enough)
    have ends : cur = 0 := linked
    rw [neibPrint, if_pos ends]
    rfl
  | cons x rest ih =>
    obtain ⟨rfl, real, later⟩ := linked
    obtain ⟨fuel, rfl⟩ := Nat.exists_eq_add_one_of_ne_zero
      (Nat.ne_of_gt (Nat.lt_of_le_of_lt (Nat.zero_le _) enough))
    have here := each (s.mem cur) List.mem_cons_self
    have behind := ih later (Nat.lt_of_succ_lt_succ enough) fun pid mem =>
      each pid (List.mem_cons_of_mem _ mem)
    rw [neibPrint, if_neg real, here, behind]
    rfl

theorem neib_print_each {print : Nat → Option (List Line)} {lines : List Line} {list : List Nat}
    {cur fuel : Nat} (linked : Linked s.mem nextOff cur list)
    (printed : neibPrint s print fuel cur = some lines) :
    ∀ pid ∈ s.pids list, ∃ out, print pid = some out := by
  induction list generalizing cur fuel lines with
  | nil => simp [State.pids]
  | cons x rest ih =>
    obtain ⟨rfl, real, later⟩ := linked
    cases fuel with
    | zero =>
      rw [neibPrint] at printed
      cases printed
    | succ fuel =>
      rw [neibPrint, if_neg real] at printed
      obtain ⟨here, first, printed⟩ := Option.bind_eq_some_iff.mp printed
      obtain ⟨behind, second, _⟩ := Option.bind_eq_some_iff.mp printed
      intro pid mem
      rcases List.mem_cons.mp mem with rfl | mem
      · exact ⟨here, first⟩
      · exact ih later second pid mem

def Heads (s : State) (kids : Nat → List Nat) : Prop :=
  ∀ ppid, ∃ list, Linked s.mem nextOff (s.faNode ppid) list ∧ s.pids list = kids ppid ∧
    list.length ≤ s.nodes.length

section Walk

variable {kids : Nat → List Nat} {rounds pid count : Nat}

theorem tree_print_walks (heads : Heads g.heap kids) (names : ∀ pid, g.name pid = nameOf procs pid)
    (enough : ∀ steps x, Below kids pid steps x → steps < rounds) :
    treePrint g ifPrintLineNumber rounds pid count =
      some ((preorder kids rounds pid count).map (lineOf procs ifPrintLineNumber)) := by
  induction rounds generalizing pid count with
  | zero => exact absurd (enough 0 pid .self) (Nat.not_lt_zero _)
  | succ rounds ih =>
    obtain ⟨list, linked, pids, short⟩ := heads pid
    have each : ∀ kid ∈ g.heap.pids list,
        treePrint g ifPrintLineNumber rounds kid (count + 1) = some
          ((preorder kids rounds kid (count + 1)).map (lineOf procs ifPrintLineNumber)) := by
      intro kid listed
      refine ih fun steps x below => ?_
      exact Nat.lt_of_succ_lt_succ (enough _ x (below_kid (pids ▸ listed) below))
    have below := neib_print_all linked (Nat.lt_succ_of_le short) each
    rw [treePrint, below, preorder, List.map_cons, List.map_flatMap, pids, names]
    rfl

theorem tree_print_below (heads : Heads g.heap kids) {lines : List Line} {steps x : Nat}
    (printed : treePrint g ifPrintLineNumber rounds pid count = some lines)
    (below : Below kids pid steps x) : ∃ fewer out, rounds = fewer + 1 + steps ∧
      treePrint g ifPrintLineNumber (fewer + 1) x (count + steps) = some out := by
  induction below with
  | self =>
    cases rounds with
    | zero =>
      rw [treePrint] at printed
      cases printed
    | succ rounds => exact ⟨rounds, lines, rfl, printed⟩
  | @kid steps parent node _ listed ih =>
    obtain ⟨fewer, out, same, printed⟩ := ih
    obtain ⟨list, linked, pids, _⟩ := heads parent
    rw [treePrint] at printed
    obtain ⟨inner, walked, _⟩ := Option.bind_eq_some_iff.mp printed
    obtain ⟨out, here⟩ := neib_print_each linked walked node (pids ▸ listed)
    cases fewer with
    | zero =>
      rw [treePrint] at here
      cases here
    | succ fewer => exact ⟨fewer, out, by omega, here⟩

theorem tree_print_endless (heads : Heads g.heap kids) {steps : Nat}
    (loop : Below kids pid (steps + 1) pid) :
    treePrint g ifPrintLineNumber rounds pid count = none := by
  induction rounds using Nat.strongRecOn generalizing count with
  | ind rounds ih =>
    cases printed : treePrint g ifPrintLineNumber rounds pid count with
    | none => rfl
    | some lines =>
      obtain ⟨fewer, out, same, again⟩ := tree_print_below heads printed loop
      rw [ih (fewer + 1) (by omega)] at again
      cases again

end Walk

theorem build_heads (malloc : Malloc) (distinct : (procs.map Proc.pid).Nodup) :
    ∃ g, buildTree malloc procs = some g ∧ Heads g.heap (neighbours procs) ∧
      ∀ pid, g.name pid = nameOf procs pid := by
  obtain ⟨s, lists, ran, forest, pids⟩ := run_inserts malloc forest_started (edges procs)
  obtain ⟨name, built, names⟩ := @build_follows malloc ⟨started, fun _ => []⟩ procs s distinct ran
  refine ⟨⟨s, name⟩, built, fun ppid => ?_, names⟩
  exact ⟨lists ppid, forest.linked ppid, pids ppid,
    (forest.once ppid).length_le_of_subset (forest.listed ppid)⟩

theorem preorder_listing (tree : Treelike (neighbours procs) 1) {rounds : Nat}
    (enough : ∀ steps x, Below (neighbours procs) 1 steps x → steps < rounds) :
    Listing procs (preorder (neighbours procs) rounds 1 0) := by
  have down : ∀ ppid, ∀ pid ∈ neighbours procs ppid, pid ∈ arrived (edges procs) ppid :=
    fun ppid _ => (neighbours_perm procs ppid).mem_iff.mp
  have up : ∀ ppid, ∀ pid ∈ arrived (edges procs) ppid, pid ∈ neighbours procs ppid :=
    fun ppid _ => (neighbours_perm procs ppid).mem_iff.mpr
  constructor
  · exact preorder_nodup tree .self
  · intro steps pid
    constructor
    · intro mem
      obtain ⟨more, same, below⟩ := preorder_below mem
      rw [same, Nat.zero_add]
      exact below_congr down below
    · intro below
      have below := below_congr up below
      have mem := below_preorder 0 below (enough _ _ below)
      rwa [Nat.zero_add] at mem
  · exact nested_congr down preorder_nested

/-- pstree ends unless the first process descends from itself, and then it prints every process
    that descends from the first one. -/
theorem processes_printed (malloc : Malloc) (ifPrintLineNumber : Bool) (procs : List Proc)
    (distinct : (procs.map Proc.pid).Nodup) :
    ((∃ rounds lines, threadTreePrint malloc ifPrintLineNumber procs rounds = some lines) ↔
      ∀ steps, ¬ Below (arrived (edges procs)) 1 (steps + 1) 1) ∧
    ∀ rounds lines, threadTreePrint malloc ifPrintLineNumber procs rounds = some lines →
      ∃ nodes, lines = nodes.map (lineOf procs ifPrintLineNumber) ∧ Listing procs nodes := by
  obtain ⟨g, built, heads, names⟩ := build_heads malloc distinct
  have runs : ∀ rounds, threadTreePrint malloc ifPrintLineNumber procs rounds =
      treePrint g ifPrintLineNumber rounds 1 0 := by
    intro rounds
    rw [threadTreePrint, built]
    rfl
  have rooted : ∀ rounds lines, treePrint g ifPrintLineNumber rounds 1 0 = some lines →
      ∀ steps, ¬ Below (arrived (edges procs)) 1 (steps + 1) 1 := by
    intro rounds lines printed steps loop
    have inside := below_congr (fun ppid _ => (neighbours_perm procs ppid).mem_iff.mpr) loop
    rw [tree_print_endless heads inside] at printed
    cases printed
  simp only [runs]
  refine ⟨⟨?_, ?_⟩, ?_⟩
  · intro ended
    obtain ⟨rounds, lines, printed⟩ := ended
    exact rooted rounds lines printed
  · intro acyclic
    have tree := processes_treelike distinct acyclic
    refine ⟨procs.length + 1, _, tree_print_walks heads names ?_⟩
    intro steps x below
    have bound := below_bounded tree neighbours_inside below
    rw [List.length_map] at bound
    exact Nat.lt_succ_of_le bound
  · intro rounds lines printed
    have tree := processes_treelike distinct (rooted rounds lines printed)
    have enough : ∀ steps x, Below (neighbours procs) 1 steps x → steps < rounds := by
      intro steps x below
      obtain ⟨fewer, _, same, _⟩ := tree_print_below heads printed below
      omega
    refine ⟨_, ?_, preorder_listing tree enough⟩
    exact Option.some.inj (printed.symm.trans (tree_print_walks heads names enough))

def fewProcs : List Proc :=
  [⟨1, 0, [105, 110, 105, 116]⟩, ⟨2, 0, [107]⟩, ⟨7, 1, [115, 104]⟩, ⟨9, 7, [108, 115]⟩,
    ⟨8, 7, [119, 99]⟩]

theorem few_procs_printed : ∃ lines, threadTreePrint bump true fewProcs 4 = some lines ∧
    ∃ nodes, lines = nodes.map (lineOf fewProcs true) ∧ Listing fewProcs nodes := by
  have printed : threadTreePrint bump true fewProcs 4 = some
      [⟨0, [105, 110, 105, 116], some 1⟩, ⟨2, [115, 104], some 7⟩, ⟨4, [108, 115], some 9⟩,
        ⟨4, [119, 99], some 8⟩] := by
    decide
  exact ⟨_, printed, (processes_printed bump true fewProcs (by decide)).2 4 _ printed⟩

end Print

end Pstree
