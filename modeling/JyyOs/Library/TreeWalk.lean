import Mathlib.Data.List.Nodup

/-!
The nodes below a root, each in front of those below it, with the steps they are away. What is
directly below a node is a list; `rounds` bounds the steps.
-/
namespace TreeWalk

variable {α : Type} (kids : α → List α)

inductive Below (root : α) : Nat → α → Prop
  | self : Below root 0 root
  | kid {steps : Nat} {parent node : α} (above : Below root steps parent)
    (listed : node ∈ kids parent) : Below root (steps + 1) node

def preorder : Nat → α → Nat → List (Nat × α)
  | 0, _, _ => []
  | rounds + 1, node, depth =>
    (depth, node) :: (kids node).flatMap fun kid => preorder rounds kid (depth + 1)

structure Treelike (root : α) : Prop where
  once : ∀ parent, (kids parent).Nodup
  parent : ∀ first second node, node ∈ kids first → node ∈ kids second → first = second
  rooted : ∀ steps, ¬ Below kids root (steps + 1) root

/-- The indents tell the parents: it is the last node before that stands less deep. -/
def Nested (nodes : List (Nat × α)) : Prop :=
  ∀ front node rest, nodes = front ++ node :: rest → front ≠ [] →
    ∃ before depth parent between, node.1 = depth + 1 ∧ node.2 ∈ kids parent ∧
      front = before ++ (depth, parent) :: between ∧ ∀ other ∈ between, depth < other.1

variable {kids} {root node x : α} {steps rounds depth : Nat}

theorem below_kid (listed : node ∈ kids root) (below : Below kids node steps x) :
    Below kids root (steps + 1) x := by
  induction below with
  | self => exact .kid .self listed
  | kid _ last ih => exact .kid ih last

theorem below_trans {more : Nat} (above : Below kids root steps node)
    (below : Below kids node more x) : Below kids root (steps + more) x := by
  induction below with
  | self => exact above
  | kid _ last ih => exact .kid ih last

theorem below_first (below : Below kids root (steps + 1) x) :
    ∃ node ∈ kids root, Below kids node steps x := by
  induction steps generalizing x with
  | zero =>
    obtain ⟨⟩ | ⟨above, listed⟩ := below
    cases above
    exact ⟨x, listed, .self⟩
  | succ steps ih =>
    obtain ⟨⟩ | ⟨above, listed⟩ := below
    obtain ⟨node, first, below⟩ := ih above
    exact ⟨node, first, .kid below listed⟩

theorem below_congr {kids' : α → List α} (same : ∀ parent, ∀ y ∈ kids parent, y ∈ kids' parent)
    (below : Below kids root steps x) : Below kids' root steps x := by
  induction below with
  | self => exact .self
  | kid _ listed ih => exact .kid ih (same _ _ listed)

theorem nested_congr {kids' : α → List α} {nodes : List (Nat × α)}
    (same : ∀ parent, ∀ y ∈ kids parent, y ∈ kids' parent) (nested : Nested kids nodes) :
    Nested kids' nodes := by
  intro front node rest split later
  obtain ⟨before, depth, parent, between, deep, listed, front', deeper⟩ :=
    nested front node rest split later
  exact ⟨before, depth, parent, between, deep, same _ _ listed, front', deeper⟩

section Trees

theorem depth_unique (tree : Treelike kids root) {other : Nat} (first : Below kids root steps x)
    (second : Below kids root other x) : steps = other := by
  induction first generalizing other with
  | self =>
    cases other with
    | zero => rfl
    | succ other => exact absurd second (tree.rooted other)
  | @kid steps parent node above listed ih =>
    cases second with
    | self => exact absurd (.kid above listed) (tree.rooted steps)
    | kid above' listed' =>
      cases tree.parent _ _ _ listed listed'
      rw [ih above']

theorem above_unique (tree : Treelike kids root) {first second : α}
    (below : Below kids first steps x) (below' : Below kids second steps x) : first = second := by
  induction below with
  | self =>
    cases below'
    rfl
  | kid above listed ih =>
    obtain ⟨⟩ | ⟨above', listed'⟩ := below'
    cases tree.parent _ _ _ listed listed'
    exact ih above'

/-- There are as many different nodes on the way to a node as it is steps away. -/
theorem nodes_on_way (tree : Treelike kids root) (below : Below kids root steps x) :
    ∃ nodes : List α, nodes.length = steps ∧ nodes.Nodup ∧
      ∀ y ∈ nodes, (∃ parent, y ∈ kids parent) ∧ ∃ less, less ≤ steps ∧ Below kids root less y := by
  induction below with
  | self => exact ⟨[], rfl, List.nodup_nil, by simp⟩
  | @kid steps parent node above listed ih =>
    obtain ⟨nodes, long, once, each⟩ := ih
    have new : node ∉ nodes := by
      intro mem
      obtain ⟨_, less, small, below⟩ := each node mem
      have same := depth_unique tree below (.kid above listed)
      omega
    refine ⟨node :: nodes, congrArg Nat.succ long, List.nodup_cons.mpr ⟨new, once⟩, ?_⟩
    intro y mem
    rcases List.mem_cons.mp mem with rfl | mem
    · exact ⟨⟨parent, listed⟩, steps + 1, Nat.le_refl _, .kid above listed⟩
    · obtain ⟨known, less, small, below⟩ := each y mem
      exact ⟨known, less, Nat.le_succ_of_le small, below⟩

theorem below_bounded (tree : Treelike kids root) {all : List α}
    (inside : ∀ parent, ∀ y ∈ kids parent, y ∈ all) (below : Below kids root steps x) :
    steps ≤ all.length := by
  obtain ⟨nodes, long, once, each⟩ := nodes_on_way tree below
  rw [← long]
  refine List.Nodup.length_le_of_subset once ?_
  intro y mem
  obtain ⟨⟨parent, listed⟩, _⟩ := each y mem
  exact inside parent y listed

end Trees

section Lists

theorem preorder_below (mem : (steps, x) ∈ preorder kids rounds node depth) :
    ∃ more, steps = depth + more ∧ Below kids node more x := by
  induction rounds generalizing node depth with
  | zero => cases mem
  | succ rounds ih =>
    rw [preorder] at mem
    rcases List.mem_cons.mp mem with same | later
    · cases same
      exact ⟨0, rfl, .self⟩
    · obtain ⟨kid, listed, inside⟩ := List.mem_flatMap.mp later
      obtain ⟨more, same, below⟩ := ih inside
      exact ⟨more + 1, by omega, below_kid listed below⟩

theorem below_preorder (depth : Nat) (below : Below kids node steps x) (enough : steps < rounds) :
    (depth + steps, x) ∈ preorder kids rounds node depth := by
  induction rounds generalizing node depth steps with
  | zero => exact absurd enough (Nat.not_lt_zero _)
  | succ rounds ih =>
    rw [preorder]
    cases steps with
    | zero =>
      cases below
      exact List.mem_cons_self
    | succ steps =>
      obtain ⟨kid, listed, below⟩ := below_first below
      refine List.mem_cons_of_mem _ (List.mem_flatMap.mpr ⟨kid, listed, ?_⟩)
      have inside := ih (depth + 1) below (Nat.lt_of_succ_lt_succ enough)
      rwa [Nat.add_right_comm] at inside

theorem preorder_nodup (tree : Treelike kids root) (here : Below kids root depth node) :
    ((preorder kids rounds node depth).map Prod.snd).Nodup := by
  induction rounds generalizing node depth with
  | zero => exact List.nodup_nil
  | succ rounds ih =>
    rw [preorder, List.map_cons, List.map_flatMap]
    refine List.nodup_cons.mpr ⟨?_, List.nodup_flatMap.mpr ⟨?_, ?_⟩⟩
    · intro mem
      obtain ⟨kid, listed, inside⟩ := List.mem_flatMap.mp mem
      obtain ⟨⟨steps, y⟩, mem, same⟩ := List.mem_map.mp inside
      cases same
      obtain ⟨more, _, below⟩ := preorder_below mem
      have again := depth_unique tree here (below_trans here (below_kid listed below))
      omega
    · intro kid listed
      exact ih (.kid here listed)
    · refine (tree.once node).imp_of_mem ?_
      intro first second listed listed' other y mem mem'
      obtain ⟨⟨steps, x⟩, inside, rfl⟩ := List.mem_map.mp mem
      obtain ⟨⟨steps', x'⟩, inside', same⟩ := List.mem_map.mp mem'
      obtain rfl : x' = x := same
      obtain ⟨more, _, below⟩ := preorder_below inside
      obtain ⟨more', _, below'⟩ := preorder_below inside'
      have deep := depth_unique tree (below_trans here (below_kid listed below))
        (below_trans here (below_kid listed' below'))
      have level : more = more' := by omega
      rw [← level] at below'
      exact other (above_unique tree below below')

theorem flat_map_split {β : Type} {f : α → List β} {list : List α} {front rest : List β} {y : β}
    (split : list.flatMap f = front ++ y :: rest) :
    ∃ before part after inner behind, list = before ++ part :: after ∧
      f part = inner ++ y :: behind ∧ front = before.flatMap f ++ inner := by
  induction list generalizing front with
  | nil =>
    rw [List.flatMap_nil] at split
    cases front with
    | nil => cases split
    | cons z front => cases split
  | cons first list ih =>
    rw [List.flatMap_cons] at split
    obtain ⟨inner, same, later⟩ | ⟨inner, same, later⟩ := List.append_eq_append_iff.mp split
    · obtain ⟨before, part, after, inner', behind, parts, block, fronts⟩ := ih later
      refine ⟨first :: before, part, after, inner', behind, ?_, block, ?_⟩
      · rw [parts, List.cons_append]
      · rw [same, fronts, List.flatMap_cons, List.append_assoc]
    · cases inner with
      | nil =>
        have start : list.flatMap f = [] ++ y :: rest := later.symm
        obtain ⟨before, part, after, inner', behind, parts, block, fronts⟩ := ih start
        refine ⟨first :: before, part, after, inner', behind, ?_, block, ?_⟩
        · rw [parts, List.cons_append]
        · rw [List.flatMap_cons, List.append_assoc, ← fronts, same, List.append_nil,
            List.append_nil]
      | cons z inner =>
        cases later
        exact ⟨[], first, list, front, inner, rfl, same, rfl⟩

theorem preorder_head {first : Nat × α} {rest : List (Nat × α)}
    (starts : preorder kids rounds node depth = first :: rest) : first = (depth, node) := by
  cases rounds with
  | zero => cases starts
  | succ rounds =>
    rw [preorder] at starts
    exact (List.cons.inj starts).1.symm

theorem preorder_nested : Nested kids (preorder kids rounds node depth) := by
  induction rounds generalizing node depth with
  | zero =>
    intro front y rest split
    rw [preorder] at split
    cases front with
    | nil => cases split
    | cons z front => cases split
  | succ rounds ih =>
    intro front y rest split later
    rw [preorder] at split
    cases front with
    | nil => exact absurd rfl later
    | cons z front =>
      obtain ⟨same, inside⟩ := List.cons.inj split
      obtain ⟨before, kid, after, inner, behind, parts, block, fronts⟩ := flat_map_split inside
      have listed : kid ∈ kids node := by
        rw [parts]
        exact List.mem_append_right _ List.mem_cons_self
      rw [← same, fronts]
      cases inner with
      | nil =>
        -- The first node of its part is directly below this one.
        have first := preorder_head block
        refine ⟨[], depth, node, before.flatMap fun kid => preorder kids rounds kid (depth + 1),
          ?_, ?_, by simp, ?_⟩
        · rw [first]
        · rw [first]
          exact listed
        · intro other mem
          obtain ⟨kid, _, mem⟩ := List.mem_flatMap.mp mem
          obtain ⟨more, deep, _⟩ := preorder_below mem
          omega
      | cons w inner =>
        obtain ⟨before', depth', parent, between, deep, above, front', deeper⟩ :=
          ih (w :: inner) y behind block (List.cons_ne_nil w inner)
        refine ⟨(depth, node) :: before.flatMap (fun kid => preorder kids rounds kid (depth + 1)) ++
          before', depth', parent, between, deep, above, ?_, deeper⟩
        rw [front']
        simp

end Lists

end TreeWalk
