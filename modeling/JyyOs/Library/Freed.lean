import JyyOs.Library.Hoare

/-!
Programs that note which nodes they have freed, and stop at a read of one of them. `Follows` says
that such a program does what the program without notes does, as long as it reads no freed node.
-/
namespace Freed

open Hoare

variable {σ ε ι ν α β : Type}

inductive Fault (ε : Type) where
  | stop (e : ε)
  | freed

structure Noted (σ ι : Type) where
  state : σ
  gone : List ι

abbrev Watch (σ ι ε α : Type) := Prog (Noted σ ι) (Fault ε) α

/-- A program that neither frees nor reads a node. -/
def plain (x : Prog σ ε α) : Watch σ ι ε α := fun w =>
  match x.run w.state with
  | .ok (a, s) => .ok (a, { w with state := s })
  | .error e => .error (.stop e)

def readNode [DecidableEq ι] (content : σ → ν) (p : ι) : Watch σ ι ε ν := do
  let w ← get
  if p ∈ w.gone then throw .freed else return content w.state

def noteFree (free : Prog σ ε Unit) (p : ι) : Watch σ ι ε Unit := do
  plain free
  modify fun w => { w with gone := p :: w.gone }

/-- The program does what it does without notes, up to a read of a freed node. -/
def Follows (x : Watch σ ι ε α) (y : Prog σ ε α) (w : Noted σ ι) : Prop :=
  match x.run w with
  | .ok (a, w') => y.run w.state = .ok (a, w'.state)
  | .error (.stop e) => y.run w.state = .error e
  | .error .freed => True

section Runs

variable {w w' : Noted σ ι} {a : α} {f : Fault ε}

theorem plain_ok {x : Prog σ ε α} :
    (plain x).run w = .ok (a, w') ↔ ∃ s, x.run w.state = .ok (a, s) ∧ w' = ⟨s, w.gone⟩ := by
  have run : (plain x).run w = match x.run w.state with
    | .ok (a, s) => .ok (a, { w with state := s })
    | .error e => .error (.stop e) := rfl
  rw [run]
  cases x.run w.state with
  | error e => simp
  | ok p =>
    obtain ⟨b, s⟩ := p
    constructor
    · intro h
      cases h
      exact ⟨s, rfl, rfl⟩
    · rintro ⟨_, same, rfl⟩
      cases same
      rfl

theorem plain_error {x : Prog σ ε α} :
    (plain x : Watch σ ι ε α).run w = .error f ↔ ∃ e, x.run w.state = .error e ∧ f = .stop e := by
  have run : (plain x : Watch σ ι ε α).run w = match x.run w.state with
    | .ok (a, s) => .ok (a, { w with state := s })
    | .error e => .error (.stop e) := rfl
  rw [run]
  cases x.run w.state with
  | error e =>
    constructor
    · intro h
      cases h
      exact ⟨e, rfl, rfl⟩
    · rintro ⟨_, same, rfl⟩
      cases same
      rfl
  | ok p => simp

theorem free_ok {free : Prog σ ε Unit} {p : ι} {u : Unit} : (noteFree free p).run w = .ok (u, w') ↔
    ∃ s, free.run w.state = .ok ((), s) ∧ w' = ⟨s, p :: w.gone⟩ := by
  simp only [noteFree, bind_ok, plain_ok, modify_ok]
  constructor
  · rintro ⟨_, _, ⟨s, ran, rfl⟩, rfl⟩
    exact ⟨s, ran, rfl⟩
  · rintro ⟨s, ran, rfl⟩
    exact ⟨(), _, ⟨s, ran, rfl⟩, rfl⟩

theorem free_error {free : Prog σ ε Unit} {p : ι} : (noteFree free p).run w = .error f ↔
    ∃ e, free.run w.state = .error e ∧ f = .stop e := by
  simp only [noteFree, bind_error, plain_error, modify_error, and_false, exists_false, or_false]

variable [DecidableEq ι] {content : σ → ν} {p : ι} {v : ν}

theorem read_ok : (readNode content p : Watch σ ι ε ν).run w = .ok (v, w') ↔
    p ∉ w.gone ∧ v = content w.state ∧ w = w' := by
  simp only [readNode, bind_ok, get_ok]
  constructor
  · rintro ⟨_, _, ⟨rfl, rfl⟩, h⟩
    split at h
    · exact (throw_ok.mp h).elim
    · rename_i here
      exact ⟨here, pure_ok.mp h⟩
  · rintro ⟨here, rfl, rfl⟩
    refine ⟨w, w, ⟨rfl, rfl⟩, ?_⟩
    rw [if_neg here]
    rfl

theorem read_error : (readNode content p : Watch σ ι ε ν).run w = .error f ↔
    p ∈ w.gone ∧ f = .freed := by
  simp only [readNode, bind_error, get_ok, get_error, false_or]
  constructor
  · rintro ⟨_, _, ⟨rfl, rfl⟩, h⟩
    split at h
    · rename_i here
      exact ⟨here, throw_error.mp h⟩
    · exact (pure_error.mp h).elim
  · rintro ⟨here, rfl⟩
    refine ⟨w, w, ⟨rfl, rfl⟩, ?_⟩
    rw [if_pos here]
    rfl

end Runs

section Rules

variable {w : Noted σ ι} {x : Watch σ ι ε α} {y : Prog σ ε α}

theorem follows_ok {w' : Noted σ ι} {a : α} (follows : Follows x y w)
    (ran : x.run w = .ok (a, w')) : y.run w.state = .ok (a, w'.state) := by
  rw [Follows, ran] at follows
  exact follows

theorem follows_stop {e : ε} (follows : Follows x y w) (ran : x.run w = .error (.stop e)) :
    y.run w.state = .error e := by
  rw [Follows, ran] at follows
  exact follows

theorem follows_freed (ran : x.run w = .error .freed) : Follows x y w := by
  rw [Follows, ran]
  trivial

theorem free_then_read [DecidableEq ι] {free : Prog σ ε Unit} {p : ι} {content : σ → ν}
    {f : ν → Watch σ ι ε β} {s : σ} (ran : free.run w.state = .ok ((), s)) :
    (do noteFree free p; let v ← readNode content p; f v).run w = .error .freed :=
  bind_error.mpr (.inr ⟨(), _, free_ok.mpr ⟨s, ran, rfl⟩,
    bind_error.mpr (.inl (read_error.mpr ⟨List.mem_cons_self, rfl⟩))⟩)

theorem follows_plain (y : Prog σ ε α) (w : Noted σ ι) : Follows (plain y) y w := by
  rw [Follows]
  split
  · rename_i a w' ran
    obtain ⟨s, same, rfl⟩ := plain_ok.mp ran
    exact same
  · rename_i e ran
    obtain ⟨_, same, stops⟩ := plain_error.mp ran
    cases stops
    exact same
  · trivial

theorem follows_throw (e : ε) (w : Noted σ ι) :
    Follows (throw (.stop e) : Watch σ ι ε α) (throw e) w := rfl

theorem follows_pure (a : α) (w : Noted σ ι) :
    Follows (pure a : Watch σ ι ε α) (pure a) w := rfl

theorem follows_bind {f : α → Watch σ ι ε β} {g : α → Prog σ ε β} (first : Follows x y w)
    (rest : ∀ a w', x.run w = .ok (a, w') → Follows (f a) (g a) w') :
    Follows (x >>= f) (y >>= g) w := by
  rw [Follows]
  split
  · rename_i b w' ran
    obtain ⟨a, mid, head, tail⟩ := bind_ok.mp ran
    exact bind_ok.mpr ⟨a, mid.state, follows_ok first head, follows_ok (rest a mid head) tail⟩
  · rename_i e ran
    rcases bind_error.mp ran with head | ⟨a, mid, head, tail⟩
    · exact bind_error.mpr (.inl (follows_stop first head))
    · exact bind_error.mpr
        (.inr ⟨a, mid.state, follows_ok first head, follows_stop (rest a mid head) tail⟩)
  · trivial

theorem follows_read [DecidableEq ι] {content : σ → ν} {p : ι} {f : ν → Watch σ ι ε β}
    {g : Prog σ ε β} (rest : p ∉ w.gone → Follows (f (content w.state)) g w) :
    Follows (readNode content p >>= f) g w := by
  rw [Follows]
  split
  · rename_i b w' ran
    obtain ⟨_, _, head, tail⟩ := bind_ok.mp ran
    obtain ⟨here, rfl, rfl⟩ := read_ok.mp head
    exact follows_ok (rest here) tail
  · rename_i e ran
    rcases bind_error.mp ran with head | ⟨_, _, head, tail⟩
    · cases (read_error.mp head).2
    · obtain ⟨here, rfl, rfl⟩ := read_ok.mp head
      exact follows_stop (rest here) tail
  · trivial

theorem follows_free (free : Prog σ ε Unit) (p : ι) (w : Noted σ ι) :
    Follows (noteFree free p) free w := by
  rw [Follows]
  split
  · rename_i a w' ran
    obtain ⟨s, same, rfl⟩ := free_ok.mp ran
    exact same
  · rename_i e ran
    obtain ⟨_, same, stops⟩ := free_error.mp ran
    cases stops
    exact same
  · trivial

theorem follows_get {f : Watch σ ι ε β} {g : σ → Prog σ ε β} (rest : Follows f (g w.state) w) :
    Follows f (get >>= g) w := by
  have same : (get >>= g : Prog σ ε β).run w.state = (g w.state).run w.state := rfl
  rw [Follows, same]
  exact rest

theorem follows_look {f : σ → Watch σ ι ε β} {g : Prog σ ε β} (rest : Follows (f w.state) g w) :
    Follows (plain get >>= f) g w := by
  have same : (plain get >>= f : Watch σ ι ε β).run w = (f w.state).run w := rfl
  rw [Follows, same]
  exact rest

theorem follows_ite {c : Prop} [Decidable c] {x' : Watch σ ι ε α} {y' : Prog σ ε α}
    (yes : c → Follows x y w) (no : ¬ c → Follows x' y' w) :
    Follows (if c then x else x') (if c then y else y') w := by
  by_cases h : c
  · rw [if_pos h, if_pos h]
    exact yes h
  · rw [if_neg h, if_neg h]
    exact no h

end Rules

section Unread

variable {P : Noted σ ι → Prop} {Q : α → Noted σ ι → Prop} {E : Fault ε → Prop}

theorem spec_plain {x : Prog σ ε α} (stops : ∀ e, E (.stop e))
    (post : ∀ w a s, P w → x.run w.state = .ok (a, s) → Q a ⟨s, w.gone⟩) :
    Spec P (plain x) Q E := by
  intro w pre
  refine ⟨fun a w' ran => ?_, fun f ran => ?_⟩
  · obtain ⟨s, ends, rfl⟩ := plain_ok.mp ran
    exact post w a s pre ends
  · obtain ⟨e, _, rfl⟩ := plain_error.mp ran
    exact stops e

theorem spec_note_free {free : Prog σ ε Unit} {p : ι} {Q : Unit → Noted σ ι → Prop}
    (stops : ∀ e, E (.stop e))
    (post : ∀ w s, P w → free.run w.state = .ok ((), s) → Q () ⟨s, p :: w.gone⟩) :
    Spec P (noteFree free p) Q E := by
  intro w pre
  refine ⟨fun u w' ran => ?_, fun f ran => ?_⟩
  · obtain ⟨s, ends, rfl⟩ := free_ok.mp ran
    exact post w s pre ends
  · obtain ⟨e, _, rfl⟩ := free_error.mp ran
    exact stops e

theorem spec_unread {x : Watch σ ι ε α} {c : Prop} (spec : Spec P x Q (· ≠ .freed)) :
    Spec P x Q fun f => f = .freed → c :=
  spec_stops spec fun _ unread freed => absurd freed unread

variable [DecidableEq ι] {content : σ → ν} {p : ι} {f : ν → Watch σ ι ε α}

theorem spec_read (there : ∀ w, P w → p ∉ w.gone) (v : ν) (known : ∀ w, P w → content w.state = v)
    (rest : Spec P (f v) Q E) : Spec P (readNode content p >>= f) Q E := by
  intro w pre
  have ran : (readNode content p : Watch σ ι ε ν).run w = .ok (v, w) :=
    read_ok.mpr ⟨there w pre, (known w pre).symm, rfl⟩
  have same : (readNode content p >>= f).run w = (f v).run w := by
    rw [StateT.run_bind, ran]
    rfl
  rw [same]
  exact rest w pre

theorem spec_read_freed (gone : ∀ w, P w → p ∈ w.gone) (freed : E .freed) :
    Spec P (readNode content p >>= f) Q E := by
  intro w pre
  have ran : (readNode content p >>= f).run w = .error .freed :=
    bind_error.mpr (.inl (read_error.mpr ⟨gone w pre, rfl⟩))
  refine ⟨fun a w' ends => ?_, fun fault stops => ?_⟩
  · rw [ran] at ends
    cases ends
  · rw [ran] at stops
    cases stops
    exact freed

end Unread

end Freed
