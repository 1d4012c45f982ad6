/-!
Programs over a state that may stop with an error. `Spec P x Q E` says that from `P` every
normal end of `x` meets `Q` and every stop meets `E`; the `_ok` lemmas invert a normal end.
`Commutes f x` says that `x` does not depend on what `f` changes.
-/
namespace Hoare

variable {σ ε α β : Type}

abbrev Prog (σ ε α : Type) := StateT σ (Except ε) α

theorem bind_ok {x : Prog σ ε α} {f : α → Prog σ ε β} {s s' : σ} {b : β} :
    (x >>= f).run s = .ok (b, s') ↔
      ∃ a mid, x.run s = .ok (a, mid) ∧ (f a).run mid = .ok (b, s') := by
  rw [StateT.run_bind]
  cases x.run s with
  | error e => simp [bind, Except.bind]
  | ok p =>
    obtain ⟨a, mid⟩ := p
    constructor
    · intro h
      exact ⟨a, mid, rfl, h⟩
    · rintro ⟨_, _, same, h⟩
      cases same
      exact h

theorem bind_error {x : Prog σ ε α} {f : α → Prog σ ε β} {s : σ} {e : ε} :
    (x >>= f).run s = .error e ↔
      x.run s = .error e ∨ ∃ a mid, x.run s = .ok (a, mid) ∧ (f a).run mid = .error e := by
  rw [StateT.run_bind]
  cases x.run s with
  | error e' => simp [bind, Except.bind]
  | ok p =>
    obtain ⟨a, mid⟩ := p
    constructor
    · intro h
      exact .inr ⟨a, mid, rfl, h⟩
    · rintro (h | ⟨_, _, same, h⟩)
      · cases h
      · cases same
        exact h

theorem pure_ok {a b : α} {s s' : σ} :
    (pure a : Prog σ ε α).run s = .ok (b, s') ↔ b = a ∧ s = s' := by
  constructor
  · intro h
    cases h
    exact ⟨rfl, rfl⟩
  · rintro ⟨rfl, rfl⟩
    rfl

theorem get_ok {a s s' : σ} :
    (get : Prog σ ε σ).run s = .ok (a, s') ↔ s = a ∧ s = s' := by
  constructor
  · intro h
    cases h
    exact ⟨rfl, rfl⟩
  · rintro ⟨rfl, rfl⟩
    rfl

theorem set_ok {u : PUnit} {t s s' : σ} :
    (set t : Prog σ ε PUnit).run s = .ok (u, s') ↔ s' = t := by
  constructor
  · intro h
    cases h
    rfl
  · rintro rfl
    rfl

theorem modify_ok {u : PUnit} {f : σ → σ} {s s' : σ} :
    (modify f : Prog σ ε PUnit).run s = .ok (u, s') ↔ s' = f s := by
  constructor
  · intro h
    cases h
    rfl
  · rintro rfl
    rfl

theorem throw_ok {e : ε} {a : α} {s s' : σ} :
    (throw e : Prog σ ε α).run s = .ok (a, s') ↔ False :=
  ⟨fun h => (nomatch h), False.elim⟩

theorem pure_error {a : α} {s : σ} {e : ε} :
    (pure a : Prog σ ε α).run s = .error e ↔ False :=
  ⟨fun h => (nomatch h), False.elim⟩

theorem get_error {s : σ} {e : ε} : (get : Prog σ ε σ).run s = .error e ↔ False :=
  ⟨fun h => (nomatch h), False.elim⟩

theorem set_error {t s : σ} {e : ε} :
    (set t : Prog σ ε PUnit).run s = .error e ↔ False :=
  ⟨fun h => (nomatch h), False.elim⟩

theorem modify_error {f : σ → σ} {s : σ} {e : ε} :
    (modify f : Prog σ ε PUnit).run s = .error e ↔ False :=
  ⟨fun h => (nomatch h), False.elim⟩

theorem throw_error {s : σ} {e e' : ε} :
    (throw e : Prog σ ε α).run s = .error e' ↔ e' = e := by
  constructor
  · intro h
    cases h
    rfl
  · rintro rfl
    rfl

def Spec (P : σ → Prop) (x : Prog σ ε α) (Q : α → σ → Prop) (E : ε → Prop) : Prop :=
  ∀ s, P s → (∀ a s', x.run s = .ok (a, s') → Q a s') ∧ ∀ e, x.run s = .error e → E e

variable {P : σ → Prop} {E : ε → Prop}

theorem spec_pure {Q : α → σ → Prop} (a : α) (post : ∀ s, P s → Q a s) :
    Spec P (pure a) Q E := by
  intro s pre
  refine ⟨fun b s' h => ?_, fun e h => (nomatch h)⟩
  obtain ⟨rfl, rfl⟩ := pure_ok.mp h
  exact post s pre

theorem spec_throw {Q : α → σ → Prop} (e : ε) (stops : E e) :
    Spec P (throw e : Prog σ ε α) Q E := by
  intro s _
  refine ⟨fun _ _ h => (throw_ok.mp h).elim, fun e' h => ?_⟩
  cases h
  exact stops

theorem spec_get : Spec P (get : Prog σ ε σ) (fun a s => s = a ∧ P s) E := by
  intro s pre
  refine ⟨fun a s' h => ?_, fun e h => (nomatch h)⟩
  obtain ⟨rfl, rfl⟩ := get_ok.mp h
  exact ⟨rfl, pre⟩

theorem spec_modify {Q : PUnit → σ → Prop} (f : σ → σ) (post : ∀ s, P s → Q ⟨⟩ (f s)) :
    Spec P (modify f : Prog σ ε PUnit) Q E := by
  intro s pre
  refine ⟨fun _ s' h => ?_, fun e h => (nomatch h)⟩
  rw [modify_ok.mp h]
  exact post s pre

theorem spec_bind {x : Prog σ ε α} {f : α → Prog σ ε β} {R : α → σ → Prop}
    {Q : β → σ → Prop} (first : Spec P x R E) (rest : ∀ a, Spec (R a) (f a) Q E) :
    Spec P (x >>= f) Q E := by
  intro s pre
  obtain ⟨ends, stops⟩ := first s pre
  refine ⟨fun b s' h => ?_, fun e h => ?_⟩
  · obtain ⟨a, mid, ran, later⟩ := bind_ok.mp h
    exact (rest a mid (ends a mid ran)).1 b s' later
  · rcases bind_error.mp h with failed | ⟨a, mid, ran, later⟩
    · exact stops e failed
    · exact (rest a mid (ends a mid ran)).2 e later

theorem spec_ite {c : Prop} [Decidable c] {x y : Prog σ ε α} {Q : α → σ → Prop}
    (yes : c → Spec P x Q E) (no : ¬c → Spec P y Q E) : Spec P (if c then x else y) Q E := by
  by_cases h : c
  · rw [if_pos h]
    exact yes h
  · rw [if_neg h]
    exact no h

theorem spec_weaken {P' : σ → Prop} {x : Prog σ ε α} {Q Q' : α → σ → Prop}
    (spec : Spec P x Q E) (pre : ∀ s, P' s → P s) (post : ∀ a s, Q a s → Q' a s) :
    Spec P' x Q' E := by
  intro s h
  obtain ⟨ends, stops⟩ := spec s (pre s h)
  exact ⟨fun a s' ran => post a s' (ends a s' ran), stops⟩

theorem spec_stops {E' : ε → Prop} {x : Prog σ ε α} {Q : α → σ → Prop} (spec : Spec P x Q E)
    (weaker : ∀ e, E e → E' e) : Spec P x Q E' := by
  intro s pre
  obtain ⟨ends, stops⟩ := spec s pre
  exact ⟨ends, fun e ran => weaker e (stops e ran)⟩

theorem spec_given {c : Prop} {x : Prog σ ε α} {Q : α → σ → Prop} (given : c → Spec P x Q E) :
    Spec (fun s => P s ∧ c) x Q E :=
  fun s pre => given pre.2 s pre.1

theorem spec_and {x : Prog σ ε α} {Q Q' : α → σ → Prop} {P' : σ → Prop} (spec : Spec P x Q E)
    (more : ∀ s a s', P' s → x.run s = .ok (a, s') → Q' a s') :
    Spec (fun s => P s ∧ P' s) x (fun a s => Q a s ∧ Q' a s) E := by
  intro s h
  obtain ⟨ends, stops⟩ := spec s h.1
  exact ⟨fun a s' ran => ⟨ends a s' ran, more s a s' h.2 ran⟩, stops⟩

theorem spec_set {t : σ} {Q : PUnit → σ → Prop} (post : ∀ s, P s → Q ⟨⟩ t) :
    Spec P (set t : Prog σ ε PUnit) Q E := by
  intro s pre
  refine ⟨fun _ s' h => ?_, fun e h => (nomatch h)⟩
  rw [set_ok.mp h]
  exact post s pre

theorem spec_read {k : σ → Prog σ ε β} {Q : β → σ → Prop}
    (rest : ∀ s, P s → Spec (s = ·) (k s) Q E) : Spec P (get >>= k) Q E := by
  intro s pre
  exact rest s pre s rfl

theorem spec_for_m (g : α → σ → σ) (l : List α) (s : σ) :
    Spec (s = ·) (l.forM fun a => (modify (g a) : Prog σ ε PUnit))
      (fun _ s' => s' = l.foldl (fun s a => g a s) s) E := by
  induction l generalizing s with
  | nil => exact spec_pure _ fun s' same => same.symm
  | cons a l ih =>
    refine spec_bind (spec_modify (Q := fun _ s' => g a s = s') (g a) ?_) fun _ => ih (g a s)
    rintro _ rfl
    rfl

section Ends

/-- From every state in `P` the program ends normally, in `Q`. -/
def Ends (P : σ → Prop) (x : Prog σ ε α) (Q : α → σ → Prop) : Prop :=
  ∀ s, P s → ∃ a s', x.run s = .ok (a, s') ∧ Q a s'

variable {x : Prog σ ε α} {f : α → Prog σ ε β} {R : α → σ → Prop} {Q : β → σ → Prop}

theorem ends_bind (first : Ends P x R) (rest : ∀ a, Ends (R a) (f a) Q) :
    Ends P (x >>= f) Q := by
  intro s pre
  obtain ⟨a, mid, ran, reached⟩ := first s pre
  obtain ⟨b, s', ran', post⟩ := rest a mid reached
  exact ⟨b, s', bind_ok.mpr ⟨a, mid, ran, ran'⟩, post⟩

theorem ends_get {k : σ → Prog σ ε β} (rest : ∀ s, P s → Ends (s = ·) (k s) Q) :
    Ends P (get >>= k) Q := by
  intro s pre
  obtain ⟨b, s', ran, post⟩ := rest s pre s rfl
  exact ⟨b, s', bind_ok.mpr ⟨s, s, get_ok.mpr ⟨rfl, rfl⟩, ran⟩, post⟩

theorem ends_modify {g : σ → σ} {Q : PUnit → σ → Prop} (post : ∀ s, P s → Q ⟨⟩ (g s)) :
    Ends P (modify g : Prog σ ε PUnit) Q :=
  fun s pre => ⟨⟨⟩, g s, rfl, post s pre⟩

theorem ends_for_m {f : α → Prog σ ε PUnit} (l : List α)
    (each : ∀ a, Ends P (f a) fun _ => P) : Ends P (l.forM f) fun _ => P := by
  induction l with
  | nil => exact fun s pre => ⟨⟨⟩, s, rfl, pre⟩
  | cons a l ih => exact ends_bind (each a) fun _ => ih

end Ends

section Commutes

/-- From `f s` the program `x` goes as from `s`, and ends in `f` of where it ended. -/
def Commutes (f : σ → σ) (x : Prog σ ε α) : Prop :=
  ∀ s a s', x.run s = .ok (a, s') → x.run (f s) = .ok (a, f s')

variable {f : σ → σ}

theorem commutes_pure (a : α) : Commutes f (pure a : Prog σ ε α) := by
  intro s b s' h
  obtain ⟨rfl, rfl⟩ := pure_ok.mp h
  rfl

theorem commutes_throw (e : ε) : Commutes f (throw e : Prog σ ε α) := by
  intro s a s' h
  exact (throw_ok.mp h).elim

theorem commutes_modify {g : σ → σ} (same : ∀ s, g (f s) = f (g s)) :
    Commutes f (modify g : Prog σ ε PUnit) := by
  intro s u s' h
  rw [modify_ok.mp h, ← same]
  rfl

theorem commutes_bind {x : Prog σ ε α} {k : α → Prog σ ε β} (first : Commutes f x)
    (rest : ∀ a, Commutes f (k a)) : Commutes f (x >>= k) := by
  intro s b s' h
  obtain ⟨a, mid, ran, later⟩ := bind_ok.mp h
  apply bind_ok.mpr
  exact ⟨a, f mid, first s a mid ran, rest a mid b s' later⟩

/-- A program that reads the state depends on `f` through what it does next only. -/
theorem commutes_get {k : σ → Prog σ ε β} (rest : ∀ s, k (f s) = k s)
    (later : ∀ s, Commutes f (k s)) : Commutes f (get >>= k) := by
  intro s b s' h
  obtain ⟨_, _, read, h⟩ := bind_ok.mp h
  obtain ⟨rfl, rfl⟩ := get_ok.mp read
  apply bind_ok.mpr
  refine ⟨f s, f s, get_ok.mpr ⟨rfl, rfl⟩, ?_⟩
  rw [rest]
  exact later s s b s' h

theorem commutes_ite {c : Prop} [Decidable c] {x y : Prog σ ε α} (yes : c → Commutes f x)
    (no : ¬c → Commutes f y) : Commutes f (if c then x else y) := by
  by_cases h : c
  · rw [if_pos h]
    exact yes h
  · rw [if_neg h]
    exact no h

end Commutes

end Hoare
