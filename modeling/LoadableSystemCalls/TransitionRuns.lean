import Mathlib.Logic.Relation
import Mathlib.Data.List.Basic
import Mathlib.Data.List.Induction

/-! # Runs of a labelled transition relation

Invariants, runs restricted to events that meet a condition, the simulation of a run by a
fold over its events, and runs with a ghost value beside the state. -/
namespace TransitionRuns

variable {σ ε τ : Type*} {step : σ → ε → σ → Prop}

/-- A run records the events it performs, oldest first. -/
inductive Run (step : σ → ε → σ → Prop) : σ → List ε → σ → Prop where
  | nil (s) : Run step s [] s
  | snoc {s t u es e} : Run step s es t → step t e u → Run step s (es ++ [e]) u

def Reachable (init : σ → Prop) (step : σ → ε → σ → Prop) (s : σ) : Prop :=
  ∃ s₀ es, init s₀ ∧ Run step s₀ es s

def Guarded (cond : σ → ε → Prop) (step : σ → ε → σ → Prop) (s : σ) (e : ε) (t : σ) : Prop :=
  cond s e ∧ step s e t

theorem Run.invariant {P : σ → Prop} (hp : ∀ s e t, P s → step s e t → P t) {s t : σ}
    {es : List ε} (h : Run step s es t) (hs : P s) : P t := by
  induction h with
  | nil => exact hs
  | snoc _ h ih => exact hp _ _ _ ih h

theorem Reachable.invariant {init P : σ → Prop} (hi : ∀ s, init s → P s)
    (hp : ∀ s e t, P s → step s e t → P t) {s : σ} (h : Reachable init step s) : P s := by
  obtain ⟨s₀, es, h₀, h⟩ := h
  exact h.invariant hp (hi s₀ h₀)

theorem Reachable.initial {init : σ → Prop} {s : σ} (h : init s) : Reachable init step s :=
  ⟨s, [], h, .nil s⟩

theorem Run.last {s t : σ} {es : List ε} {e : ε} (h : Run step s (es ++ [e]) t) :
    ∃ u, Run step s es u ∧ step u e t := by
  generalize hx : es ++ [e] = l at h
  cases h with
  | nil => simp at hx
  | snoc hr hs =>
    obtain ⟨rfl, he⟩ := List.append_inj' hx rfl
    obtain rfl : e = _ := by simpa using he
    exact ⟨_, hr, hs⟩

theorem Run.split {s t : σ} {es es' : List ε} (h : Run step s (es ++ es') t) :
    ∃ u, Run step s es u ∧ Run step u es' t := by
  induction es' using List.reverseRecOn generalizing t with
  | nil => exact ⟨t, by simpa using h, .nil t⟩
  | append_singleton es' e ih =>
    rw [← List.append_assoc] at h
    obtain ⟨v, hv, hs⟩ := h.last
    obtain ⟨u, hu, huv⟩ := ih hv
    exact ⟨u, hu, huv.snoc hs⟩

theorem Run.cons {s t u : σ} {e : ε} {es : List ε} (hs : step s e t) (h : Run step t es u) :
    Run step s (e :: es) u := by
  induction h with
  | nil => exact Run.snoc (.nil s) hs
  | snoc _ h ih => exact ih.snoc h

theorem Run.append {s t u : σ} {es es' : List ε} (h : Run step s es t) (h' : Run step t es' u) :
    Run step s (es ++ es') u := by
  induction h' with
  | nil => simpa using h
  | snoc _ hs ih =>
    rw [← List.append_assoc]
    exact ih.snoc hs

/-- Replaying events stops at the first one that is not enabled. -/
def replay (next : σ → ε → Option σ) : σ → List ε → Option σ
  | s, [] => some s
  | s, e :: es => (next s e).bind fun t => replay next t es

theorem replay_sound {next : σ → ε → Option σ} (hn : ∀ s e t, next s e = some t → step s e t)
    {s t : σ} {es : List ε} (h : replay next s es = some t) : Run step s es t := by
  induction es generalizing s with
  | nil =>
    obtain rfl : s = t := Option.some.inj h
    exact .nil s
  | cons e es ih =>
    obtain ⟨u, hu, ht⟩ := Option.bind_eq_some_iff.mp h
    exact .cons (hn s e u hu) (ih ht)

theorem replay_append (next : σ → ε → Option σ) (s : σ) (es es' : List ε) :
    replay next s (es ++ es') = (replay next s es).bind fun t => replay next t es' := by
  induction es generalizing s with
  | nil => rfl
  | cons e es ih =>
    rw [List.cons_append, replay, replay, Option.bind_assoc]
    exact Option.bind_congr fun t _ => ih t

theorem replay_reaches {next : σ → ε → Option σ} (hn : ∀ s e t, next s e = some t → step s e t)
    {s : σ} {es : List ε} {p : σ → Bool} (h : (replay next s es).any p = true) :
    ∃ t, Run step s es t ∧ p t = true := by
  cases ht : replay next s es with
  | none =>
    rw [ht] at h
    cases h
  | some t =>
    rw [ht, Option.any_some] at h
    exact ⟨t, replay_sound hn ht, h⟩

def guardedNext (cond : σ → ε → Prop) [∀ s e, Decidable (cond s e)] (next : σ → ε → Option σ)
    (s : σ) (e : ε) : Option σ := if cond s e then next s e else none

theorem guardedNext_eq_some {cond : σ → ε → Prop} [∀ s e, Decidable (cond s e)]
    {next : σ → ε → Option σ} {s t : σ} {e : ε} :
    guardedNext cond next s e = some t ↔ cond s e ∧ next s e = some t := by
  rw [guardedNext, Option.ite_none_right_eq_some]

theorem guardedNext_sound {cond : σ → ε → Prop} [∀ s e, Decidable (cond s e)]
    {next : σ → ε → Option σ} (hn : ∀ s e t, next s e = some t → step s e t) (s : σ) (e : ε)
    (t : σ) (h : guardedNext cond next s e = some t) : Guarded cond step s e t :=
  (guardedNext_eq_some.mp h).imp_right (hn s e t)

theorem Run.unique (hdet : ∀ s e t u, step s e t → step s e u → t = u) {s t u : σ}
    {es : List ε} (ht : Run step s es t) (hu : Run step s es u) : t = u := by
  induction ht generalizing u with
  | nil =>
    generalize hx : ([] : List ε) = l at hu
    cases hu with
    | nil => rfl
    | snoc => simp at hx
  | snoc _ hs ih =>
    obtain ⟨v, hv, hvu⟩ := hu.last
    obtain rfl := ih hv
    exact hdet _ _ _ _ hs hvu

/-- Where each state has one step, a run that cannot go on contains all others. -/
theorem Run.prefix_of_ended
    (hdet : ∀ s e e' t u, step s e t → step s e' u → e = e' ∧ t = u) {s t u : σ}
    {es es' : List ε} (ht : Run step s es t) (hend : ∀ e v, ¬ step t e v)
    (hu : Run step s es' u) : es' <+: es := by
  have hsame : ∀ s e t u, step s e t → step s e u → t = u :=
    fun s e t u h h' => (hdet s e e t u h h').2
  induction hu with
  | nil => exact List.nil_prefix
  | snoc hr hs ih =>
    obtain ⟨rest, rfl⟩ := ih
    obtain ⟨v, hv, hvt⟩ := ht.split
    obtain rfl := Run.unique hsame hv hr
    cases rest with
    | nil =>
      obtain rfl := Run.unique hsame hvt (.nil v)
      exact absurd hs (hend _ _)
    | cons e' rest =>
      obtain ⟨w, hw, -⟩ := @Run.split _ _ _ _ _ [e'] rest hvt
      obtain ⟨x, hx, hstep⟩ := @Run.last _ _ _ _ _ [] _ hw
      obtain rfl := Run.unique hsame hx (.nil v)
      obtain ⟨rfl, -⟩ := hdet _ _ _ _ _ hs hstep
      exact ⟨rest, by simp⟩

/-- Steps that agree wherever an invariant holds have the same runs from there. -/
theorem Run.transfer {step' : σ → ε → σ → Prop} {P : σ → Prop}
    (hp : ∀ s e t, P s → step s e t → step' s e t ∧ P t) {s t : σ} {es : List ε}
    (h : Run step s es t) (hs : P s) : Run step' s es t ∧ P t := by
  induction h with
  | nil => exact ⟨.nil _, hs⟩
  | snoc _ h ih =>
    rcases ih with ⟨hr, hu⟩
    rcases hp _ _ _ hu h with ⟨h', ht⟩
    exact ⟨hr.snoc h', ht⟩

theorem Run.foldl {P : σ → Prop} {abs : σ → τ} {f : τ → ε → τ}
    (hp : ∀ s e t, P s → step s e t → P t)
    (hsim : ∀ s e t, P s → step s e t → abs t = f (abs s) e) {s t : σ} {es : List ε}
    (h : Run step s es t) (hs : P s) : abs t = es.foldl f (abs s) := by
  induction h with
  | nil => rfl
  | snoc hr h ih =>
    rw [List.foldl_append, ← ih, List.foldl_cons, List.foldl_nil]
    exact hsim _ _ _ (hr.invariant hp hs) h

section ghost
variable {γ : Type*}

/-- The steps of a relation, with a value beside the state that they update and never read. -/
def Beside (update : γ → σ → ε → γ) (step : σ → ε → σ → Prop) (s : σ × γ) (e : ε)
    (t : σ × γ) : Prop :=
  step s.1 e t.1 ∧ t.2 = update s.2 s.1 e

variable {update : γ → σ → ε → γ}

def besideNext (update : γ → σ → ε → γ) (next : σ → ε → Option σ) (s : σ × γ) (e : ε) :
    Option (σ × γ) :=
  (next s.1 e).map fun t => (t, update s.2 s.1 e)

theorem besideNext_sound {next : σ → ε → Option σ}
    (hn : ∀ s e t, next s e = some t → step s e t) (s : σ × γ) (e : ε) (t : σ × γ)
    (h : besideNext update next s e = some t) : Beside update step s e t := by
  obtain ⟨u, hu, rfl⟩ := Option.map_eq_some_iff.mp h
  exact ⟨hn _ _ _ hu, rfl⟩

theorem Run.erase {s t : σ × γ} {es : List ε} (h : Run (Beside update step) s es t) :
    Run step s.1 es t.1 := by
  induction h with
  | nil => exact .nil _
  | snoc _ h ih => exact ih.snoc h.1

end ghost

end TransitionRuns
