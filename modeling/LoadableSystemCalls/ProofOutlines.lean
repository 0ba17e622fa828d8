import LoadableSystemCalls.StatementBodies

/-! # Proof outlines of threads without a lock

Every thread has a ghost value that only its own statements change. An invariant of the
shared state and the ghost values that each statement of each body keeps, whatever the
other threads have done meanwhile, holds in every interleaving. -/
namespace ProofOutlines

open StatementBodies TransitionRuns

variable {T σ ρ α G : Type}

section outlines
variable [DecidableEq T] {I : σ → (T → G) → Prop} {post : T → G → Prop} {t : T} {g h : G}

/-- From the ghost value `g`, no statement of the body faults where the invariant holds, each
keeps it, and at the end the thread's ghost value meets `post`. -/
def Outlined (I : σ → (T → G) → Prop) (post : G → Prop) (t : T) : Body σ ρ → G → Prop
  | .done _, g => post g
  | .step act rest, g => ∀ s gs, I s gs → gs t = g → ∃ p h, act s = some p ∧
    I p.1 (Function.update gs t h) ∧ Outlined I post t (rest p.2) h

variable {Q R : G → Prop}

theorem outlined_pure {a : α} (hg : Q g) : Outlined I Q t (pure a : Body σ α) g := hg

theorem Outlined.bind {b : Body σ α} {k : α → Body σ ρ} (hb : Outlined I R t b g)
    (hk : ∀ a h, R h → Outlined I Q t (k a) h) : Outlined I Q t (b >>= k) g := by
  change Outlined I Q t (b.bind k) g
  induction b generalizing g with
  | done a => exact hk a g hb
  | step act rest ih =>
    intro s gs hs hg
    obtain ⟨p, h, hp, hI, hrest⟩ := hb s gs hs hg
    exact ⟨p, h, hp, hI, ih p.2 hrest⟩

theorem outlined_read_bind {f : σ → Option α} {k : α → Body σ ρ}
    (hf : ∀ s gs, I s gs → gs t = g → ∃ x h, f s = some x ∧ I s (Function.update gs t h) ∧
      Outlined I Q t (k x) h) : Outlined I Q t (Body.read f >>= k) g := by
  intro s gs hs hg
  obtain ⟨x, h, hx, hI, hk⟩ := hf s gs hs hg
  exact ⟨(s, x), h, congrArg (Option.map _) hx, hI, hk⟩

theorem outlined_write {f : σ → Option σ}
    (hf : ∀ s gs, I s gs → gs t = g → ∃ s' h, f s = some s' ∧ I s' (Function.update gs t h) ∧
      Q h) : Outlined I Q t (Body.write f) g := by
  intro s gs hs hg
  obtain ⟨s', h, hs', hI, hQ⟩ := hf s gs hs hg
  exact ⟨(s', ()), h, congrArg (Option.map _) hs', hI, hQ⟩

/-- The invariant holds, and what is left of each body is outlined from its ghost value. -/
def Holds (I : σ → (T → G) → Prop) (post : T → G → Prop) (c : Threads T σ ρ) : Prop :=
  ∃ gs, I c.shared gs ∧ ∀ t, Outlined I (post t) t (c.body t) (gs t)

theorem step_holds {c c' : Threads T σ ρ} (h : Holds I post c) {t : T}
    (hs : Threads.Step c t c') : Holds I post c' := by
  obtain ⟨gs, hI, hout⟩ := h
  obtain ⟨β, act, rest, p, hbody, hact, rfl⟩ := hs.cases
  have ht := hout t
  rw [hbody] at ht
  obtain ⟨q, g, hq, hIq, hrest⟩ := ht c.shared gs hI rfl
  obtain rfl := Option.some.inj (hact.symm.trans hq)
  refine ⟨Function.update gs t g, hIq, fun u => ?_⟩
  by_cases hu : u = t
  · subst hu
    simpa using hrest
  · simpa [hu] using hout u

theorem run_holds {c c' : Threads T σ ρ} (h : Holds I post c) {ts : List T}
    (hr : Run Threads.Step c ts c') : Holds I post c' :=
  hr.invariant (fun _ _ _ hc hs => step_holds hc hs) h

theorem Holds.goes_on {c : Threads T σ ρ} (h : Holds I post c) (t : T) :
    (∃ r, c.body t = .done r) ∨ ∃ c', Threads.Step c t c' := by
  obtain ⟨gs, hI, hout⟩ := h
  have ht := hout t
  cases hb : c.body t with
  | done r => exact Or.inl ⟨r, rfl⟩
  | step act rest =>
    rw [hb] at ht
    obtain ⟨p, g, hp, -, -⟩ := ht c.shared gs hI rfl
    refine Or.inr ⟨⟨p.1, Function.update c.body t (rest p.2)⟩, ?_⟩
    rw [Threads.Step, Threads.next, hb]
    exact congrArg (Option.map _) hp

theorem Holds.ended {c : Threads T σ ρ} (h : Holds I post c)
    (hdone : ∀ t, ∃ r, c.body t = .done r) : ∃ gs, I c.shared gs ∧ ∀ t, post t (gs t) := by
  obtain ⟨gs, hI, hout⟩ := h
  refine ⟨gs, hI, fun t => ?_⟩
  obtain ⟨r, hr⟩ := hdone t
  have ht := hout t
  rwa [hr] at ht

end outlines

section alone
variable [DecidableEq T] {c : Threads T σ ρ} {t : T} {p : σ × α}

theorem runs_alone {b : Body σ α} {k : α → Body σ ρ} (ht : c.body t = b >>= k)
    (hp : b.run c.shared = some p) :
    ∃ ts c', Run Threads.Step c ts c' ∧ c'.shared = p.1 ∧ c'.body t = k p.2 ∧
      ∀ u ≠ t, c'.body u = c.body u := by
  change c.body t = b.bind k at ht
  induction b generalizing c with
  | done a =>
    obtain rfl := Option.some.inj hp
    exact ⟨[], c, .nil c, rfl, ht, fun _ _ => rfl⟩
  | step act rest ih =>
    obtain ⟨q, hq, hrest⟩ := Option.bind_eq_some_iff.mp hp
    have hstep : Threads.Step c t ⟨q.1, Function.update c.body t ((rest q.2).bind k)⟩ := by
      rw [Threads.Step, Threads.next, ht]
      exact congrArg (Option.map _) hq
    obtain ⟨ts, c', hr, hshared, hbody, hothers⟩ := @ih q.2
      ⟨q.1, Function.update c.body t ((rest q.2).bind k)⟩ hrest (Function.update_self ..)
    refine ⟨t :: ts, c', .cons hstep hr, hshared, hbody, fun u hu => ?_⟩
    exact (hothers u hu).trans (Function.update_of_ne hu ..)

theorem runs_whole {b : Body σ ρ} {p : σ × ρ} (ht : c.body t = b)
    (hp : b.run c.shared = some p) :
    ∃ ts c', Run Threads.Step c ts c' ∧ c'.shared = p.1 ∧ c'.body t = .done p.2 ∧
      ∀ u ≠ t, c'.body u = c.body u :=
  runs_alone (k := .done) (ht.trans (bind_pure b).symm) hp

/-- Threads that one after the other get behind the first part of their bodies. -/
theorem runs_in_turn {b : T → Body σ α} {k : T → α → Body σ ρ} {R : List T → σ → Prop}
    {us : List T} (hus : us.Nodup) (hbody : ∀ t ∈ us, c.body t = b t >>= k t)
    (hstart : R [] c.shared) (hb : ∀ vs t s, vs ++ [t] <+: us → R vs s →
      ∃ p, (b t).run s = some p ∧ R (vs ++ [t]) p.1) :
    ∃ ts c', Run Threads.Step c ts c' ∧ R us c'.shared ∧
      (∀ t ∈ us, ∃ a, c'.body t = k t a) ∧ ∀ t, t ∉ us → c'.body t = c.body t := by
  induction us using List.reverseRecOn with
  | nil => exact ⟨[], c, .nil c, hstart, by simp, fun _ _ => rfl⟩
  | append_singleton us t ih =>
    obtain ⟨hus, -, hnot⟩ := List.nodup_append.mp hus
    have ht : t ∉ us := fun hmem => hnot t hmem t (List.mem_singleton_self t) rfl
    obtain ⟨ts, d, hr, hR, hpast, hleft⟩ := ih hus
      (fun u hu => hbody u (List.mem_append_left _ hu))
      (fun vs u s hvs => hb vs u s (hvs.trans (List.prefix_append _ _)))
    obtain ⟨p, hp, hRt⟩ := hb us t d.shared (List.prefix_refl _) hR
    have hbt : d.body t = b t >>= k t :=
      (hleft t ht).trans (hbody t (List.mem_append_right _ (List.mem_singleton_self t)))
    obtain ⟨ts', c', hr', hshared, hbody', hothers⟩ := runs_alone hbt hp
    refine ⟨_, c', hr.append hr', hshared ▸ hRt, ?_, ?_⟩
    · intro u hu
      by_cases hut : u = t
      · subst hut
        exact ⟨p.2, hbody'⟩
      · rw [List.mem_append, List.mem_singleton] at hu
        obtain ⟨a, ha⟩ := hpast u (hu.resolve_right hut)
        exact ⟨a, (hothers u hut).trans ha⟩
    · intro u hu
      rw [List.mem_append, List.mem_singleton, not_or] at hu
      exact (hothers u hu.2).trans (hleft u hu.1)

end alone

end ProofOutlines
