import LoadableSystemCalls.ConcurrentChain
import LoadableSystemCalls.ModuleRegistry

/-! # Registration against walks of the registry (bitmap.c, main.c)

module_register takes no lock, so the statements of add_module run between those of
get_module and of the walks in the two reference functions, which other tasks make under
the lock or, in new_exit_group and sys_clone2, under none. -/
namespace ConcurrentRegistry

open KernelTypes ModuleRegistry LinkedChain ConcurrentChain TransitionRuns

/-- What a walk compares: `iterator->module->type`, or `iterator->module`. -/
inductive Sought where
  | type (type : ModuleType)
  | pointer (m : Addr)
  deriving DecidableEq, Repr

def passes (k : Kernel) : Sought → Addr → Option Bool
  | .type type, m => k.hasType type m
  | .pointer m', m => some (m = m')

def IsLoaded (k : Kernel) (m : Addr) : Prop := (k.mods.lookup m).isSome = true

instance (k : Kernel) (m : Addr) : Decidable (IsLoaded k m) :=
  inferInstanceAs (Decidable (_ = true))

/-- What one call of the module registry comes to, with the registry as it is. -/
def foundModule (k : Kernel) : Sought → Option (Option Addr)
  | .type type => getModule type k
  | .pointer m => (findNode k fun x => some (x = m)).map (·.map fun r => r.2.2.value)

section
variable {T : Type*}

def performWhole (k : Kernel) : Done T Sought Addr Addr → Option Kernel
  | .added node m => (moduleRegister (some node) m k).map Prod.fst
  | .looked _ q r => if foundModule k q = some r then some k else none

variable [DecidableEq T]

abbrev StatementStep (k : Kernel) :
    Config T Sought Addr Addr → ConcurrentChain.Event T Sought Addr Addr →
      Config T Sought Addr Addr → Prop :=
  Guarded (Adds (IsLoaded k)) (Step (passes k))

def withChain (k : Kernel) (s : Store Addr Addr × Option Addr) : Kernel :=
  { k with nodes := s.1, headNode := s.2 }

omit [DecidableEq T] in
theorem performWhole_eq (k : Kernel) (d : Done T Sought Addr Addr) :
    performWhole k d = (whole (passes k) (k.nodes, k.headNode) d).map (withChain k) := by
  cases d with
  | added node m =>
    simp only [performWhole, moduleRegister, addModule, whole, appendWhole]
    cases hhead : k.headNode with
    | none => rfl
    | some head =>
      cases hlast : lastCell (k.nodes.insert node ⟨m, none⟩)
          (k.nodes.insert node ⟨m, none⟩).keys.length none (some head) with
      | none =>
        simp only [hlast]
        rfl
      | some last =>
        simp only [hlast]
        cases last with
        | none => rfl
        | some prev =>
          simp only [Option.map_map]
          rfl
  | looked t q r =>
    have hfound : foundModule k q = walkWhole (passes k) q k.nodes k.headNode := by
      cases q <;> rfl
    simp only [performWhole, whole, hfound]
    split <;> rfl

omit [DecidableEq T] in
theorem replay_performWhole (k : Kernel) (s : Store Addr Addr × Option Addr)
    (ds : List (Done T Sought Addr Addr)) :
    replay performWhole (withChain k s) ds =
      (replay (whole (passes k)) s ds).map (withChain k) := by
  induction ds generalizing s with
  | nil => rfl
  | cons d ds ih =>
    have hpasses : passes (withChain k s) = passes k := rfl
    rw [replay, replay, performWhole_eq, hpasses, Option.map_bind, Option.bind_map]
    apply Option.bind_congr
    intro s' _
    exact ih s'

theorem passes_isSome {k : Kernel} (q : Sought) (m : Addr) (hm : IsLoaded k m) :
    (passes k q m).isSome := by
  cases q with
  | type type =>
    obtain ⟨r, hr⟩ := Option.isSome_iff_exists.mp hm
    rw [passes, hasType_eq hr]
    rfl
  | pointer => rfl

/-- Every run of statements of walks and of registrations, one registration at a time, comes
to the completed calls as a whole, in the order of the statements that completed them: each
walk returns what the registry holds then, no registration is lost, and nobody faults. -/
theorem registrations_linearise {k : Kernel} {ms : List Addr} (h : Listed k ms)
    {es : List (ConcurrentChain.Event T Sought Addr Addr)} {c : Config T Sought Addr Addr}
    (hr : Run (StatementStep k) (begin k.nodes k.headNode) es c) :
    (∃ k', replay performWhole k c.done = some k' ∧ Listed k' (ms ++ added c.done) ∧
      (c.append = .idle → (c.cells, c.head) = (k'.nodes, k'.headNode))) ∧
    (∀ t, c.walk t ≠ .idle → ∃ c', Step (passes k) c (.walk t) c') ∧
    (c.append.placed = true → ∃ c', Step (passes k) c .append c') := by
  obtain ⟨⟨l, hchain, hnodup, rfl⟩, hloaded⟩ := h
  have hvalues : ∀ m ∈ l.map Prod.snd, IsLoaded k m := by
    intro m hm
    exact Option.isSome_iff_exists.mpr (hloaded m hm)
  obtain ⟨st, l', hlinear⟩ := run_linear passes_isSome hchain hnodup hvalues hr
  refine ⟨⟨withChain k (st, c.head), ?_, ?_, ?_⟩, hlinear.goes_on passes_isSome⟩
  · have hreplay := replay_performWhole k (k.nodes, k.headNode) c.done
    rw [hlinear.done] at hreplay
    exact hreplay
  · rw [← hlinear.order]
    refine ⟨⟨l', hlinear.chain, hlinear.nodup, rfl⟩, fun m hm => ?_⟩
    exact Option.isSome_iff_exists.mp (hlinear.values m hm)
  · intro hidle
    have happend := hlinear.append
    rw [hidle] at happend
    exact congrArg (·, c.head) happend

end

def twoLoaded : Kernel :=
  { boot [] with
    mods := (AList.singleton 20 ⟨200, protectModule, 60⟩).insert 10 ⟨100, traceModule, 50⟩ }

theorem twoLoaded_listed : Listed twoLoaded [] := ⟨⟨[], rfl, by simp, rfl⟩, by simp⟩

def overlapped : List (ConcurrentChain.Event Bool Sought Addr Addr) :=
  [.add 10, .malloc 1 ⟨0, some 99⟩, .append, .append, .append, .start true (.type protectModule),
    .add 20, .malloc 2 ⟨0, some 98⟩, .walk true, .append, .append, .append, .append,
    .start false (.pointer 20), .walk false, .append, .walk true, .walk true, .walk false,
    .walk false]

theorem registrations_linearise_overlapped :
    ∃ (c : Config Bool Sought Addr Addr) (k' : Kernel),
      c.done = [.added 1 10, .added 2 20, .looked true (.type protectModule) (some 20),
        .looked false (.pointer 20) (some 20)] ∧
      replay performWhole twoLoaded c.done = some k' ∧ Listed k' [10, 20] := by
  have h : (replay (guardedNext (Adds (IsLoaded twoLoaded)) (next (passes twoLoaded)))
      (begin twoLoaded.nodes twoLoaded.headNode) overlapped).any (fun c =>
        c.done = [.added 1 10, .added 2 20, .looked true (.type protectModule) (some 20),
          .looked false (.pointer 20) (some 20)]) = true := by decide
  obtain ⟨c, hr, hdone⟩ := replay_reaches (guardedNext_sound fun _ _ _ hs => hs) h
  have hdone := of_decide_eq_true hdone
  obtain ⟨⟨k', hk, hlisted, -⟩, -⟩ := registrations_linearise twoLoaded_listed hr
  refine ⟨c, k', hdone, hk, ?_⟩
  rw [hdone] at hlisted
  exact hlisted

end ConcurrentRegistry
