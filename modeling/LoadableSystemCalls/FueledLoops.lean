import Mathlib.Order.Basic
import Mathlib.Data.Nat.Init

/-! # Loops run on fuel

A loop is a function of its fuel; what it does is what it settles on. -/
namespace FueledLoops

/-- Why a run ends without a result: an access outside a buffer, or no fuel left. -/
inductive Halt where
  | oops
  | hang
  deriving DecidableEq, Repr

universe u v
variable {α β : Type u} {ε : Type v}

/-- From some fuel on the result is always the same. -/
def Settles (f : ℕ → α) (r : α) : Prop := ∃ n, ∀ m, n ≤ m → f m = r

theorem Settles.const (r : α) : Settles (fun _ => r) r := ⟨0, fun _ _ => rfl⟩

theorem Settles.unique {f : ℕ → α} {r r' : α} (h : Settles f r) (h' : Settles f r') :
    r = r' := by
  rcases h with ⟨n, hn⟩
  rcases h' with ⟨n', hn'⟩
  rw [← hn (max n n') (Nat.le_max_left n n'), hn' (max n n') (Nat.le_max_right n n')]

theorem Settles.congr {f g : ℕ → α} {r : α} (h : Settles g r) (hf : ∀ m, f m = g m) :
    Settles f r := by
  rcases h with ⟨n, hn⟩
  exact ⟨n, fun m hm => (hf m).trans (hn m hm)⟩

theorem Settles.round {f g : ℕ → α} {r : α} (h : Settles g r) (hf : ∀ m, f (m + 1) = g m) :
    Settles f r := by
  rcases h with ⟨n, hn⟩
  refine ⟨n + 1, fun m hm => ?_⟩
  obtain ⟨m, rfl⟩ : ∃ k, m = k + 1 := ⟨m - 1, by omega⟩
  rw [hf, hn m (by omega)]

theorem Settles.behind {f g : ℕ → α} {r : α} (h : Settles f r) (hf : ∀ m, f (m + 1) = g m) :
    Settles g r := by
  rcases h with ⟨n, hn⟩
  refine ⟨n, fun m hm => ?_⟩
  rw [← hf]
  exact hn (m + 1) (Nat.le_succ_of_le hm)

theorem Settles.bind {f : ℕ → Except ε α} {g : α → ℕ → Except ε β} {a : α} {r : Except ε β}
    (h : Settles f (.ok a)) (hg : Settles (g a) r) :
    Settles (fun m => f m >>= fun x => g x m) r := by
  rcases h with ⟨n, hn⟩
  rcases hg with ⟨n', hn'⟩
  refine ⟨n + n', fun m hm => ?_⟩
  change (f m >>= fun x => g x m) = r
  rw [hn m (by omega)]
  exact hn' m (by omega)

end FueledLoops
