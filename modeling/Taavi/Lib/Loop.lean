import Mathlib.Tactic.Ring

/-!
# Bounded execution of loops

The body of a loop continues with a new state or leaves with a result. A loop is run with a bound on
its passes, and `Exits` counts the passes before it leaves.
-/

namespace Lib

variable {σ β : Type*}

/-- Run a loop body for at most `fuel` passes. -/
def loop (body : σ → σ ⊕ β) : ℕ → σ → Option β
  | 0, _ => none
  | fuel + 1, s =>
    match body s with
    | .inl t => loop body fuel t
    | .inr b => some b

/-- The loop continues for the given number of passes, and leaves with the result in the next one. -/
inductive Exits (body : σ → σ ⊕ β) : σ → ℕ → β → Prop
  | leave {s : σ} {b : β} : body s = .inr b → Exits body s 0 b
  | next {s t : σ} {k : ℕ} {b : β} : body s = .inl t → Exits body t k b →
      Exits body s (k + 1) b

theorem Exits.loop_eq {body : σ → σ ⊕ β} {s : σ} {k fuel : ℕ} {b : β}
    (h : Exits body s k b) (hfuel : k < fuel) : loop body fuel s = some b := by
  induction h generalizing fuel with
  | leave hbody =>
    obtain ⟨fuel, rfl⟩ : ∃ n, fuel = n + 1 := ⟨fuel - 1, by omega⟩
    simp only [loop, hbody]
  | next hbody _ ih =>
    obtain ⟨fuel, rfl⟩ : ∃ n, fuel = n + 1 := ⟨fuel - 1, by omega⟩
    simp only [loop, hbody]
    exact ih (by omega)

end Lib
