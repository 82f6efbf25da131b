import Mathlib.Tactic.Ring
import Mathlib.Data.Option.Basic

/-!
# Programs on a state

A program reads and changes a state and gives a result, or none when it does not return. `Ends`: it
returns, and what then holds, with a rule for each way of putting programs together. `Returns`: what
holds if it returns. `Grows`: more fuel gives the same.
-/

namespace Lib

/-- A program with results of type `α` on states of type `σ`. -/
abbrev Program (σ α : Type) := StateT σ Option α

/-- Repeat a body that goes on with a value or leaves with a result, for at most `fuel` passes. -/
def iterate {σ α β : Type} (body : β → Program σ (β ⊕ α)) : ℕ → β → Program σ α
  | 0, _ => fun _ => none
  | fuel + 1, b => body b >>= fun r =>
    match r with
    | .inl next => iterate body fuel next
    | .inr a => pure a

variable {σ α β : Type} {p q : Program σ α} {f : α → Program σ β} {s t : σ} {a : α}

/-- The program returns from the state, with a result and a state for which `post` holds. -/
def Ends (p : Program σ α) (s : σ) (post : α → σ → Prop) : Prop :=
  ∃ a t, p s = some (a, t) ∧ post a t

section

variable {post post' : α → σ → Prop} {final : β → σ → Prop}

theorem ends_pure (h : post a s) : Ends (pure a) s post := ⟨a, s, rfl, h⟩

theorem Ends.imp (h : Ends p s post) (himp : ∀ a t, post a t → post' a t) : Ends p s post' := by
  obtain ⟨a, t, hrun, ha⟩ := h
  exact ⟨a, t, hrun, himp a t ha⟩

theorem run_bind (h : p s = some (a, t)) : (p >>= f) s = f a t := by
  show (p s).bind (fun r => f r.1 r.2) = f a t
  rw [h]
  rfl

theorem Ends.of_run_eq (hrun : p s = q t) (hq : Ends q t post) : Ends p s post := by
  obtain ⟨a, u, hu, ha⟩ := hq
  exact ⟨a, u, hrun.trans hu, ha⟩

theorem Ends.bind (h : Ends p s post) (hnext : ∀ a t, post a t → Ends (f a) t final) :
    Ends (p >>= f) s final := by
  obtain ⟨a, t, hrun, ha⟩ := h
  obtain ⟨b, u, hrun', hb⟩ := hnext a t ha
  exact ⟨b, u, (run_bind hrun).trans hrun', hb⟩

theorem Ends.map {h : α → β} (hp : Ends p s post) (himp : ∀ a t, post a t → final (h a) t) :
    Ends (h <$> p) s final := by
  obtain ⟨a, t, hrun, ha⟩ := hp
  refine ⟨h a, t, ?_, himp a t ha⟩
  show (p s).bind (fun r => some (h r.1, r.2)) = some (h a, t)
  rw [hrun]
  rfl

theorem ends_get (s : σ) : Ends get s fun r t => r = s ∧ t = s := ⟨s, s, rfl, rfl, rfl⟩

theorem ends_modify (g : σ → σ) (s : σ) : Ends (modify g) s fun _ t => t = g s :=
  ⟨⟨⟩, g s, rfl, rfl⟩

theorem Ends.of_eq (h : Ends p s post) (hrun : p s = some (a, t)) : post a t := by
  obtain ⟨a', t', hrun', ha⟩ := h
  rw [hrun] at hrun'
  obtain ⟨rfl, rfl⟩ := Prod.mk.inj (Option.some.inj hrun')
  exact ha

/-- A loop returns if its body does and a measure falls with each pass. -/
theorem ends_iterate {body : β → Program σ (β ⊕ α)} (inv : ℕ → β → σ → Prop)
    (hbody : ∀ n b s, inv n b s → Ends (body b) s fun r t =>
      (∃ next k, r = .inl next ∧ k < n ∧ inv k next t) ∨ ∃ a, r = .inr a ∧ post a t)
    {n fuel : ℕ} {b : β} (hinv : inv n b s) (hfuel : n < fuel) :
    Ends (iterate body fuel b) s post := by
  induction fuel generalizing n b s with
  | zero => omega
  | succ fuel ih =>
    refine (hbody n b s hinv).bind ?_
    rintro _ t (⟨next, k, rfl, hk, hnext⟩ | ⟨a, rfl, ha⟩)
    · exact ih hnext (by omega)
    · exact ends_pure ha

end

section

variable {post post' : α → σ → Prop} {final : β → σ → Prop}

/-- If the program returns from the state, `post` holds. -/
def Returns (p : Program σ α) (s : σ) (post : α → σ → Prop) : Prop :=
  ∀ a t, p s = some (a, t) → post a t

theorem Ends.returns (h : Ends p s post) : Returns p s post := fun _ _ hrun => h.of_eq hrun

theorem Ends.and (h : Ends p s post) (h' : Returns p s post') :
    Ends p s fun a t => post a t ∧ post' a t := by
  obtain ⟨a, t, hrun, ha⟩ := h
  exact ⟨a, t, hrun, ha, h' a t hrun⟩

theorem returns_pure (h : post a s) : Returns (pure a) s post := (ends_pure h).returns

theorem Returns.imp (h : Returns p s post) (himp : ∀ a t, post a t → post' a t) :
    Returns p s post' := fun a t hrun => himp a t (h a t hrun)

theorem Returns.bind (h : Returns p s post) (hnext : ∀ a t, post a t → Returns (f a) t final) :
    Returns (p >>= f) s final := by
  intro b u hrun
  obtain ⟨⟨a, t⟩, hfst, hsnd⟩ := Option.bind_eq_some_iff.mp hrun
  exact hnext a t (h a t hfst) b u hsnd

theorem Returns.map {h : α → β} (hp : Returns p s post) (himp : ∀ a t, post a t → final (h a) t) :
    Returns (h <$> p) s final := by
  intro b u hrun
  obtain ⟨⟨a, t⟩, hfst, hsnd⟩ := Option.bind_eq_some_iff.mp hrun
  obtain ⟨rfl, rfl⟩ := Prod.mk.inj (Option.some.inj hsnd)
  exact himp a t (hp a t hfst)

theorem returns_iterate {body : β → Program σ (β ⊕ α)} (inv : β → σ → Prop)
    (hbody : ∀ b s, inv b s → Returns (body b) s fun r t =>
      (∃ next, r = .inl next ∧ inv next t) ∨ ∃ a, r = .inr a ∧ post a t)
    {fuel : ℕ} {b : β} (hinv : inv b s) : Returns (iterate body fuel b) s post := by
  induction fuel generalizing b s with
  | zero =>
    intro a t hrun
    cases hrun
  | succ fuel ih =>
    refine (hbody b s hinv).bind ?_
    rintro _ t (⟨next, rfl, hnext⟩ | ⟨a, rfl, ha⟩)
    · exact ih hnext
    · exact returns_pure ha

end

/-- More fuel gives the same. -/
def Grows (p : ℕ → Program σ α) : Prop :=
  ∀ n m, n ≤ m → ∀ s r, p n s = some r → p m s = some r

theorem grows_const (p : Program σ α) : Grows fun _ => p := fun _ _ _ _ _ h => h

variable {p : ℕ → Program σ α}

theorem Grows.agree (hp : Grows p) {n n' : ℕ} {r r' : α × σ}
    (h : p n s = some r) (h' : p n' s = some r') : r = r' := by
  have hmore := hp n (max n n') (le_max_left ..) s r h
  have hmore' := hp n' (max n n') (le_max_right ..) s r' h'
  exact Option.some.inj (hmore.symm.trans hmore')

theorem Grows.bind {f : ℕ → α → Program σ β} (hp : Grows p)
    (hf : ∀ a, Grows fun n => f n a) : Grows fun n => p n >>= f n := by
  intro n m hnm s r hrun
  obtain ⟨⟨a, t⟩, hfst, hsnd⟩ := Option.bind_eq_some_iff.mp hrun
  show (p m s).bind (fun q => f m q.1 q.2) = some r
  rw [hp n m hnm s (a, t) hfst]
  exact hf a n m hnm t r hsnd

theorem grows_option {p : Program σ (Option α)} {f : ℕ → Option α → Program σ β}
    (hnone : Grows fun n => f n none) (hsome : ∀ a, Grows fun n => f n (some a)) :
    Grows fun n => p >>= f n := by
  refine (grows_const p).bind fun r => ?_
  cases r with
  | none => exact hnone
  | some a => exact hsome a

theorem Grows.map {h : α → β} (hp : Grows p) : Grows fun n => h <$> p n := by
  intro n m hnm s r hrun
  obtain ⟨⟨a, t⟩, hfst, hsnd⟩ := Option.bind_eq_some_iff.mp hrun
  show (p m s).bind (fun q => some (h q.1, q.2)) = some r
  rw [hp n m hnm s (a, t) hfst]
  exact hsnd

theorem grows_iterate (body : β → Program σ (β ⊕ α)) (b : β) : Grows fun n => iterate body n b := by
  intro n
  induction n generalizing b with
  | zero =>
    intro m _ s r hrun
    cases hrun
  | succ n ih =>
    intro m hm s r hrun
    obtain ⟨m, rfl⟩ : ∃ k, m = k + 1 := ⟨m - 1, by omega⟩
    obtain ⟨⟨x, t⟩, hfst, hsnd⟩ := Option.bind_eq_some_iff.mp hrun
    show (body b s).bind _ = some r
    rw [hfst]
    cases x with
    | inl next => exact ih next m (by omega) t r hsnd
    | inr a => exact hsnd

end Lib
