import Mathlib.Logic.Basic
import Mathlib.Data.List.Basic

/-!
# Runs of labelled step relations

The rules by which facts about one step become facts about whole runs: the invariant rule, its
guarded form, and the agreement of a step relation with a step function.
-/

namespace Lib

variable {State Label : Type*}

/-- A finite run of a labelled step relation, with its labels in order. -/
inductive Run (step : State → Label → State → Prop) : State → List Label → State → Prop
  | nil (s : State) : Run step s [] s
  | cons {s t u : State} {a : Label} {as : List Label} :
      step s a t → Run step t as u → Run step s (a :: as) u

/-- The steps of a relation that are taken in a state where their condition holds. -/
def Guarded (ok : State → Label → Prop) (step : State → Label → State → Prop)
    (s : State) (a : Label) (t : State) : Prop :=
  ok s a ∧ step s a t

variable {step : State → Label → State → Prop}

/-- A property preserved by every step holds at the end of every run that
starts with it. -/
theorem Run.invariant {Inv : State → Prop} (hstep : ∀ s a t, Inv s → step s a t → Inv t)
    {s t : State} {as : List Label} (hrun : Run step s as t) (hs : Inv s) : Inv t := by
  induction hrun with
  | nil => exact hs
  | cons hfst _ ih => exact ih (hstep _ _ _ hs hfst)

/-- What each step keeps of a state and the steps before it holds at the end of a run. -/
theorem Run.trace {Inv : List Label → State → Prop}
    (hkeep : ∀ done s a t, Inv done s → step s a t → Inv (done ++ [a]) t) {s t : State}
    {done as : List Label} (hrun : Run step s as t) (hs : Inv done s) : Inv (done ++ as) t := by
  induction hrun generalizing done with
  | nil _ => rwa [List.append_nil]
  | @cons s u t a as hstep _ ih =>
    have hnext := ih (hkeep done s a u hs hstep)
    rwa [List.append_assoc, List.singleton_append] at hnext

theorem Run.append {s t u : State} {as bs : List Label} (hfst : Run step s as t)
    (hsnd : Run step t bs u) : Run step s (as ++ bs) u := by
  induction hfst with
  | nil => exact hsnd
  | cons hstep _ ih => exact Run.cons hstep (ih hsnd)

/-- A property that every step keeps or ends by another holds at the end of a run or was ended. -/
theorem Run.keeps_until {P Q : State → Prop} (hstep : ∀ s a t, P s → step s a t → P t ∨ Q t)
    {s t : State} {as : List Label} (hrun : Run step s as t) (hs : P s) :
    P t ∨ ∃ as₁ as₂ u, as = as₁ ++ as₂ ∧ Run step s as₁ u ∧ Q u := by
  induction hrun with
  | nil => exact .inl hs
  | cons hfst _ ih =>
    rcases hstep _ _ _ hs hfst with hkept | hended
    · rcases ih hkept with hlast | ⟨as₁, as₂, u, rfl, hprefix, hu⟩
      · exact .inl hlast
      · exact .inr ⟨_ :: as₁, as₂, u, rfl, Run.cons hfst hprefix, hu⟩
    · exact .inr ⟨[_], _, _, rfl, Run.cons hfst (Run.nil _), hended⟩

theorem Run.mono {step' : State → Label → State → Prop}
    (hstep : ∀ s a t, step s a t → step' s a t) {s t : State} {as : List Label}
    (hrun : Run step s as t) : Run step' s as t := by
  induction hrun with
  | nil s => exact Run.nil s
  | cons hfst _ ih => exact Run.cons (hstep _ _ _ hfst) ih

theorem Run.guarded {s t : State} {as : List Label} (hrun : Run step s as t) :
    Run (Guarded (fun _ _ => True) step) s as t :=
  hrun.mono fun _ _ _ hstep => ⟨trivial, hstep⟩

/-- Execute a list of labels with a step function that may refuse a label. -/
def exec (step : State → Label → Option State) : State → List Label → Option State
  | s, [] => some s
  | s, a :: as => (step s a).bind fun t => exec step t as

variable {step : State → Label → Option State} {s t : State} {as : List Label}

theorem run_iff_exec :
    Run (fun s a t => step s a = some t) s as t ↔ exec step s as = some t := by
  constructor
  · intro hrun
    induction hrun with
    | nil => rfl
    | cons hfst _ ih => simpa [exec, hfst] using ih
  · intro hexec
    induction as generalizing s with
    | nil =>
      obtain rfl : s = t := by simpa [exec] using hexec
      exact Run.nil s
    | cons a as ih =>
      obtain ⟨u, hfst, hrest⟩ := Option.bind_eq_some_iff.mp hexec
      exact Run.cons hfst (ih hrest)

theorem exists_run_of_exec {p : State → Bool} (h : (exec step s as).any p = true) :
    ∃ t, Run (fun s a t => step s a = some t) s as t ∧ p t = true := by
  cases hexec : exec step s as with
  | none => simp [hexec] at h
  | some t => exact ⟨t, run_iff_exec.mpr hexec, by simpa [hexec] using h⟩

/-- A step function that refuses the labels that do not meet a condition. -/
def guardStep (ok : State → Label → Bool) (step : State → Label → Option State) (s : State)
    (a : Label) : Option State :=
  if ok s a then step s a else none

theorem exists_guarded_run_of_exec {ok : State → Label → Bool} {p : State → Bool}
    (h : (exec (guardStep ok step) s as).any p = true) :
    ∃ t, Run (Guarded (fun s a => ok s a = true) fun s a t => step s a = some t) s as t ∧
      p t = true := by
  obtain ⟨t, hrun, hp⟩ := exists_run_of_exec h
  refine ⟨t, hrun.mono fun s a t hstep => ?_, hp⟩
  unfold guardStep at hstep
  split at hstep
  · rename_i hok
    exact ⟨hok, hstep⟩
  · cases hstep

end Lib
