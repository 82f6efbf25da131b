import Mathlib.Data.List.Nodup

/-!
# What a component holds

A component keeps each frame it took in one slot. If these are exactly the frames that came into use
since it started, giving them back one by one leaves in use what was in use before.
-/

namespace Lib

variable {σ φ : Type*} {held held' : σ → Option φ} {before now now' : φ → Bool} {a : σ} {f : φ}

/-- The frames in the slots are those that came into use, each in one slot. -/
structure Holdings (held : σ → Option φ) (before now : φ → Bool) : Prop where
  /-- No frame is in two slots. -/
  unique : ∀ ⦃a b f⦄, held a = some f → held b = some f → a = b
  /-- The frames in the slots are those that came into use. -/
  mem_iff : ∀ f, (∃ a, held a = some f) ↔ before f = false ∧ now f = true
  /-- No other frame was given back. -/
  kept : ∀ f, before f = true → now f = true

namespace Holdings

theorem empty (hheld : ∀ a, held a = none) : Holdings held before before := by
  refine ⟨fun a b f ha => ?_, fun f => ⟨?_, ?_⟩, fun f => id⟩
  · rw [hheld] at ha
    cases ha
  · rintro ⟨a, ha⟩
    rw [hheld] at ha
    cases ha
  · rintro ⟨hfree, hused⟩
    rw [hfree] at hused
    cases hused

variable (h : Holdings held before now)
include h

theorem used (ha : held a = some f) : now f = true :=
  ((h.mem_iff f).mp ⟨a, ha⟩).2

theorem not_before (ha : held a = some f) : before f = false :=
  ((h.mem_iff f).mp ⟨a, ha⟩).1

theorem ne_of_free (hfree : now f = false) (a : σ) : held a ≠ some f := by
  intro ha
  rw [h.used ha] at hfree
  cases hfree

theorem add (hfree : now f = false) (hslot : held a = none)
    (hsame : held' a = some f) (hother : ∀ b, b ≠ a → held' b = held b)
    (hused : now' f = true) (hnow : ∀ g, g ≠ f → now' g = now g) : Holdings held' before now' := by
  have hnew : before f = false := by
    cases hpre : before f with
    | false => rfl
    | true => exact absurd (h.kept f hpre) (by simp [hfree])
  have hof : ∀ b g, held' b = some g → b = a ∧ g = f ∨ b ≠ a ∧ g ≠ f ∧ held b = some g := by
    intro b g hb
    by_cases hba : b = a
    · subst hba
      exact .inl ⟨rfl, Option.some.inj (hb.symm.trans hsame)⟩
    · rw [hother b hba] at hb
      refine .inr ⟨hba, ?_, hb⟩
      rintro rfl
      exact h.ne_of_free hfree b hb
  refine ⟨fun b c g hb hc => ?_, fun g => ?_, fun g hg => ?_⟩
  · rcases hof b g hb with ⟨rfl, rfl⟩ | ⟨-, hgf, hb⟩
    · rcases hof c g hc with ⟨rfl, -⟩ | ⟨-, hne, -⟩
      · rfl
      · exact absurd rfl hne
    · rcases hof c g hc with ⟨-, heq⟩ | ⟨-, -, hc⟩
      · exact absurd heq hgf
      · exact h.unique hb hc
  · by_cases hgf : g = f
    · subst hgf
      exact ⟨fun _ => ⟨hnew, hused⟩, fun _ => ⟨a, hsame⟩⟩
    · rw [hnow g hgf, ← h.mem_iff g]
      constructor
      · rintro ⟨b, hb⟩
        rcases hof b g hb with ⟨-, heq⟩ | ⟨-, -, hb⟩
        · exact absurd heq hgf
        · exact ⟨b, hb⟩
      · rintro ⟨b, hb⟩
        have hba : b ≠ a := by
          rintro rfl
          rw [hslot] at hb
          cases hb
        exact ⟨b, (hother b hba).trans hb⟩
  · have hgf : g ≠ f := by
      rintro rfl
      rw [hnew] at hg
      cases hg
    rw [hnow g hgf]
    exact h.kept g hg

variable {slots : List σ}

theorem nodup_filterMap (hslots : slots.Nodup) :
    (slots.filterMap held).Nodup :=
  hslots.filterMap fun _ _ _ ha hb => h.unique ha hb

theorem mem_filterMap (hall : ∀ a f, held a = some f → a ∈ slots) :
    f ∈ slots.filterMap held ↔ before f = false ∧ now f = true := by
  rw [List.mem_filterMap, ← h.mem_iff f]
  exact ⟨fun ⟨a, _, ha⟩ => ⟨a, ha⟩, fun ⟨a, ha⟩ => ⟨a, hall a f ha, ha⟩⟩

/-- What is in use when the frames in all slots were given back is what was in use before. -/
theorem giveBack (hall : ∀ a f, held a = some f → a ∈ slots)
    (hnow : ∀ f, now' f = true ↔ f ∉ slots.filterMap held ∧ now f = true) (f : φ) :
    now' f = before f := by
  have hmem := h.mem_filterMap (f := f) hall
  rw [Bool.eq_iff_iff, hnow f, hmem]
  constructor
  · rintro ⟨hnot, hused⟩
    by_contra hpre
    exact hnot ⟨by simpa using hpre, hused⟩
  · intro hpre
    exact ⟨fun hfree => by simp [hpre] at hfree, h.kept f hpre⟩

end Holdings

end Lib
