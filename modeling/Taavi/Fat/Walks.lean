import Taavi.Fat.Tree

/-!
# Walks along a chain

Loops through the clusters of a directory or a file. A pass goes on with what `__fat32_next_cluster`
gives, which is no cluster when the heap fails.
-/

namespace Taavi.Fat

open Lib

variable {m : Mount} {g : Geometry} {s t : State} {v : Volume} {live : List ℕ} {c d : ℕ}
  {k : List ℕ} {α β : Type}

theorem ends_walk {body : ℕ → Action (ℕ ⊕ α)} {post : α → State → Prop}
    (P : ℕ → List ℕ → State → Prop) (Q : State → Prop)
    (hstep : ∀ c k s, P c k s → Ends (body c) s fun r t =>
      (r = .inl 0 ∧ Q t) ∨ (∃ d k', r = .inl d ∧ k = c :: k' ∧ P d k' t) ∨
        ∃ a, r = .inr a ∧ post a t)
    (hzero : ∀ s, Q s → Ends (body 0) s fun r t => ∃ a, r = .inr a ∧ post a t)
    {fuel : ℕ} (hP : P c k s) (hfuel : k.length + 1 < fuel) :
    Ends (iterate body fuel c) s post := by
  let inv : ℕ → ℕ → State → Prop := fun n c s =>
    (∃ k, n = k.length + 1 ∧ P c k s) ∨ (n = 0 ∧ c = 0 ∧ Q s)
  have hinv : inv (k.length + 1) c s := .inl ⟨k, rfl, hP⟩
  refine ends_iterate inv ?_ hinv hfuel
  rintro n c s (⟨k, rfl, hP⟩ | ⟨rfl, rfl, hQ⟩)
  · refine (hstep c k s hP).imp ?_
    rintro r t (⟨rfl, hQ⟩ | ⟨d, k', rfl, rfl, hP'⟩ | hend)
    · exact .inl ⟨0, 0, rfl, by omega, .inr ⟨rfl, rfl, hQ⟩⟩
    · exact .inl ⟨d, k'.length + 1, rfl, by simp, .inl ⟨k', rfl, hP'⟩⟩
    · exact .inr hend
  · exact (hzero s hQ).imp fun r t hend => .inr hend

theorem Effect.ends_next (hm : Ready m) {p : Action (ℕ ⊕ β)} {post : ℕ ⊕ β → State → Prop}
    (ht : Effect m s t v live) (hk : Chain v.cells c k)
    (hlast : v.cells c = .last → ∀ u, Effect m s u v live → Ends p u post)
    (hnext : ∀ d k', k = c :: k' → Chain v.cells d k' → ∀ u, Effect m s u v live → post (.inl d) u)
    (hfail : HeapFails m → ∀ u, Effect m s u v live → post (.inl 0) u) :
    Ends (do
      let next ← nextCluster m c
      if clusterEocMin ≤ next then p else pure (.inl next)) t post := by
  cases hk with
  | last hcell =>
    have hcell' := hcell
    rw [← ht.volume] at hcell'
    refine (nextCluster_of_last hm hcell').bind ?_
    rw [ht.volume, ht.live]
    rintro r u ⟨hr | ⟨rfl, hfails⟩, hu⟩
    · rw [if_pos hr]
      exact hlast hcell u (ht.trans hu)
    · rw [if_neg (by decide)]
      exact ends_pure (hfail hfails u (ht.trans hu))
  | @cons _ d k hcell hrest =>
    have hcell' := hcell
    rw [← ht.volume] at hcell'
    have hd : InRange m d := ht.inRange hrest.used
    refine (nextCluster_of_next hm hcell').bind ?_
    rw [ht.volume, ht.live]
    rintro r u ⟨rfl | ⟨rfl, hfails⟩, hu⟩
    · rw [if_neg (hm.sane.lt_eocMin hd)]
      exact ends_pure (hnext r k rfl hrest u (ht.trans hu))
    · rw [if_neg (by decide)]
      exact ends_pure (hfail hfails u (ht.trans hu))

def findSlot (g : Geometry) (v : Volume) (p : Entry → Bool) : List ℕ → Option (ℕ × ℕ)
  | [] => none
  | c :: k =>
    match firstSlot (calculateMaxDirEntries g) fun i => p (slot v c i) with
    | some i => some (c, i)
    | none => findSlot g v p k

theorem findSlot_eq_some {p : Entry → Bool} {i : ℕ} (h : findSlot g v p k = some (c, i)) :
    c ∈ k ∧ i < calculateMaxDirEntries g ∧ p (slot v c i) = true := by
  induction k with
  | nil => cases h
  | cons e k ih =>
    unfold findSlot at h
    cases hfst : firstSlot (calculateMaxDirEntries g) fun i => p (slot v e i) with
    | some j =>
      rw [hfst] at h
      cases h
      obtain ⟨hi, hp, -⟩ := firstSlot_eq_some.mp hfst
      exact ⟨List.mem_cons_self, hi, hp⟩
    | none =>
      rw [hfst] at h
      obtain ⟨hc, hrest⟩ := ih h
      exact ⟨List.mem_cons_of_mem _ hc, hrest⟩

theorem findSlot_congr {v' : Volume} {p : Entry → Bool} (h : ∀ e ∈ k, v'.data e = v.data e) :
    findSlot g v' p k = findSlot g v p k := by
  induction k with
  | nil => rfl
  | cons c k ih =>
    have hslots : (fun i => p (slot v' c i)) = fun i => p (slot v c i) := by
      funext i
      rw [slot, h c List.mem_cons_self, slot]
    rw [findSlot, findSlot, hslots, ih fun e he => h e (List.mem_cons_of_mem _ he)]

end Taavi.Fat
