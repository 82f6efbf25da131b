import Mathlib.Data.List.Infix
import Mathlib.Data.List.Perm.Subperm
import Mathlib.Logic.Function.Basic
import Mathlib.Logic.Relation

/-!
# Chains of cells

Each node of a graph is free, the last of its chain, points to another node, or is unusable. The
nodes in use of a sound graph form disjoint chains that end. `Grown` says that one graph comes from
another by taking free nodes and extending some ends.
-/

namespace Lib

open List Function

/-- The cell of a node. -/
inductive Cell (α : Type*) where
  /-- The node is not in use. -/
  | free
  /-- The node is the last of its chain. -/
  | last
  /-- The node is followed by another one. -/
  | next (a : α)
  /-- The node is in no chain. -/
  | broken
  deriving DecidableEq, Repr

variable {α : Type*} {g g' g'' : α → Cell α} {a b c x y : α} {l k : List α}

/-- The node is in a chain. -/
def Used (g : α → Cell α) (a : α) : Prop := g a = .last ∨ ∃ b, g a = .next b

theorem Used.not_free (h : Used g a) : g a ≠ .free := by
  rcases h with hlast | ⟨b, hb⟩ <;> simp [*]

theorem Used.ne (h : Used g a) (hfree : g b = .free) : a ≠ b := by
  rintro rfl
  exact h.not_free hfree

/-- The nodes from `a` to the end of its chain. -/
inductive Chain (g : α → Cell α) : α → List α → Prop
  | last {a : α} : g a = .last → Chain g a [a]
  | cons {a b : α} {l : List α} : g a = .next b → Chain g b l → Chain g a (a :: l)

/-- A node in use that no node points to. -/
structure Head (g : α → Cell α) (a : α) : Prop where
  used : Used g a
  /-- No node points to it. -/
  first : ∀ b, g b ≠ .next a

/-- Every node in use is on a chain that ends, and no two nodes point to the same one. -/
structure Sound (g : α → Cell α) : Prop where
  /-- A chain goes on from each node in use. -/
  ends : ∀ a, Used g a → ∃ l, Chain g a l
  /-- A node has one predecessor at most. -/
  injective : ∀ a b c, g a = .next c → g b = .next c → a = b

section

variable (h : Chain g a l)

include h

theorem Chain.used_of_mem (hx : x ∈ l) : Used g x := by
  induction h with
  | last hlast =>
    rw [mem_singleton] at hx
    exact .inl (hx ▸ hlast)
  | cons hto _ ih =>
    rcases mem_cons.mp hx with rfl | hx
    · exact .inr ⟨_, hto⟩
    · exact ih hx

theorem Chain.self_mem : a ∈ l := by cases h <;> simp

theorem Chain.exists_cons : ∃ k, l = a :: k := by
  cases h with
  | last _ => exact ⟨[], rfl⟩
  | cons _ _ => exact ⟨_, rfl⟩

theorem Chain.used : Used g a := h.used_of_mem h.self_mem

theorem Chain.unique (h' : Chain g a k) : l = k := by
  induction h generalizing k with
  | last hlast =>
    cases h' with
    | last _ => rfl
    | cons hto _ => simp [hlast] at hto
  | cons hto _ ih =>
    cases h' with
    | last hlast => simp [hlast] at hto
    | cons hto' hrest =>
      rw [hto] at hto'
      cases hto'
      rw [ih hrest]

theorem Chain.of_mem (hx : x ∈ l) : ∃ k, Chain g x k ∧ k <:+ l := by
  induction h with
  | last hlast =>
    rw [mem_singleton] at hx
    subst hx
    exact ⟨_, .last hlast, suffix_refl _⟩
  | @cons a b l hto hrest ih =>
    rcases mem_cons.mp hx with rfl | hx
    · exact ⟨_, .cons hto hrest, suffix_refl _⟩
    · obtain ⟨k, hk, hsuffix⟩ := ih hx
      exact ⟨k, hk, hsuffix.trans (suffix_cons a l)⟩

theorem Chain.nodup : l.Nodup := by
  induction h with
  | last _ => simp
  | @cons a b l hto hrest ih =>
    refine nodup_cons.mpr ⟨?_, ih⟩
    intro hmem
    -- the chain from `a` would be a suffix of what follows `a`
    obtain ⟨k, hk, hsuffix⟩ := hrest.of_mem hmem
    have hlen := hsuffix.length_le
    rw [hk.unique (.cons hto hrest), length_cons] at hlen
    omega

theorem Chain.next_mem (hx : x ∈ l) (hto : g x = .next y) : y ∈ l := by
  obtain ⟨k, hk, hsuffix⟩ := h.of_mem hx
  cases hk with
  | last hlast => simp [hlast] at hto
  | cons hto' hrest =>
    rw [hto] at hto'
    cases hto'
    exact hsuffix.subset (mem_cons_of_mem _ hrest.self_mem)

theorem Chain.exists_prev (hx : x ∈ l) (hne : x ≠ a) : ∃ y ∈ l, g y = .next x := by
  induction h with
  | last _ => exact absurd (mem_singleton.mp hx) hne
  | @cons a b l hto hrest ih =>
    have hx' : x ∈ l := (mem_cons.mp hx).resolve_left hne
    by_cases hb : x = b
    · exact ⟨a, mem_cons_self, hb ▸ hto⟩
    · obtain ⟨y, hy, hyto⟩ := ih hx' hb
      exact ⟨y, mem_cons_of_mem _ hy, hyto⟩

theorem Chain.getElem?_next {j : ℕ} (hj : l[j]? = some x) (hto : g x = .next y) :
    l[j + 1]? = some y := by
  induction h generalizing j with
  | @last a hlast =>
    cases j with
    | zero =>
      obtain rfl : a = x := by simpa using hj
      simp [hlast] at hto
    | succ j => cases hj
  | @cons a b l hab hrest ih =>
    cases j with
    | zero =>
      obtain rfl : a = x := by simpa using hj
      obtain rfl : b = y := Cell.next.inj (hab.symm.trans hto)
      obtain ⟨k, rfl⟩ := hrest.exists_cons
      rfl
    | succ j => exact ih hj

theorem Chain.length_eq_of_last {j : ℕ} (hj : l[j]? = some x)
    (hlast : g x = .last) : l.length = j + 1 := by
  induction h generalizing j with
  | @last a _ =>
    cases j with
    | zero => rfl
    | succ j => cases hj
  | @cons a b l hab hrest ih =>
    cases j with
    | zero =>
      obtain rfl : a = x := by simpa using hj
      simp [hlast] at hab
    | succ j => rw [length_cons, ih hj]

theorem Chain.congr (hcells : ∀ x ∈ l, g' x = g x) : Chain g' a l := by
  induction h with
  | last hlast => exact .last (by rw [hcells _ (mem_singleton.mpr rfl), hlast])
  | cons hto _ ih =>
    refine .cons (by rw [hcells _ mem_cons_self, hto]) (ih ?_)
    exact fun x hx => hcells x (mem_cons_of_mem _ hx)

end

theorem Sound.used_next (h : Sound g) (hto : g a = .next b) : Used g b := by
  obtain ⟨l, hl⟩ := h.ends a (.inr ⟨b, hto⟩)
  exact hl.used_of_mem (hl.next_mem hl.self_mem hto)

theorem Sound.not_to_free (h : Sound g) (hfree : g b = .free) : g a ≠ .next b := by
  intro hto
  exact (h.used_next hto).not_free hfree

theorem Sound.acyclic (h : Sound g) (a : α) : ¬ Relation.TransGen (fun x y => g x = .next y) a a := by
  intro hcycle
  obtain ⟨b, hto, hback⟩ := Relation.TransGen.head'_iff.mp hcycle
  obtain ⟨l, hl⟩ := h.ends b (h.used_next hto)
  have hreach : ∀ x, Relation.ReflTransGen (fun x y => g x = .next y) b x → x ∈ l := by
    intro x hx
    induction hx with
    | refl => exact hl.self_mem
    | tail _ hstep ih => exact hl.next_mem ih hstep
  have hnodup := (Chain.cons hto hl).nodup
  exact (nodup_cons.mp hnodup).1 (hreach a hback)

theorem Chain.mem_of_meets (hsound : Sound g) (hb : Head g b) (hk : Chain g b k)
    (hl : Chain g a l) (hx : x ∈ l) (hx' : x ∈ k) : a ∈ k := by
  induction hl with
  | last _ => exact mem_singleton.mp hx ▸ hx'
  | @cons a c l hto hrest ih =>
    rcases mem_cons.mp hx with rfl | hx
    · exact hx'
    · have hc : c ∈ k := ih hx
      have hne : c ≠ b := fun heq => hb.first a (heq ▸ hto)
      obtain ⟨y, hy, hyto⟩ := hk.exists_prev hc hne
      rwa [hsound.injective a y c hto hyto]

theorem Chain.disjoint_of_heads (hsound : Sound g) (ha : Head g a) (hb : Head g b) (hne : a ≠ b)
    (hl : Chain g a l) (hk : Chain g b k) : x ∈ l → x ∉ k := by
  intro hx hx'
  have hmem := Chain.mem_of_meets hsound hb hk hl hx hx'
  obtain ⟨y, _, hy⟩ := hk.exists_prev hmem hne
  exact ha.first y hy

/-- Every node in use is on the chain of a head, if there are finitely many of them. -/
theorem Sound.exists_head (h : Sound g) {nodes : List α} (hnodes : ∀ a, Used g a → a ∈ nodes)
    (ha : Used g a) : ∃ b l, Head g b ∧ Chain g b l ∧ a ∈ l := by
  obtain ⟨l, hl⟩ := h.ends a ha
  have hbound : ∀ {b k}, Chain g b k → k.length ≤ nodes.length := by
    intro b k hk
    exact (subperm_of_subset hk.nodup fun x hx => hnodes x (hk.used_of_mem hx)).length_le
  -- the chain of a predecessor is longer by one
  induction hn : nodes.length - l.length generalizing a l with
  | zero =>
    refine ⟨a, l, ⟨ha, fun b hb => ?_⟩, hl, hl.self_mem⟩
    have hlen := hbound (.cons hb hl)
    rw [length_cons] at hlen
    omega
  | succ n ih =>
    by_cases hfst : ∀ b, g b ≠ .next a
    · exact ⟨a, l, ⟨ha, hfst⟩, hl, hl.self_mem⟩
    · push Not at hfst
      obtain ⟨c, hc⟩ := hfst
      obtain ⟨b, k, hb, hk, hmem⟩ := ih (.inr ⟨a, hc⟩) (c :: l) (.cons hc hl)
        (by rw [length_cons]; omega)
      exact ⟨b, k, hb, hk, hk.next_mem hmem hc⟩

section

variable [DecidableEq α]

theorem Sound.take (h : Sound g) (hfree : g c = .free) : Sound (update g c .last) := by
  have hto : ∀ x y, update g c .last x = .next y → g x = .next y := by
    intro x y hxy
    by_cases hx : x = c
    · simp [hx] at hxy
    · rwa [update_of_ne hx] at hxy
  refine ⟨?_, fun a b d ha hb => h.injective a b d (hto a d ha) (hto b d hb)⟩
  intro a ha
  by_cases hac : a = c
  · exact ⟨[a], .last (by simp [hac])⟩
  · have hused : Used g a := by
      rcases ha with hlast | ⟨b, hb⟩
      · exact .inl (by rwa [update_of_ne hac] at hlast)
      · exact .inr ⟨b, hto a b hb⟩
    obtain ⟨l, hl⟩ := h.ends a hused
    refine ⟨l, hl.congr fun x hx => update_of_ne ?_ _ _⟩
    exact (hl.used_of_mem hx).ne hfree

/-- The chain of a node when its end is linked to a chain that it does not meet. -/
theorem Chain.link {e : α} (hl : Chain g a l) (he : e ∈ l) (hlast : g e = .last) (hk : Chain g c k)
    (hnot : e ∉ k) : Chain (update g e (.next c)) a (l ++ k) := by
  have hk' : Chain (update g e (.next c)) c k :=
    hk.congr fun x hx => update_of_ne (fun hxe : x = e => hnot (hxe ▸ hx)) _ _
  induction hl with
  | @last a _ =>
    obtain rfl : e = a := mem_singleton.mp he
    exact .cons (by simp) hk'
  | @cons a b l hto hrest ih =>
    have hne : a ≠ e := by
      rintro rfl
      simp [hlast] at hto
    have he' : e ∈ l := (mem_cons.mp he).resolve_left fun heq => hne heq.symm
    exact .cons (by rw [update_of_ne hne, hto]) (ih he')

theorem Sound.link {e : α} (h : Sound g) (hlast : g e = .last) (hc : Head g c)
    (hother : ∀ k, Chain g c k → e ∉ k) : Sound (update g e (.next c)) := by
  obtain ⟨k, hk⟩ := h.ends c hc.used
  refine ⟨?_, ?_⟩
  · intro a ha
    have hused : Used g a := by
      by_cases hae : a = e
      · exact .inl (hae ▸ hlast)
      · rw [Used, update_of_ne hae] at ha
        exact ha
    obtain ⟨l, hl⟩ := h.ends a hused
    by_cases he : e ∈ l
    · exact ⟨l ++ k, hl.link he hlast hk (hother k hk)⟩
    · exact ⟨l, hl.congr fun x hx => update_of_ne (fun hxe : x = e => he (hxe ▸ hx)) _ _⟩
  · intro a b d ha hb
    by_cases hae : a = e <;> by_cases hbe : b = e
    · rw [hae, hbe]
    · rw [hae, update_self] at ha
      rw [update_of_ne hbe] at hb
      cases ha
      exact absurd hb (hc.first b)
    · rw [hbe, update_self] at hb
      rw [update_of_ne hae] at ha
      cases hb
      exact absurd ha (hc.first a)
    · rw [update_of_ne hae] at ha
      rw [update_of_ne hbe] at hb
      exact h.injective a b d ha hb

end

/-- `g'` comes from `g` by linking free nodes to ends, of the old ones only to those in `F`. -/
structure Grown (F : α → Prop) (g g' : α → Cell α) : Prop where
  /-- Links stay. -/
  link : ∀ a b, g a = .next b → g' a = .next b
  /-- The other ends stay ends. -/
  last : ∀ a, g a = .last → ¬ F a → g' a = .last
  /-- An end in `F` stays one or is linked to a node that was free. -/
  tail : ∀ a, g a = .last → g' a = .last ∨ ∃ b, g' a = .next b ∧ g b = .free
  /-- Nodes outside the chains stay there. -/
  broken : ∀ a, g a = .broken → g' a = .broken
  /-- A free node stays free, becomes an end, or is linked to a node that was free. -/
  fresh : ∀ a, g a = .free → g' a = .free ∨ g' a = .last ∨ ∃ b, g' a = .next b ∧ g b = .free

variable {F F' : α → Prop}

theorem Grown.refl (F : α → Prop) (g : α → Cell α) : Grown F g g where
  link _ _ h := h
  last _ h _ := h
  tail _ h := .inl h
  broken _ h := h
  fresh _ h := .inl h

section

variable (h : Grown F g g')

include h

theorem Grown.free_of_free (hfree : g' a = .free) : g a = .free := by
  cases hcell : g a with
  | free => rfl
  | last => rcases h.tail a hcell with hlast | ⟨b, hb, _⟩ <;> simp_all
  | next b => simp [h.link a b hcell] at hfree
  | broken => simp [h.broken a hcell] at hfree

/-- Growth goes on where it may extend old ends in `F` and those of nodes that were free. -/
theorem Grown.trans (h' : Grown F' g' g'')
    (hF : ∀ a, F' a → F a ∨ g a = .free) : Grown F g g'' where
  link a b hto := h'.link a b (h.link a b hto)
  last a hlast hnot := by
    refine h'.last a (h.last a hlast hnot) fun ha => ?_
    rcases hF a ha with ha | hfree
    · exact hnot ha
    · simp [hlast] at hfree
  tail a hlast := by
    rcases h.tail a hlast with hlast' | ⟨b, hb, hfree⟩
    · rcases h'.tail a hlast' with hlast'' | ⟨b, hb, hfree⟩
      · exact .inl hlast''
      · exact .inr ⟨b, hb, h.free_of_free hfree⟩
    · exact .inr ⟨b, h'.link a b hb, hfree⟩
  broken a hbroken := h'.broken a (h.broken a hbroken)
  fresh a hfree := by
    rcases h.fresh a hfree with hfree' | hlast | ⟨b, hb, hbfree⟩
    · rcases h'.fresh a hfree' with hsame | hlast | ⟨b, hb, hbfree⟩
      · exact .inl hsame
      · exact .inr (.inl hlast)
      · exact .inr (.inr ⟨b, hb, h.free_of_free hbfree⟩)
    · rcases h'.tail a hlast with hlast' | ⟨b, hb, hbfree⟩
      · exact .inr (.inl hlast')
      · exact .inr (.inr ⟨b, hb, h.free_of_free hbfree⟩)
    · exact .inr (.inr ⟨b, h'.link a b hb, hbfree⟩)

theorem Grown.mono (hF : ∀ a, F a → F' a) : Grown F' g g' :=
  { h with last := fun a hlast hnot => h.last a hlast fun ha => hnot (hF a ha) }

theorem Grown.used (ha : Used g a) : Used g' a := by
  rcases ha with hlast | ⟨b, hb⟩
  · rcases h.tail a hlast with hlast' | ⟨b, hb, _⟩
    · exact .inl hlast'
    · exact .inr ⟨b, hb⟩
  · exact .inr ⟨b, h.link a b hb⟩

theorem Grown.to_of_used (hb : Used g b) (hto : g' a = .next b) : g a = .next b := by
  have hnot := hb.not_free
  cases hcell : g a with
  | free => rcases h.fresh a hcell with h₀ | h₀ | ⟨c, hc, hfree⟩ <;> simp_all
  | last => rcases h.tail a hcell with h₀ | ⟨c, hc, hfree⟩ <;> simp_all
  | next c => simpa [h.link a c hcell] using hto
  | broken => simp [h.broken a hcell] at hto

theorem Grown.head (ha : Head g a) : Head g' a where
  used := h.used ha.used
  first b hb := ha.first b (h.to_of_used ha.used hb)

theorem Grown.chain (hl : Chain g a l) (hnot : ∀ x ∈ l, ¬ F x) : Chain g' a l := by
  refine hl.congr fun x hx => ?_
  rcases hl.used_of_mem hx with hlast | ⟨b, hb⟩
  · rw [hlast, h.last x hlast (hnot x hx)]
  · rw [hb, h.link x b hb]

theorem Grown.chain_back (hsound : Sound g) (ha : Used g a)
    (hnot : ∀ k, Chain g a k → ∀ x ∈ k, ¬ F x) (hl : Chain g' a l) : Chain g a l := by
  obtain ⟨k, hk⟩ := hsound.ends a ha
  rwa [hl.unique (h.chain hk (hnot k hk))]

theorem Grown.chain_fresh (hl : Chain g' a l) (hfree : g a = .free) : ∀ x ∈ l, g x = .free := by
  induction hl with
  | last _ =>
    intro x hx
    rwa [mem_singleton.mp hx]
  | @cons a b l hto _ ih =>
    intro x hx
    rcases mem_cons.mp hx with rfl | hx
    · exact hfree
    · refine ih ?_ x hx
      rcases h.fresh a hfree with h₀ | h₀ | ⟨c, hc, hcfree⟩ <;> simp_all

/-- A chain only gets nodes that were free, behind its end. -/
theorem Grown.chain_append (hsound : Sound g') (hl : Chain g a l) :
    ∃ fresh, Chain g' a (l ++ fresh) ∧ ∀ x ∈ fresh, g x = .free := by
  induction hl with
  | @last a hlast =>
    rcases h.tail a hlast with hlast' | ⟨b, hb, hfree⟩
    · exact ⟨[], .last hlast', by simp⟩
    · obtain ⟨k, hk⟩ := hsound.ends b (hsound.used_next hb)
      exact ⟨k, .cons hb hk, h.chain_fresh hk hfree⟩
  | @cons a b l hto _ ih =>
    obtain ⟨fresh, hchain, hfree⟩ := ih
    exact ⟨fresh, .cons (h.link a b hto) hchain, hfree⟩

end

variable [DecidableEq α]

theorem grown_take (F : α → Prop) (hfree : g c = .free) :
    Grown F g (update g c .last) := by
  have hother : ∀ x, g x ≠ .free → update g c .last x = g x := by
    intro x hx
    refine update_of_ne ?_ _ _
    rintro rfl
    exact hx hfree
  refine ⟨?_, ?_, ?_, ?_, ?_⟩
  · exact fun a b hto => (hother a (by simp [hto])).trans hto
  · exact fun a hlast _ => (hother a (by simp [hlast])).trans hlast
  · exact fun a hlast => .inl ((hother a (by simp [hlast])).trans hlast)
  · exact fun a hbroken => (hother a (by simp [hbroken])).trans hbroken
  · intro a ha
    by_cases hac : a = c
    · exact .inr (.inl (by simp [hac]))
    · exact .inl (by rwa [update_of_ne hac])

theorem grown_append {e : α} (hlast : g e = .last) (hfree : g c = .free) :
    Grown (· = e) g (update (update g c .last) e (.next c)) := by
  have hec := Used.ne (.inl hlast) hfree
  have hother : ∀ x, x ≠ e → x ≠ c →
      update (update g c .last) e (.next c) x = g x := by
    intro x hxe hxc
    rw [update_of_ne hxe, update_of_ne hxc]
  have hkeep : ∀ x, g x ≠ .free → x ≠ e →
      update (update g c .last) e (.next c) x = g x := by
    intro x hx hxe
    refine hother x hxe ?_
    rintro rfl
    exact hx hfree
  refine ⟨?_, ?_, ?_, ?_, ?_⟩
  · intro a b hto
    refine (hkeep a (by simp [hto]) ?_).trans hto
    rintro rfl
    simp [hlast] at hto
  · exact fun a ha hne => (hkeep a (by simp [ha]) hne).trans ha
  · intro a ha
    by_cases hae : a = e
    · exact .inr ⟨c, by simp [hae], hfree⟩
    · exact .inl ((hkeep a (by simp [ha]) hae).trans ha)
  · intro a ha
    refine (hkeep a (by simp [ha]) ?_).trans ha
    rintro rfl
    simp [hlast] at ha
  · intro a ha
    have hae : a ≠ e := by
      rintro rfl
      simp [hlast] at ha
    by_cases hac : a = c
    · subst hac
      exact .inr (.inl (by rw [update_of_ne hae, update_self]))
    · exact .inl ((hother a hae hac).trans ha)

end Lib
