import Taavi.Fat.Addressed

/-!
# The copies of the table

On a volume with two tables every sequence of bounded operations keeps them alike. The functions
write the first table and the sectors behind it, whatever `fat_count` is, so other numbers of tables
go wrong.
-/

namespace Taavi.Fat

open Lib

variable {m : Mount} {g : Geometry} {s t : State} {K : ℕ → Prop} {n : ℕ} {op : Op}

def InCluster (g : Geometry) (c sector : ℕ) : Prop :=
  InRange g c ∧ sectorOf g c ≤ sector ∧ sector < sectorOf g c + g.sectorsPerCluster

theorem Working.sector (hg : Sane g) (ht : Working g K s n t) {k x : ℕ}
    (hk : k < g.fatStart ∨ g.dataStart ≤ k) (hout : ∀ c, Writable g K s t c → ¬ InCluster g c k)
    (hx : x < sectorSize) : t.disk k x = s.disk k x := by
  by_cases hinside : Inside g k
  · rcases hinside with htable | ⟨c, hc, hsec⟩
    · have hdata := hg.data
      omega
    · have hother : ¬Writable g K s t c := fun hK => hout c hK ⟨hc, hsec⟩
      -- the byte is one of the cluster
      have hbyte := congrFun (ht.data c hother) ((k - sectorOf g c) * sectorSize + x)
      have hlt : k - sectorOf g c < g.sectorsPerCluster := by omega
      have hpos : (k - sectorOf g c) * sectorSize + x < clusterSize g := by
        have hle := Nat.mul_le_mul_right sectorSize (Nat.succ_le_of_lt hlt)
        rw [Nat.succ_mul] at hle
        unfold clusterSize
        omega
      have hdiv : ((k - sectorOf g c) * sectorSize + x) / sectorSize = k - sectorOf g c := by
        rw [mul_comm, Nat.mul_add_div (by decide), Nat.div_eq_of_lt hx, add_zero]
      have hmod : ((k - sectorOf g c) * sectorSize + x) % sectorSize = x := by
        rw [mul_comm, Nat.mul_add_mod, Nat.mod_eq_of_lt hx]
      simp only [volume, hc, hpos, and_self, if_true, hdiv, hmod] at hbyte
      rwa [show sectorOf g c + (k - sectorOf g c) = k by omega] at hbyte
  · rw [ht.beside.outside k hinside]

theorem Op.working (hm : Ready m) (hop : op.Bounded m s) (fuel : ℕ) :
    Returns (op.run m fuel) s fun _ t => Working m (op.Reaches m (volume m s)) s 0 t := by
  cases op with
  | createDirent directory name attributes =>
    exact (createDirent_working hm hop.1 hop.2 name attributes).map fun _ _ => id
  | mkdirp parent path =>
    have hway : ∀ d rest, Visits m (volume m s) parent path d rest → walkDirPath rest ≠ none →
        (Op.mkdirp parent path).Reaches m (volume m s) d :=
      fun d rest hvisits hrest => ⟨rest, hvisits, hrest⟩
    exact (mkdirp_working hm hway hop).map fun _ _ => id
  | writeFile buf size => exact (writeFile_working hm hop).map fun _ _ => id
  | writeFileAtOffset first offset buf size =>
    obtain ⟨hchain, n, hsupply, hbudget⟩ := hop
    exact (writeFileAtOffset_working hm hchain hsupply hbudget).map fun _ _ => id
  | updateDirentSize start file size => exact (updateDirentSize_working hm hop).map fun _ _ => id
  | deleteDirent target parent =>
    exact (deleteDirent_working hm hop.1 hop.2).map fun _ _ => id

abbrev BoundedStep (m : Mount) : State → Op → State → Prop :=
  Guarded (fun s op => op.Bounded m.toGeometry s) (Step m)

/-- A volume with four clusters and some number of tables of one sector. -/
def tablesGeometry (fats : ℕ) : Geometry :=
  { smallGeometry 4 with dataStart := 1 + fats, fatCount := fats }

/-- The volume on a disk and with a heap that do not fail. -/
def tablesMount (fats : ℕ) : Mount where
  toGeometry := tablesGeometry fats
  diskFails _ := false
  heapFails _ := false

/-- A disk with equal tables and an empty root directory. -/
def tablesStart (fats : ℕ) : State := mounted fun lba x =>
  if 1 ≤ lba ∧ lba ≤ fats then diskOf (fun c => if c = 2 then clusterEoc else 0) 1 x else 0

def tablesBootSector (fats : ℕ) : Memory :=
  let empty : Memory := fun _ => 0
  ((((((empty.write 11 2 512).write 13 1 1).write 14 2 1).write 16 1 fats).write 32 4
    (5 + fats)).write 36 4 1).write 44 4 2

theorem copiesAlike_tablesStart (fats : ℕ) : CopiesAlike (tablesGeometry fats) (tablesStart fats) := by
  intro k hk i hi x _
  have hone : (tablesGeometry fats).sectorsPerFat = 1 := rfl
  have hstart : (tablesGeometry fats).fatStart = 1 := rfl
  replace hk : k < fats := hk
  obtain rfl : i = 0 := by omega
  have hfst : 1 ≤ 1 + 0 ∧ 1 + 0 ≤ fats := by omega
  have hcopy : 1 ≤ 1 + k * 1 + 0 ∧ 1 + k * 1 + 0 ≤ fats := by omega
  simp only [tablesStart, mounted, hone, hstart, hfst, hcopy, and_self, if_true]

theorem bounded_createDirent : (Op.createDirent 2 [65] 0x20).Bounded (tablesGeometry 2)
    (tablesStart 2) :=
  ⟨.inr (by decide), .inl (by decide +kernel)⟩

end Taavi.Fat
