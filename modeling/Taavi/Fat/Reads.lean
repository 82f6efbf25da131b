import Taavi.Fat.Files
import Taavi.Fat.Sectors

/-!
# Programs that only read

Most functions of the file system change nothing on the disk. They are put together from reads of
sectors and from calls of the heap.
-/

namespace Taavi.Fat

open Lib

variable {α β : Type}

/-- The program changes nothing on the disk. -/
def Reads (p : Action α) : Prop := ∀ s, Returns p s fun _ t => t.disk = s.disk

theorem reads_pure (a : α) : Reads (pure a : Action α) := fun _ => returns_pure rfl

theorem Reads.bind {p : Action α} {f : α → Action β} (hp : Reads p) (hf : ∀ a, Reads (f a)) :
    Reads (p >>= f) := by
  intro s
  refine (hp s).bind fun a t ht => ?_
  exact (hf a t).imp fun b u hu => hu.trans ht

theorem reads_allocateBuffer (m : Mount) : Reads (allocateBuffer m) := by
  intro s
  refine (allocateBuffer_outcome m s).returns.imp ?_
  rintro r t (⟨-, -, rfl⟩ | ⟨-, -, rfl⟩) <;> rfl

theorem reads_kfree (block : ℕ) : Reads (kfree block) := by
  intro s r t hrun
  unfold kfree at hrun
  split_ifs at hrun
  obtain ⟨-, rfl⟩ := Prod.mk.inj (Option.some.inj hrun)
  rfl

theorem reads_readCluster (m : Mount) (cluster : ℕ) : Reads (readCluster m cluster) :=
  fun s => (readCluster_outcome m cluster s).returns.imp fun _ _ h => h.1.1

end Taavi.Fat
