import Mathlib

/-!
# Counters with caches

A counter that many threads update can keep a cache for each processor: an
update goes to the cache of the processor it runs on, and a cache that has
come to the threshold is emptied into the shared part. `value` is what the
counter stands for. Every update keeps the caches `Bounded`, and then the
shared part alone is never far from the value (`Bounded.shared_near`).
-/

namespace MiniDuck

/-- A shared part, and one cache for each processor. -/
structure CachedCounter (ι : Type) where
  shared : Int
  caches : ι → Int

namespace CachedCounter

variable {ι : Type} {threshold : Nat} {c : CachedCounter ι}

def zero : CachedCounter ι := ⟨0, fun _ => 0⟩

def value [Fintype ι] (c : CachedCounter ι) : Int := c.shared + ∑ cpu, c.caches cpu

def addShared (c : CachedCounter ι) (size : Int) : CachedCounter ι :=
  { c with shared := c.shared + size }

/-- Adds to a cache, and empties it once it has come to the threshold. -/
def addCached [DecidableEq ι] (c : CachedCounter ι) (threshold : Nat) (cpu : ι) (size : Int) :
    CachedCounter ι :=
  if threshold ≤ (c.caches cpu + size).natAbs then
    ⟨c.shared + (c.caches cpu + size), Function.update c.caches cpu 0⟩
  else { c with caches := Function.update c.caches cpu (c.caches cpu + size) }

/-- Empties every cache. -/
def flush [Fintype ι] (c : CachedCounter ι) : CachedCounter ι := ⟨c.value, fun _ => 0⟩

/-- No cache has come to the threshold. -/
def Bounded (threshold : Nat) (c : CachedCounter ι) : Prop :=
  ∀ cpu, (c.caches cpu).natAbs < threshold

@[simp] theorem value_addShared [Fintype ι] (size : Int) :
    (c.addShared size).value = c.value + size := by
  simp only [value, addShared]
  omega

@[simp] theorem value_flush [Fintype ι] : c.flush.value = c.value := by
  simp [value, flush]

theorem sum_update [Fintype ι] [DecidableEq ι] (caches : ι → Int) (cpu : ι) (x : Int) :
    ∑ i, Function.update caches cpu x i = ∑ i, caches i - caches cpu + x := by
  rw [Finset.sum_update_of_mem (Finset.mem_univ cpu),
    ← Finset.add_sum_erase Finset.univ caches (Finset.mem_univ cpu),
    Finset.sdiff_singleton_eq_erase]
  omega

@[simp] theorem value_addCached [Fintype ι] [DecidableEq ι] (cpu : ι) (size : Int) :
    (c.addCached threshold cpu size).value = c.value + size := by
  rw [addCached]
  split
  · simp only [value, sum_update]
    omega
  · simp only [value, sum_update]
    omega

namespace Bounded

theorem addCached [DecidableEq ι] (h : Bounded threshold c) (cpu : ι) (size : Int) :
    Bounded threshold (c.addCached threshold cpu size) := by
  intro i
  have hpos := Nat.zero_lt_of_lt (h i)
  rw [CachedCounter.addCached]
  by_cases hi : i = cpu
  · subst hi
    split
    · simpa using hpos
    · simp only [Function.update_self]
      omega
  · split
    · simpa [Function.update_of_ne hi] using h i
    · simpa [Function.update_of_ne hi] using h i

theorem flush [Fintype ι] (h : Bounded threshold c) : Bounded threshold c.flush :=
  fun i => Nat.zero_lt_of_lt (h i)

theorem shared_near [Fintype ι] (h : Bounded threshold c) :
    |c.value - c.shared| ≤ Fintype.card ι * ((threshold : Int) - 1) := by
  have hle : ∀ cpu ∈ Finset.univ, |c.caches cpu| ≤ (threshold : Int) - 1 := by
    intro cpu _
    have hlt := h cpu
    rw [Int.abs_eq_natAbs]
    omega
  calc
    |c.value - c.shared| = |∑ cpu, c.caches cpu| := by rw [value, add_sub_cancel_left]
    _ ≤ ∑ cpu, |c.caches cpu| := Finset.abs_sum_le_sum_abs _ _
    _ ≤ Finset.univ.card • ((threshold : Int) - 1) := Finset.sum_le_card_nsmul _ _ _ hle
    _ = Fintype.card ι * ((threshold : Int) - 1) := by rw [nsmul_eq_mul]; rfl

end Bounded

end CachedCounter

end MiniDuck
