import Mathlib

/-!
# Ranks in a finite set

The rank of an element is the number of elements below it. Ranks count
the elements of the set without a gap (`image_rankIn`), so as many
elements as one asks for lie below a rank (`card_rankIn_lt`). A property
of numbers that passes downwards cuts an initial segment, whose length
is its count (`lt_card_filter_range_iff`).
-/

namespace MiniDuck

universe u

variable {α : Type u} [LinearOrder α] {s : Finset α} {a b : α}

def rankIn (s : Finset α) (a : α) : Nat := (s.filter (· < a)).card

theorem rankIn_le_of_le (h : a ≤ b) : rankIn s a ≤ rankIn s b :=
  Finset.card_le_card fun _ hc =>
    Finset.mem_filter.mpr ⟨(Finset.mem_filter.mp hc).1, (Finset.mem_filter.mp hc).2.trans_le h⟩

theorem rankIn_lt_of_lt (ha : a ∈ s) (h : a < b) : rankIn s a < rankIn s b := by
  refine Finset.card_lt_card (Finset.ssubset_iff_of_subset ?_ |>.mpr ⟨a, ?_, ?_⟩)
  · intro c hc
    exact Finset.mem_filter.mpr ⟨(Finset.mem_filter.mp hc).1, (Finset.mem_filter.mp hc).2.trans h⟩
  · exact Finset.mem_filter.mpr ⟨ha, h⟩
  · simp

theorem rankIn_lt_iff (ha : a ∈ s) : rankIn s a < rankIn s b ↔ a < b := by
  refine ⟨fun h => ?_, rankIn_lt_of_lt ha⟩
  by_contra hle
  exact absurd (rankIn_le_of_le (not_lt.mp hle)) (not_le.mpr h)

theorem rankIn_lt_card (ha : a ∈ s) : rankIn s a < s.card := by
  refine Finset.card_lt_card (Finset.ssubset_iff_of_subset (Finset.filter_subset _ _) |>.mpr ?_)
  exact ⟨a, ha, by simp⟩

theorem rankIn_injOn : Set.InjOn (rankIn s) s := by
  intro a ha b hb h
  rcases lt_trichotomy a b with hlt | heq | hgt
  · exact absurd h (rankIn_lt_of_lt ha hlt).ne
  · exact heq
  · exact absurd h (rankIn_lt_of_lt hb hgt).ne'

theorem image_rankIn : s.image (rankIn s) = Finset.range s.card := by
  refine Finset.eq_of_subset_of_card_le ?_ ?_
  · intro n hn
    obtain ⟨a, ha, rfl⟩ := Finset.mem_image.mp hn
    exact Finset.mem_range.mpr (rankIn_lt_card ha)
  · rw [Finset.card_range, Finset.card_image_of_injOn rankIn_injOn]

theorem card_rankIn_lt (n : Nat) : (s.filter fun a => rankIn s a < n).card = min n s.card := by
  have himage : (s.filter fun a => rankIn s a < n).image (rankIn s) =
      Finset.range (min n s.card) := by
    ext m
    simp only [Finset.mem_image, Finset.mem_filter, Finset.mem_range, lt_min_iff]
    constructor
    · rintro ⟨a, ⟨ha, hlt⟩, rfl⟩
      exact ⟨hlt, rankIn_lt_card ha⟩
    · rintro ⟨hn, hcard⟩
      have hm : m ∈ s.image (rankIn s) := by
        rw [image_rankIn]
        exact Finset.mem_range.mpr hcard
      obtain ⟨a, ha, rfl⟩ := Finset.mem_image.mp hm
      exact ⟨a, ⟨ha, hn⟩, rfl⟩
  have hcard := congrArg Finset.card himage
  rwa [Finset.card_range, Finset.card_image_of_injOn] at hcard
  exact rankIn_injOn.mono fun a ha => (Finset.mem_filter.mp ha).1

/-- The numbers below `n` with a property that passes to smaller numbers
are as many as the first number without it. -/
theorem lt_card_filter_range_iff {p : Nat → Prop} [DecidablePred p] {n x : Nat}
    (hdown : ∀ x y, x ≤ y → y < n → p y → p x) (hx : x < n) :
    x < ((Finset.range n).filter p).card ↔ p x := by
  constructor
  · intro hlt
    by_contra hp
    have hsub : (Finset.range n).filter p ⊆ Finset.range x := by
      intro y hy
      obtain ⟨hyn, hpy⟩ := Finset.mem_filter.mp hy
      by_contra hxy
      rw [Finset.mem_range, not_lt] at hxy
      exact hp (hdown x y hxy (Finset.mem_range.mp hyn) hpy)
    have hcard := Finset.card_le_card hsub
    rw [Finset.card_range] at hcard
    omega
  · intro hp
    have hsub : Finset.range (x + 1) ⊆ (Finset.range n).filter p := by
      intro y hy
      have hyx : y ≤ x := Nat.lt_succ_iff.mp (Finset.mem_range.mp hy)
      exact Finset.mem_filter.mpr
        ⟨Finset.mem_range.mpr (hyx.trans_lt hx), hdown y x hyx hx hp⟩
    have hcard := Finset.card_le_card hsub
    rw [Finset.card_range] at hcard
    omega

end MiniDuck
