import Mathlib.Tactic.Common
import Mathlib.Data.List.Basic

/-!
# Tilings of a line by intervals

A list of intervals tiles `[first, limit)` when the first interval starts at
`first`, every interval is nonempty and starts one past the end of the one
before it, and the last one ends just below `limit`.  Intervals are any type
with a lower and an upper bound, both inclusive.
-/

namespace Mvtx.Lib

variable {ι : Type*} {lower upper : ι → Nat}

/-- The intervals tile `[first, limit)`. -/
def Tiles (lower upper : ι → Nat) : Nat → Nat → List ι → Prop
  | first, limit, [] => first = limit
  | first, limit, interval :: rest =>
      lower interval = first ∧ lower interval ≤ upper interval ∧
        Tiles lower upper (upper interval + 1) limit rest

namespace Tiles

variable {first middle limit : Nat} {below above tiles : List ι} {tile : ι}

theorem append_iff :
    Tiles lower upper first limit (below ++ above) ↔
      ∃ middle, Tiles lower upper first middle below ∧
        Tiles lower upper middle limit above := by
  induction below generalizing first with
  | nil => simp [Tiles]
  | cons head below ih =>
      simp only [List.cons_append, Tiles, ih]
      constructor
      · rintro ⟨start, ordered, middle, lowPart, highPart⟩
        exact ⟨middle, ⟨start, ordered, lowPart⟩, highPart⟩
      · rintro ⟨middle, ⟨start, ordered, lowPart⟩, highPart⟩
        exact ⟨start, ordered, middle, lowPart, highPart⟩

theorem first_le_limit (tiling : Tiles lower upper first limit tiles) :
    first ≤ limit := by
  induction tiles generalizing first with
  | nil => exact Nat.le_of_eq tiling
  | cons head rest ih =>
      obtain ⟨start, ordered, rest⟩ := tiling
      have := ih rest
      omega

/-- Every tile is nonempty and lies in the tiled range. -/
theorem bounds (tiling : Tiles lower upper first limit tiles)
    (member : tile ∈ tiles) :
    first ≤ lower tile ∧ lower tile ≤ upper tile ∧ upper tile < limit := by
  induction tiles generalizing first with
  | nil => simp at member
  | cons head rest ih =>
      obtain ⟨start, ordered, rest⟩ := tiling
      rcases List.mem_cons.1 member with rfl | later
      · have := rest.first_le_limit
        omega
      · have := ih rest later
        omega

/-- Around a tile, the earlier ones end below it and the later ones start above it. -/
theorem around
    (tiling : Tiles lower upper first limit (below ++ tile :: above)) :
    Tiles lower upper first (lower tile) below ∧ lower tile ≤ upper tile ∧
      Tiles lower upper (upper tile + 1) limit above := by
  obtain ⟨middle, lowPart, rfl, ordered, highPart⟩ := append_iff.1 tiling
  exact ⟨lowPart, ordered, highPart⟩

/-- Around a tile that contains a point, the tiles lie on their sides of the point. -/
theorem around_point {point : Nat}
    (tiling : Tiles lower upper first limit (below ++ tile :: above))
    (covers : lower tile ≤ point ∧ point ≤ upper tile) :
    (∀ other ∈ below, lower other ≤ point ∧ upper other < point) ∧
      ∀ other ∈ above, point < lower other := by
  obtain ⟨lowPart, -, highPart⟩ := tiling.around
  constructor
  · intro other member
    have := lowPart.bounds member
    omega
  · intro other member
    have := highPart.bounds member
    omega

/-- Every point of the tiled range lies in a tile. -/
theorem exists_cover
    (tiling : Tiles lower upper first limit tiles) (point : Nat)
    (above : first ≤ point) (below : point < limit) :
    ∃ earlier tile later,
      tiles = earlier ++ tile :: later ∧
        lower tile ≤ point ∧ point ≤ upper tile := by
  induction tiles generalizing first with
  | nil =>
      have : first = limit := tiling
      omega
  | cons head rest ih =>
      obtain ⟨start, ordered, rest'⟩ := tiling
      by_cases inside : point ≤ upper head
      · exact ⟨[], head, rest, rfl, by omega, inside⟩
      · obtain ⟨earlier, tile, later, rfl, covers⟩ := ih rest' (by omega)
        exact ⟨head :: earlier, tile, later, rfl, covers⟩

/-- Two tiles that share a point are the same. -/
theorem cover_unique {other : ι}
    (tiling : Tiles lower upper first limit tiles) (point : Nat)
    (member : tile ∈ tiles) (member' : other ∈ tiles)
    (covers : lower tile ≤ point ∧ point ≤ upper tile)
    (covers' : lower other ≤ point ∧ point ≤ upper other) :
    tile = other := by
  induction tiles generalizing first with
  | nil => simp at member
  | cons head rest ih =>
      obtain ⟨start, ordered, rest⟩ := tiling
      rcases List.mem_cons.1 member with rfl | later <;>
        rcases List.mem_cons.1 member' with rfl | later'
      · rfl
      · have := rest.bounds later'
        omega
      · have := rest.bounds later
        omega
      · exact ih rest later later'

/-- The tiles come in the order of their lower bounds. -/
theorem pairwise_lower (tiling : Tiles lower upper first limit tiles) :
    tiles.Pairwise fun tile other => lower tile < lower other := by
  induction tiles generalizing first with
  | nil => exact .nil
  | cons head rest ih =>
      obtain ⟨start, ordered, rest⟩ := tiling
      refine List.pairwise_cons.2 ⟨fun other member => ?_, ih rest⟩
      have := (rest.bounds member).1
      omega

/-- The tiles may be listed by any names that their bounds can be read from. -/
theorem map_iff {α : Type*} {name : α → ι} {names : List α} :
    Tiles lower upper first limit (names.map name) ↔
      Tiles (lower ∘ name) (upper ∘ name) first limit names := by
  induction names generalizing first with
  | nil => rfl
  | cons head rest ih => simp [Tiles, ih]

/-- Only the bounds of the tiles matter. -/
theorem congr {lower' upper' : ι → Nat}
    (tiling : Tiles lower upper first limit tiles)
    (same : ∀ tile ∈ tiles, lower' tile = lower tile ∧ upper' tile = upper tile) :
    Tiles lower' upper' first limit tiles := by
  induction tiles generalizing first with
  | nil => exact tiling
  | cons head rest ih =>
      obtain ⟨start, ordered, rest'⟩ := tiling
      obtain ⟨lowerEq, upperEq⟩ := same head (by simp)
      rw [Tiles, lowerEq, upperEq]
      exact ⟨start, ordered, ih rest' fun tile member => same tile (by simp [member])⟩

end Tiles

end Mvtx.Lib
