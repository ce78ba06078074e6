import Mathlib.Data.List.Basic
/-!
# Block lists and their slots

A node's entry in `_blocks_cache` is a list with one slot per block: `None`
while the block is missing, the block's bytes once downloaded.  This module
gives the two comprehensions of `blocks.py` over such a list (the filled
indices `_get_blocks_available` answers, the `remaining` indices of
`_next_download`), the number of holes, and `Agree L`: every filled slot holds
the block of `L` at its index.  Filling a slot with the right block keeps
`Agree`, never adds a hole, and leaves a complete list as it was; these are the
facts the block exchange rests on.
-/

namespace Bndl.Rmi.Slots

/-- A block's bytes. -/
abbrev Block := List UInt8

/-- `BlockSpec(seeder, name, num_blocks)`, for the name being followed. -/
structure BlockSpec where
  seeder : Nat
  numBlocks : Nat
  deriving DecidableEq, Repr

/-- `[idx for idx, block in enumerate(blocks) if block is not None]`. -/
def filled (blocks : List (Option Block)) : List Nat :=
  (blocks.enum.filter fun p => p.2.isSome).map Prod.fst

/-- `[idx for idx, block in enumerate(blocks) if block is None]`. -/
def missing (blocks : List (Option Block)) : List Nat :=
  (blocks.enum.filter fun p => p.2.isNone).map Prod.fst

/-- The number of slots still `None`. -/
def holes (blocks : List (Option Block)) : Nat := blocks.count none

/-- Every filled slot of `blocks` holds the block of `L` at the same index. -/
def Agree (L : List Block) (blocks : List (Option Block)) : Prop :=
  ∀ (i : Nat) (b : Block), blocks[i]? = some (some b) → L[i]? = some b

theorem mem_filled {blocks : List (Option Block)} {i : Nat} :
    i ∈ filled blocks ↔ ∃ b, blocks[i]? = some (some b) := by
  simp only [filled, List.mem_map, List.mem_filter, List.mem_enum_iff_getElem?]
  constructor
  · rintro ⟨⟨j, o⟩, ⟨hj, ho⟩, rfl⟩
    cases o with
    | none => simp at ho
    | some b => exact ⟨b, hj⟩
  · rintro ⟨b, hb⟩
    exact ⟨(i, some b), ⟨hb, rfl⟩, rfl⟩

/-- `_get_blocks_available` names each index at most once. -/
theorem filled_nodup (blocks : List (Option Block)) : (filled blocks).Nodup := by
  have h : (filled blocks).Sublist (blocks.enum.map Prod.fst) := (List.filter_sublist _).map _
  rw [List.enum_map_fst] at h
  exact (List.nodup_range _).sublist h

theorem mem_missing {blocks : List (Option Block)} {i : Nat} :
    i ∈ missing blocks ↔ blocks[i]? = some none := by
  simp only [missing, List.mem_map, List.mem_filter, List.mem_enum_iff_getElem?]
  constructor
  · rintro ⟨⟨j, o⟩, ⟨hj, ho⟩, rfl⟩
    cases o with
    | none => exact hj
    | some b => simp at ho
  · intro h
    exact ⟨(i, none), ⟨h, rfl⟩, rfl⟩

theorem agree_replicate (L : List Block) (n : Nat) : Agree L (List.replicate n none) := by
  intro i b h
  simp [List.getElem?_replicate] at h

theorem agree_map_some (L : List Block) : Agree L (L.map some) := by
  intro i b h
  simpa using h

theorem Agree.set {L : List Block} {blocks : List (Option Block)} (h : Agree L blocks)
    {i : Nat} {b : Block} (hb : L[i]? = some b) : Agree L (blocks.set i (some b)) := by
  intro j c hc
  by_cases hij : i = j
  · subst hij
    rw [List.getElem?_set] at hc
    split_ifs at hc <;> simp_all
  · rw [List.getElem?_set_ne hij] at hc
    exact h j c hc

theorem holes_set_le (blocks : List (Option Block)) (i : Nat) (b : Block) :
    holes (blocks.set i (some b)) ≤ holes blocks := by
  unfold holes
  by_cases hi : i < blocks.length
  · rw [List.count_set _ _ _ _ hi]
    simp
  · rw [List.set_eq_of_length_le (by omega)]

/-- Filling a hole removes exactly one hole. -/
theorem holes_set_of_none {blocks : List (Option Block)} {i : Nat}
    (hi : blocks[i]? = some none) (b : Block) :
    holes (blocks.set i (some b)) + 1 = holes blocks := by
  obtain ⟨hlt, hget⟩ := List.getElem?_eq_some_iff.1 hi
  unfold holes
  rw [List.count_set _ _ _ _ hlt]
  have : 0 < blocks.count none := List.count_pos_iff.2 (List.mem_iff_getElem.2 ⟨i, hlt, hget⟩)
  simp [hget]
  omega

/-- A second write does not undo the effect of the first on the holes. -/
theorem holes_set_set_le (blocks : List (Option Block)) (i j : Nat) (b c : Block) :
    holes ((blocks.set j (some c)).set i (some b)) ≤ holes (blocks.set i (some b)) := by
  by_cases hij : i = j
  · subst hij
    simp
  · rw [List.set_comm _ _ _ (Ne.symm hij)]
    exact holes_set_le _ _ _

/-- A list that agrees with `L`, has its length and no hole, is `L`. -/
theorem eq_map_some_of_agree {L : List Block} {blocks : List (Option Block)}
    (h : Agree L blocks) (hlen : blocks.length = L.length) (hholes : holes blocks = 0) :
    blocks = L.map some := by
  apply List.ext_getElem?
  intro i
  rcases hbi : blocks[i]? with _ | o
  · have : L.length ≤ i := by simpa [hlen] using List.getElem?_eq_none_iff.1 hbi
    simp [List.getElem?_eq_none this]
  · cases o with
    | none =>
      have : none ∈ blocks := List.getElem?_mem hbi
      simp [holes, List.count_eq_zero.1 hholes] at this
    | some b => simp [h i b hbi]

/-- Writing the right block into `L`'s own list changes nothing. -/
theorem map_some_set {L : List Block} {i : Nat} {b : Block} (hb : L[i]? = some b) :
    (L.map some).set i (some b) = L.map some := by
  apply List.ext_getElem?
  intro j
  by_cases hij : i = j
  · subst hij
    obtain ⟨hlt, hget⟩ := List.getElem?_eq_some_iff.1 hb
    simp [List.getElem?_set, hlt, hget]
  · rw [List.getElem?_set_ne hij]

end Bndl.Rmi.Slots
