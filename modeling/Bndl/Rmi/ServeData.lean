import Mathlib.Algebra.Order.Floor.Div
import Bndl.Rmi.BlockManager
/-!
# `serve_data` cuts the data into blocks

`BlockManager.serve_data(name, data, block_size)` serves `data` whole when it
fits in one block.  Otherwise it takes `parts = int((length - 1) / block_size)`,
slices `parts` blocks of `step = math.ceil(length / (parts + 1))` bytes, appends
the rest as the last block, and hands the list to `serve_blocks`.  The
divisions are exact here: `int` of a non-negative quotient is `Nat` division,
and `math.ceil` of one is `⌈/⌉`.

`serve_data_blocks`: with `L` bytes and `b = block_size`, there are
`max 1 ⌈L/b⌉` blocks, they concatenate to the data, and when `L ≥ 1` every block
has between `1` and `b` bytes, all but the last `⌈L/⌈L/b⌉⌉`, the last at most
that.  The bound rests on `⌈L/k⌉ ≤ b` for `k = ⌈L/b⌉`, which puts the `k - 1`
full blocks strictly inside the data (`full_blocks_lt`).
-/

namespace Bndl.Rmi.ServeData

open Bndl.Rmi.Slots Bndl.Rmi.BlockManager

/-- The `for _ in range(parts)` loop of `serve_data`, slicing
`data[offset:offset + step]` each turn, then `blocks.append(data[offset:])`. -/
def sliceBlocks (data : Block) (step : Nat) : Nat → Nat → List Block
  | 0, offset => [data.drop offset]
  | parts + 1, offset =>
    (data.drop offset).take step :: sliceBlocks data step parts (offset + step)

/-- The blocks `serve_data(name, data, block_size)` passes to `serve_blocks`;
`none` when `assert block_size > 0` fails. -/
def dataBlocks (data : Block) (blockSize : Nat) : Option (List Block) :=
  if blockSize = 0 then none
  else if data.length > blockSize then
    let parts := (data.length - 1) / blockSize
    some (sliceBlocks data (data.length ⌈/⌉ (parts + 1)) parts 0)
  else some [data]

/-- `serve_data(name, data, block_size)` on node `x`. -/
def serveData (w : World) (x : Nat) (data : Block) (blockSize : Nat) : Option World :=
  (dataBlocks data blockSize).map (w.serveBlocks x)

section Slices

variable (data : Block) (step : Nat)

theorem sliceBlocks_flatten :
    ∀ n offset, (sliceBlocks data step n offset).flatten = data.drop offset
  | 0, _ => by simp [sliceBlocks]
  | n + 1, offset => by
    rw [sliceBlocks, List.flatten_cons, sliceBlocks_flatten n, ← List.drop_drop,
      List.take_append_drop]

/-- The loop's `n` slices, then the rest. -/
theorem sliceBlocks_eq : ∀ n offset, sliceBlocks data step n offset =
    (List.range n).map (fun i => (data.drop (offset + i * step)).take step) ++
      [data.drop (offset + n * step)]
  | 0, _ => by simp [sliceBlocks]
  | n + 1, offset => by
    rw [sliceBlocks, sliceBlocks_eq n, List.range_succ_eq_map]
    simp [Nat.succ_mul, Nat.add_assoc, Nat.add_comm step]

theorem sliceBlocks_length (n offset : Nat) :
    (sliceBlocks data step n offset).length = n + 1 := by
  simp [sliceBlocks_eq]

theorem sliceBlocks_getLast? (n offset : Nat) :
    (sliceBlocks data step n offset).getLast? = some (data.drop (offset + n * step)) := by
  rw [sliceBlocks_eq, List.getLast?_concat]

/-- With the `n` slices inside the data, each has `step` bytes. -/
theorem sliceBlocks_dropLast {n : Nat} (h : n * step ≤ data.length) :
    ∀ blk ∈ (sliceBlocks data step n 0).dropLast, blk.length = step := by
  rw [sliceBlocks_eq, List.dropLast_concat]
  simp only [List.mem_map, List.mem_range, Nat.zero_add]
  rintro _ ⟨i, hi, rfl⟩
  have : (i + 1) * step ≤ n * step := Nat.mul_le_mul_right _ hi
  simp only [List.length_take, List.length_drop, Nat.succ_mul] at this ⊢
  omega

end Slices

section Arith

variable {L b : Nat}

/-- `int((length - 1) / block_size) + 1` is `⌈length / block_size⌉`. -/
theorem parts_succ (hL : 1 ≤ L) (hb : 0 < b) : (L - 1) / b + 1 = L ⌈/⌉ b := by
  rw [Nat.ceilDiv_eq_add_pred_div, show L + b - 1 = L - 1 + b by omega, Nat.add_div_right _ hb]

theorem ceilDiv_pos (hL : 1 ≤ L) (hb : 0 < b) : 0 < L ⌈/⌉ b :=
  parts_succ hL hb ▸ Nat.succ_pos _

/-- A block of `⌈L/⌈L/b⌉⌉` bytes is no longer than `b`. -/
theorem step_le (hL : 1 ≤ L) (hb : 0 < b) : L ⌈/⌉ (L ⌈/⌉ b) ≤ b := by
  rw [ceilDiv_le_iff_le_mul (ceilDiv_pos hL hb), Nat.mul_comm]
  exact (ceilDiv_le_iff_le_mul hb).1 le_rfl

/-- The `⌈L/b⌉ - 1` full blocks end strictly inside the data. -/
theorem full_blocks_lt (hL : 1 ≤ L) (hb : 0 < b) :
    (L ⌈/⌉ b - 1) * (L ⌈/⌉ (L ⌈/⌉ b)) < L := by
  have hk := ceilDiv_pos hL hb
  have hlt : b * (L ⌈/⌉ b - 1) < L := by
    by_contra h
    have := (ceilDiv_le_iff_le_mul hb).2 (Nat.le_of_not_lt h)
    omega
  calc (L ⌈/⌉ b - 1) * (L ⌈/⌉ (L ⌈/⌉ b))
      ≤ (L ⌈/⌉ b - 1) * b := Nat.mul_le_mul_left _ (step_le hL hb)
    _ = b * (L ⌈/⌉ b - 1) := Nat.mul_comm _ _
    _ < L := hlt

/-- The last block is no longer than the others. -/
theorem le_blocks_mul (hL : 1 ≤ L) (hb : 0 < b) : L ≤ L ⌈/⌉ b * (L ⌈/⌉ (L ⌈/⌉ b)) :=
  (ceilDiv_le_iff_le_mul (ceilDiv_pos hL hb)).1 le_rfl

end Arith

theorem dataBlocks_of_lt {data : Block} {b : Nat} (hb : 0 < b) (h : b < data.length) :
    dataBlocks data b = some (sliceBlocks data (data.length ⌈/⌉ (data.length ⌈/⌉ b))
      (data.length ⌈/⌉ b - 1) 0) := by
  have hparts := parts_succ (L := data.length) (by omega) hb
  simp only [dataBlocks, Nat.pos_iff_ne_zero.1 hb, if_false, gt_iff_lt, h, if_true, hparts]
  rw [← hparts, Nat.add_sub_cancel]

theorem dataBlocks_of_le {data : Block} {b : Nat} (hb : 0 < b) (h : data.length ≤ b) :
    dataBlocks data b = some [data] := by
  simp [dataBlocks, Nat.pos_iff_ne_zero.1 hb, Nat.not_lt.2 h]

/-- The blocks `serve_data` serves: `max 1 ⌈L/b⌉` of them, concatenating to the
data, and for non-empty data each between `1` and `b` bytes long, all but the
last `⌈L/⌈L/b⌉⌉` long and the last no longer. -/
theorem serve_data_blocks (w : World) (x : Nat) (data : Block) {b : Nat} (hb : 1 ≤ b) :
    ∃ blocks, serveData w x data b = some (w.serveBlocks x blocks) ∧
      blocks.length = max 1 (data.length ⌈/⌉ b) ∧ blocks.flatten = data ∧
      (1 ≤ data.length →
        (∀ blk ∈ blocks, 1 ≤ blk.length ∧ blk.length ≤ b) ∧
        (∀ blk ∈ blocks.dropLast, blk.length = data.length ⌈/⌉ (data.length ⌈/⌉ b)) ∧
        ∀ blk ∈ blocks.getLast?, blk.length ≤ data.length ⌈/⌉ (data.length ⌈/⌉ b)) := by
  by_cases hlt : b < data.length
  · have hL : 1 ≤ data.length := by omega
    have hfull := full_blocks_lt hL hb
    have hlast := le_blocks_mul hL hb
    have hstep := step_le hL hb
    set s := data.length ⌈/⌉ (data.length ⌈/⌉ b)
    set n := data.length ⌈/⌉ b - 1
    have hmul : data.length ⌈/⌉ b * s = n * s + s := by
      rw [← Nat.succ_mul]; congr 1; have := ceilDiv_pos hL hb; omega
    have hmid := sliceBlocks_dropLast data s hfull.le
    have hend := sliceBlocks_getLast? data s n 0
    have hrest : (data.drop (0 + n * s)).length = data.length - n * s := by simp
    refine ⟨sliceBlocks data s n 0, by simp [serveData, dataBlocks_of_lt hb hlt], ?_,
      sliceBlocks_flatten data s n 0, fun _ => ⟨fun blk hblk => ?_, hmid, ?_⟩⟩
    · rw [sliceBlocks_length]; omega
    · rw [← List.dropLast_append_getLast? _ hend] at hblk
      rcases List.mem_append.1 hblk with h | h
      · have := hmid blk h; omega
      · rw [List.mem_singleton.1 h]; omega
    · rw [hend]; rintro _ ⟨⟩; omega
  · have hle : data.length ≤ b := by omega
    have hone : data.length ⌈/⌉ b ≤ 1 := (ceilDiv_le_iff_le_mul hb).2 (by omega)
    refine ⟨[data], by simp [serveData, dataBlocks_of_le hb hle], by simp; omega, by simp,
      fun hL => ⟨by simpa using ⟨hL, hle⟩, by simp, ?_⟩⟩
    have : data.length ⌈/⌉ b = 1 := by have := ceilDiv_pos hL hb; omega
    simp [this, Nat.ceilDiv_eq_add_pred_div]

/-- The spec's scenario: a hundred bytes in blocks of at most thirty are four
blocks of twenty-five. -/
theorem serve_data_blocks_example :
    1 ≤ 30 ∧ ∃ blocks, serveData exampleStart 1 (List.replicate 100 7) 30 =
        some (exampleStart.serveBlocks 1 blocks) ∧ blocks.length = 4 ∧
      blocks.flatten = List.replicate 100 7 ∧
      (∀ blk ∈ blocks, 1 ≤ blk.length ∧ blk.length ≤ 30) ∧
      (∀ blk ∈ blocks.dropLast, blk.length = 25) ∧ ∀ blk ∈ blocks.getLast?, blk.length ≤ 25 := by
  obtain ⟨blocks, hserve, hlen, hflat, hL⟩ :=
    serve_data_blocks exampleStart 1 (List.replicate 100 7) (show 1 ≤ 30 by decide)
  obtain ⟨hall, hdrop, hlast⟩ := hL (by decide)
  exact ⟨by decide, blocks, hserve, hlen.trans (by decide), hflat, hall,
    fun blk h => (hdrop blk h).trans (by decide), fun blk h => (hlast blk h).trans_eq (by decide)⟩

end Bndl.Rmi.ServeData
