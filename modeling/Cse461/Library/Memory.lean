import Mathlib

/-!
# Blocks of memory written piece by piece

A block of memory is the list of its cells: a cell is `none` as long as nothing
was written to it (`malloc` leaves its bytes indeterminate) and `some a` once
`a` was. `write m i xs` copies `xs` to the cells from `i` on.

A *piece* is a run of values with the index of the first one. Pieces *tile*
`[0, n)` when every index below `n` is covered by exactly one of them and no
other index is (`Tiles`). What the development needs of them:

* lengths add up to `n` (`Tiles.sum_length`), so that a byte count can stand in
  for coverage;
* writing pieces of `xs`, in any order, leaves the values of `xs` on the cells
  they cover (`getElem?_writeAll`), and all of `xs` if they tile
  (`writeAll_of_tiles`);
* writing a cell for the first time raises the count of the written ones
  (`written_write`), which is the length only if all are (`written_eq_length`).
-/

namespace Library

variable {α : Type*}

/-- A block of `n` cells to which nothing was written. -/
def fresh (n : ℕ) : List (Option α) := List.replicate n none

@[simp] theorem length_fresh (n : ℕ) : (fresh n : List (Option α)).length = n := by
  simp [fresh]

/-- Copy `xs` to the cells of `m` from the index `i` on. -/
def write (m : List (Option α)) (i : ℕ) (xs : List α) : List (Option α) :=
  m.take i ++ xs.map some ++ m.drop (i + xs.length)

theorem length_write {m : List (Option α)} {i : ℕ} {xs : List α} (h : i + xs.length ≤ m.length) :
    (write m i xs).length = m.length := by
  simp only [write, List.length_append, List.length_take, List.length_map, List.length_drop]
  omega

theorem getElem?_write {m : List (Option α)} {i : ℕ} {xs : List α} (h : i + xs.length ≤ m.length)
    (j : ℕ) : (write m i xs)[j]? =
      if i ≤ j ∧ j < i + xs.length then xs[j - i]?.map some else m[j]? := by
  rw [write, List.append_assoc, List.getElem?_append, List.length_take, min_eq_left (by omega)]
  by_cases hij : j < i
  · rw [if_pos hij, if_neg (by omega), List.getElem?_take_of_lt hij]
  · rw [if_neg hij, List.getElem?_append, List.length_map]
    by_cases hlt : j - i < xs.length
    · rw [if_pos hlt, if_pos (by omega), List.getElem?_map]
    · rw [if_neg hlt, if_neg (by omega), List.getElem?_drop]
      congr 1
      omega

/-- A block of `n` cells to the first of which `xs` was written. -/
def filled (n : ℕ) (xs : List α) : List (Option α) := xs.map some ++ fresh (n - xs.length)

@[simp] theorem filled_nil (n : ℕ) : filled n ([] : List α) = fresh n := rfl

theorem length_filled {n : ℕ} {xs : List α} (h : xs.length ≤ n) : (filled n xs).length = n := by
  simp only [filled, List.length_append, List.length_map, length_fresh]
  omega

/-- Writing goes on where it ended. -/
theorem write_filled (n : ℕ) (xs ys : List α) :
    write (filled n xs) xs.length ys = filled n (xs ++ ys) := by
  have hdrop : (filled n xs).drop (xs.length + ys.length) = fresh (n - (xs ++ ys).length) := by
    rw [filled, List.drop_append, List.drop_eq_nil_of_le (by simp), List.nil_append, fresh,
      List.drop_replicate, fresh, List.length_map, List.length_append]
    congr 1
    omega
  have htake : (filled n xs).take xs.length = xs.map some := by
    rw [filled, List.take_append_of_le_length (by simp), List.take_of_length_le (by simp)]
  rw [write, htake, hdrop, filled, List.map_append]

/-- What was written is read back. -/
@[simp] theorem reduceOption_filled (n : ℕ) (xs : List α) : (filled n xs).reduceOption = xs := by
  rw [filled, List.reduceOption_append, fresh, List.reduceOption_replicate_none, List.append_nil]
  simp [List.reduceOption]

theorem take_filled (n : ℕ) {xs : List α} {k : ℕ} (hk : k ≤ xs.length) :
    (filled n xs).take k = filled k (xs.take k) := by
  have hlen : (xs.take k).length = k := by simpa using hk
  rw [filled, filled, hlen, Nat.sub_self, List.take_append_of_le_length (by simpa using hk),
    List.map_take]
  simp [fresh]

/-! ## Counting written cells -/

/-- The number of cells that were written. -/
def written (m : List (Option α)) : ℕ := m.countP Option.isSome

@[simp] theorem written_fresh (n : ℕ) : written (fresh n : List (Option α)) = 0 := by
  simp [written, fresh, List.countP_replicate]

theorem written_le (m : List (Option α)) : written m ≤ m.length := List.countP_le_length

/-- All cells are written once there are as many written cells as cells. -/
theorem written_eq_length {m : List (Option α)} :
    written m = m.length ↔ ∀ c ∈ m, c.isSome := List.countP_eq_length

/-- No cell of `[i, i + n)` was written. -/
def Unwritten (m : List (Option α)) (i n : ℕ) : Prop := ∀ c ∈ (m.drop i).take n, c = none

instance [DecidableEq α] (m : List (Option α)) (i n : ℕ) : Decidable (Unwritten m i n) :=
  inferInstanceAs (Decidable (∀ c ∈ (m.drop i).take n, c = none))

/-- Writing to cells that were not written adds their number to the count. -/
theorem written_write {m : List (Option α)} {i : ℕ} {xs : List α}
    (hm : Unwritten m i xs.length) : written (write m i xs) = written m + xs.length := by
  have hsplit : m = m.take i ++ ((m.drop i).take xs.length ++ m.drop (i + xs.length)) := by
    rw [← List.drop_drop, List.take_append_drop, List.take_append_drop]
  have hnone : ((m.drop i).take xs.length).countP Option.isSome = 0 := by
    rw [List.countP_eq_zero]
    intro c hc
    simp [hm c hc]
  have hsome : (xs.map some).countP Option.isSome = xs.length := by
    rw [List.countP_map]
    simp
  have hm' : written m =
      (m.take i).countP Option.isSome + (m.drop (i + xs.length)).countP Option.isSome := by
    conv_lhs => rw [hsplit]
    rw [written, List.countP_append, List.countP_append, hnone]
    omega
  rw [hm', written, write, List.countP_append, List.countP_append, hsome]
  omega

/-- Writing never erases: a written cell stays written. -/
theorem all_isSome_write {m : List (Option α)} {i : ℕ} {xs : List α}
    (hm : ∀ c ∈ m, c.isSome) : ∀ c ∈ write m i xs, c.isSome := by
  intro c hc
  rw [write, List.mem_append, List.mem_append] at hc
  rcases hc with (hc | hc) | hc
  · exact hm c (List.mem_of_mem_take hc)
  · obtain ⟨a, _, rfl⟩ := List.mem_map.1 hc
    rfl
  · exact hm c (List.mem_of_mem_drop hc)

/-! ## Pieces -/

/-- A run of values, with the index of the first one. -/
structure Piece (α : Type*) where
  /-- The index of the first value. -/
  start : ℕ
  /-- The values. -/
  data : List α

namespace Piece

/-- The piece has a value for the index `i`. -/
def Covers (p : Piece α) (i : ℕ) : Prop := p.start ≤ i ∧ i < p.start + p.data.length

instance (p : Piece α) (i : ℕ) : Decidable (p.Covers i) :=
  inferInstanceAs (Decidable (_ ∧ _))

/-- The piece is cut out of `xs`. -/
def CutFrom (p : Piece α) (xs : List α) : Prop :=
  p.start + p.data.length ≤ xs.length ∧ p.data = (xs.drop p.start).take p.data.length

end Piece

/-- Every index below `n` is covered by exactly one of the pieces, and no other
    index by any. -/
def Tiles (ps : List (Piece α)) (n : ℕ) : Prop :=
  ∀ i, ps.countP (fun p => p.Covers i) = if i < n then 1 else 0

/-- Write the pieces, one after the other. -/
def writeAll (m : List (Option α)) (ps : List (Piece α)) : List (Option α) :=
  ps.foldl (fun m p => write m p.start p.data) m

theorem Tiles.perm {ps qs : List (Piece α)} {n : ℕ} (h : Tiles ps n) (hpq : ps.Perm qs) :
    Tiles qs n := fun i => hpq.countP_eq _ ▸ h i

/-- The pieces count the indices they cover. -/
theorem sum_length_eq (ps : List (Piece α)) {N : ℕ}
    (hN : ∀ p ∈ ps, p.start + p.data.length ≤ N) :
    (ps.map fun p => p.data.length).sum =
      ∑ i ∈ Finset.range N, ps.countP (fun p => p.Covers i) := by
  induction ps with
  | nil => simp
  | cons p ps ih =>
    have hp : ∑ i ∈ Finset.range N, (if p.Covers i then 1 else 0) = p.data.length := by
      have hfilter : (Finset.range N).filter p.Covers =
          Finset.Ico p.start (p.start + p.data.length) := by
        ext i
        have := hN p List.mem_cons_self
        simp only [Finset.mem_filter, Finset.mem_range, Finset.mem_Ico, Piece.Covers]
        omega
      rw [← Finset.sum_filter, hfilter]
      simp
    rw [List.map_cons, List.sum_cons, ih fun q hq => hN q (List.mem_cons_of_mem _ hq), ← hp,
      ← Finset.sum_add_distrib]
    refine Finset.sum_congr rfl fun i _ => ?_
    rw [List.countP_cons, add_comm]
    simp

/-- The lengths of tiles add up. -/
theorem Tiles.sum_length {ps : List (Piece α)} {n : ℕ} (h : Tiles ps n)
    (hn : ∀ p ∈ ps, p.start + p.data.length ≤ n) : (ps.map fun p => p.data.length).sum = n := by
  rw [sum_length_eq ps hn, Finset.sum_congr rfl fun i hi => by
    rw [h i, if_pos (Finset.mem_range.1 hi)]]
  simp

variable {xs : List α}

theorem length_writeAll {m : List (Option α)} {ps : List (Piece α)} (hm : m.length = xs.length)
    (hps : ∀ p ∈ ps, p.CutFrom xs) : (writeAll m ps).length = xs.length := by
  induction ps generalizing m with
  | nil => exact hm
  | cons p ps ih =>
    refine ih ?_ fun q hq => hps q (List.mem_cons_of_mem _ hq)
    rw [length_write (hm ▸ (hps p List.mem_cons_self).1), hm]

/-- A cell holds its value of `xs` once a piece of `xs` that covers it is written. -/
theorem getElem?_writeAll {m : List (Option α)} {ps : List (Piece α)} (hm : m.length = xs.length)
    (hps : ∀ p ∈ ps, p.CutFrom xs) (i : ℕ) : (writeAll m ps)[i]? =
      if ∃ p ∈ ps, p.Covers i then xs[i]?.map some else m[i]? := by
  induction ps generalizing m with
  | nil => simp [writeAll]
  | cons p ps ih =>
    obtain ⟨hle, hdata⟩ := hps p List.mem_cons_self
    have hlen : (write m p.start p.data).length = xs.length := by
      rw [length_write (hm ▸ hle), hm]
    change (writeAll (write m p.start p.data) ps)[i]? = _
    rw [ih hlen fun q hq => hps q (List.mem_cons_of_mem _ hq)]
    by_cases hrest : ∃ q ∈ ps, q.Covers i
    · obtain ⟨q, hq, hqi⟩ := hrest
      rw [if_pos ⟨q, hq, hqi⟩, if_pos ⟨q, List.mem_cons_of_mem _ hq, hqi⟩]
    · rw [if_neg hrest, getElem?_write (hm ▸ hle)]
      by_cases hpi : p.Covers i
      · -- The cell is one of those that `p` writes, and no later piece does.
        have hvalue : p.data[i - p.start]? = xs[i]? := by
          rw [hdata, List.getElem?_take_of_lt (by have := hpi.1; have := hpi.2; omega),
            List.getElem?_drop]
          congr 1
          have := hpi.1
          omega
        rw [if_pos ⟨hpi.1, hpi.2⟩, if_pos ⟨p, List.mem_cons_self, hpi⟩, hvalue]
      · rw [if_neg fun h => hpi ⟨h.1, h.2⟩, if_neg]
        rintro ⟨q, hq, hqi⟩
        rcases List.mem_cons.1 hq with rfl | hq
        · exact hpi hqi
        · exact hrest ⟨q, hq, hqi⟩

/-- Writing tiles of `xs` writes `xs`. -/
theorem writeAll_of_tiles {m : List (Option α)} {ps : List (Piece α)} (hm : m.length = xs.length)
    (hps : ∀ p ∈ ps, p.CutFrom xs) (ht : Tiles ps xs.length) : writeAll m ps = xs.map some := by
  refine List.ext_getElem? fun i => ?_
  rw [getElem?_writeAll hm hps, List.getElem?_map]
  by_cases hi : i < xs.length
  · have hpos : 0 < ps.countP fun p => p.Covers i := by rw [ht i, if_pos hi]; exact one_pos
    obtain ⟨p, hp, hpi⟩ := List.countP_pos_iff.1 hpos
    rw [if_pos ⟨p, hp, by simpa using hpi⟩]
  · rw [List.getElem?_eq_none (by omega), List.getElem?_eq_none (by omega)]
    simp

/-! ## Cutting into pieces of one size -/

/-- `xs`, cut into pieces of `u` values; the last piece may be shorter. -/
def chop (u : ℕ) (xs : List α) : List (Piece α) :=
  (List.range ((xs.length + u - 1) / u)).map fun k => ⟨k * u, (xs.drop (k * u)).take u⟩

theorem lt_length_of_mul_lt {u n k : ℕ} (hu : 0 < u) : k < (n + u - 1) / u ↔ k * u < n := by
  rw [Nat.lt_div_iff_mul_lt hu]
  constructor <;> intro h <;> omega

theorem cutFrom_of_mem_chop {u : ℕ} {p : Piece α} (hu : 0 < u) (hp : p ∈ chop u xs) :
    p.CutFrom xs ∧ p.data ≠ [] := by
  obtain ⟨k, hk, rfl⟩ := List.mem_map.1 hp
  rw [List.mem_range, lt_length_of_mul_lt hu] at hk
  have hlen : ((xs.drop (k * u)).take u).length = min u (xs.length - k * u) := by simp
  refine ⟨⟨?_, ?_⟩, ?_⟩
  · simp only [hlen]
    omega
  · simp only [hlen]
    rw [← List.take_take, List.take_of_length_le (i := xs.length - k * u) (by simp)]
  · rw [← List.length_pos_iff, hlen]
    omega

theorem length_le_of_mem_chop {u : ℕ} {p : Piece α} (hp : p ∈ chop u xs) : p.data.length ≤ u := by
  obtain ⟨k, _, rfl⟩ := List.mem_map.1 hp
  exact List.length_take_le _ _

/-- Each piece begins where the one before it ends, or after. -/
theorem pairwise_chop (u : ℕ) (xs : List α) :
    (chop u xs).Pairwise fun p q => p.start + p.data.length ≤ q.start := by
  rw [chop, List.pairwise_map]
  refine List.pairwise_lt_range.imp fun {k l} hkl => ?_
  have hlen : ((xs.drop (k * u)).take u).length ≤ u := List.length_take_le _ _
  have hnext : (k + 1) * u ≤ l * u := Nat.mul_le_mul_right u hkl
  rw [Nat.add_mul, Nat.one_mul] at hnext
  simp only
  omega

/-- The pieces tile. -/
theorem chop_tiles {u : ℕ} (hu : 0 < u) : Tiles (chop u xs) xs.length := by
  intro i
  have hcovers : ∀ k ∈ List.range ((xs.length + u - 1) / u),
      (decide ((⟨k * u, (xs.drop (k * u)).take u⟩ : Piece α).Covers i) = true ↔
        decide (i < xs.length ∧ k = i / u) = true) := by
    intro k hk
    rw [List.mem_range, lt_length_of_mul_lt hu] at hk
    have hdiv : k = i / u ↔ k * u ≤ i ∧ i < k * u + u := by
      rw [eq_comm, Nat.div_eq_iff hu]
      omega
    simp only [decide_eq_true_eq, Piece.Covers, List.length_take, List.length_drop, hdiv]
    omega
  rw [chop, List.countP_map, Function.comp_def, List.countP_congr hcovers]
  by_cases hi : i < xs.length
  · have hmem : i / u ∈ List.range ((xs.length + u - 1) / u) := by
      rw [List.mem_range, lt_length_of_mul_lt hu]
      exact (Nat.div_mul_le_self i u).trans_lt hi
    simp only [hi, true_and, if_true]
    exact List.count_eq_one_of_mem List.nodup_range hmem
  · simp [hi]

end Library
