import ChessAnalytics.Chess.Play

/-! Lines of squares: how a walk goes on from a square in one of the eight directions, and what lies
between two squares of a line. -/
namespace ChessAnalytics.Chess

theorem rankIdx_lt (s : Square) : rankIdx s < 8 := by
  rw [rankIdx]
  omega

theorem fileIdx_lt (s : Square) : fileIdx s < 8 := by
  rw [fileIdx]
  omega

/-- Steps along the ranks and along the files. -/
abbrev Direction := Int × Int

def rookDirections : List Direction := [(1, 0), (-1, 0), (0, 1), (0, -1)]
def bishopDirections : List Direction := [(1, 1), (-1, 1), (1, -1), (-1, -1)]
def directions : List Direction := rookDirections ++ bishopDirections

def isOnBoard (x y : Int) : Bool := (0 ≤ x ∧ x < 8) ∧ 0 ≤ y ∧ y < 8

/-- The squares that a walk in a direction meets before it leaves the board. -/
def walk (d : Direction) : Nat → Int → Int → List Square
  | 0, _, _ => []
  | n + 1, row, col =>
    let row := row + d.1
    let col := col + d.2
    if isOnBoard row col then square col.toNat row.toNat :: walk d n row col else []

def ray (d : Direction) (s : Square) : List Square := walk d 8 (rankIdx s) (fileIdx s)

/-- The square some steps away, when it is on the board. -/
def stepped (d : Direction) (s : Square) (k : Nat) : Option Square :=
  let row := (rankIdx s : Int) + k * d.1
  let col := (fileIdx s : Int) + k * d.2
  if isOnBoard row col then some (square col.toNat row.toNat) else none

theorem isOnBoard_iff {x y : Int} : isOnBoard x y = true ↔ (0 ≤ x ∧ x < 8) ∧ 0 ≤ y ∧ y < 8 := decide_eq_true_iff

variable {d : Direction} {s t u : Square}

theorem direction_steps (hd : d ∈ directions) :
    (d.1 = -1 ∨ d.1 = 0 ∨ d.1 = 1) ∧ (d.2 = -1 ∨ d.2 = 0 ∨ d.2 = 1) ∧ (d.1 ≠ 0 ∨ d.2 ≠ 0) := by
  revert d
  decide

theorem neg_direction (hd : d ∈ directions) : -d ∈ directions := by
  revert d
  decide

theorem walk_get (d : Direction) (n : Nat) : ∀ (row col : Int) (k : Nat), (walk d n row col)[k]? =
    if k < n ∧ ∀ j ≤ k, isOnBoard (row + (j + 1) * d.1) (col + (j + 1) * d.2) = true
    then some (square (col + (k + 1) * d.2).toNat (row + (k + 1) * d.1).toNat) else none := by
  induction n with
  | zero =>
    intro row col k
    rw [walk, List.getElem?_nil, if_neg (by omega)]
  | succ n ih =>
    intro row col k
    rw [walk]
    by_cases hfirst : isOnBoard (row + d.1) (col + d.2) = true
    · rw [if_pos hfirst]
      cases k with
      | zero =>
        rw [List.getElem?_cons_zero, if_pos]
        · norm_num
        · refine ⟨by omega, fun j hj => ?_⟩
          obtain rfl : j = 0 := by omega
          norm_num
          exact hfirst
      | succ k =>
        rw [List.getElem?_cons_succ, ih]
        have hshift (z c : Int) (j : Nat) : z + c + (j + 1) * c = z + ((j + 1 : Nat) + 1) * c := by
          push_cast
          ring
        have hall : (k < n ∧ ∀ j ≤ k, isOnBoard (row + d.1 + (j + 1) * d.1) (col + d.2 + (j + 1) * d.2) = true) ↔
            k + 1 < n + 1 ∧ ∀ j ≤ k + 1, isOnBoard (row + (j + 1) * d.1) (col + (j + 1) * d.2) = true := by
          refine and_congr (by omega) ⟨fun h j hj => ?_, fun h j hj => ?_⟩
          · cases j with
            | zero =>
              norm_num
              exact hfirst
            | succ j =>
              rw [← hshift, ← hshift]
              exact h j (by omega)
          · rw [hshift, hshift]
            exact h (j + 1) (by omega)
        rw [hshift, hshift]
        exact if_congr hall rfl rfl
    · rw [if_neg hfirst, List.getElem?_nil, if_neg]
      rintro ⟨-, h⟩
      have hzero := h 0 (by omega)
      norm_num at hzero
      exact hfirst hzero

/-- A walk that is on the board after some steps has been on it all the time. -/
theorem ray_get (hd : d ∈ directions) (s : Square) (k : Nat) : (ray d s)[k]? = stepped d s (k + 1) := by
  obtain ⟨hrank, hfile, hmoves⟩ := direction_steps hd
  have hrows := rankIdx_lt s
  have hcols := fileIdx_lt s
  rw [ray, walk_get, stepped]
  simp only [isOnBoard_iff]
  push_cast
  refine if_congr ⟨fun h => h.2 k le_rfl, fun h => ⟨?_, fun j hj => ?_⟩⟩ rfl rfl
  · rcases hrank with h1 | h1 | h1 <;> rcases hfile with h2 | h2 | h2 <;> rw [h1, h2] at h <;> omega
  · rcases hrank with h1 | h1 | h1 <;> rcases hfile with h2 | h2 | h2 <;> rw [h1, h2] at h ⊢ <;> omega

theorem stepped_iff {k : Nat} : stepped d s k = some t ↔ rankStep s t = k * d.1 ∧ fileStep s t = k * d.2 := by
  have ht := rankIdx_lt t
  have ht' := fileIdx_lt t
  rw [stepped, rankStep, fileStep]
  constructor
  · intro h
    split at h
    · rename_i hboard
      rw [isOnBoard_iff] at hboard
      obtain rfl := Option.some_inj.mp h
      rw [rankIdx_square (by omega) (by omega), fileIdx_square _ (by omega)]
      omega
    · cases h
  · rintro ⟨hrank, hfile⟩
    have hboard : isOnBoard ((rankIdx s : Int) + k * d.1) ((fileIdx s : Int) + k * d.2) = true := by
      rw [isOnBoard_iff]
      omega
    rw [if_pos hboard, Option.some_inj]
    apply square_ext
    · rw [fileIdx_square _ (by omega)]
      omega
    · rw [rankIdx_square (by omega) (by omega)]
      omega

theorem mem_ray (hd : d ∈ directions) : t ∈ ray d s ↔ ∃ k : Nat, rankStep s t = (k + 1) * d.1 ∧ fileStep s t = (k + 1) * d.2 := by
  rw [List.mem_iff_getElem?]
  apply exists_congr
  intro k
  rw [ray_get hd, stepped_iff]
  push_cast
  rfl

theorem ray_towards (hd : d ∈ directions) (h : t ∈ ray d s) : d = ((rankStep s t).sign, (fileStep s t).sign) := by
  obtain ⟨hrank, hfile, -⟩ := direction_steps hd
  obtain ⟨k, hk1, hk2⟩ := (mem_ray hd).mp h
  have hsign {c : Int} (hc : c = -1 ∨ c = 0 ∨ c = 1) : ((k + 1) * c).sign = c := by
    rw [Int.sign_mul, Int.sign_eq_one_of_pos (by omega), one_mul]
    rcases hc with rfl | rfl | rfl <;> rfl
  rw [hk1, hk2, hsign hrank, hsign hfile]

theorem mem_ray_neg (hd : d ∈ directions) : t ∈ ray d s ↔ s ∈ ray (-d) t := by
  rw [mem_ray hd, mem_ray (neg_direction hd)]
  apply exists_congr
  intro k
  rw [rankStep, rankStep, fileStep, fileStep, Prod.fst_neg, Prod.snd_neg, mul_neg, mul_neg]
  omega

theorem ray_irrefl (hd : d ∈ directions) (s : Square) : s ∉ ray d s := by
  intro h
  obtain ⟨hrank, hfile, hmoves⟩ := direction_steps hd
  obtain ⟨k, hk1, hk2⟩ := (mem_ray hd).mp h
  rw [rankStep, Int.sub_self] at hk1
  rw [fileStep, Int.sub_self] at hk2
  rcases hrank with h1 | h1 | h1 <;> rcases hfile with h2 | h2 | h2 <;> rw [h1] at hk1 <;> rw [h2] at hk2 <;> omega

theorem ray_trans (hd : d ∈ directions) (hu : u ∈ ray d s) (ht : t ∈ ray d u) : t ∈ ray d s := by
  obtain ⟨k, hk1, hk2⟩ := (mem_ray hd).mp hu
  obtain ⟨j, hj1, hj2⟩ := (mem_ray hd).mp ht
  rw [mem_ray hd]
  refine ⟨k + j + 1, ?_, ?_⟩
  · rw [show rankStep s t = rankStep s u + rankStep u t by rw [rankStep, rankStep, rankStep]; omega, hk1, hj1]
    push_cast
    ring
  · rw [show fileStep s t = fileStep s u + fileStep u t by rw [fileStep, fileStep, fileStep]; omega, hk2, hj2]
    push_cast
    ring

theorem ray_total (hd : d ∈ directions) (ht : t ∈ ray d s) (hu : u ∈ ray d s) : t = u ∨ t ∈ ray d u ∨ u ∈ ray d t := by
  obtain ⟨k, hk1, hk2⟩ := (mem_ray hd).mp ht
  obtain ⟨j, hj1, hj2⟩ := (mem_ray hd).mp hu
  have hrank : rankStep u t = ((k : Int) - j) * d.1 := by
    rw [rankStep] at *
    rw [sub_mul]
    linarith
  have hfile : fileStep u t = ((k : Int) - j) * d.2 := by
    rw [fileStep] at *
    rw [sub_mul]
    linarith
  rcases Nat.lt_trichotomy k j with hlt | rfl | hgt
  · right; right
    rw [mem_ray_neg hd, mem_ray (neg_direction hd)]
    refine ⟨j - k - 1, ?_, ?_⟩
    · rw [hrank, Prod.fst_neg, mul_neg, ← neg_mul]
      congr 1
      omega
    · rw [hfile, Prod.snd_neg, mul_neg, ← neg_mul]
      congr 1
      omega
  · left
    rw [rankStep, Int.sub_self, zero_mul] at hrank
    rw [fileStep, Int.sub_self, zero_mul] at hfile
    apply square_ext
    · omega
    · omega
  · right; left
    rw [mem_ray hd]
    refine ⟨k - j - 1, ?_, ?_⟩
    · rw [hrank]
      congr 1
      omega
    · rw [hfile]
      congr 1
      omega

theorem straight_iff : Straight s t ↔ ∃ d ∈ rookDirections, t ∈ ray d s := by
  have hmem : ∀ d ∈ rookDirections, d ∈ directions := by decide
  have hstraight : ∀ d ∈ rookDirections, d.1 = 0 ∨ d.2 = 0 := by decide
  constructor
  · rintro ⟨hne, hline⟩
    have hmoves : fileStep s t ≠ 0 ∨ rankStep s t ≠ 0 := by
      by_contra hstill
      rw [fileStep, rankStep] at hstill
      exact hne (square_ext (by omega) (by omega))
    rcases lt_trichotomy (rankStep s t) 0 with hneg | hzero | hpos
    · exact ⟨(-1, 0), by decide, (mem_ray (by decide)).mpr ⟨(rankStep s t).natAbs - 1, by simp only; omega, by simp only; omega⟩⟩
    · rcases lt_or_gt_of_ne (show fileStep s t ≠ 0 by omega) with hneg | hpos
      · exact ⟨(0, -1), by decide, (mem_ray (by decide)).mpr ⟨(fileStep s t).natAbs - 1, by simp only; omega, by simp only; omega⟩⟩
      · exact ⟨(0, 1), by decide, (mem_ray (by decide)).mpr ⟨(fileStep s t).natAbs - 1, by simp only; omega, by simp only; omega⟩⟩
    · exact ⟨(1, 0), by decide, (mem_ray (by decide)).mpr ⟨(rankStep s t).natAbs - 1, by simp only; omega, by simp only; omega⟩⟩
  · rintro ⟨d, hd, ht⟩
    obtain ⟨k, hk1, hk2⟩ := (mem_ray (hmem d hd)).mp ht
    refine ⟨?_, ?_⟩
    · rintro rfl
      exact ray_irrefl (hmem d hd) s ht
    · rcases hstraight d hd with h | h
      · right
        rw [hk1, h, mul_zero]
      · left
        rw [hk2, h, mul_zero]

theorem diagonal_iff : Diagonal s t ↔ ∃ d ∈ bishopDirections, t ∈ ray d s := by
  have hmem : ∀ d ∈ bishopDirections, d ∈ directions := by decide
  have hdiagonal : ∀ d ∈ bishopDirections, d.1.natAbs = d.2.natAbs := by decide
  constructor
  · rintro ⟨hne, hline⟩
    have hmoves : rankStep s t ≠ 0 := by
      intro hstill
      rw [hstill, fileStep] at hline
      rw [rankStep] at hstill
      exact hne (square_ext (by omega) (by omega))
    rcases lt_or_gt_of_ne hmoves with hneg | hpos
    · rcases lt_or_gt_of_ne (show fileStep s t ≠ 0 by omega) with hneg' | hpos'
      · exact ⟨(-1, -1), by decide, (mem_ray (by decide)).mpr ⟨(rankStep s t).natAbs - 1, by simp only; omega, by simp only; omega⟩⟩
      · exact ⟨(-1, 1), by decide, (mem_ray (by decide)).mpr ⟨(rankStep s t).natAbs - 1, by simp only; omega, by simp only; omega⟩⟩
    · rcases lt_or_gt_of_ne (show fileStep s t ≠ 0 by omega) with hneg' | hpos'
      · exact ⟨(1, -1), by decide, (mem_ray (by decide)).mpr ⟨(rankStep s t).natAbs - 1, by simp only; omega, by simp only; omega⟩⟩
      · exact ⟨(1, 1), by decide, (mem_ray (by decide)).mpr ⟨(rankStep s t).natAbs - 1, by simp only; omega, by simp only; omega⟩⟩
  · rintro ⟨d, hd, ht⟩
    obtain ⟨k, hk1, hk2⟩ := (mem_ray (hmem d hd)).mp ht
    refine ⟨?_, ?_⟩
    · rintro rfl
      exact ray_irrefl (hmem d hd) s ht
    · rw [hk1, hk2, Int.natAbs_mul, Int.natAbs_mul, hdiagonal d hd]

theorem ray_between_iff (hd : d ∈ directions) {k : Nat} (hk : rankStep s t = (k + 1) * d.1 ∧ fileStep s t = (k + 1) * d.2) :
    u ∈ ray d s ∧ t ∈ ray d u ↔ ∃ j < k, stepped d s (j + 1) = some u := by
  obtain ⟨hrank, hfile, hmoves⟩ := direction_steps hd
  obtain ⟨hk1, hk2⟩ := hk
  have hsplitRank : rankStep u t = rankStep s t - rankStep s u := by
    rw [rankStep, rankStep, rankStep]
    omega
  have hsplitFile : fileStep u t = fileStep s t - fileStep s u := by
    rw [fileStep, fileStep, fileStep]
    omega
  rw [mem_ray hd, mem_ray hd]
  simp only [stepped_iff]
  constructor
  · rintro ⟨⟨j, hj1, hj2⟩, i, hi1, hi2⟩
    refine ⟨j, ?_, ?_⟩
    · rcases hrank with h1 | h1 | h1 <;> rcases hfile with h2 | h2 | h2 <;> rw [h1] at hk1 hj1 hi1 <;> rw [h2] at hk2 hj2 hi2 <;> omega
    · push_cast
      exact ⟨hj1, hj2⟩
  · rintro ⟨j, hj, hj1, hj2⟩
    push_cast at hj1 hj2
    refine ⟨⟨j, hj1, hj2⟩, k - j - 1, ?_, ?_⟩
    · rw [hsplitRank, hk1, hj1, ← sub_mul]
      congr 1
      omega
    · rw [hsplitFile, hk2, hj2, ← sub_mul]
      congr 1
      omega

theorem mem_between (hd : d ∈ directions) (ht : t ∈ ray d s) : u ∈ between s t ↔ u ∈ ray d s ∧ t ∈ ray d u := by
  obtain ⟨k, hk1, hk2⟩ := (mem_ray hd).mp ht
  obtain ⟨hrank, hfile, hmoves⟩ := direction_steps hd
  have hsign : ((k + 1) * d.1).sign = d.1 ∧ ((k + 1) * d.2).sign = d.2 := by
    have htowards := ray_towards hd ht
    rw [hk1, hk2] at htowards
    exact ⟨(congrArg Prod.fst htowards).symm, (congrArg Prod.snd htowards).symm⟩
  have hsteps : max ((k + 1) * d.2).natAbs ((k + 1) * d.1).natAbs - 1 = k := by
    rcases hrank with h1 | h1 | h1 <;> rcases hfile with h2 | h2 | h2 <;> rw [h1, h2] <;> omega
  have hreached : ∀ j < k, stepped d s (j + 1) = some (square (fileIdx s + ((j : Int) + 1) * d.2).toNat (rankIdx s + ((j : Int) + 1) * d.1).toNat) := by
    intro j hj
    have hs := rankIdx_lt s
    have hs' := fileIdx_lt s
    have ht := rankIdx_lt t
    have ht' := fileIdx_lt t
    rw [rankStep] at hk1
    rw [fileStep] at hk2
    rw [stepped]
    push_cast
    rw [if_pos]
    rw [isOnBoard_iff]
    rcases hrank with h1 | h1 | h1 <;> rcases hfile with h2 | h2 | h2 <;> rw [h1] at hk1 ⊢ <;> rw [h2] at hk2 ⊢ <;> omega
  rw [ray_between_iff hd ⟨hk1, hk2⟩, between, hk1, hk2, hsteps, hsign.1, hsign.2, List.mem_map]
  simp only [List.bind_eq_flatMap, List.pure_def, List.mem_flatMap, List.mem_range, List.mem_singleton]
  constructor
  · rintro ⟨-, ⟨j, hj, rfl⟩, rfl⟩
    exact ⟨j, hj, hreached j hj⟩
  · rintro ⟨j, hj, hstep⟩
    rw [hreached j hj] at hstep
    exact ⟨j, ⟨j, hj, rfl⟩, Option.some_inj.mp hstep⟩

theorem between_symm (hd : d ∈ directions) (ht : t ∈ ray d s) : u ∈ between t s ↔ u ∈ between s t := by
  have hback := (mem_ray_neg hd).mp ht
  rw [mem_between (neg_direction hd) hback, mem_between hd ht, mem_ray_neg (neg_direction hd), mem_ray_neg (neg_direction hd), neg_neg]
  exact and_comm

theorem straight_symm : Straight s t ↔ Straight t s := by
  rw [Straight, Straight, fileStep, fileStep, rankStep, rankStep, ne_comm]
  refine and_congr_right fun _ => ?_
  omega

theorem diagonal_symm : Diagonal s t ↔ Diagonal t s := by
  rw [Diagonal, Diagonal, fileStep, fileStep, rankStep, rankStep, ne_comm]
  refine and_congr_right fun _ => ?_
  omega

theorem exists_ray (h : Straight s t ∨ Diagonal s t) : ∃ d ∈ directions, t ∈ ray d s := by
  rcases h with h | h
  · obtain ⟨d, hd, ht⟩ := straight_iff.mp h
    exact ⟨d, List.mem_append_left _ hd, ht⟩
  · obtain ⟨d, hd, ht⟩ := diagonal_iff.mp h
    exact ⟨d, List.mem_append_right _ hd, ht⟩

theorem clear_symm {board : Board} (h : Straight s t ∨ Diagonal s t) : board.Clear t s ↔ board.Clear s t := by
  obtain ⟨d, hd, ht⟩ := exists_ray h
  rw [Board.Clear, Board.Clear]
  simp only [between_symm hd ht]

theorem ray_split (hd : d ∈ directions) {front rest : List Square} (h : ray d s = front ++ t :: rest) :
    t ∈ ray d s ∧ (∀ u, u ∈ front ↔ u ∈ between s t) ∧ ∀ u, u ∈ rest ↔ u ∈ ray d t := by
  have ht : stepped d s (front.length + 1) = some t := by
    rw [← ray_get hd, h, List.getElem?_append_right le_rfl, Nat.sub_self]
    rfl
  have hmem : t ∈ ray d s := by
    rw [h]
    simp
  refine ⟨hmem, fun u => ?_, fun u => ?_⟩
  · have hk := stepped_iff.mp ht
    push_cast at hk
    rw [mem_between hd hmem, ray_between_iff hd hk, List.mem_iff_getElem?]
    constructor
    · rintro ⟨j, hj⟩
      obtain ⟨hlt, -⟩ := List.getElem?_eq_some_iff.mp hj
      exact ⟨j, hlt, by rw [← ray_get hd, h, List.getElem?_append_left hlt, hj]⟩
    · rintro ⟨j, hlt, hj⟩
      rw [← ray_get hd, h, List.getElem?_append_left hlt] at hj
      exact ⟨j, hj⟩
  · obtain ⟨hk1, hk2⟩ := stepped_iff.mp ht
    rw [List.mem_iff_getElem?, mem_ray hd]
    apply exists_congr
    intro j
    have hafter : rest[j]? = stepped d s (front.length + 1 + (j + 1)) := by
      have hindex : front.length + 1 + j - front.length = j + 1 := by omega
      rw [← Nat.add_assoc, ← ray_get hd, h, List.getElem?_append_right (by omega), hindex, List.getElem?_cons_succ]
    have hrank : rankStep s u = rankStep s t + rankStep t u := by
      rw [rankStep, rankStep, rankStep]
      omega
    have hfile : fileStep s u = fileStep s t + fileStep t u := by
      rw [fileStep, fileStep, fileStep]
      omega
    rw [hafter, stepped_iff, hrank, hfile, hk1, hk2]
    push_cast
    rw [add_mul (front.length + 1 : Int), add_mul (front.length + 1 : Int), add_right_inj, add_right_inj]

theorem between_adjacent (h : max (fileStep s t).natAbs (rankStep s t).natAbs ≤ 1) : between s t = [] := by
  rw [between, Nat.sub_eq_zero_of_le h]
  rfl

/-- Two squares lie on one line with a third: on the same file, or on the same slope. -/
def InLine (k s t : Square) : Prop :=
  if fileStep k s = 0 ∨ fileStep k t = 0 then fileStep k s = fileStep k t
  else fileStep k s * rankStep k t = fileStep k t * rankStep k s

instance (k s t : Square) : Decidable (InLine k s t) := by
  unfold InLine
  infer_instance

variable {k : Square}

theorem inLine_of_ray (hd : d ∈ directions) (hs : s ∈ ray d k) (ht : t ∈ ray d k) : InLine k s t := by
  obtain ⟨i, hi, hi'⟩ := (mem_ray hd).mp hs
  obtain ⟨j, hj, hj'⟩ := (mem_ray hd).mp ht
  rw [InLine, hi, hi', hj, hj']
  obtain ⟨-, hfile, -⟩ := direction_steps hd
  rcases hfile with h | h | h
  · rw [if_neg (by rw [h]; omega)]
    ring
  · rw [h, mul_zero, mul_zero]
    rfl
  · rw [if_neg (by rw [h]; omega)]
    ring

theorem ray_of_inLine (hd : d ∈ directions) (hs : s ∈ ray d k) (hst : s ≠ t) (h : InLine k s t) :
    t ∈ ray d s ∨ t ∈ ray (-d) s := by
  obtain ⟨i, hi, hi'⟩ := (mem_ray hd).mp hs
  obtain ⟨hrank, hfile, hmoves⟩ := direction_steps hd
  have hpos : ((i : Int) + 1) ≠ 0 := by omega
  have hmultiple : ∃ n : Int, rankStep k t = n * d.1 ∧ fileStep k t = n * d.2 := by
    rw [InLine, hi, hi'] at h
    rcases hfile with h2 | h2 | h2
    · rw [h2] at h ⊢
      split at h
      · exact ⟨0, by omega, by omega⟩
      · refine ⟨-fileStep k t, ?_, by omega⟩
        apply mul_left_cancel₀ hpos
        linear_combination -h
    · rw [h2] at h ⊢
      rw [mul_zero, if_pos (.inl rfl)] at h
      refine ⟨rankStep k t * d.1, ?_, by omega⟩
      have hone : d.1 * d.1 = 1 := by
        rcases hrank with h1 | h1 | h1
        · rw [h1]
          rfl
        · omega
        · rw [h1]
          rfl
      rw [mul_assoc, hone, mul_one]
    · rw [h2] at h ⊢
      split at h
      · exact ⟨0, by omega, by omega⟩
      · refine ⟨fileStep k t, ?_, by omega⟩
        apply mul_left_cancel₀ hpos
        linear_combination h
  obtain ⟨n, hn, hn'⟩ := hmultiple
  have hrankStep : rankStep s t = (n - (i + 1)) * d.1 := by
    rw [sub_mul, ← hn, ← hi, rankStep, rankStep, rankStep]
    omega
  have hfileStep : fileStep s t = (n - (i + 1)) * d.2 := by
    rw [sub_mul, ← hn', ← hi', fileStep, fileStep, fileStep]
    omega
  rcases lt_trichotomy (n - (i + 1)) 0 with hneg | hzero | hpos'
  · right
    rw [mem_ray (neg_direction hd)]
    refine ⟨(i - n).toNat, ?_, ?_⟩
    · rw [hrankStep, Int.toNat_of_nonneg (by omega), Prod.fst_neg]
      ring
    · rw [hfileStep, Int.toNat_of_nonneg (by omega), Prod.snd_neg]
      ring
  · rw [hzero, zero_mul, rankStep] at hrankStep
    rw [hzero, zero_mul, fileStep] at hfileStep
    exact absurd (square_ext (by omega) (by omega)) hst
  · left
    rw [mem_ray hd]
    refine ⟨(n - (i + 1) - 1).toNat, ?_, ?_⟩
    · rw [hrankStep, Int.toNat_of_nonneg (by omega)]
      ring
    · rw [hfileStep, Int.toNat_of_nonneg (by omega)]
      ring

theorem fileIdx_mirror : ∀ s, fileIdx (mirror s) = fileIdx s := by decide
theorem rankIdx_mirror : ∀ s, rankIdx (mirror s) = 7 - rankIdx s := by decide

@[simp] theorem fileStep_mirror (s t : Square) : fileStep (mirror s) (mirror t) = fileStep s t := by
  rw [fileStep, fileStep, fileIdx_mirror, fileIdx_mirror]

@[simp] theorem rankStep_mirror (s t : Square) : rankStep (mirror s) (mirror t) = -rankStep s t := by
  have hs := rankIdx_lt s
  have ht := rankIdx_lt t
  rw [rankStep, rankStep, rankIdx_mirror, rankIdx_mirror]
  omega

@[simp] theorem mirror_inj {s t : Square} : mirror s = mirror t ↔ s = t := by
  constructor
  · intro h
    rw [← mirror_mirror s, h, mirror_mirror]
  · rintro rfl
    rfl

theorem straight_mirror : Straight (mirror s) (mirror t) ↔ Straight s t := by
  rw [Straight, Straight, fileStep_mirror, rankStep_mirror, Int.neg_eq_zero, Ne, mirror_inj]

theorem diagonal_mirror : Diagonal (mirror s) (mirror t) ↔ Diagonal s t := by
  rw [Diagonal, Diagonal, fileStep_mirror, rankStep_mirror, Int.natAbs_neg, Ne, mirror_inj]

theorem mirror_direction (hd : d ∈ directions) : ((-d.1, d.2) : Direction) ∈ directions := by
  revert d
  decide

theorem mem_ray_mirror (hd : d ∈ directions) : mirror t ∈ ray (-d.1, d.2) (mirror s) ↔ t ∈ ray d s := by
  rw [mem_ray (mirror_direction hd), mem_ray hd]
  apply exists_congr
  intro k
  rw [rankStep_mirror, fileStep_mirror, mul_neg, neg_inj]

theorem mem_between_mirror (h : Straight s t ∨ Diagonal s t) : mirror u ∈ between (mirror s) (mirror t) ↔ u ∈ between s t := by
  obtain ⟨d, hd, ht⟩ := exists_ray h
  rw [mem_between (mirror_direction hd) ((mem_ray_mirror hd).mpr ht), mem_between hd ht, mem_ray_mirror hd, mem_ray_mirror hd]

end ChessAnalytics.Chess
