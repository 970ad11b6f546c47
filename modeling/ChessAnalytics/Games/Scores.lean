import ChessAnalytics.Surprise.Analysis

/-! The verdicts of the engines as python-chess scores, and the two numbers the scripts make of
them. -/
namespace ChessAnalytics.Games
open Chess

/-- `Cp`, `Mate` and `MateGiven`. A mate counts moves; the side is mated when the count is not
positive. -/
inductive Score where
  | cp (c : Int)
  | mate (moves : Int)
  | mateGiven
  deriving DecidableEq

namespace Score

def neg : Score → Score
  | .cp c => .cp (-c)
  | .mate m => if m = 0 then .mateGiven else .mate (-m)
  | .mateGiven => .mate 0

def score (mateScore : Int) : Score → Int
  | .cp c => c
  | .mate m => if m > 0 then mateScore - m else -mateScore - m
  | .mateGiven => mateScore

/-- The first verdict is not better than the second. -/
def NotAbove : Score → Score → Prop
  | .mate m, .mate n => (m ≤ 0 ∧ 0 < n) ∨ ((0 < m ↔ 0 < n) ∧ n ≤ m)
  | .mate m, .cp _ => m ≤ 0
  | .cp _, .mate n => 0 < n
  | .cp c, .cp d => c ≤ d
  | _, .mateGiven => True
  | .mateGiven, _ => False

end Score

/-- A score of the side to move, as an engine prints it. -/
structure PovScore where
  relative : Score
  turn : Color

def PovScore.white (p : PovScore) : Score :=
  match p.turn with
  | .white => p.relative
  | .black => p.relative.neg

/-- `mate_score` in `run`. -/
def mateScore : Int := 10000

/-- `score.white().score(mate_score=10000) / 100`. -/
def whitePawns (p : PovScore) : ℚ := (p.white.score mateScore : ℚ) / 100

def maxPly : Int := 246
def valueMate : Int := 32000
def valueTb : Int := valueMate - maxPly - 1
def valueTbWinInMaxPly : Int := valueTb - maxPly

/-- `a` of `win_rate_params`, for the material on the board. -/
def winRateA (material : Nat) : ℚ :=
  let m : ℚ := (max 17 (min material 78) : Nat) / 58
  (((-72.32565836 * m + 185.93832038) * m + -144.58862193) * m) + 416.44950446

/-- `std::round`: to the nearest integer, and from zero in the middle. -/
def roundAway (x : ℚ) : Int := if 0 ≤ x then ⌊x + 1 / 2⌋ else -⌊-x + 1 / 2⌋

def toCp (v : Int) (material : Nat) : Int := roundAway (100 * v / winRateA material)

/-- The scores that Stockfish prints when it uses no tablebases. -/
inductive StockfishPrints : Score → Prop where
  | cp (v : Int) (material : Nat) (nonDecisive : |v| < valueTbWinInMaxPly) : StockfishPrints (.cp (toCp v material))
  | mate (n : Int) : StockfishPrints (.mate n)

private theorem winRateA_ge (material : Nat) : 350 ≤ winRateA material := by
  have hlo : (17 : ℚ) ≤ (max 17 (min material 78) : Nat) := by exact_mod_cast le_max_left _ _
  have hhi : ((max 17 (min material 78) : Nat) : ℚ) ≤ 78 := by
    exact_mod_cast max_le (by decide) (min_le_right _ _)
  rw [winRateA]
  set k : ℚ := ((max 17 (min material 78) : Nat) : ℚ)
  have hm : 0 ≤ k / 58 := by linarith
  have hm' : k / 58 ≤ 78 / 58 := by linarith
  nlinarith [mul_nonneg hm hm, mul_nonneg (mul_nonneg hm hm) (sub_nonneg.mpr hm'), sq_nonneg (k / 58 - 4 / 5)]

theorem abs_roundAway_le (x : ℚ) : |(roundAway x : ℚ)| ≤ |x| + 1 / 2 := by
  rw [roundAway]
  split
  · rename_i h
    have hfloor := Int.floor_le (x + 1 / 2)
    have hnonneg : 0 ≤ ⌊x + 1 / 2⌋ := Int.floor_nonneg.mpr (by linarith)
    rw [abs_of_nonneg h, abs_of_nonneg (by exact_mod_cast hnonneg)]
    exact hfloor
  · rename_i h
    have hneg : x < 0 := not_le.mp h
    have hfloor := Int.floor_le (-x + 1 / 2)
    have hnonneg : 0 ≤ ⌊-x + 1 / 2⌋ := Int.floor_nonneg.mpr (by linarith)
    rw [Int.cast_neg, abs_neg, abs_of_neg hneg, abs_of_nonneg (by exact_mod_cast hnonneg)]
    exact hfloor

/-- A value that is not decisive stays far below the number of a mate. -/
theorem abs_toCp_lt {v : Int} (hv : |v| < valueTbWinInMaxPly) (material : Nat) : |toCp v material| < 9010 := by
  have ha := winRateA_ge material
  have hbound : (|v| : ℚ) ≤ 31506 := by
    have : |v| ≤ 31506 := Int.lt_add_one_iff.mp hv
    exact_mod_cast this
  have hquot : |100 * (v : ℚ) / winRateA material| ≤ 100 * 31506 / 350 := by
    rw [abs_div, abs_mul, abs_of_pos (by linarith : 0 < winRateA material), abs_of_pos (by norm_num : (0 : ℚ) < 100)]
    exact div_le_div₀ (by norm_num) (by linarith) (by norm_num) ha
  have hround := abs_roundAway_le (100 * (v : ℚ) / winRateA material)
  have : (|toCp v material| : ℚ) < 9010 := by
    rw [toCp]
    linarith
  exact_mod_cast this

/-- `centipawn_score` of `SendUciInfo`, cut off to an integer. It is the default score of a root edge
that is not terminal from `|wl| + d = 0.996` on, and so for a certain win; below that the default may
be the rescaled score instead. -/
noncomputable def lc0Cp (wl : ℝ) : Int :=
  if 0 ≤ wl then ⌊45 * Real.tan (1.56728071628 * wl)⌋ else -⌊45 * Real.tan (1.56728071628 * -wl)⌋

/-- A certain win is printed with more centipawns than any mate is counted for. -/
theorem lc0Cp_one : 12600 ≤ lc0Cp 1 := by
  rw [lc0Cp, if_pos zero_le_one, mul_one, Int.le_floor]
  have hpi := Real.pi_lt_d6
  have hpi' := Real.pi_gt_d6
  obtain ⟨δ, hdef⟩ : ∃ δ, δ = Real.pi / 2 - 1.56728071628 := ⟨_, rfl⟩
  have hδ : 0 < δ := by linarith
  have hδ' : δ < 0.003516 := by linarith
  have htan : Real.tan 1.56728071628 = Real.cos δ / Real.sin δ := by
    rw [show (1.56728071628 : ℝ) = Real.pi / 2 - δ by linarith, Real.tan_eq_sin_div_cos, Real.sin_pi_div_two_sub,
      Real.cos_pi_div_two_sub]
  have hsin : Real.sin δ ≤ δ := Real.sin_le hδ.le
  have hsin' : 0 < Real.sin δ := Real.sin_pos_of_pos_of_lt_pi hδ (by linarith)
  have hcos : 1 - δ ^ 2 / 2 ≤ Real.cos δ := Real.one_sub_sq_div_two_le_cos
  have hcos' : (0.9999 : ℝ) ≤ Real.cos δ := by nlinarith
  rw [htan, mul_div_assoc', le_div_iff₀ hsin']
  push_cast
  nlinarith

/-- The verdict of an `Evaluation`. -/
def verdictOf (e : Stockfish.Evaluation) : Option Score :=
  match e.scoreCp, e.mateIn with
  | some cp, _ => some (.cp cp)
  | none, some m => some (.mate m)
  | none, none => none

/-- A centipawn score between the numbers of the two mates it is compared with, and mates that
are not too far apart. -/
def Fits : Score → Score → Prop
  | .mate m, .mate n => m ≤ 0 → 0 < n → n - m ≤ 2 * mateScore
  | .mate m, .cp c => -mateScore - m ≤ c
  | .cp c, .mate n => c ≤ mateScore - n
  | .cp c, .mateGiven => c ≤ mateScore
  | .mate m, .mateGiven => -m ≤ 2 * mateScore
  | _, _ => True

theorem score_le_iff {s t : Score} (h : s.NotAbove t) : s.score mateScore ≤ t.score mateScore ↔ Fits s t := by
  cases s with
  | cp c =>
    cases t with
    | cp d => exact iff_of_true h trivial
    | mate n =>
      change c ≤ (if n > 0 then mateScore - n else _) ↔ c ≤ mateScore - n
      rw [if_pos (show n > 0 from h)]
    | mateGiven => exact Iff.rfl
  | mate m =>
    cases t with
    | cp d =>
      change (if m > 0 then _ else -mateScore - m) ≤ d ↔ -mateScore - m ≤ d
      rw [if_neg (not_lt.mpr h)]
    | mate n =>
      simp only [Score.score, Fits, mateScore]
      rcases h with ⟨hm, hn⟩ | ⟨hsame, hle⟩
      · rw [if_neg (not_lt.mpr hm), if_pos hn]
        omega
      · split <;> split <;> omega
    | mateGiven =>
      simp only [Score.score, Fits, mateScore]
      split <;> omega
  | mateGiven =>
    cases t with
    | mateGiven => exact iff_of_true le_rfl trivial
    | cp d => exact h.elim
    | mate n => exact h.elim

theorem whitePawns_le_iff {p q : PovScore} (h : p.white.NotAbove q.white) :
    whitePawns p ≤ whitePawns q ↔ Fits p.white q.white := by
  rw [← score_le_iff h, whitePawns, whitePawns, div_le_div_iff_of_pos_right (by norm_num), Int.cast_le]

/-- A verdict whose number stays far from those of other kinds. -/
inductive Score.Near : Score → Prop where
  | cp (c : Int) (h : |c| < 9010) : Near (.cp c)
  | mate (m : Int) (h : |m| ≤ maxPly) : Near (.mate m)
  | mateGiven : Near .mateGiven

theorem Score.Near.neg {s : Score} (h : s.Near) : s.neg.Near := by
  cases h with
  | cp c h => exact .cp _ (by rwa [abs_neg])
  | mate m h =>
    rw [Score.neg]
    split
    · exact .mateGiven
    · exact .mate _ (by rwa [abs_neg])
  | mateGiven => exact .mate 0 (by decide)

theorem Score.Near.fits {s t : Score} (hs : s.Near) (ht : t.Near) : Fits s t := by
  cases hs with
  | cp c hc =>
    have hbound := abs_lt.mp hc
    cases ht with
    | cp d hd => trivial
    | mate n hn =>
      have hn' := abs_le.mp hn
      change c ≤ mateScore - n
      rw [mateScore]
      simp only [maxPly] at hn'
      omega
    | mateGiven =>
      change c ≤ mateScore
      rw [mateScore]
      omega
  | mate m hm =>
    have hbound := abs_le.mp hm
    simp only [maxPly] at hbound
    cases ht with
    | cp d hd =>
      have hd' := abs_lt.mp hd
      change -mateScore - m ≤ d
      rw [mateScore]
      omega
    | mate n hn =>
      have hn' := abs_le.mp hn
      simp only [maxPly] at hn'
      intro _ _
      rw [mateScore]
      omega
    | mateGiven =>
      change -m ≤ 2 * mateScore
      rw [mateScore]
      omega
  | mateGiven => cases ht <;> trivial

/-- Stockfish's own column keeps the order of its verdicts: it does not count a mate beyond the plies
it can search. -/
theorem stockfish_column_mono {p q : PovScore} (hp : StockfishPrints p.relative) (hq : StockfishPrints q.relative)
    (hmate : ∀ r ∈ [p, q], ∀ n, r.relative = .mate n → |n| ≤ maxPly) (hle : p.white.NotAbove q.white) :
    whitePawns p ≤ whitePawns q := by
  have hnear {r : PovScore} (hr : StockfishPrints r.relative) (hbound : ∀ n, r.relative = .mate n → |n| ≤ maxPly) :
      r.white.Near := by
    have hrelative : r.relative.Near := by
      cases hscore : r.relative with
      | cp c =>
        rw [hscore] at hr
        cases hr with
        | cp v material hv => exact .cp _ (abs_toCp_lt hv material)
      | mate n => exact .mate n (hbound n hscore)
      | mateGiven => exact .mateGiven
    rw [PovScore.white]
    split
    · exact hrelative
    · exact hrelative.neg
  rw [whitePawns_le_iff hle]
  exact (hnear hp (hmate p (by simp))).fits (hnear hq (hmate q (by simp)))

/-- The number that `analyze_games` stores for a verdict. -/
def storedScore : Score → Option Int
  | .cp c => some c
  | .mate m => some (if m > 0 then 10000 else -10000)
  | .mateGiven => none

theorem sfScore_verdict {e : Stockfish.Evaluation} {s : Score} (h : verdictOf e = some s) :
    Surprise.sfScore e = storedScore s := by
  rw [Surprise.sfScore]
  rw [verdictOf] at h
  cases hcp : e.scoreCp with
  | some cp =>
    rw [hcp] at h
    cases h
    rfl
  | none =>
    cases hmate : e.mateIn with
    | some m =>
      rw [hcp, hmate] at h
      cases h
      exact congrArg some (by split <;> rfl)
    | none =>
      rw [hcp, hmate] at h
      cases h

/-- The numbers of `analyze_games` in the order of the verdicts. -/
theorem sfScore_mono {s t : Score} {e f : Stockfish.Evaluation} {x y : Int} (hs : verdictOf e = some s)
    (ht : verdictOf f = some t) (hprints : StockfishPrints s) (hprints' : StockfishPrints t) (hle : s.NotAbove t)
    (hx : Surprise.sfScore e = some x) (hy : Surprise.sfScore f = some y) : x ≤ y := by
  rw [sfScore_verdict hs] at hx
  rw [sfScore_verdict ht] at hy
  cases hprints with
  | cp v material hv =>
    obtain rfl := Option.some_inj.mp hx
    have hbound := abs_lt.mp (abs_toCp_lt hv material)
    cases hprints' with
    | cp w material' hw =>
      obtain rfl := Option.some_inj.mp hy
      exact hle
    | mate n =>
      obtain rfl := Option.some_inj.mp hy
      rw [if_pos (show n > 0 from hle)]
      omega
  | mate m =>
    obtain rfl := Option.some_inj.mp hx
    cases hprints' with
    | cp w material' hw =>
      obtain rfl := Option.some_inj.mp hy
      have hbound := abs_lt.mp (abs_toCp_lt hw material')
      rw [if_neg (not_lt.mpr (show m ≤ 0 from hle))]
      omega
    | mate n =>
      obtain rfl := Option.some_inj.mp hy
      rcases hle with ⟨hm, hn⟩ | ⟨hsame, -⟩
      · rw [if_neg (not_lt.mpr hm), if_pos hn]
        omega
      · split <;> split <;> omega

/-- The two encodings. What `analyze_games` stores keeps the order of all verdicts that Stockfish
prints without tablebases. What `run` appends keeps the order of two verdicts from White's point of
view exactly if their numbers fit. -/
theorem encodings_ordered_iff (e f : Stockfish.Evaluation) (p q : PovScore) :
    (∀ (s t : Score) (x y : Int), verdictOf e = some s → verdictOf f = some t →
      StockfishPrints s → StockfishPrints t → s.NotAbove t → Surprise.sfScore e = some x → Surprise.sfScore f = some y →
        x ≤ y) ∧
    (p.white.NotAbove q.white → (whitePawns p ≤ whitePawns q ↔ Fits p.white q.white)) := by
  refine ⟨fun s t x y hs ht hprints hprints' hle hx hy => ?_, fun hle => ?_⟩
  · exact sfScore_mono hs ht hprints hprints' hle hx hy
  · exact whitePawns_le_iff hle

theorem encodings_ordered_pawn : whitePawns ⟨.cp 30, .white⟩ ≤ whitePawns ⟨.mate 1, .white⟩ :=
  ((encodings_ordered_iff ⟨[], 18, some 30, none, [], none, none, none⟩ ⟨[], 18, none, some 1, [], none, none, none⟩
    ⟨.cp 30, .white⟩ ⟨.mate 1, .white⟩).2 Int.one_pos).mpr (by change (30 : Int) ≤ 10000 - 1; decide)

/-- lc0's most certain win without a mate counts more than its mate in one. -/
theorem lc0_win_above_mate :
    (⟨.cp (lc0Cp 1), .white⟩ : PovScore).white.NotAbove (⟨.mate 1, .white⟩ : PovScore).white ∧
      ¬ whitePawns ⟨.cp (lc0Cp 1), .white⟩ ≤ whitePawns ⟨.mate 1, .white⟩ := by
  have hle : (⟨.cp (lc0Cp 1), .white⟩ : PovScore).white.NotAbove (⟨.mate 1, .white⟩ : PovScore).white := Int.one_pos
  refine ⟨hle, fun h => ?_⟩
  have hfits : lc0Cp 1 ≤ 10000 - 1 := (whitePawns_le_iff hle).mp h
  have hcp := lc0Cp_one
  omega

end ChessAnalytics.Games
