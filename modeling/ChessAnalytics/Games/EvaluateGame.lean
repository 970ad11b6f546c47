import ChessAnalytics.Games.Scores
import ChessAnalytics.Strings.Fixed
import ChessAnalytics.Pgn.Mainline

/-! The evaluation table of a game: the loop of `run` with its two branches, the summary, and the
rows that are saved. -/
namespace ChessAnalytics.Games
open Strings Chess Pgn

/-- What `run` uses of python-chess: a move hands the turn over, and Black's move ends a full
move. -/
structure Rules extends PyChess where
  isGameOver : Board → Bool
  isCheckmate : Board → Bool
  turn_push : ∀ b m, turn (push b m) = (turn b).other
  fullmove_push : ∀ b m, fullmoveNumber (push b m) = fullmoveNumber b + if turn b = .black then 1 else 0

/-- The exceptions that leave `run`. -/
inductive PyError where
  | unboundLocal
  | value
  | index
  deriving DecidableEq

/-- The scores of the two engines, by the index of the ply. -/
structure Infos where
  sf : Nat → PovScore
  lc0 : Nat → PovScore

/-- The format `+d`. -/
def signedInt (z : Int) : Str := if z < 0 then showInt z else '+' :: showInt z

/-- The format `+.2f`. -/
def signedFixed (x : ℚ) : Str :=
  if x < 0 then CFloat.fixed 2 (.finite true |x|.toNNRat) else '+' :: CFloat.fixed 2 (.finite false |x|.toNNRat)

def cpStr (score : PovScore) : Str :=
  match score.white with
  | .cp c => signedFixed ((c : ℚ) / 100)
  | .mate m => 'M' :: signedInt m
  | .mateGiven => 'M' :: signedInt 0

/-- The bar of a row. The conversion to an integer cuts the fraction off. -/
def bar (cp : ℚ) (width : Nat) : Str :=
  let mid : Int := (width / 2 : Nat)
  let clamped := max (-4) (min 4 cp)
  let offset := (clamped / 4 * mid).num.tdiv (clamped / 4 * mid).den
  (List.range width).map fun i =>
    if mid ≤ i ∧ (i : Int) < mid + offset then '█'
    else if mid + offset ≤ i ∧ (i : Int) < mid then '░'
    else if (i : Int) = mid then '┼' else '─'

/-- A row of the table, as it is printed or as it is saved. -/
structure TableRow where
  label : Str
  san : Str
  sf : Str
  lc0 : Str
  bar : Str
  deriving DecidableEq

def dotOf (side : Color) : Str :=
  match side with
  | .white => ".".toList
  | .black => "…".toList

/-- The variables of the loop and the rows it has printed. `dot` is not set before the first ply
that is analysed. -/
structure Evals where
  sfCps : List ℚ
  lc0Cps : List ℚ
  labels : List Str
  dot : Option Str
  rows : List TableRow
  deriving DecidableEq

def Evals.empty : Evals := ⟨[], [], [], none, []⟩

section
variable {R : Rules} (infos : Infos)

/-- One iteration, with the exception that leaves it. -/
def evalPly (t : Evals) (i : Nat) (board : R.Board) (move : R.Move) : Evals × Option PyError :=
  let full := i / 2 + 1
  let side := R.turn board
  let san := R.san board move
  let board := R.push board move
  if R.isGameOver board then
    let sfCp : ℚ := if R.isCheckmate board then 10000 else 0
    let sfStr := if R.isCheckmate board then "M+0".toList else "draw".toList
    let t := { t with
      sfCps := t.sfCps ++ [sfCp]
      lc0Cps := t.lc0Cps ++ [sfCp]
      labels := t.labels ++ [showNat full ++ dotOf side] }
    match t.dot with
    | none => (t, some .unboundLocal)
    | some dot => ({ t with rows := t.rows ++ [⟨showNat full ++ dot, san, sfStr, sfStr, bar sfCp 32⟩] }, none)
  else
    let sfCp := whitePawns (infos.sf i)
    let lc0Cp := whitePawns (infos.lc0 i)
    let label := showNat full ++ dotOf side
    ({ sfCps := t.sfCps ++ [sfCp]
       lc0Cps := t.lc0Cps ++ [lc0Cp]
       labels := t.labels ++ [label]
       dot := some (dotOf side)
       rows := t.rows ++ [⟨label, san, cpStr (infos.sf i), cpStr (infos.lc0 i), bar sfCp 32⟩] }, none)

def evalLoop (t : Evals) : Nat → R.Board → List R.Move → Evals × Option PyError
  | _, _, [] => (t, none)
  | i, board, move :: moves =>
    match evalPly infos t i board move with
    | (t, some e) => (t, some e)
    | (t, none) => evalLoop t (i + 1) (R.push board move) moves

/-- The variables when the loop ends or is left. -/
def evals (g : Game R.toPyChess) : Evals × Option PyError := evalLoop infos .empty 0 g.board g.mainlineMoves

structure Summary where
  peakWhite : ℚ × ℚ
  peakBlack : ℚ × ℚ
  swing : ℚ × Nat
  swingLabel : Str
  disagreement : ℚ
  deriving DecidableEq

def orRaise {α : Type} (e : PyError) : Option α → Except PyError α
  | some x => .ok x
  | none => .error e

def swings (cps : List ℚ) : List (ℚ × Nat) := (cps.zip cps.tail).zipIdx.map fun ((a, b), i) => (|b - a|, i + 1)

def laterPair (x y : ℚ × Nat) : ℚ × Nat := if x.1 < y.1 ∨ (x.1 = y.1 ∧ x.2 < y.2) then y else x

/-- `max` of a list of tuples. -/
def maxPair : List (ℚ × Nat) → Option (ℚ × Nat)
  | [] => none
  | x :: xs => some (xs.foldl laterPair x)

def disagreement (sfCps lc0Cps : List ℚ) : ℚ := (List.zipWith (fun a b => |a - b|) sfCps lc0Cps).sum / sfCps.length

def summary (t : Evals) : Except PyError Summary := do
  let whiteSf ← orRaise .value t.sfCps.max?
  let whiteLc0 ← orRaise .value t.lc0Cps.max?
  let blackSf ← orRaise .value t.sfCps.min?
  let blackLc0 ← orRaise .value t.lc0Cps.min?
  let swing ← orRaise .value (maxPair (swings t.sfCps))
  let swingLabel ← orRaise .index t.labels[swing.2]?
  return ⟨(whiteSf, whiteLc0), (blackSf, blackLc0), swing, swingLabel, disagreement t.sfCps t.lc0Cps⟩

/-- `_replay_boards`, on the moves that are left. -/
def replayBoards : R.Board → List R.Move → List R.Board
  | board, [] => [board]
  | board, move :: moves => board :: replayBoards (R.push board move) moves

def replaySans (g : Game R.toPyChess) : List Str :=
  List.zipWith R.san (replayBoards g.board g.mainlineMoves) g.mainlineMoves

def savedRow (label san : Str) (sfCp lc0Cp : ℚ) : TableRow :=
  ⟨label, san, signedFixed sfCp, signedFixed lc0Cp, bar sfCp 32⟩

/-- The rows of `game_evals.txt`. -/
def savedRows (labels sans : List Str) (sfCps lc0Cps : List ℚ) : List TableRow :=
  ((labels.zip sans).zip (sfCps.zip lc0Cps)).map fun ((label, san), sfCp, lc0Cp) => savedRow label san sfCp lc0Cp

structure Report where
  evals : Evals
  summary : Summary
  saved : List TableRow
  deriving DecidableEq

def run (g : Game R.toPyChess) : Except PyError Report :=
  match evals infos g with
  | (_, some e) => .error e
  | (t, none) =>
    match summary t with
    | .error e => .error e
    | .ok s => .ok ⟨t, s, savedRows t.labels (replaySans g) t.sfCps t.lc0Cps⟩

def overAt (g : Game R.toPyChess) (k : Nat) : Bool := R.isGameOver (boardAt g (k + 1))

def numberAt (score : Nat → PovScore) (g : Game R.toPyChess) (k : Nat) : ℚ :=
  if overAt g k then if R.isCheckmate (boardAt g (k + 1)) then 10000 else 0 else whitePawns (score k)

def labelAt (g : Game R.toPyChess) (k : Nat) : Str := showNat (k / 2 + 1) ++ dotOf (R.turn (boardAt g k))

/-- The value of `dot` in front of this ply: that of the last ply that was analysed. -/
def dotBefore (g : Game R.toPyChess) : Nat → Option Str
  | 0 => none
  | k + 1 => if overAt g k then dotBefore g k else some (dotOf (R.turn (boardAt g k)))

/-- The row that is printed for this ply, if the loop comes so far. -/
def printedRow (g : Game R.toPyChess) (k : Nat) : Option TableRow :=
  g.mainlineMoves[k]?.bind fun move =>
    if overAt g k then
      let str := if R.isCheckmate (boardAt g (k + 1)) then "M+0".toList else "draw".toList
      (dotBefore g k).map fun dot =>
        ⟨showNat (k / 2 + 1) ++ dot, R.san (boardAt g k) move, str, str, bar (numberAt infos.sf g k) 32⟩
    else
      some ⟨labelAt g k, R.san (boardAt g k) move, cpStr (infos.sf k), cpStr (infos.lc0 k), bar (numberAt infos.sf g k) 32⟩

def evalsAt (g : Game R.toPyChess) (k : Nat) : Evals where
  sfCps := (List.range k).map (numberAt infos.sf g)
  lc0Cps := (List.range k).map (numberAt infos.lc0 g)
  labels := (List.range k).map (labelAt g)
  dot := dotBefore g k
  rows := (List.range k).filterMap (printedRow infos g)

/-- The number of plies that the loop gets to. -/
def reached (g : Game R.toPyChess) : Nat := if overAt g 0 then min 1 g.mainlineMoves.length else g.mainlineMoves.length

private theorem evalPly_eq {g : Game R.toPyChess} {k : Nat} {move : R.Move} (h : g.mainlineMoves[k]? = some move) :
    evalPly infos (evalsAt infos g k) k (boardAt g k) move =
      (evalsAt infos g (k + 1), if overAt g k ∧ dotBefore g k = none then some .unboundLocal else none) := by
  have hpush := (boardAt_succ h).symm
  simp only [evalPly, hpush, evalsAt, List.range_succ, List.map_append, List.filterMap_append]
  by_cases hover : overAt g k = true
  · have hgame : R.isGameOver (boardAt g (k + 1)) = true := hover
    cases hdot : dotBefore g k with
    | none => simp [hgame, hover, hdot, numberAt, labelAt, dotBefore, printedRow]
    | some dot => simp [hgame, hover, hdot, numberAt, labelAt, dotBefore, printedRow, h]
  · have hgame : ¬ R.isGameOver (boardAt g (k + 1)) = true := hover
    simp [hgame, hover, numberAt, labelAt, dotBefore, printedRow, h]

theorem dotBefore_isSome {g : Game R.toPyChess} (hfirst : overAt g 0 = false) (k : Nat) :
    dotBefore g (k + 1) ≠ none := by
  induction k with
  | zero => simp [dotBefore, hfirst]
  | succ k ih =>
    rw [dotBefore]
    split
    · exact ih
    · simp

private theorem evalLoop_eq {g : Game R.toPyChess} (hfirst : overAt g 0 = false) {k n : Nat}
    (hn : k + n = g.mainlineMoves.length) :
    evalLoop infos (evalsAt infos g k) k (boardAt g k) (g.mainlineMoves.drop k) =
      (evalsAt infos g g.mainlineMoves.length, none) := by
  refine @loop_induction _ g none (fun k _ => evalLoop infos (evalsAt infos g k) k (boardAt g k) (g.mainlineMoves.drop k) =
      (evalsAt infos g g.mainlineMoves.length, none)) ?_ (fun k n move h ih => ?_) _ _ hn
  · rw [analysed, List.drop_length]
    rfl
  · have hgo : ¬ (overAt g k ∧ dotBefore g k = none) := by
      rintro ⟨hover, hdot⟩
      cases k with
      | zero => exact Bool.false_ne_true (hfirst.symm.trans hover)
      | succ k => exact dotBefore_isSome hfirst k hdot
    rw [h.board] at ih
    rw [h.drop, evalLoop, evalPly_eq infos h.get, if_neg hgo]
    exact ih

/-- The loop gets through the game unless its first ply ends it. -/
theorem evals_eq (g : Game R.toPyChess) :
    evals infos g = (evalsAt infos g (reached g),
      if overAt g 0 ∧ g.mainlineMoves ≠ [] then some .unboundLocal else none) := by
  cases hover : overAt g 0 with
  | false =>
    have hloop := evalLoop_eq infos hover (Nat.zero_add g.mainlineMoves.length)
    rw [List.drop_zero] at hloop
    rw [reached, hover]
    exact hloop
  | true =>
    rw [reached, hover]
    cases hmoves : g.mainlineMoves with
    | nil =>
      rw [evals, hmoves]
      rfl
    | cons move moves =>
      have hply := evalPly_eq infos (g := g) (k := 0) (by rw [hmoves]; rfl)
      rw [if_pos ⟨hover, rfl⟩] at hply
      have hstart : evalPly infos .empty 0 g.board move = _ := hply
      rw [evals, hmoves, evalLoop, hstart]
      simp

end

end ChessAnalytics.Games
