import ChessAnalytics.Chess.Material
import ChessAnalytics.Systems.Countdown

/-! The game between two engines that `play_game` drives, and why it ends. -/
namespace ChessAnalytics.Games
open Chess Systems

/-- What `run` uses of python-chess. A legal move changes the board as the rules of chess say; it
puts the half-move clock forward or back, and back only when it takes a piece or moves a pawn. A
game is over at the latest when there is no legal move or when the clock has come to 150; it may be
over for other reasons, which can depend on the whole game. -/
structure ArbiterRules where
  Board : Type
  start : Board
  position : Board → Position
  push : Board → Move → Board
  isGameOver : Board → Bool
  start_board : (position start).board = startBoard
  start_clock : (position start).halfmoveClock = 0
  board_push : ∀ b m, (position b).Legal m → (position (push b m)).board = (position b).after m
  clock_push : ∀ b m, (position b).Legal m →
    (position (push b m)).halfmoveClock = (position b).halfmoveClock + 1 ∨
      (position (push b m)).halfmoveClock = 0 ∧ (position b).Zeroing m
  over_no_move : ∀ b, (∀ m, ¬ (position b).Legal m) → isGameOver b = true
  over_clock : ∀ b, 150 ≤ (position b).halfmoveClock → isGameOver b = true

/-- An engine that returns some legal move whenever there is one. The moves of the game so far stand
for all that its choice may depend on. -/
structure Engine (R : ArbiterRules) where
  play : List Move → R.Board → Move
  legal : ∀ node b, (∃ m, (R.position b).Legal m) → (R.position b).Legal (play node b)

/-- The variables of the loop of `run`. -/
structure Variables (R : ArbiterRules) where
  board : R.Board
  node : List Move
  moveNum : Nat

def startVariables (R : ArbiterRules) : Variables R := ⟨R.start, [], 1⟩

section
variable {R : ArbiterRules}

/-- One iteration. `board.san` raises on a move that is not legal. -/
def iteration (sf lc0 : Engine R) (v : Variables R) : Option (Variables R) :=
  let isWhite := (R.position v.board).turn = .white
  let engine := if isWhite then sf else lc0
  let move := engine.play v.node v.board
  if (R.position v.board).Legal move then
    some { board := R.push v.board move, node := v.node ++ [move], moveNum := if isWhite then v.moveNum else v.moveNum + 1 }
  else none

/-- The loop of `run`, for as long as the fuel lasts. -/
def playLoop (sf lc0 : Engine R) (fuel : Nat) : Option (Variables R) :=
  whileLoop (fun v => R.isGameOver v.board) (iteration sf lc0) fuel (startVariables R)

/-- The iterations that are left at most. -/
def Variables.left (v : Variables R) : Nat :=
  stepsLeft 150 (R.position v.board).board.supply (R.position v.board).halfmoveClock

/-- The iterations that any game has at most: one run of the clock for each piece and for each step
of a pawn, and one more. -/
def moveBound : Nat := 19350

theorem left_start (R : ArbiterRules) : (startVariables R).left = moveBound := by
  have hsupply : startBoard.supply = 128 := supply_start
  rw [Variables.left, startVariables, R.start_board, R.start_clock, hsupply]
  rfl

/-- Every legal move in a game that is not over uses up one step at least. -/
theorem left_push {v : Variables R} {move : Move} (hover : R.isGameOver v.board = false)
    (hlegal : (R.position v.board).Legal move) (node : List Move) (moveNum : Nat) :
    (Variables.mk (R.push v.board move) node moveNum).left < v.left := by
  have hclock : (R.position v.board).halfmoveClock < 150 := by
    by_contra hlimit
    have htrue := R.over_clock v.board (not_lt.mp hlimit)
    rw [hover] at htrue
    cases htrue
  rw [Variables.left, Variables.left, R.board_push v.board move hlegal]
  rcases R.clock_push v.board move hlegal with htick | ⟨hreset, hzeroing⟩
  · rw [htick]
    exact stepsLeft_tick hclock (Position.supply_after_le hlegal)
  · rw [hreset]
    exact stepsLeft_reset hclock (Position.supply_after_lt hlegal hzeroing)

/-- In a game that is not over, the engine that is asked moves, and the iteration is made. -/
theorem iteration_some (sf lc0 : Engine R) {v : Variables R} (hover : R.isGameOver v.board = false) :
    ∃ move moveNum, (R.position v.board).Legal move ∧
      iteration sf lc0 v = some ⟨R.push v.board move, v.node ++ [move], moveNum⟩ := by
  have hsome : ∃ m, (R.position v.board).Legal m := by
    by_contra hnone
    have htrue := R.over_no_move v.board (not_exists.mp hnone)
    rw [hover] at htrue
    cases htrue
  have hlegal (engine : Engine R) := engine.legal v.node v.board hsome
  refine ⟨_, if (R.position v.board).turn = .white then v.moveNum else v.moveNum + 1,
    hlegal (if (R.position v.board).turn = .white then sf else lc0), ?_⟩
  rw [iteration]
  exact if_pos (hlegal _)

/-- The loop exits whatever the engines play, after a number of iterations that is bounded for all
engines at once. -/
theorem playLoop_exits (sf lc0 : Engine R) :
    ∃ v, playLoop sf lc0 moveBound = some v ∧ R.isGameOver v.board = true ∧ v.node.length ≤ moveBound := by
  have hstep : ∀ v : Variables R, v.node.length + v.left ≤ moveBound → R.isGameOver v.board = false →
      ∃ w, iteration sf lc0 v = some w ∧ w.node.length + w.left ≤ moveBound ∧ w.left < v.left := by
    intro v hcount hover
    obtain ⟨move, moveNum, hlegal, hiteration⟩ := iteration_some sf lc0 hover
    have hlt := left_push hover hlegal (v.node ++ [move]) moveNum
    refine ⟨_, hiteration, ?_, hlt⟩
    rw [List.length_append, List.length_singleton]
    omega
  have hstart : (startVariables R).node.length + (startVariables R).left ≤ moveBound := by
    rw [left_start]
    exact (Nat.zero_add _).le
  obtain ⟨v, hloop, hcount, hdone⟩ := whileLoop_exits hstep hstart (left_start R).le
  exact ⟨v, hloop, hdone, le_trans (Nat.le_add_right _ _) hcount⟩

end

/-- The board of python-chess: a position, and on the stack those in front of it, the latest first. -/
structure StackedBoard where
  position : ValidPosition
  stack : List ValidPosition

namespace StackedBoard

def has (b : Chess.Board) (test : Square → Piece → Bool) : Bool := decide (∃ s, ∃ q ∈ b s, test s q = true)

/-- `has_insufficient_material`. A knight may have no other piece beside it, and bishops have to stand
on one shade, whoever owns them. -/
def hasInsufficientMaterial (b : Chess.Board) (c : Color) : Bool :=
  let owns (type : PieceType) := has b fun _ q => q = ⟨c, type⟩
  let anywhere (type : PieceType) := has b fun _ q => q.type = type
  if owns .pawn || owns .rook || owns .queen then false
  else if owns .knight then
    decide ((List.finRange 64).countP (fun s => (b s).any fun q => q.color = c) ≤ 2) &&
      !has b fun _ q => q.color = c.other ∧ q.type ≠ .king ∧ q.type ≠ .queen
  else if owns .bishop then
    let onShade (light : Bool) := has b fun s q => q.type = .bishop ∧ isLight s = light
    (!onShade true || !onShade false) && !anywhere .pawn && !anywhere .knight
  else true

def isInsufficientMaterial (b : StackedBoard) : Bool :=
  hasInsufficientMaterial b.position.board .white && hasInsufficientMaterial b.position.board .black

def isSeventyfiveMoves (b : StackedBoard) : Bool :=
  decide (150 ≤ b.position.halfmoveClock) && !b.position.legalMoves.isEmpty

/-- The square behind a double step, if a pawn can go there by a legal move. -/
def legalEnPassant (p : ValidPosition) : Option Square :=
  p.enPassant.filter fun e => decide (∃ s, p.TakesEnPassant s e ∧ p.Legal (.plain s e none))

/-- The transposition keys of the two positions are equal. -/
def sameKey (p q : ValidPosition) : Bool :=
  decide (∀ s, p.board s = q.board s) && decide (p.turn = q.turn) &&
    [Color.white, Color.black].all (fun c => [Side.king, Side.queen].all fun side => p.castling c side = q.castling c side) &&
    decide (legalEnPassant p = legalEnPassant q)

def isFivefoldRepetition (b : StackedBoard) : Bool := decide (5 ≤ (b.position :: b.stack).countP (sameKey b.position))

/-- `is_game_over` without claims. -/
def isGameOver (b : StackedBoard) : Bool :=
  b.position.legalMoves.isEmpty || b.isInsufficientMaterial || b.isSeventyfiveMoves || b.isFivefoldRepetition

def push (b : StackedBoard) (m : Move) : StackedBoard :=
  if h : b.position.Legal m then ⟨b.position.push m h, b.position :: b.stack⟩ else b

theorem push_position {b : StackedBoard} {m : Move} (h : b.position.Legal m) :
    (b.push m).position = b.position.push m h := by
  rw [push, dif_pos h]

theorem over_of_stuck {b : StackedBoard} (h : ∀ m, ¬ b.position.Legal m) : b.isGameOver = true := by
  have hnil : b.position.legalMoves = [] :=
    List.eq_nil_iff_forall_not_mem.mpr fun m hm => h m (Position.mem_legalMoves.mp hm)
  rw [isGameOver, hnil]
  rfl

theorem over_of_clock {b : StackedBoard} (h : 150 ≤ b.position.halfmoveClock) : b.isGameOver = true := by
  rw [isGameOver, isSeventyfiveMoves, decide_eq_true h]
  cases b.position.legalMoves.isEmpty <;> simp

end StackedBoard

/-- The rules of python-chess: beside mate and stalemate a game ends with too little material, when
a position comes for the fifth time, and when the clock has come to 150. -/
def standardRules : ArbiterRules where
  Board := StackedBoard
  start := ⟨startPosition, []⟩
  position b := b.position.toPosition
  push := StackedBoard.push
  isGameOver := StackedBoard.isGameOver
  start_board := rfl
  start_clock := rfl
  board_push b m h := by
    rw [StackedBoard.push_position h]
    rfl
  clock_push b m h := by
    rw [StackedBoard.push_position h, ValidPosition.push]
    by_cases hz : b.position.Zeroing m
    · exact .inr ⟨if_pos hz, hz⟩
    · exact .inl (if_neg hz)
  over_no_move _ h := StackedBoard.over_of_stuck h
  over_clock _ h := StackedBoard.over_of_clock h

/-- An engine that plays the first legal move it finds. -/
def firstMove (R : ArbiterRules) : Engine R where
  play _ b := (R.position b).legalMoves.head?.getD (.castle .king)
  legal _ b h := by
    obtain ⟨m, hm⟩ := h
    cases hmoves : (R.position b).legalMoves with
    | nil =>
      rw [← Position.mem_legalMoves, hmoves] at hm
      cases hm
    | cons move moves =>
      rw [List.head?_cons, Option.getD_some, ← Position.mem_legalMoves, hmoves]
      exact List.mem_cons_self

theorem playLoop_exits_first : ∃ v, playLoop (firstMove standardRules) (firstMove standardRules) moveBound = some v ∧
    standardRules.isGameOver v.board = true ∧ v.node.length ≤ moveBound :=
  playLoop_exits (firstMove standardRules) (firstMove standardRules)

end ChessAnalytics.Games
