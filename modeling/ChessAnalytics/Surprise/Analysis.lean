import ChessAnalytics.Pgn.Mainline
import ChessAnalytics.Stockfish.Evaluator
import ChessAnalytics.Lc0.Client
import ChessAnalytics.Surprise.Metrics

/-! The analysis loop: one row for every position of the games that are asked for. -/
namespace ChessAnalytics.Surprise
open Strings Pgn

/-- The replies of the two engines to a position, at the depth and the node count of the run. -/
structure Replies where
  evaluate : Str → Stockfish.Evaluation
  query : Str → Lc0.Heads

/-- A row of the table. Each group of three metrics columns is one record. -/
structure Row where
  gameId : Str
  ply : Nat
  moveNumber : Nat
  side : Str
  fen : Str
  movePlayed : Str
  movePlayedSan : Str
  sfBestMove : Option Str
  sfScore : Option Int
  sfMetrics : Metrics
  lc0BestMove : Option Str
  lc0Q : Option ℚ
  lc0Metrics : Metrics
  playedMetrics : Metrics
  deriving DecidableEq

abbrev Table := List Row

/-- `sf_score`: the centipawns, or ten thousand for a mate. -/
def sfScore (e : Stockfish.Evaluation) : Option Int :=
  match e.scoreCp, e.mateIn with
  | some cp, _ => some cp
  | none, some m => some (10000 * (if m > 0 then 1 else -1))
  | none, none => none

def bestMetrics (policy : Policy) (best : Option Str) : Metrics :=
  match best with
  | some (c :: cs) => computeSurpriseMetrics policy (c :: cs)
  | _ => .absent

section
variable {P : PyChess} (replies : Replies)

def positionRow (gameId : Str) (plyIdx : Nat) (board : P.Board) (move : P.Move) : Row :=
  let sfEval := replies.evaluate (P.fen board)
  let lc0Result := replies.query (P.fen board)
  { gameId := gameId
    ply := plyIdx + 1
    moveNumber := P.fullmoveNumber board
    side := sideText (P.turn board)
    fen := P.fen board
    movePlayed := P.uci move
    movePlayedSan := P.san board move
    sfBestMove := sfEval.pv.head?
    sfScore := sfScore sfEval
    sfMetrics := bestMetrics lc0Result.policy sfEval.pv.head?
    lc0BestMove := lc0Result.bestmove
    lc0Q := lc0Result.q
    lc0Metrics := bestMetrics lc0Result.policy lc0Result.bestmove
    playedMetrics := computeSurpriseMetrics lc0Result.policy (P.uci move) }

/-- The loop over the moves of a game. -/
def gameRows (skipPly : Int) (gameId : Str) : Nat → P.Board → List P.Move → Table
  | _, _, [] => []
  | plyIdx, board, move :: moves =>
    if (plyIdx : Int) < skipPly then gameRows skipPly gameId (plyIdx + 1) (P.push board move) moves
    else positionRow replies gameId plyIdx board move :: gameRows skipPly gameId (plyIdx + 1) (P.push board move) moves

def header (value : Option Str) : Str := value.getD "?".toList

def gameIdOf (absIdx : Int) (g : Game P) : Str :=
  showInt (absIdx + 1) ++ "_".toList ++ header g.white ++ "_vs_".toList ++ header g.black

def rowsOfGame (skipPly absIdx : Int) (g : Game P) : Table :=
  gameRows replies skipPly (gameIdOf absIdx g) 0 g.board g.mainlineMoves

/-- The loop over the games, with the number of games that are still wanted. -/
def analyzeFrom (skipPly : Int) : Int → Nat → List (Game P) → Table
  | _, 0, _ => []
  | _, _ + 1, [] => []
  | absIdx, n + 1, g :: games =>
    rowsOfGame replies skipPly absIdx g ++ analyzeFrom skipPly (absIdx + 1) n games

/-- `analyze_games`: the games before `startGame` are read and dropped. -/
def analyzeGames (pgn : List (Game P)) (numGames startGame skipPly : Int) : Table :=
  analyzeFrom replies skipPly startGame numGames.toNat (pgn.drop startGame.toNat)

/-- A best move has metrics of its own only when there is one. -/
theorem bestMetrics_surprise {policy : Policy} {best : Option Str} {ratio : ℚ}
    (h : ratio ∈ (bestMetrics policy best).surprise) :
    ∃ moveUci, best = some moveUci ∧ bestMetrics policy best = computeSurpriseMetrics policy moveUci := by
  match best, h with
  | none, h => cases h
  | some [], h => cases h
  | some (c :: cs), _ => exact ⟨c :: cs, rfl, rfl⟩

theorem gameRows_gameId {skipPly : Int} {gameId : Str} {plyIdx : Nat} {board : P.Board} {moves : List P.Move} {row : Row}
    (h : row ∈ gameRows replies skipPly gameId plyIdx board moves) : row.gameId = gameId := by
  induction moves generalizing plyIdx board with
  | nil => cases h
  | cons move moves ih =>
    rw [gameRows] at h
    split at h
    · exact ih h
    · rcases List.mem_cons.mp h with rfl | h
      · rfl
      · exact ih h

theorem forall_gameRows {Q : Row → Prop} (h : ∀ gameId plyIdx board move, Q (positionRow (P := P) replies gameId plyIdx board move))
    {skipPly : Int} {gameId : Str} {plyIdx : Nat} {board : P.Board} {moves : List P.Move} :
    ∀ row ∈ gameRows replies skipPly gameId plyIdx board moves, Q row := by
  induction moves generalizing plyIdx board with
  | nil => exact fun row hrow => (List.not_mem_nil hrow).elim
  | cons move moves ih =>
    rw [gameRows]
    split
    · exact ih
    · exact List.forall_mem_cons.mpr ⟨h _ _ _ _, ih⟩

/-- What holds of the row of every position holds of every row of an analysis. -/
theorem forall_analyzeFrom {Q : Row → Prop} (h : ∀ gameId plyIdx board move, Q (positionRow (P := P) replies gameId plyIdx board move))
    {skipPly absIdx : Int} {n : Nat} {games : List (Game P)} : ∀ row ∈ analyzeFrom replies skipPly absIdx n games, Q row := by
  induction n generalizing absIdx games with
  | zero => cases games <;> exact fun row hrow => (List.not_mem_nil hrow).elim
  | succ n ih =>
    cases games with
    | nil => exact fun row hrow => (List.not_mem_nil hrow).elim
    | cons g games => exact List.forall_mem_append.mpr ⟨forall_gameRows replies h, ih⟩

/-- A game has rows exactly when it is longer than the opening that is skipped. -/
theorem gameRows_eq_nil {skipPly : Int} {gameId : Str} {plyIdx : Nat} {board : P.Board} {moves : List P.Move} :
    gameRows replies skipPly gameId plyIdx board moves = [] ↔ moves = [] ∨ (plyIdx : Int) + moves.length ≤ skipPly := by
  induction moves generalizing plyIdx board with
  | nil => simp [gameRows]
  | cons move moves ih =>
    rw [gameRows]
    split
    · rw [ih]
      cases moves with
      | nil => simp; omega
      | cons m ms => simp; omega
    · simp; omega

/-- The rows of `n + m` games are those of the first `n` and those of the next `m`. -/
theorem analyzeFrom_add (skipPly absIdx : Int) (n m : Nat) (games : List (Game P)) :
    analyzeFrom replies skipPly absIdx (n + m) games =
      analyzeFrom replies skipPly absIdx n games ++ analyzeFrom replies skipPly (absIdx + n) m (games.drop n) := by
  induction n generalizing absIdx games with
  | zero => simp [analyzeFrom]
  | succ n ih =>
    cases games with
    | nil => cases m <;> simp [analyzeFrom]
    | cons g games =>
      rw [Nat.add_right_comm, analyzeFrom, analyzeFrom, ih, List.append_assoc, List.drop_succ_cons, Nat.cast_succ,
        add_assoc, add_comm (1 : Int)]

theorem mem_analyzeFrom {skipPly absIdx : Int} {n : Nat} {games : List (Game P)} {row : Row}
    (h : row ∈ analyzeFrom replies skipPly absIdx n games) :
    ∃ i < n, ∃ g, games[i]? = some g ∧ row ∈ rowsOfGame replies skipPly (absIdx + i) g := by
  induction n generalizing absIdx games with
  | zero => cases games <;> cases h
  | succ n ih =>
    cases games with
    | nil => cases h
    | cons g games =>
      rcases List.mem_append.mp h with h | h
      · exact ⟨0, Nat.succ_pos n, g, rfl, by simpa using h⟩
      · obtain ⟨i, hi, g', hg', hrow⟩ := ih h
        refine ⟨i + 1, Nat.succ_lt_succ hi, g', hg', ?_⟩
        rwa [Nat.cast_succ, add_comm (i : Int), ← add_assoc]

theorem analyzeFrom_eq_nil {skipPly absIdx : Int} {n : Nat} {games : List (Game P)} :
    analyzeFrom replies skipPly absIdx n games = [] ↔
      ∀ g ∈ games.take n, g.mainlineMoves = [] ∨ (g.mainlineMoves.length : Int) ≤ skipPly := by
  induction n generalizing absIdx games with
  | zero => simp [analyzeFrom]
  | succ n ih =>
    cases games with
    | nil => simp [analyzeFrom]
    | cons g games =>
      rw [analyzeFrom, List.append_eq_nil_iff, ih, rowsOfGame, gameRows_eq_nil]
      simp

end

theorem gameIdOf_injective {P : PyChess} {i j : Int} {g g' : Game P} (h : gameIdOf i g = gameIdOf j g') : i = j := by
  have hfront (i : Int) (g : Game P) : (gameIdOf i g).takeWhile (· ≠ '_') = showInt (i + 1) := by
    have hnumeral : ∀ c ∈ showInt (i + 1), decide (c ≠ '_') = true := by
      intro c hc
      rcases mem_showInt hc with rfl | hd
      · decide
      · rw [decide_eq_true_eq]
        rintro rfl
        revert hd
        decide
    simp only [gameIdOf, List.append_assoc]
    rw [List.takeWhile_append_of_pos hnumeral]
    simp
  have := showInt_injective (((hfront i g).symm.trans (congrArg _ h)).trans (hfront j g'))
  omega

def kingPawnReplies : Replies where
  evaluate fen := ⟨fen, 18, some 30, none, ["e2e4".toList], none, none, none⟩
  query _ := ⟨none, [("e2e4".toList, 1 / 2), ("d2d4".toList, 1 / 4)], some 0, some "e2e4".toList⟩

end ChessAnalytics.Surprise
