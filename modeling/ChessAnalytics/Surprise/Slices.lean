import ChessAnalytics.Surprise.Analysis

/-! The rows of a slice of the game stream: which games they come from, and which plies. -/
namespace ChessAnalytics.Surprise
open Strings Systems Pgn

section
variable {P : PyChess} (replies : Replies)

/-- The row of the ply with this index, if the game has it. -/
def plyRow (absIdx : Int) (g : Game P) (k : Nat) : Option Row :=
  g.mainlineMoves[k]?.map fun move => positionRow replies (gameIdOf absIdx g) k (boardAt g k) move

/-- The rows of the game with this index in the stream, if there is one. -/
def streamRows (pgn : List (Game P)) (skipPly : Int) (i : Nat) : Table :=
  (pgn[i]?.map (rowsOfGame replies skipPly i)).getD []

/-- The row of the `k`-th of these moves, when the loop stands in front of the first one. -/
private def rowFrom (gameId : Str) (plyIdx : Nat) (board : P.Board) (moves : List P.Move) (k : Nat) : Option Row :=
  moves[k]?.map fun move => positionRow replies gameId (plyIdx + k) ((moves.take k).foldl P.push board) move

private theorem rowFrom_succ (gameId : Str) (plyIdx : Nat) (board : P.Board) (move : P.Move) (moves : List P.Move) :
    rowFrom replies gameId plyIdx board (move :: moves) ∘ Nat.succ =
      rowFrom replies gameId (plyIdx + 1) (P.push board move) moves := by
  funext k
  simp only [Function.comp, rowFrom, Nat.succ_eq_add_one, List.getElem?_cons_succ, List.take_succ_cons, List.foldl_cons]
  rw [Nat.add_right_comm, Nat.add_assoc]

private theorem gameRows_eq (skipPly : Int) (gameId : Str) (plyIdx : Nat) (board : P.Board) (moves : List P.Move) :
    gameRows replies skipPly gameId plyIdx board moves =
      ((List.range moves.length).drop (skipPly - plyIdx).toNat).filterMap (rowFrom replies gameId plyIdx board moves) := by
  induction moves generalizing plyIdx board with
  | nil => simp [gameRows]
  | cons move moves ih =>
    rw [gameRows, List.length_cons, List.range_succ_eq_map, ih, ← rowFrom_succ]
    by_cases hskip : (plyIdx : Int) < skipPly
    · have hdrop : (skipPly - plyIdx).toNat = (skipPly - (plyIdx + 1 : Nat)).toNat + 1 := by omega
      rw [if_pos hskip, hdrop, List.drop_succ_cons, ← List.map_drop, List.filterMap_map]
    · have hnow : (skipPly - plyIdx).toNat = 0 := by omega
      have hnext : (skipPly - (plyIdx + 1 : Nat)).toNat = 0 := by omega
      have hhead : rowFrom replies gameId plyIdx board (move :: moves) 0 =
          some (positionRow replies gameId plyIdx board move) := rfl
      rw [if_neg hskip, hnow, hnext, List.drop_zero, List.drop_zero, List.filterMap_cons_some hhead, List.filterMap_map]

/-- The rows of one game are its plies behind the opening, each on the board that replaying the
earlier moves gives. -/
theorem rowsOfGame_eq (skipPly absIdx : Int) (g : Game P) :
    rowsOfGame replies skipPly absIdx g =
      ((List.range g.mainlineMoves.length).drop skipPly.toNat).filterMap (plyRow replies absIdx g) := by
  have hrow : rowFrom replies (gameIdOf absIdx g) 0 g.board g.mainlineMoves = plyRow replies absIdx g := by
    funext k
    rw [rowFrom, plyRow, Nat.zero_add]
    rfl
  rw [rowsOfGame, gameRows_eq, hrow, Nat.cast_zero, sub_zero]

private theorem analyzeFrom_eq (pgn : List (Game P)) (skipPly : Int) (s n : Nat) :
    analyzeFrom replies skipPly s n (pgn.drop s) = (List.range n).flatMap fun i => streamRows replies pgn skipPly (s + i) := by
  induction n with
  | zero => cases pgn.drop s <;> rfl
  | succ n ih =>
    rw [analyzeFrom_add, ih, List.range_succ, List.flatMap_append, List.flatMap_singleton, List.drop_drop]
    congr 1
    cases hg : pgn[s + n]? with
    | none =>
      rw [List.drop_eq_nil_of_le (List.getElem?_eq_none_iff.mp hg), streamRows, hg]
      rfl
    | some g =>
      obtain ⟨hlt, hget⟩ := List.getElem?_eq_some_iff.mp hg
      rw [List.drop_eq_getElem_cons hlt, hget, analyzeFrom, analyzeFrom, List.append_nil, streamRows, hg, Nat.cast_add]
      rfl

/-- The games of a slice are those with these numbers in the stream, as far as it has them. -/
theorem analyzeGames_eq (pgn : List (Game P)) (s n : Nat) (skipPly : Int) :
    analyzeGames replies pgn n s skipPly = (List.range n).flatMap fun i => streamRows replies pgn skipPly (s + i) :=
  analyzeFrom_eq replies pgn skipPly s n

/-- Each row of a game belongs to the ply behind the skipped opening that has its place. -/
theorem rowsOfGame_plies (skipPly absIdx : Int) (g : Game P) :
    (rowsOfGame replies skipPly absIdx g).length = g.mainlineMoves.length - skipPly.toNat ∧
      ∀ k row, (rowsOfGame replies skipPly absIdx g)[k]? = some row → ∃ move,
        g.mainlineMoves[skipPly.toNat + k]? = some move ∧
          positionRow replies (gameIdOf absIdx g) (skipPly.toNat + k) (boardAt g (skipPly.toNat + k)) move = row := by
  have hdrop : (List.range g.mainlineMoves.length).drop skipPly.toNat =
      List.range' skipPly.toNat (g.mainlineMoves.length - skipPly.toNat) := by
    rw [List.range_eq_range', List.drop_range', mul_one, Nat.zero_add]
  rw [rowsOfGame_eq, hdrop]
  exact records_of_plies (fun k hk => by omega)
    (fun k move => positionRow replies (gameIdOf absIdx g) k (boardAt g k) move) rfl

/-- The row of a ply has its fields, and an id that begins with the number of the game. -/
theorem positionRow_fields {i k : Nat} {g : Game P} {move : P.Move} (h : g.mainlineMoves[k]? = some move) :
    let row := positionRow replies (gameIdOf i g) k (boardAt g k) move
    showNat (i + 1) ++ "_".toList <+: row.gameId ∧
      OfPly g k row.ply row.moveNumber row.side row.fen row.movePlayed := by
  refine ⟨⟨header g.white ++ "_vs_".toList ++ header g.black, ?_⟩, ofPly h⟩
  simp only [positionRow, gameIdOf, List.append_assoc]
  rfl

/-- Two consecutive slices are one; a slice holds the rows of its games; and the rows of a game are
its plies behind the opening, each with its fields, under an id that begins with the game's number. -/
theorem slices_compose (pgn : List (Game P)) (s n m : Nat) (skipPly : Int) :
    analyzeGames replies pgn (n + m) s skipPly =
        analyzeGames replies pgn n s skipPly ++ analyzeGames replies pgn m (s + n) skipPly ∧
      analyzeGames replies pgn n s skipPly = ((List.range n).flatMap fun i => streamRows replies pgn skipPly (s + i)) ∧
      ∀ (i : Nat) (g : Game P),
        (rowsOfGame replies skipPly i g).length = g.mainlineMoves.length - skipPly.toNat ∧
          ∀ k row, (rowsOfGame replies skipPly i g)[k]? = some row →
            showNat (i + 1) ++ "_".toList <+: row.gameId ∧
              OfPly g (skipPly.toNat + k) row.ply row.moveNumber row.side row.fen row.movePlayed := by
  refine ⟨?_, analyzeGames_eq replies pgn s n skipPly, fun i g => ?_⟩
  · have hslice := analyzeFrom_add replies skipPly s n m (pgn.drop s)
    rw [List.drop_drop] at hslice
    exact hslice
  · obtain ⟨hlength, hplies⟩ := rowsOfGame_plies replies skipPly i g
    refine ⟨hlength, fun k row hrow => ?_⟩
    obtain ⟨move, hmove, rfl⟩ := hplies k row hrow
    exact positionRow_fields replies hmove

end

end ChessAnalytics.Surprise
