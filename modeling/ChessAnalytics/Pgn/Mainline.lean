import ChessAnalytics.Chess.Rules
import ChessAnalytics.Systems.Traversal

/-! What the scripts use of python-chess, and the loop over the mainline of a game that they all have:
a board that follows the moves, and a limit on the plies. -/
namespace ChessAnalytics.Pgn
open Strings Systems

structure PyChess where
  Board : Type
  Move : Type
  push : Board → Move → Board
  fen : Board → Str
  turn : Board → Chess.Color
  fullmoveNumber : Board → Nat
  uci : Move → Str
  san : Board → Move → Str

/-- A game of the PGN stream: two headers, the starting board and the mainline. -/
structure Game (P : PyChess) where
  white : Option Str
  black : Option Str
  board : P.Board
  mainlineMoves : List P.Move

def sideText (c : Chess.Color) : Str :=
  match c with
  | .white => "white".toList
  | .black => "black".toList

/-- `max_ply is not None and ply_idx >= max_ply`. -/
def cutOff (maxPly : Option Int) (plyIdx : Nat) : Bool :=
  match maxPly with
  | some m => decide (m ≤ plyIdx)
  | none => false

section
variable {P : PyChess}

/-- The board behind the first moves of a game. -/
def boardAt (g : Game P) (k : Nat) : P.Board := (g.mainlineMoves.take k).foldl P.push g.board

theorem boardAt_zero (g : Game P) : boardAt g 0 = g.board := rfl

theorem boardAt_succ {g : Game P} {k : Nat} {move : P.Move} (h : g.mainlineMoves[k]? = some move) :
    boardAt g (k + 1) = P.push (boardAt g k) move := by
  rw [boardAt, boardAt, List.take_add_one, h, List.foldl_append]
  rfl

/-- A record has these fields for the ply with index `k`: its number, and of the position in front of
it the full-move number, the side to move and the FEN, and the move that was played there. -/
structure OfPly (g : Game P) (k ply moveNumber : Nat) (side fen movePlayed : Str) : Prop where
  ply : ply = k + 1
  moveNumber : moveNumber = P.fullmoveNumber (boardAt g k)
  side : side = if P.turn (boardAt g k) = .white then "white".toList else "black".toList
  fen : fen = P.fen (boardAt g k)
  movePlayed : ∃ move, g.mainlineMoves[k]? = some move ∧ movePlayed = P.uci move

theorem ofPly {g : Game P} {k : Nat} {move : P.Move} (h : g.mainlineMoves[k]? = some move) :
    OfPly g k (k + 1) (P.fullmoveNumber (boardAt g k)) (sideText (P.turn (boardAt g k))) (P.fen (boardAt g k))
      (P.uci move) := by
  refine ⟨rfl, rfl, ?_, rfl, move, h, rfl⟩
  cases P.turn (boardAt g k) <;> rfl

/-- What is made of consecutive plies that the game has: one record for each, in their order. -/
theorem records_of_plies {α : Type} {g : Game P} {s n : Nat} (h : ∀ k < n, s + k < g.mainlineMoves.length)
    (f : Nat → P.Move → α) {records : List α}
    (hrecords : records = (List.range' s n).filterMap fun k => g.mainlineMoves[k]?.map (f k)) :
    records.length = n ∧
      ∀ k r, records[k]? = some r → ∃ move, g.mainlineMoves[s + k]? = some move ∧ f (s + k) move = r := by
  subst hrecords
  have hevery : ∀ k ∈ List.range' s n, g.mainlineMoves[k]?.map (f k) ≠ none := by
    intro k hk
    obtain ⟨i, hi, rfl⟩ := List.mem_range'.mp hk
    rw [one_mul, List.getElem?_eq_getElem (h i hi)]
    exact Option.some_ne_none _
  constructor
  · rw [List.filterMap_length_eq_length.mpr fun k hk => Option.isSome_iff_ne_none.mpr (hevery k hk), List.length_range']
  · intro k r hr
    rw [getElem?_filterMap hevery] at hr
    obtain ⟨i, hi, hr⟩ := Option.bind_eq_some_iff.mp hr
    obtain ⟨hlt, rfl⟩ := List.getElem?_eq_some_iff.mp hi
    rw [List.getElem_range', one_mul] at hr
    exact Option.map_eq_some_iff.mp hr

/-- The number of plies that are analysed. -/
def analysed (g : Game P) (maxPly : Option Int) : Nat :=
  match maxPly with
  | some m => min g.mainlineMoves.length (max 0 m).toNat
  | none => g.mainlineMoves.length

theorem analysed_le (g : Game P) (maxPly : Option Int) : analysed g maxPly ≤ g.mainlineMoves.length := by
  cases maxPly with
  | none => exact le_rfl
  | some m => exact min_le_left _ _

theorem analysed_within (g : Game P) (maxPly : Option Int) :
    ∀ k < analysed g maxPly, 0 + k < g.mainlineMoves.length := by
  intro k hk
  have hle := analysed_le g maxPly
  omega

theorem cutOff_iff {g : Game P} {k : Nat} (hk : k < g.mainlineMoves.length) (maxPly : Option Int) :
    cutOff maxPly k = true ↔ analysed g maxPly ≤ k := by
  cases maxPly with
  | none => simpa [cutOff, analysed] using hk
  | some m =>
    simp only [cutOff, analysed, decide_eq_true_eq]
    omega

/-- What a loop meets at a ply that it analyses. -/
structure Meets (g : Game P) (maxPly : Option Int) (k : Nat) (move : P.Move) : Prop where
  get : g.mainlineMoves[k]? = some move
  drop : g.mainlineMoves.drop k = move :: g.mainlineMoves.drop (k + 1)
  board : boardAt g (k + 1) = P.push (boardAt g k) move
  within : ¬ cutOff maxPly k = true

/-- Behind the analysed plies the moves have an end, or the limit stops the loop. -/
theorem stops_at {g : Game P} {maxPly : Option Int} {k : Nat} (hk : analysed g maxPly ≤ k) :
    g.mainlineMoves.drop k = [] ∨ ∃ move moves, g.mainlineMoves.drop k = move :: moves ∧ cutOff maxPly k = true := by
  rcases lt_or_ge k g.mainlineMoves.length with hlt | hge
  · exact .inr ⟨_, _, List.drop_eq_getElem_cons hlt, (cutOff_iff hlt maxPly).mpr hk⟩
  · exact .inl (List.drop_eq_nil_of_le hge)

/-- The induction over the analysed plies from the last one to the first. `n` of them are left at
the ply with index `k`. -/
theorem loop_induction {g : Game P} {maxPly : Option Int} {motive : Nat → Nat → Prop} (stop : motive (analysed g maxPly) 0)
    (ply : ∀ k n move, Meets g maxPly k move → motive (k + 1) n → motive k (n + 1)) {k n : Nat}
    (hn : k + n = analysed g maxPly) : motive k n := by
  induction n generalizing k with
  | zero =>
    obtain rfl : k = analysed g maxPly := hn
    exact stop
  | succ n ih =>
    have hlt : k < g.mainlineMoves.length := by
      have hle := analysed_le g maxPly
      omega
    have hget : g.mainlineMoves[k]? = some g.mainlineMoves[k] := List.getElem?_eq_getElem hlt
    have hwithin : ¬ cutOff maxPly k = true := by
      rw [cutOff_iff hlt]
      omega
    exact ply k n _ ⟨hget, List.drop_eq_getElem_cons hlt, boardAt_succ hget, hwithin⟩ (ih (by omega))

end

/-- The game 1. e4, on a board that is before or behind the move. -/
def kingPawnChess : PyChess where
  Board := Bool
  Move := Unit
  push _ _ := true
  fen played :=
    if played then "rnbqkbnr/pppppppp/8/8/4P3/8/PPPP1PPP/RNBQKBNR b KQkq - 0 1".toList
    else "rnbqkbnr/pppppppp/8/8/8/8/PPPPPPPP/RNBQKBNR w KQkq - 0 1".toList
  turn played := if played then .black else .white
  fullmoveNumber _ := 1
  uci _ := "e2e4".toList
  san _ _ := "e4".toList

def kingPawnGame : Game kingPawnChess := ⟨none, none, false, [()]⟩

end ChessAnalytics.Pgn
