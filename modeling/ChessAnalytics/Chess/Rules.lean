import ChessAnalytics.Chess.Squares

/-! The rules of standard chess: positions, the moves that are legal in them, and the text
that the Universal Chess Interface gives a move. -/
namespace ChessAnalytics.Chess
open Strings

def fileStep (s t : Square) : Int := (fileIdx t : Int) - fileIdx s
def rankStep (s t : Square) : Int := (rankIdx t : Int) - rankIdx s

/-- The squares strictly between two squares of one line. -/
def between (s t : Square) : List Square :=
  (List.range (max (fileStep s t).natAbs (rankStep s t).natAbs - 1)).map fun k =>
    square (fileIdx s + (k + 1) * (fileStep s t).sign).toNat (rankIdx s + (k + 1) * (rankStep s t).sign).toNat

inductive Color where
  | white | black
  deriving DecidableEq, Repr

namespace Color

def other : Color → Color
  | white => black
  | black => white

/-- The direction in which the pawns of a colour go. -/
def forward : Color → Int
  | white => 1
  | black => -1

def backRank : Color → Nat
  | white => 0
  | black => 7

def pawnRank : Color → Nat
  | white => 1
  | black => 6

def lastRank (c : Color) : Nat := c.other.backRank

@[simp] theorem other_other (c : Color) : c.other.other = c := by cases c <;> rfl

@[simp] theorem other_ne (c : Color) : c.other ≠ c := by cases c <;> decide

end Color

inductive PieceType where
  | pawn | knight | bishop | rook | queen | king
  deriving DecidableEq, Repr

structure Piece where
  color : Color
  type : PieceType
  deriving DecidableEq, Repr

abbrev Board := Square → Option Piece

def Straight (s t : Square) : Prop := s ≠ t ∧ (fileStep s t = 0 ∨ rankStep s t = 0)

def Diagonal (s t : Square) : Prop := s ≠ t ∧ (fileStep s t).natAbs = (rankStep s t).natAbs

def Adjacent (s t : Square) : Prop := max (fileStep s t).natAbs (rankStep s t).natAbs = 1

instance (s t : Square) : Decidable (Straight s t) := by unfold Straight; infer_instance
instance (s t : Square) : Decidable (Diagonal s t) := by unfold Diagonal; infer_instance
instance (s t : Square) : Decidable (Adjacent s t) := by unfold Adjacent; infer_instance

def Board.Clear (b : Board) (s t : Square) : Prop := ∀ u ∈ between s t, b u = none

instance (b : Board) (s t : Square) : Decidable (b.Clear s t) := by unfold Board.Clear; infer_instance

/-- A piece on one square attacks the other. -/
def Board.Attacks (b : Board) (p : Piece) (s t : Square) : Prop :=
  match p.type with
  | .pawn => (fileStep s t).natAbs = 1 ∧ rankStep s t = p.color.forward
  | .knight => (fileStep s t).natAbs = 1 ∧ (rankStep s t).natAbs = 2 ∨ (fileStep s t).natAbs = 2 ∧ (rankStep s t).natAbs = 1
  | .bishop => Diagonal s t ∧ b.Clear s t
  | .rook => Straight s t ∧ b.Clear s t
  | .queen => (Straight s t ∨ Diagonal s t) ∧ b.Clear s t
  | .king => Adjacent s t

instance (b : Board) (p : Piece) (s t : Square) : Decidable (b.Attacks p s t) := by
  unfold Board.Attacks
  cases p.type <;> infer_instance

/-- Some piece of the colour attacks the square. -/
def Board.Attacked (b : Board) (c : Color) (t : Square) : Prop :=
  ∃ s, ∃ p ∈ b s, p.color = c ∧ b.Attacks p s t

instance (b : Board) (c : Color) (t : Square) : Decidable (b.Attacked c t) := by
  unfold Board.Attacked
  infer_instance

def Board.InCheck (b : Board) (c : Color) : Prop := ∃ s, b s = some ⟨c, .king⟩ ∧ b.Attacked c.other s

instance (b : Board) (c : Color) : Decidable (b.InCheck c) := by unfold Board.InCheck; infer_instance

inductive Side where
  | king | queen
  deriving DecidableEq, Repr

def kingHome (c : Color) : Square := square 4 c.backRank

def rookHome (c : Color) : Side → Square
  | .king => square 7 c.backRank
  | .queen => square 0 c.backRank

/-- Where castling puts the king, and where it puts the rook. -/
def kingCastled (c : Color) : Side → Square
  | .king => square 6 c.backRank
  | .queen => square 2 c.backRank

def rookCastled (c : Color) : Side → Square
  | .king => square 5 c.backRank
  | .queen => square 3 c.backRank

/-- A position: each side has one king, and who may still castle has king and rook at home. -/
structure Position where
  board : Board
  turn : Color
  castling : Color → Side → Bool
  enPassant : Option Square
  halfmoveClock : Nat
  fullmoveNumber : Nat
  one_king : ∀ c, ∃! s, board s = some ⟨c, .king⟩
  castling_home : ∀ c side, castling c side = true →
    board (kingHome c) = some ⟨c, .king⟩ ∧ board (rookHome c side) = some ⟨c, .rook⟩

inductive Promotion where
  | knight | bishop | rook | queen
  deriving DecidableEq, Repr

def Promotion.piece : Promotion → PieceType
  | knight => .knight
  | bishop => .bishop
  | rook => .rook
  | queen => .queen

inductive Move where
  | plain (source target : Square) (promotion : Option Promotion)
  | castle (side : Side)
  deriving DecidableEq, Repr

namespace Position

variable (p : Position)

def PawnPush (s t : Square) : Prop :=
  fileStep s t = 0 ∧ p.board t = none ∧
    (rankStep s t = p.turn.forward ∨
      rankIdx s = p.turn.pawnRank ∧ rankStep s t = 2 * p.turn.forward ∧ p.board.Clear s t)

/-- The pawn on the square takes a pawn that has just gone past the target. -/
def TakesEnPassant (s t : Square) : Prop :=
  p.board s = some ⟨p.turn, .pawn⟩ ∧ p.board.Attacks ⟨p.turn, .pawn⟩ s t ∧ p.enPassant = some t ∧ p.board t = none

def PawnTakes (s t : Square) : Prop :=
  p.board.Attacks ⟨p.turn, .pawn⟩ s t ∧ ∃ q ∈ p.board t, q.color = p.turn.other

instance (s t : Square) : Decidable (p.PawnPush s t) := by unfold PawnPush; infer_instance
instance (s t : Square) : Decidable (p.TakesEnPassant s t) := by unfold TakesEnPassant; infer_instance
instance (s t : Square) : Decidable (p.PawnTakes s t) := by unfold PawnTakes; infer_instance

/-- The board behind a move. -/
def after : Move → Board
  | .plain s t promotion => fun u =>
    if u = t then
      match promotion with
      | some k => some ⟨p.turn, k.piece⟩
      | none => p.board s
    else if u = s then none
    else if p.TakesEnPassant s t ∧ fileIdx u = fileIdx t ∧ rankIdx u = rankIdx s then none
    else p.board u
  | .castle side => fun u =>
    if u = kingCastled p.turn side then some ⟨p.turn, .king⟩
    else if u = rookCastled p.turn side then some ⟨p.turn, .rook⟩
    else if u = kingHome p.turn ∨ u = rookHome p.turn side then none
    else p.board u

/-- What the piece on the source square can do, its own king's safety apart. -/
def Pseudolegal (s t : Square) (promotion : Option Promotion) (q : Piece) : Prop :=
  q.color = p.turn ∧ (∀ r ∈ p.board t, r.color = p.turn.other) ∧
    if q.type = .pawn then
      (p.PawnPush s t ∨ p.PawnTakes s t ∨ p.TakesEnPassant s t) ∧ (promotion ≠ none ↔ rankIdx t = p.turn.lastRank)
    else p.board.Attacks q s t ∧ promotion = none

instance (s t : Square) (promotion : Option Promotion) (q : Piece) : Decidable (p.Pseudolegal s t promotion q) := by
  unfold Pseudolegal
  infer_instance

/-- Castling is legal: the right is there, nothing stands between king and rook, and no square
that the king leaves, crosses or reaches is attacked. -/
def MayCastle (side : Side) : Prop :=
  p.castling p.turn side = true ∧ p.board.Clear (kingHome p.turn) (rookHome p.turn side) ∧
    ∀ u ∈ [kingHome p.turn, rookCastled p.turn side, kingCastled p.turn side], ¬ p.board.Attacked p.turn.other u

instance (side : Side) : Decidable (p.MayCastle side) := by unfold MayCastle; infer_instance

def Legal : Move → Prop
  | .plain s t promotion =>
    (∃ q ∈ p.board s, p.Pseudolegal s t promotion q) ∧ ¬ (p.after (.plain s t promotion)).InCheck p.turn
  | .castle side => p.MayCastle side

instance (m : Move) : Decidable (p.Legal m) := by
  cases m <;> unfold Legal <;> infer_instance

end Position

def promotions : List (Option Promotion) := [none, some .knight, some .bishop, some .rook, some .queen]

def allMoves : List Move :=
  (List.finRange 64 ×ˢ List.finRange 64 ×ˢ promotions).map (fun x => Move.plain x.1 x.2.1 x.2.2)
    ++ [.castle .king, .castle .queen]

def Position.legalMoves (p : Position) : List Move := allMoves.filter (fun m => p.Legal m)

theorem mem_allMoves (m : Move) : m ∈ allMoves := by
  cases m with
  | plain s t promotion =>
    have hp : promotion ∈ promotions := by
      rcases promotion with _ | k
      · decide
      · cases k <;> decide
    simp [allMoves, hp]
  | castle side => cases side <;> simp [allMoves]

theorem allMoves_nodup : allMoves.Nodup := by
  have hinj : Function.Injective (fun x : Square × Square × Option Promotion => Move.plain x.1 x.2.1 x.2.2) := by
    rintro ⟨s, t, q⟩ ⟨s', t', q'⟩ h
    simpa using h
  have hproduct : (List.finRange 64 ×ˢ List.finRange 64 ×ˢ promotions).Nodup :=
    (List.nodup_finRange 64).product ((List.nodup_finRange 64).product (by decide))
  refine (hproduct.map hinj).append (by decide) ?_
  rw [List.disjoint_left]
  intro m hm hc
  obtain ⟨x, -, rfl⟩ := List.mem_map.mp hm
  simp at hc

@[simp] theorem Position.mem_legalMoves {p : Position} {m : Move} : m ∈ p.legalMoves ↔ p.Legal m := by
  simp [legalMoves, mem_allMoves]

theorem Position.legalMoves_nodup (p : Position) : p.legalMoves.Nodup := allMoves_nodup.filter _

/-- The right is there and the way is free, whatever is attacked. -/
def Position.Castles (p : Position) (side : Side) : Prop :=
  p.castling p.turn side = true ∧ p.board.Clear (kingHome p.turn) (rookHome p.turn side)

theorem Position.castles_of_legal {p : Position} {side : Side} (h : p.Legal (.castle side)) : p.Castles side := ⟨h.1, h.2.1⟩

theorem Position.king_of_castle {p : Position} {side : Side} (h : p.Castles side) :
    p.board (kingHome p.turn) = some ⟨p.turn, .king⟩ := (p.castling_home p.turn side h.1).1

theorem Position.source_of_legal {p : Position} {s t : Square} {promotion : Option Promotion}
    (h : p.Legal (.plain s t promotion)) : ∃ q, p.board s = some q ∧ p.Pseudolegal s t promotion q := by
  obtain ⟨⟨q, hq, hpseudo⟩, -⟩ := h
  exact ⟨q, hq, hpseudo⟩

/-- Some piece on the source can make the move, its own king's safety apart. -/
def Position.Plays (p : Position) (s t : Square) (promotion : Option Promotion) : Prop :=
  ∃ q ∈ p.board s, p.Pseudolegal s t promotion q

theorem Position.Plays.source {p : Position} {s t : Square} {promotion : Option Promotion}
    (h : p.Plays s t promotion) : ∃ q, p.board s = some q ∧ p.Pseudolegal s t promotion q := h

theorem Position.Plays.source_ne_target {p : Position} {s t : Square} {promotion : Option Promotion}
    (h : p.Plays s t promotion) : s ≠ t := by
  obtain ⟨q, hq, hcolor, htarget, -⟩ := h
  rintro rfl
  have hother := htarget q hq
  rw [hcolor] at hother
  exact Color.other_ne p.turn hother.symm

theorem Position.source_ne_target {p : Position} {s t : Square} {promotion : Option Promotion}
    (h : p.Legal (.plain s t promotion)) : s ≠ t := Plays.source_ne_target h.1

theorem Position.adjacent_of_king {p : Position} {s t : Square} {promotion : Option Promotion}
    (h : p.Legal (.plain s t promotion)) (hk : p.board s = some ⟨p.turn, .king⟩) : Adjacent s t := by
  obtain ⟨q, hq, -, -, hmove⟩ := source_of_legal h
  rw [hk] at hq
  obtain rfl := Option.some_inj.mp hq
  exact hmove.1

def Promotion.letter : Promotion → Char
  | knight => 'n' | bishop => 'b' | rook => 'r' | queen => 'q'

def promotionText (promotion : Option Promotion) : Str := (promotion.map Promotion.letter).toList

/-- `move.uci()`: castling is written as the step of the king. -/
def Move.uci (turn : Color) : Move → Str
  | .plain s t promotion => squareName s ++ squareName t ++ promotionText promotion
  | .castle side => squareName (kingHome turn) ++ squareName (kingCastled turn side)

/-- The two squares and the promotion can be read off the text. -/
theorem text_injective {s t s' t' : Square} {promotion promotion' : Option Promotion}
    (h : squareName s ++ squareName t ++ promotionText promotion =
      squareName s' ++ squareName t' ++ promotionText promotion') :
    s = s' ∧ t = t' ∧ promotion = promotion' := by
  rw [List.append_assoc, List.append_assoc] at h
  obtain ⟨hs, h⟩ := List.append_inj h rfl
  obtain ⟨ht, h⟩ := List.append_inj h rfl
  refine ⟨squareName_injective hs, squareName_injective ht, ?_⟩
  rcases promotion with _ | k <;> rcases promotion' with _ | k'
  · rfl
  · simp [promotionText] at h
  · simp [promotionText] at h
  · cases k <;> cases k' <;> simp_all [promotionText, Promotion.letter]

end ChessAnalytics.Chess
