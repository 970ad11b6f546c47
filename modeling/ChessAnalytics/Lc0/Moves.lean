import ChessAnalytics.Chess.Rules
import ChessAnalytics.Lc0.Printer

/-! lc0's moves: sixteen bits from the mover's side of the board, and the two texts that
`ToString` gives them. -/
namespace ChessAnalytics.Lc0
open Strings Chess

/-- Bits 0-5 hold the target and bits 6-11 the source; bit 14 marks a promotion, and bits 12-13
hold its piece or the kind of a special move. -/
structure Move where
  data : BitVec 16
  deriving DecidableEq

namespace Move

def toMask : BitVec 16 := 0b0000000000111111#16
def fromMask : BitVec 16 := 0b0000111111000000#16
def specialMask : BitVec 16 := 0b0111000000000000#16
def castlingBits : BitVec 16 := 0b0001000000000000#16
def enPassantBits : BitVec 16 := 0b0010000000000000#16
def promotionBit : BitVec 16 := 0b0100000000000000#16
def pieceMask : BitVec 16 := 0b0011000000000000#16
def flipMask : BitVec 16 := 0b0000111000111000#16

def asIdx (s : Square) : BitVec 16 := BitVec.ofNat 16 s.val

/-- The index of a promotion piece in `types.h`. -/
def pieceIdx : Promotion → BitVec 16
  | .knight => 0
  | .queen => 1
  | .rook => 2
  | .bishop => 3

def white (s t : Square) : Move := ⟨(asIdx s <<< 6) ||| asIdx t⟩

def whitePromotion (s t : Square) (k : Promotion) : Move :=
  ⟨(asIdx s <<< 6) ||| asIdx t ||| promotionBit ||| (pieceIdx k <<< 12)⟩

/-- Castling is encoded as "king takes rook" on the first rank. -/
def whiteCastling (king rook : Fin 8) : Move :=
  ⟨(BitVec.ofNat 16 king.val <<< 6) ||| BitVec.ofNat 16 rook.val ||| castlingBits⟩

def whiteEnPassant (s t : Square) : Move := ⟨(asIdx s <<< 6) ||| asIdx t ||| enPassantBits⟩

def flip (m : Move) : Move := ⟨m.data ^^^ flipMask⟩

def fromSq (m : Move) : Square := fromIdx ((m.data &&& fromMask) >>> 6).toNat
def toSq (m : Move) : Square := fromIdx (m.data &&& toMask).toNat
def isPromotion (m : Move) : Bool := m.data &&& promotionBit ≠ 0
def promotion (m : Move) : Nat := ((m.data &&& pieceMask) >>> 12).toNat
def isCastling (m : Move) : Bool := m.data &&& specialMask = castlingBits

/-- `PieceType::ToString`. -/
def pieceText (idx : Nat) : Str := ["nqrbpk".toList.getD idx 'k']

def rankText (s : Square) : Str := [Char.ofNat ('1'.toNat + rankIdx s)]

def toString (m : Move) (isChess960 : Bool) : Str :=
  if m.isCastling ∧ isChess960 = false then
    squareName m.fromSq ++ (if fileIdx m.toSq > fileIdx m.fromSq then "g".toList else "c".toList) ++ rankText m.toSq
  else squareName m.fromSq ++ squareName m.toSq ++ (if m.isPromotion then pieceText m.promotion else [])

theorem or_xor_of_disjoint {w : Nat} {x b f : BitVec w} (h : b &&& f = 0) : (x ||| b) ^^^ f = (x ^^^ f) ||| b := by
  ext i hi
  have hbit : (b[i] && f[i]) = false := by simpa using congrArg (fun v : BitVec w => v[i]) h
  simp only [BitVec.getElem_xor, BitVec.getElem_or]
  revert hbit
  cases x[i] <;> cases b[i] <;> cases f[i] <;> decide

private theorem flip_white : ∀ s t, (white s t).flip = white (mirror s) (mirror t) := by decide +kernel

private theorem white_bits : ∀ s t, (white s t).fromSq = s ∧ (white s t).toSq = t ∧
    (white s t).data &&& specialMask = 0#16 := by decide +kernel

/-- A move between two squares with the bits of its kind. -/
def marked (bits : BitVec 16) (s t : Square) : Move := ⟨(white s t).data ||| bits⟩

theorem flip_marked {bits : BitVec 16} (h : bits &&& flipMask = 0#16) (s t : Square) :
    (marked bits s t).flip = marked bits (mirror s) (mirror t) := by
  have hw : (white s t).data ^^^ flipMask = (white (mirror s) (mirror t)).data := congrArg data (flip_white s t)
  rw [flip, marked, marked, or_xor_of_disjoint h, hw]

theorem fromSq_marked {bits : BitVec 16} (h : bits &&& fromMask = 0#16) (s t : Square) : (marked bits s t).fromSq = s := by
  rw [fromSq, marked, BitVec.and_or_distrib_right, h, BitVec.or_zero]
  exact (white_bits s t).1

theorem toSq_marked {bits : BitVec 16} (h : bits &&& toMask = 0#16) (s t : Square) : (marked bits s t).toSq = t := by
  rw [toSq, marked, BitVec.and_or_distrib_right, h, BitVec.or_zero]
  exact (white_bits s t).2.1

theorem upper_marked {mask : BitVec 16} (h : specialMask &&& mask = mask) (bits : BitVec 16) (s t : Square) :
    (marked bits s t).data &&& mask = bits &&& mask := by
  have hw : (white s t).data &&& mask = 0#16 := by
    rw [← h, ← BitVec.and_assoc, (white_bits s t).2.2, BitVec.zero_and]
  rw [marked, BitVec.and_or_distrib_right, hw, BitVec.zero_or]

theorem toString_marked {bits : BitVec 16} (hsquares : bits &&& 0x0fff#16 = 0#16) (hkind : bits &&& specialMask ≠ castlingBits)
    (s t : Square) (chess960 : Bool) :
    (marked bits s t).toString chess960 = squareName s ++ squareName t ++
      (if (bits &&& promotionBit ≠ 0) then pieceText ((bits &&& pieceMask) >>> 12).toNat else []) := by
  have hmask (mask : BitVec 16) (h : 0x0fff#16 &&& mask = mask) : bits &&& mask = 0#16 := by
    rw [← h, ← BitVec.and_assoc, hsquares, BitVec.zero_and]
  have hcastling : (marked bits s t).isCastling = false := by
    rw [isCastling, upper_marked (by decide)]
    exact decide_eq_false hkind
  rw [toString, hcastling, if_neg (by simp), fromSq_marked (hmask _ (by decide)), toSq_marked (hmask _ (by decide)),
    isPromotion, promotion, upper_marked (by decide), upper_marked (by decide)]
  simp only [decide_eq_true_eq]

end Move

def ours (c : Color) (s : Square) : Square :=
  match c with
  | .white => s
  | .black => mirror s

def rookFile : Side → Fin 8
  | .king => 7
  | .queen => 0

/-- The move as a root edge stores it. -/
def encode (p : Position) : Chess.Move → Move
  | .plain s t (some k) => .whitePromotion (ours p.turn s) (ours p.turn t) k
  | .plain s t none =>
    if p.TakesEnPassant s t then .whiteEnPassant (ours p.turn s) (ours p.turn t)
    else .white (ours p.turn s) (ours p.turn t)
  | .castle side => .whiteCastling 4 (rookFile side)

def getMove (m : Move) (asOpponent : Bool) : Move := if asOpponent then m.flip else m

/-- The move of a root edge from white's side of the board, as it is printed. -/
def shownMove (p : Position) (m : Chess.Move) : Move := getMove (encode p m) (p.turn = .black)

def kindBits (p : Position) (s t : Square) : Option Promotion → BitVec 16
  | some k => Move.promotionBit ||| (Move.pieceIdx k <<< 12)
  | none => if p.TakesEnPassant s t then Move.enPassantBits else 0#16

theorem kindBits_squares (p : Position) (s t : Square) (promotion : Option Promotion) :
    kindBits p s t promotion &&& 0x0fff#16 = 0#16 ∧ kindBits p s t promotion &&& Move.flipMask = 0#16 := by
  rcases promotion with _ | k
  · rw [kindBits]
    split <;> decide
  · rw [kindBits]
    cases k <;> decide

theorem kindBits_kind (p : Position) (s t : Square) (promotion : Option Promotion) :
    kindBits p s t promotion &&& Move.specialMask ≠ Move.castlingBits := by
  rcases promotion with _ | k
  · rw [kindBits]
    split <;> decide
  · rw [kindBits]
    cases k <;> decide

private theorem kindBits_text (p : Position) (s t : Square) (promotion : Option Promotion) :
    (if kindBits p s t promotion &&& Move.promotionBit ≠ 0
      then Move.pieceText ((kindBits p s t promotion &&& Move.pieceMask) >>> 12).toNat else []) =
      promotionText promotion := by
  rcases promotion with _ | k
  · rw [kindBits]
    split <;> decide
  · rw [kindBits]
    cases k <;> decide

theorem encode_plain (p : Position) (s t : Square) (promotion : Option Promotion) :
    encode p (.plain s t promotion) = .marked (kindBits p s t promotion) (ours p.turn s) (ours p.turn t) := by
  rcases promotion with _ | k
  · rw [encode, kindBits]
    split
    · rfl
    · rw [Move.marked, BitVec.or_zero]
  · rw [encode, Move.whitePromotion, BitVec.or_assoc]
    rfl

theorem shown_plain (p : Position) (s t : Square) (promotion : Option Promotion) :
    shownMove p (.plain s t promotion) = .marked (kindBits p s t promotion) s t := by
  rw [shownMove, encode_plain]
  cases p.turn with
  | white => rfl
  | black =>
    change (Move.marked _ (mirror s) (mirror t)).flip = _
    rw [Move.flip_marked (kindBits_squares p s t promotion).2, mirror_mirror, mirror_mirror]

/-- Castling keeps the square of the rook as its target, on either side of the board. -/
theorem shown_castle (p : Position) (side : Side) :
    shownMove p (.castle side) = .marked Move.castlingBits (kingHome p.turn) (rookHome p.turn side) := by
  rw [shownMove, encode]
  cases p.turn <;> cases side <;> decide

/-- Both texts of a move that does not castle are its UCI text. -/
theorem toString_plain (p : Position) (s t : Square) (promotion : Option Promotion) (chess960 : Bool) :
    (shownMove p (.plain s t promotion)).toString chess960 = Chess.Move.uci p.turn (.plain s t promotion) := by
  rw [shown_plain, Move.toString_marked (kindBits_squares p s t promotion).1 (kindBits_kind p s t promotion), kindBits_text]
  rfl

theorem toString_castle (p : Position) (side : Side) :
    (shownMove p (.castle side)).toString true = squareName (kingHome p.turn) ++ squareName (rookHome p.turn side) := by
  rw [shown_castle]
  cases p.turn <;> cases side <;> decide

/-- With `UCI_Chess960` false a best move has its UCI text, castling included. -/
theorem toString_standard (p : Position) (m : Chess.Move) : (shownMove p m).toString false = m.uci p.turn := by
  cases m with
  | plain s t promotion => exact toString_plain p s t promotion false
  | castle side =>
    rw [shown_castle]
    cases p.turn <;> cases side <;> decide

private theorem squares_text {s t : Square} {promotion : Option Promotion} :
    IsMoveText (squareName s ++ squareName t ++ promotionText promotion) := by
  have hsquare : ∀ s : Square, Char.ofNat ('a'.toNat + fileIdx s) ∈ fileChars ∧ Char.ofNat ('1'.toNat + rankIdx s) ∈ rankChars := by
    decide
  refine ⟨_, _, _, _, promotionText promotion, rfl, (hsquare s).1, (hsquare s).2, (hsquare t).1, (hsquare t).2, ?_⟩
  rcases promotion with _ | k
  · exact .inl rfl
  · exact .inr ⟨k.letter, by cases k <;> decide, rfl⟩

theorem isMoveText_toString (p : Position) (m : Chess.Move) (chess960 : Bool) :
    IsMoveText ((shownMove p m).toString chess960) := by
  cases m with
  | plain s t promotion =>
    rw [toString_plain]
    exact squares_text
  | castle side =>
    have hnone (s t : Square) : squareName s ++ squareName t = squareName s ++ squareName t ++ promotionText none :=
      (List.append_nil _).symm
    cases chess960 with
    | true =>
      rw [toString_castle, hnone]
      exact squares_text
    | false =>
      rw [toString_standard, Chess.Move.uci, hnone]
      exact squares_text

end ChessAnalytics.Lc0
