import ChessAnalytics.Lc0.Client
import ChessAnalytics.Lc0.Moves

/-! lc0's board, and the reader that sets it from a FEN string. -/
namespace ChessAnalytics.Lc0.Board
open Strings Chess

/-- Bit 0 is a1, bit 1 is b1, bit 63 is h8. -/
structure BitBoard where
  board : BitVec 64
  deriving DecidableEq

namespace BitBoard

def zero : BitBoard := ⟨0#64⟩

def get (b : BitBoard) (s : Square) : Bool := b.board.getLsbD s.val

def set (b : BitBoard) (s : Square) : BitBoard := ⟨b.board ||| (1#64 <<< s.val)⟩

def union (a b : BitBoard) : BitBoard := ⟨a.board ||| b.board⟩
def inter (a b : BitBoard) : BitBoard := ⟨a.board &&& b.board⟩
def diff (a b : BitBoard) : BitBoard := ⟨a.board &&& ~~~b.board⟩

/-- `ReverseBytesInBytes`. -/
def mirror (b : BitBoard) : BitBoard :=
  let v := b.board
  let v := (v &&& 0x00000000FFFFFFFF#64) <<< 32 ||| (v &&& 0xFFFFFFFF00000000#64) >>> 32
  let v := (v &&& 0x0000FFFF0000FFFF#64) <<< 16 ||| (v &&& 0xFFFF0000FFFF0000#64) >>> 16
  let v := (v &&& 0x00FF00FF00FF00FF#64) <<< 8 ||| (v &&& 0xFF00FF00FF00FF00#64) >>> 8
  ⟨v⟩

end BitBoard

inductive PieceType where
  | knight | queen | rook | bishop | pawn | king
  deriving DecidableEq, Repr

def PieceType.parse (c : Char) : Option PieceType :=
  match c.toLower with
  | 'n' => some .knight
  | 'q' => some .queen
  | 'r' => some .rook
  | 'b' => some .bishop
  | 'p' => some .pawn
  | 'k' => some .king
  | _ => none

/-- `File::Parse`, when the file is valid. -/
def parseFile (c : Char) : Option Nat := if isFile c.toLower then some (c.toLower.toNat - 'a'.toNat) else none

/-- `Rank::Parse`, when the rank is valid. -/
def parseRank (c : Char) : Option Nat := if isRank c then some (c.toNat - '1'.toNat) else none

/-- The files of the castling rooks and the four rights. -/
structure Castlings where
  ourQueensideRook : Nat := 0
  theirQueensideRook : Nat := 0
  ourKingsideRook : Nat := 7
  theirKingsideRook : Nat := 7
  weCan00 : Bool := false
  weCan000 : Bool := false
  theyCan00 : Bool := false
  theyCan000 : Bool := false
  deriving DecidableEq

def Castlings.mirror (c : Castlings) : Castlings where
  ourQueensideRook := c.theirQueensideRook
  theirQueensideRook := c.ourQueensideRook
  ourKingsideRook := c.theirKingsideRook
  theirKingsideRook := c.ourKingsideRook
  weCan00 := c.theyCan00
  weCan000 := c.theyCan000
  theyCan00 := c.weCan00
  theyCan000 := c.weCan000

/-- "Ours" are the pieces of the side to move; a board that is flipped is seen from Black. -/
structure ChessBoard where
  ourPieces : BitBoard := .zero
  theirPieces : BitBoard := .zero
  rooks : BitBoard := .zero
  bishops : BitBoard := .zero
  pawns : BitBoard := .zero
  ourKing : Square := fromIdx 0
  theirKing : Square := fromIdx 0
  castlings : Castlings := {}
  flipped : Bool := false
  deriving DecidableEq

namespace ChessBoard

def pawnMask : BitBoard := ⟨0x00FFFFFFFFFFFF00#64⟩

def mirror (b : ChessBoard) : ChessBoard where
  ourPieces := b.theirPieces.mirror
  theirPieces := b.ourPieces.mirror
  rooks := b.rooks.mirror
  bishops := b.bishops.mirror
  pawns := b.pawns.mirror
  ourKing := Chess.mirror b.theirKing
  theirKing := Chess.mirror b.ourKing
  castlings := b.castlings.mirror
  flipped := !b.flipped

def putPiece (b : ChessBoard) (s : Square) (piece : PieceType) (isTheirs : Bool) : ChessBoard :=
  { b with
    ourPieces := if isTheirs then b.ourPieces else b.ourPieces.set s
    theirPieces := if isTheirs then b.theirPieces.set s else b.theirPieces
    ourKing := if piece = .king ∧ !isTheirs then s else b.ourKing
    theirKing := if piece = .king ∧ isTheirs then s else b.theirKing
    pawns := if piece = .pawn then b.pawns.set s else b.pawns
    rooks := if piece = .rook ∨ piece = .queen then b.rooks.set s else b.rooks
    bishops := if piece = .bishop ∨ piece = .queen then b.bishops.set s else b.bishops }

/-- `skip_whitespace` behind a field; the source is done when nothing is left. -/
def skipWhitespace (place : String) (rest : Str) : Except Str Str :=
  match rest with
  | c :: _ => if c = ' ' then .ok (rest.dropWhile (· = ' ')) else .error ("space expected ".toList ++ place.toList)
  | [] => .ok []

/-- The loop over the board field, from a rank and a file on. The file may be one past the board. -/
def readBoard : ChessBoard → Nat → Nat → Str → Except Str (ChessBoard × Str)
  | b, _, _, [] => .ok (b, [])
  | b, rank, file, c :: rest =>
    if c = ' ' then .ok (b, c :: rest)
    else if c = '/' then
      if rank = 0 then .error "too many ranks".toList else readBoard b (rank - 1) 0 rest
    else if isRank c then
      let file := file + (c.toNat - '0'.toNat)
      if file > 8 then .error "too many files".toList else readBoard b rank file rest
    else
      match PieceType.parse c with
      | none => .error "invalid character as piece".toList
      | some piece =>
        if ¬ file < 8 then .error "piece out of board".toList
        else if piece = .pawn ∧ (rank = 0 ∨ rank = 7) then .error "pawn on back rank".toList
        else readBoard (b.putPiece (square file rank) piece c.isLower) rank (file + 1) rest

def readSide (b : ChessBoard) (c : Char) : Except Str ChessBoard :=
  if c.toLower = 'b' then .ok b.mirror
  else if c.toLower = 'w' then .ok b
  else .error "invalid side to move".toList

def kingFile (b : ChessBoard) (theirs : Bool) : Nat := fileIdx (if theirs then b.theirKing else b.ourKing)

/-- `find_rook`: the outermost rook between the edge and the king. -/
def findRook (b : ChessBoard) (theirs kingside : Bool) : Except Str Nat :=
  let files := if kingside then (List.range 8).reverse else List.range 8
  let own := if theirs then b.theirPieces else b.ourPieces
  let isRook (file : Nat) : Bool :=
    let sq := square file (if theirs then 7 else 0)
    (b.rooks.diff b.bishops).get sq && own.get sq
  match (files.takeWhile (· ≠ b.kingFile theirs)).find? isRook with
  | some file => .ok file
  | none => .error "missing rook for castling".toList

def grant (c : Castlings) (theirs kingside : Bool) (file : Nat) : Castlings :=
  match kingside, theirs with
  | true, true => { c with theyCan00 := true, theirKingsideRook := file }
  | true, false => { c with weCan00 := true, ourKingsideRook := file }
  | false, true => { c with theyCan000 := true, theirQueensideRook := file }
  | false, false => { c with weCan000 := true, ourQueensideRook := file }

/-- The loop over the castling field. -/
def readCastlings : ChessBoard → Str → Except Str (ChessBoard × Str)
  | b, [] => .ok (b, [])
  | b, c :: rest =>
    if c = ' ' then .ok (b, c :: rest)
    else
      let theirs := c.isUpper == b.flipped
      if c ∈ "KQkq".toList then
        let kingside := c.toLower == 'k'
        match b.findRook theirs kingside with
        | .ok file => readCastlings { b with castlings := grant b.castlings theirs kingside file } rest
        | .error msg => .error msg
      else
        match parseFile c with
        | some file =>
          readCastlings { b with castlings := grant b.castlings theirs (b.kingFile theirs < file) file } rest
        | none => .error "invalid character in castling".toList

def byteSize (s : Str) : Nat := (s.map Char.utf8Size).sum

/-- The en passant field, when it is not a dash. The capturable pawn is marked on rank 8. -/
def readEnPassant (b : ChessBoard) (rest : Str) : Except Str (ChessBoard × Str) :=
  match rest with
  | f :: r :: rest' =>
    if byteSize rest ≤ 2 then .error "en passant square expected".toList
    else
      match parseFile f, parseRank r with
      | some file, some rank =>
        if rank ≠ (if b.flipped then 2 else 5) then .error "bad en passant rank".toList
        else if (b.ourPieces.union b.theirPieces).get (square file 5) then .error "en passant square occupied".toList
        else if !(b.theirPieces.inter (b.pawns.inter pawnMask)).get (square file 4) then
          .error "no pawn to capture en passant".toList
        else .ok ({ b with pawns := b.pawns.set (square file 7) }, rest')
      | _, _ => .error "bad en passant square".toList
  | _ => if byteSize rest ≤ 2 then .error "en passant square expected".toList else .error "bad en passant square".toList

/-- A field that is a dash or has a reader of its own. -/
def dashOr (b : ChessBoard) (reader : Str → Except Str (ChessBoard × Str)) (rest : Str) :
    Except Str (ChessBoard × Str) :=
  match rest with
  | '-' :: rest => .ok (b, rest)
  | rest => reader rest

/-- The numbers that an `int` holds. -/
def fitsInt (z : Int) : Prop := -2147483648 ≤ z ∧ z ≤ 2147483647

instance (z : Int) : Decidable (fitsInt z) := inferInstanceAs (Decidable (_ ∧ _))

/-- `std::from_chars` for an `int`; what follows the digits does not count. -/
def fromChars (num : Str) : Option Int :=
  let (neg, ds) := match num with
    | '-' :: ds => (true, ds.takeWhile Char.isDigit)
    | ds => (false, ds.takeWhile Char.isDigit)
  let z : Int := if neg then -(readNat ds : Int) else readNat ds
  if ds ≠ [] ∧ fitsInt z then some z else none

/-- `parse_int`: the number and what follows its field. -/
def parseInt (errorMsg : String) (rest : Str) : Except Str (Int × Str) :=
  match fromChars (rest.takeWhile (· ≠ ' ')) with
  | some z => .ok (z, rest.dropWhile (· ≠ ' '))
  | none => .error errorMsg.toList

end ChessBoard

/-- A board with its two counters. -/
structure Position where
  board : ChessBoard
  rule50Ply : Int := 0
  plyCount : Int := 1
  deriving DecidableEq

namespace Position
open ChessBoard

/-- The fields in their order. The text may end behind each of them. -/
def readFields (fen : Str) : Except Str Position := do
  let (b, rest) ← readBoard {} 7 0 (fen.dropWhile (· = ' '))
  let rest ← skipWhitespace "after the board" rest
  match rest with
  | [] => return { board := b }
  | side :: rest =>
  let b ← readSide b side
  let rest ← skipWhitespace "after side to move" rest
  if rest = [] then return { board := b } else
  let (b, rest) ← dashOr b (readCastlings b) rest
  let rest ← skipWhitespace "after castling" rest
  if rest = [] then return { board := b } else
  let (b, rest) ← dashOr b (readEnPassant b) rest
  let rest ← skipWhitespace "after en passant" rest
  if rest = [] then return { board := b } else
  let (rule50, rest) ← parseInt "bad rule 50 halfmoves" rest
  let rest ← skipWhitespace "after rule-50 clock" rest
  if rest = [] then return { board := b, rule50Ply := rule50 } else
  let (moves, rest) ← parseInt "bad total moves" rest
  let rest ← skipWhitespace "after total moves" rest
  if rest = [] then return { board := b, rule50Ply := rule50, plyCount := moves }
  else .error "extra characters".toList

/-- `Position::FromFen`, with `complain` around the messages. -/
def fromFen (fen : Str) : Except Str Position :=
  match readFields fen with
  | .ok pos => .ok pos
  | .error msg => .error ("Bad fen string (".toList ++ msg ++ "): ".toList ++ fen)

end Position

def startposFen : Str := "rnbqkbnr/pppppppp/8/8/8/8/PPPPPPPP/RNBQKBNR w KQkq - 0 1".toList

end ChessAnalytics.Lc0.Board
