import ChessAnalytics.Lc0.Bits

/-! How lc0's board takes a move, and how it reads one from its text. -/
namespace ChessAnalytics.Lc0

namespace Move

def isEnPassant (m : Move) : Bool := m.data &&& specialMask = enPassantBits

end Move

namespace Board
open Strings Chess

def Castlings.resetWeCan00 (c : Castlings) : Castlings := { c with weCan00 := false }
def Castlings.resetWeCan000 (c : Castlings) : Castlings := { c with weCan000 := false }
def Castlings.resetTheyCan00 (c : Castlings) : Castlings := { c with theyCan00 := false }
def Castlings.resetTheyCan000 (c : Castlings) : Castlings := { c with theyCan000 := false }

/-- Opponent pawn attacks: from which squares a pawn of theirs attacks the square. -/
def pawnAttacks : List (BitVec 64) :=
  [0x0000000000000200, 0x0000000000000500, 0x0000000000000A00, 0x0000000000001400,
   0x0000000000002800, 0x0000000000005000, 0x000000000000A000, 0x0000000000004000,
   0x0000000000020000, 0x0000000000050000, 0x00000000000A0000, 0x0000000000140000,
   0x0000000000280000, 0x0000000000500000, 0x0000000000A00000, 0x0000000000400000,
   0x0000000002000000, 0x0000000005000000, 0x000000000A000000, 0x0000000014000000,
   0x0000000028000000, 0x0000000050000000, 0x00000000A0000000, 0x0000000040000000,
   0x0000000200000000, 0x0000000500000000, 0x0000000A00000000, 0x0000001400000000,
   0x0000002800000000, 0x0000005000000000, 0x000000A000000000, 0x0000004000000000,
   0x0000020000000000, 0x0000050000000000, 0x00000A0000000000, 0x0000140000000000,
   0x0000280000000000, 0x0000500000000000, 0x0000A00000000000, 0x0000400000000000,
   0x0002000000000000, 0x0005000000000000, 0x000A000000000000, 0x0014000000000000,
   0x0028000000000000, 0x0050000000000000, 0x00A0000000000000, 0x0040000000000000,
   0, 0, 0, 0, 0, 0, 0, 0, 0, 0, 0, 0, 0, 0, 0, 0]

def pawnAttacksOn (s : Square) : BitBoard := ⟨pawnAttacks.getD s.val 0⟩

theorem get_pawnAttacksOn : ∀ s u : Square,
    (pawnAttacksOn s).get u = decide ((fileStep u s).natAbs = 1 ∧ rankStep u s = -1 ∧ rankIdx u ≤ 6) := by
  decide +kernel

namespace ChessBoard

def doCastling (b : ChessBoard) (kingDst : Nat) (rookSrc : Square) (rookDst : Nat) : ChessBoard :=
  { b with
    pawns := b.pawns.inter pawnMask
    ourPieces := (((b.ourPieces.reset b.ourKing).reset rookSrc).set (square kingDst 0)).set (square rookDst 0)
    rooks := (b.rooks.reset rookSrc).set (square rookDst 0)
    ourKing := square kingDst 0 }

/-- A piece of theirs on the square is taken, and the right that its rook had is lost. -/
def capture (b : ChessBoard) (t : Square) : ChessBoard :=
  if b.theirPieces.get t then
    { b with
      theirPieces := b.theirPieces.reset t
      rooks := b.rooks.reset t
      bishops := b.bishops.reset t
      pawns := b.pawns.reset t
      castlings :=
        let c := if t = square b.castlings.theirKingsideRook 7 then b.castlings.resetTheyCan00 else b.castlings
        if t = square c.theirQueensideRook 7 then c.resetTheyCan000 else c }
  else b

def removePassed (b : ChessBoard) (u : Square) : ChessBoard :=
  { b with pawns := b.pawns.reset u, theirPieces := b.theirPieces.reset u }

def promote (b : ChessBoard) (s t : Square) (piece : Nat) : ChessBoard :=
  let b := match piece with
    | 1 => { b with rooks := b.rooks.set t, bishops := b.bishops.set t }
    | 2 => { b with rooks := b.rooks.set t }
    | 3 => { b with bishops := b.bishops.set t }
    | _ => b
  { b with pawns := b.pawns.reset s }

/-- A rook that leaves the first rank takes its right with it. -/
def loseRookRight (b : ChessBoard) (s : Square) : ChessBoard :=
  if rankIdx s = 0 ∧ b.rooks.get s then
    { b with
      castlings :=
        let c := if fileIdx s = b.castlings.ourQueensideRook then b.castlings.resetWeCan000 else b.castlings
        if fileIdx s = c.ourKingsideRook then c.resetWeCan00 else c }
  else b

/-- What the piece is goes with it from the one square to the other. -/
def movePiece (b : ChessBoard) (s t : Square) : ChessBoard :=
  { b with
    rooks := (b.rooks.setIf t (b.rooks.get s)).reset s
    bishops := (b.bishops.setIf t (b.bishops.get s)).reset s
    pawns := (b.pawns.setIf t (b.pawns.get s)).reset s }

/-- A double step is marked on rank 1 when a pawn of theirs stands beside its target. -/
def markDoubleStep (b : ChessBoard) (s t : Square) : ChessBoard :=
  if rankStep s t = 2 ∧ b.pawns.get t then
    if (pawnAttacksOn (square (fileIdx t) (rankIdx t - 1))).intersects (b.theirPieces.inter b.pawns) then
      { b with pawns := b.pawns.set (square (fileIdx t) 0) }
    else b
  else b

/-- Our piece is on its target, what it takes is gone, and so are the en passant marks. -/
def takeAway (b : ChessBoard) (m : Move) : ChessBoard :=
  let b := { b with ourPieces := (b.ourPieces.reset m.fromSq).set m.toSq }
  let b := b.capture m.toSq
  let b := if m.isEnPassant then b.removePassed (square (fileIdx m.toSq) 4) else b
  { b with pawns := b.pawns.inter pawnMask }

def leaveHome (b : ChessBoard) (s : Square) : ChessBoard :=
  if s = b.ourKing then { b with castlings := b.castlings.resetWeCan00.resetWeCan000 } else b

/-- `ApplyMove`, and whether the counter of the fifty-move rule starts again. -/
def applyMove (b : ChessBoard) (m : Move) : ChessBoard × Bool :=
  let s := m.fromSq
  let t := m.toSq
  let isKing : Bool := s = b.ourKing
  let b := b.leaveHome s
  if isKing && m.isCastling then
    (if fileIdx t > fileIdx s then b.doCastling 6 t 5 else b.doCastling 2 t 3, false)
  else
    let captured := b.theirPieces.get t
    let b := b.takeAway m
    let reset50Moves := captured || b.pawns.get s
    if isKing then ({ b with ourKing := t }, reset50Moves)
    else if m.isPromotion then (b.promote s t m.promotion, true)
    else (((b.loseRookRight s).movePiece s t).markDoubleStep s t, reset50Moves)

end ChessBoard

end Board

end ChessAnalytics.Lc0
