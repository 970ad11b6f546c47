import ChessAnalytics.Chess.Flip
import ChessAnalytics.Lc0.Attacks
import ChessAnalytics.Lc0.Placement

/-! Whether lc0 takes a square to be attacked. -/
namespace ChessAnalytics.Lc0.Board
open Strings Chess

def knightAttacks : List (BitVec 64) :=
  [0x0000000000020400, 0x0000000000050800, 0x00000000000A1100, 0x0000000000142200,
   0x0000000000284400, 0x0000000000508800, 0x0000000000A01000, 0x0000000000402000,
   0x0000000002040004, 0x0000000005080008, 0x000000000A110011, 0x0000000014220022,
   0x0000000028440044, 0x0000000050880088, 0x00000000A0100010, 0x0000000040200020,
   0x0000000204000402, 0x0000000508000805, 0x0000000A1100110A, 0x0000001422002214,
   0x0000002844004428, 0x0000005088008850, 0x000000A0100010A0, 0x0000004020002040,
   0x0000020400040200, 0x0000050800080500, 0x00000A1100110A00, 0x0000142200221400,
   0x0000284400442800, 0x0000508800885000, 0x0000A0100010A000, 0x0000402000204000,
   0x0002040004020000, 0x0005080008050000, 0x000A1100110A0000, 0x0014220022140000,
   0x0028440044280000, 0x0050880088500000, 0x00A0100010A00000, 0x0040200020400000,
   0x0204000402000000, 0x0508000805000000, 0x0A1100110A000000, 0x1422002214000000,
   0x2844004428000000, 0x5088008850000000, 0xA0100010A0000000, 0x4020002040000000,
   0x0400040200000000, 0x0800080500000000, 0x1100110A00000000, 0x2200221400000000,
   0x4400442800000000, 0x8800885000000000, 0x100010A000000000, 0x2000204000000000,
   0x0004020000000000, 0x0008050000000000, 0x00110A0000000000, 0x0022140000000000,
   0x0044280000000000, 0x0088500000000000, 0x0010A00000000000, 0x0020400000000000]

def knightAttacksOn (s : Square) : BitBoard := ⟨knightAttacks.getD s.val 0⟩

def Leap (s t : Square) : Prop :=
  (fileStep s t).natAbs = 1 ∧ (rankStep s t).natAbs = 2 ∨ (fileStep s t).natAbs = 2 ∧ (rankStep s t).natAbs = 1

instance (s t : Square) : Decidable (Leap s t) := inferInstanceAs (Decidable (_ ∨ _))

theorem get_knightAttacksOn : ∀ s t : Square, (knightAttacksOn s).get t = decide (Leap s t) := by
  decide +kernel

namespace ChessBoard

/-- Their pieces that are neither king nor anything a bitboard shows. -/
def theirKnights (b : ChessBoard) : BitBoard :=
  (((b.theirPieces.reset b.theirKing).diff b.rooks).diff b.bishops).diff (b.pawns.inter pawnMask)

def isUnderAttack (b : ChessBoard) (tables : AttackTables) (s : Square) : Bool :=
  if (rankStep s b.theirKing).natAbs ≤ 1 ∧ (fileStep s b.theirKing).natAbs ≤ 1 then true
  else if (tables.getRookAttacks s (b.ourPieces.union b.theirPieces)).intersects (b.theirPieces.inter b.rooks) then true
  else if (tables.getBishopAttacks s (b.ourPieces.union b.theirPieces)).intersects (b.theirPieces.inter b.bishops) then true
  else if (pawnAttacksOn s).intersects (b.theirPieces.inter b.pawns) then true
  else if (knightAttacksOn s).intersects b.theirKnights then true
  else false

def isUnderCheck (b : ChessBoard) (tables : AttackTables) : Bool := b.isUnderAttack tables b.ourKing

end ChessBoard

section
variable {board : Chess.Board} {c : Color} {s t u : Square}

theorem leap_symm : Leap s t ↔ Leap t s := by
  rw [Leap, Leap, fileStep, fileStep, rankStep, rankStep]
  omega

/-- A piece along ranks and files, or along diagonals, sees the square. -/
def SeenStraight (board : Chess.Board) (s u : Square) : Prop := straight (board u) = true ∧ Straight s u ∧ board.Clear s u
def SeenDiagonal (board : Chess.Board) (s u : Square) : Prop := diagonal (board u) = true ∧ Diagonal s u ∧ board.Clear s u

theorem attacked_kinds : board.Attacked c s ↔ (∃ u, board u = some ⟨c, .king⟩ ∧ Adjacent u s) ∨
    (∃ u, owned c (board u) = true ∧ SeenStraight board s u) ∨ (∃ u, owned c (board u) = true ∧ SeenDiagonal board s u) ∨
    (∃ u, board u = some ⟨c, .pawn⟩ ∧ (fileStep u s).natAbs = 1 ∧ rankStep u s = c.forward) ∨
    ∃ u, board u = some ⟨c, .knight⟩ ∧ Leap s u := by
  constructor
  · rintro ⟨u, ⟨c', type⟩, hq, hcolor, hattack⟩
    obtain rfl : c' = c := hcolor
    rw [Option.mem_def] at hq
    have howned : owned c' (board u) = true := by
      rw [hq]
      exact decide_eq_true rfl
    cases type with
    | king => exact .inl ⟨u, hq, hattack⟩
    | pawn => exact .inr (.inr (.inr (.inl ⟨u, hq, hattack⟩)))
    | knight => exact .inr (.inr (.inr (.inr ⟨u, hq, leap_symm.mp hattack⟩)))
    | rook =>
      refine .inr (.inl ⟨u, howned, ?_, straight_symm.mp hattack.1, (clear_symm (.inl (straight_symm.mp hattack.1))).mp hattack.2⟩)
      rw [hq]
      rfl
    | bishop =>
      refine .inr (.inr (.inl ⟨u, howned, ?_, diagonal_symm.mp hattack.1, (clear_symm (.inr (diagonal_symm.mp hattack.1))).mp hattack.2⟩))
      rw [hq]
      rfl
    | queen =>
      obtain ⟨hline | hline, hclear⟩ := hattack
      · refine .inr (.inl ⟨u, howned, ?_, straight_symm.mp hline, (clear_symm (.inl (straight_symm.mp hline))).mp hclear⟩)
        rw [hq]
        rfl
      · refine .inr (.inr (.inl ⟨u, howned, ?_, diagonal_symm.mp hline, (clear_symm (.inr (diagonal_symm.mp hline))).mp hclear⟩))
        rw [hq]
        rfl
  · rintro (⟨u, hq, hattack⟩ | ⟨u, howned, hkind, hline, hclear⟩ | ⟨u, howned, hkind, hline, hclear⟩ | ⟨u, hq, hattack⟩ | ⟨u, hq, hattack⟩)
    · exact ⟨u, _, hq, rfl, hattack⟩
    · have hclear' := (clear_symm (.inl hline)).mpr hclear
      cases hq : board u with
      | none =>
        rw [hq] at howned
        cases howned
      | some q =>
        obtain ⟨c', type⟩ := q
        rw [hq] at howned hkind
        refine ⟨u, _, hq, of_decide_eq_true howned, ?_⟩
        cases type with
        | rook => exact ⟨straight_symm.mp hline, hclear'⟩
        | queen => exact ⟨.inl (straight_symm.mp hline), hclear'⟩
        | pawn | knight | bishop | king => cases hkind
    · have hclear' := (clear_symm (.inr hline)).mpr hclear
      cases hq : board u with
      | none =>
        rw [hq] at howned
        cases howned
      | some q =>
        obtain ⟨c', type⟩ := q
        rw [hq] at howned hkind
        refine ⟨u, _, hq, of_decide_eq_true howned, ?_⟩
        cases type with
        | bishop => exact ⟨diagonal_symm.mp hline, hclear'⟩
        | queen => exact ⟨.inr (diagonal_symm.mp hline), hclear'⟩
        | pawn | knight | rook | king => cases hkind
    · exact ⟨u, _, hq, rfl, hattack⟩
    · exact ⟨u, _, hq, rfl, leap_symm.mp hattack⟩

end

/-- The bitboards show a board from White's side; its black king is where it is said to be, and no black
pawn stands on rank 8, where a mark may be. -/
structure White (b : ChessBoard) (board : Chess.Board) : Prop extends Shows b board .white where
  king_unique : ∀ s, board s = some ⟨.black, .king⟩ → s = b.theirKing
  pawns_below : ∀ s, board s = some ⟨.black, .pawn⟩ → rankIdx s ≤ 6

section
variable {b : ChessBoard} {board : Chess.Board} {s : Square}

theorem White.ours_get (hb : White b board) (s : Square) : b.ourPieces.get s = owned .white (board s) := hb.ourPieces s
theorem White.theirs_get (hb : White b board) (s : Square) : b.theirPieces.get s = owned .black (board s) := hb.theirPieces s
theorem White.rooks_get (hb : White b board) (s : Square) : b.rooks.get s = straight (board s) := hb.rooks s
theorem White.bishops_get (hb : White b board) (s : Square) : b.bishops.get s = diagonal (board s) := hb.bishops s
theorem White.pawns_get (hb : White b board) (s : Square) : (b.pawns.inter ChessBoard.pawnMask).get s = isPawn (board s) := hb.pawns s

theorem White.occupied (hb : White b board) (s : Square) : (b.ourPieces.union b.theirPieces).get s = false ↔ board s = none := by
  rw [BitBoard.get_union, hb.ours_get, hb.theirs_get]
  rcases board s with _ | ⟨c, type⟩
  · simp [owned]
  · cases c <;> simp [owned]

theorem White.clear (hb : White b board) {t : Square} :
    (∀ u ∈ between s t, (b.ourPieces.union b.theirPieces).get u = false) ↔ board.Clear s t := by
  simp only [hb.occupied, Board.Clear]

theorem White.theirKnights_get (hb : White b board) (s : Square) :
    b.theirKnights.get s = true ↔ board s = some ⟨.black, .knight⟩ := by
  have hking := hb.theirKing
  have hunique := hb.king_unique s
  change board b.theirKing = some ⟨.black, .king⟩ at hking
  rw [ChessBoard.theirKnights, BitBoard.get_diff, BitBoard.get_diff, BitBoard.get_diff, BitBoard.get_reset, hb.theirs_get, hb.rooks_get,
    hb.bishops_get, hb.pawns_get]
  cases hq : board s with
  | none => simp [owned]
  | some q =>
    obtain ⟨c, type⟩ := q
    have hne : s = b.theirKing → (⟨c, type⟩ : Piece) = ⟨.black, .king⟩ := by
      intro hs
      rw [← hs, hq] at hking
      exact Option.some_inj.mp hking
    rw [hq] at hunique
    by_cases hs : s = b.theirKing
    · obtain ⟨rfl, rfl⟩ := Piece.mk.inj (hne hs)
      simp [hs]
    · cases c <;> cases type <;> simp_all [owned, straight, diagonal, isPawn]

variable {rookNumbers bishopNumbers : Option (Square → BitVec 64)} {tables : AttackTables}

theorem intersects_rooks (ht : initializeMagicBitboards rookNumbers bishopNumbers = .ok tables) (hb : White b board) (s : Square) :
    (tables.getRookAttacks s (b.ourPieces.union b.theirPieces)).intersects (b.theirPieces.inter b.rooks) = true ↔
      ∃ u, owned .black (board u) = true ∧ SeenStraight board s u := by
  rw [BitBoard.intersects_iff]
  apply exists_congr
  intro u
  rw [get_rookAttacks ht, hb.clear, BitBoard.get_inter, hb.theirs_get, hb.rooks_get, Bool.and_eq_true, SeenStraight]
  constructor
  · rintro ⟨⟨hline, hclear⟩, howned, hkind⟩
    exact ⟨howned, hkind, hline, hclear⟩
  · rintro ⟨howned, hkind, hline, hclear⟩
    exact ⟨⟨hline, hclear⟩, howned, hkind⟩

theorem intersects_bishops (ht : initializeMagicBitboards rookNumbers bishopNumbers = .ok tables) (hb : White b board) (s : Square) :
    (tables.getBishopAttacks s (b.ourPieces.union b.theirPieces)).intersects (b.theirPieces.inter b.bishops) = true ↔
      ∃ u, owned .black (board u) = true ∧ SeenDiagonal board s u := by
  rw [BitBoard.intersects_iff]
  apply exists_congr
  intro u
  rw [get_bishopAttacks ht, hb.clear, BitBoard.get_inter, hb.theirs_get, hb.bishops_get, Bool.and_eq_true, SeenDiagonal]
  constructor
  · rintro ⟨⟨hline, hclear⟩, howned, hkind⟩
    exact ⟨howned, hkind, hline, hclear⟩
  · rintro ⟨howned, hkind, hline, hclear⟩
    exact ⟨⟨hline, hclear⟩, howned, hkind⟩

theorem White.pawnAttackers (hb : White b board) (s u : Square) :
    ((pawnAttacksOn s).get u = true ∧ (b.theirPieces.inter b.pawns).get u = true) ↔
      board u = some ⟨.black, .pawn⟩ ∧ (fileStep u s).natAbs = 1 ∧ rankStep u s = Color.black.forward := by
  have hpawn := hb.pawns_get u
  rw [BitBoard.get_inter, get_pawnMask] at hpawn
  have hu := rankIdx_lt u
  rw [get_pawnAttacksOn, decide_eq_true_iff, BitBoard.get_inter, hb.theirs_get, Bool.and_eq_true]
  constructor
  · rintro ⟨⟨hfile, hrank, hlow⟩, howned, hget⟩
    have hinside : 1 ≤ rankIdx u ∧ rankIdx u ≤ 6 := by
      rw [rankStep] at hrank
      omega
    rw [hget, decide_eq_true hinside] at hpawn
    refine ⟨?_, hfile, hrank⟩
    revert howned hpawn
    rcases board u with _ | ⟨c, type⟩
    · simp [owned]
    · cases c <;> cases type <;> simp [owned, isPawn]
  · rintro ⟨hq, hfile, hrank⟩
    have hlow := hb.pawns_below u hq
    refine ⟨⟨hfile, hrank, hlow⟩, ?_, ?_⟩
    · rw [hq]
      rfl
    · rw [hq, isPawn] at hpawn
      revert hpawn
      cases b.pawns.get u <;> simp

theorem intersects_pawns (hb : White b board) (s : Square) : (pawnAttacksOn s).intersects (b.theirPieces.inter b.pawns) = true ↔
    ∃ u, board u = some ⟨.black, .pawn⟩ ∧ (fileStep u s).natAbs = 1 ∧ rankStep u s = Color.black.forward := by
  rw [BitBoard.intersects_iff]
  exact exists_congr (hb.pawnAttackers s)

theorem intersects_knights (hb : White b board) (s : Square) : (knightAttacksOn s).intersects b.theirKnights = true ↔
    ∃ u, board u = some ⟨.black, .knight⟩ ∧ Leap s u := by
  rw [BitBoard.intersects_iff]
  apply exists_congr
  intro u
  rw [get_knightAttacksOn, hb.theirKnights_get, decide_eq_true_iff]
  exact and_comm

theorem near_iff (s t : Square) : (rankStep s t).natAbs ≤ 1 ∧ (fileStep s t).natAbs ≤ 1 ↔ s = t ∨ Adjacent t s := by
  rw [Adjacent, rankStep, rankStep, fileStep, fileStep]
  constructor
  · intro h
    by_cases hst : s = t
    · exact .inl hst
    · have hne : fileIdx s ≠ fileIdx t ∨ rankIdx s ≠ rankIdx t := by
        by_contra heq
        rw [not_or, not_not, not_not] at heq
        exact hst (square_ext heq.1 heq.2)
      right
      omega
  · rintro (rfl | h)
    · omega
    · omega

/-- What lc0 takes for an attacked square is one, apart from the square of the other king itself. -/
theorem isUnderAttack_iff (ht : initializeMagicBitboards rookNumbers bishopNumbers = .ok tables) (hb : White b board) (s : Square) :
    b.isUnderAttack tables s = true ↔ s = b.theirKing ∨ board.Attacked .black s := by
  have hking : (s = b.theirKing ∨ Adjacent b.theirKing s) ↔
      s = b.theirKing ∨ ∃ u, board u = some ⟨.black, .king⟩ ∧ Adjacent u s := by
    apply or_congr_right
    constructor
    · exact fun h => ⟨_, hb.theirKing, h⟩
    · rintro ⟨u, hu, h⟩
      rw [← hb.king_unique u hu]
      exact h
  rw [attacked_kinds, ← or_assoc, ← hking, ← near_iff, ← intersects_rooks ht hb, ← intersects_bishops ht hb, ← intersects_pawns hb,
    ← intersects_knights hb, ChessBoard.isUnderAttack]
  split
  · rename_i hnear
    exact iff_of_true rfl (.inl hnear)
  · rename_i hnear
    rw [or_iff_right hnear]
    split
    · simp [*]
    · split
      · simp [*]
      · split
        · simp [*]
        · simp [*]

theorem isUnderCheck_iff (ht : initializeMagicBitboards rookNumbers bishopNumbers = .ok tables) (hb : White b board)
    (hking : ∀ s, board s = some ⟨.white, .king⟩ → s = b.ourKing) : b.isUnderCheck tables = true ↔ board.InCheck .white := by
  have hours : board b.ourKing = some ⟨.white, .king⟩ := hb.ourKing
  have hne : b.ourKing ≠ b.theirKing := by
    intro heq
    have htheirs : board b.theirKing = some ⟨.black, .king⟩ := hb.theirKing
    rw [← heq, hours] at htheirs
    cases htheirs
  rw [ChessBoard.isUnderCheck, isUnderAttack_iff ht hb, or_iff_right hne]
  constructor
  · exact fun h => ⟨_, hours, h⟩
  · rintro ⟨s, hs, h⟩
    rw [← hking s hs]
    exact h

end

end ChessAnalytics.Lc0.Board
