import ChessAnalytics.Chess.Games
import ChessAnalytics.Chess.Rays
import ChessAnalytics.Lc0.Apply

/-! Which pieces lc0's bitboards show, and that a legal move leaves the same pieces on both boards. -/
namespace ChessAnalytics.Lc0.Board
open Chess

@[simp] theorem ours_ours (c : Color) (s : Square) : ours c (ours c s) = s := by
  cases c with
  | white => rfl
  | black => exact Chess.mirror_mirror s

theorem ours_eq_iff {c : Color} {s t : Square} : ours c s = t ↔ s = ours c t := by
  constructor
  · rintro rfl
    rw [ours_ours]
  · rintro rfl
    rw [ours_ours]

theorem ours_other (c : Color) (s : Square) : ours c.other s = ours c (Chess.mirror s) := by
  cases c with
  | white => rfl
  | black => exact (Chess.mirror_mirror s).symm

@[simp] theorem fileIdx_ours (c : Color) (s : Square) : fileIdx (ours c s) = fileIdx s := by
  cases c with
  | white => rfl
  | black => exact fileIdx_mirror s

/-- The rank of a square as the side to move counts them. -/
def seenRank (c : Color) (r : Nat) : Nat :=
  match c with
  | .white => r
  | .black => 7 - r

theorem rankIdx_ours (c : Color) (s : Square) : rankIdx (ours c s) = seenRank c (rankIdx s) := by
  cases c with
  | white => rfl
  | black => exact rankIdx_mirror s

theorem seenRank_seenRank (c : Color) {r : Nat} (hr : r < 8) : seenRank c (seenRank c r) = r := by
  cases c with
  | white => rfl
  | black =>
    simp only [seenRank]
    omega

theorem fileStep_ours (c : Color) (s t : Square) : fileStep (ours c s) (ours c t) = fileStep s t := by
  rw [fileStep, fileStep, fileIdx_ours, fileIdx_ours]

theorem rankStep_ours (c : Color) (s t : Square) : rankStep (ours c s) (ours c t) = c.forward * rankStep s t := by
  have hs := rankIdx_lt s
  have ht := rankIdx_lt t
  rw [rankStep, rankStep, rankIdx_ours, rankIdx_ours]
  cases c <;> simp only [seenRank, Color.forward] <;> omega

def owned (c : Color) : Option Piece → Bool
  | some q => q.color = c
  | none => false

/-- The piece goes along ranks and files. -/
def straight : Option Piece → Bool
  | some q => q.type = .rook ∨ q.type = .queen
  | none => false

/-- The piece goes along diagonals. -/
def diagonal : Option Piece → Bool
  | some q => q.type = .bishop ∨ q.type = .queen
  | none => false

def isPawn : Option Piece → Bool
  | some q => q.type = .pawn
  | none => false

/-- The bitboards hold the pieces of a board, seen from the side of a colour. -/
structure Shows (b : ChessBoard) (board : Chess.Board) (c : Color) : Prop where
  ourPieces : ∀ s, b.ourPieces.get s = owned c (board (ours c s))
  theirPieces : ∀ s, b.theirPieces.get s = owned c.other (board (ours c s))
  rooks : ∀ s, b.rooks.get s = straight (board (ours c s))
  bishops : ∀ s, b.bishops.get s = diagonal (board (ours c s))
  pawns : ∀ s, (b.pawns.inter ChessBoard.pawnMask).get s = isPawn (board (ours c s))
  ourKing : board (ours c b.ourKing) = some ⟨c, .king⟩
  theirKing : board (ours c b.theirKing) = some ⟨c.other, .king⟩

/-- The opponent sees the same pieces on the mirrored squares. -/
theorem Shows.mirror {b : ChessBoard} {board : Chess.Board} {c : Color} (h : Shows b board c) :
    Shows b.mirror board c.other where
  ourPieces s := by
    rw [ChessBoard.mirror, BitBoard.get_mirror, h.theirPieces, ours_other]
  theirPieces s := by
    rw [ChessBoard.mirror, BitBoard.get_mirror, h.ourPieces, ours_other, Color.other_other]
  rooks s := by
    rw [ChessBoard.mirror, BitBoard.get_mirror, h.rooks, ours_other]
  bishops s := by
    rw [ChessBoard.mirror, BitBoard.get_mirror, h.bishops, ours_other]
  pawns s := by
    have hmask : ∀ s, ChessBoard.pawnMask.get (Chess.mirror s) = ChessBoard.pawnMask.get s := by decide
    have hpawns := h.pawns (Chess.mirror s)
    rw [BitBoard.get_inter, hmask] at hpawns
    rw [ChessBoard.mirror, BitBoard.get_inter, BitBoard.get_mirror, hpawns, ours_other]
  ourKing := by
    rw [ChessBoard.mirror, ours_other, Chess.mirror_mirror]
    exact h.theirKing
  theirKing := by
    rw [ChessBoard.mirror, ours_other, Chess.mirror_mirror, Color.other_other]
    exact h.ourKing

section
variable (p : Chess.Position) (s t : Square) (promotion : Option Promotion)

private theorem kindBits_mask {mask : BitVec 16} (h : 0x0fff#16 &&& mask = mask) : kindBits p s t promotion &&& mask = 0#16 := by
  rw [← h, ← BitVec.and_assoc, (kindBits_squares p s t promotion).1, BitVec.zero_and]

@[simp] theorem fromSq_encode : (encode p (.plain s t promotion)).fromSq = ours p.turn s := by
  rw [encode_plain, Move.fromSq_marked (kindBits_mask p s t promotion (by decide))]

@[simp] theorem toSq_encode : (encode p (.plain s t promotion)).toSq = ours p.turn t := by
  rw [encode_plain, Move.toSq_marked (kindBits_mask p s t promotion (by decide))]

@[simp] theorem isCastling_encode : (encode p (.plain s t promotion)).isCastling = false := by
  rw [encode_plain, Move.isCastling, Move.upper_marked (by decide)]
  exact decide_eq_false (kindBits_kind p s t promotion)

@[simp] theorem isPromotion_encode : (encode p (.plain s t promotion)).isPromotion = promotion.isSome := by
  rw [encode_plain, Move.isPromotion, Move.upper_marked (by decide)]
  rcases promotion with _ | k
  · rw [kindBits]
    split <;> decide
  · rw [kindBits]
    cases k <;> decide

theorem promotion_encode (k : Promotion) : (encode p (.plain s t (some k))).promotion = (Move.pieceIdx k).toNat := by
  rw [encode_plain, Move.promotion, Move.upper_marked (by decide), kindBits]
  cases k <;> decide

theorem isEnPassant_encode : (encode p (.plain s t promotion)).isEnPassant = decide (promotion = none ∧ p.TakesEnPassant s t) := by
  rw [encode_plain, Move.isEnPassant, Move.upper_marked (by decide)]
  rcases promotion with _ | k
  · rw [kindBits]
    split
    · rename_i h
      exact (decide_eq_true ⟨rfl, h⟩).symm
    · rename_i h
      exact (decide_eq_false (fun hc => h hc.2)).symm
  · have hnone : ¬ (some k = none ∧ p.TakesEnPassant s t) := by simp
    rw [kindBits, decide_eq_false hnone]
    cases k <;> decide

end

section
variable {p : GamePosition} {s t : Square} {promotion : Option Promotion}

/-- The square of the pawn that is taken en passant, as the side to move sees it. -/
def passedPawn (t : Square) : Square := square (fileIdx t) 4

theorem passed_square (h : p.TakesEnPassant s t) (u : Square) :
    (fileIdx (ours p.turn u) = fileIdx t ∧ rankIdx (ours p.turn u) = rankIdx s) ↔ u = passedPawn t := by
  have hrank := p.passed_rank t h.2.2.1
  have hstep : rankStep s t = p.turn.forward := h.2.1.2
  have hs := rankIdx_lt s
  have hsource : rankIdx s = seenRank p.turn 4 := by
    rw [rankStep, hrank] at hstep
    revert hstep
    cases p.turn <;> simp only [Color.passedRank, Color.forward, seenRank] <;> omega
  rw [fileIdx_ours, rankIdx_ours]
  constructor
  · rintro ⟨hfile, hru⟩
    apply square_ext
    · rw [passedPawn, fileIdx_square _ (fileIdx_lt t), hfile]
    · rw [passedPawn, rankIdx_square (fileIdx_lt t) (by omega), ← seenRank_seenRank p.turn (rankIdx_lt u), hru, hsource,
        seenRank_seenRank _ (by omega)]
  · rintro rfl
    rw [passedPawn, fileIdx_square _ (fileIdx_lt t), rankIdx_square (fileIdx_lt t) (by omega)]
    exact ⟨rfl, hsource.symm⟩

theorem seen_after_plain (u : Square) : p.after (.plain s t promotion) (ours p.turn u) =
    if u = ours p.turn t then p.placed s promotion
    else if u = ours p.turn s then none
    else if p.TakesEnPassant s t ∧ u = passedPawn t then none
    else p.board (ours p.turn u) := by
  rw [Position.after_plain]
  simp only [ours_eq_iff]
  congr 2
  by_cases h : p.TakesEnPassant s t
  · simp only [h, true_and, passed_square h u]
  · simp only [h, false_and]

theorem kind_after {f : Option Piece → Bool} (hf : f none = false) (u : Square) :
    f (p.after (.plain s t promotion) (ours p.turn u)) =
      if u = ours p.turn t then f (p.placed s promotion)
      else f (p.board (ours p.turn u)) && !decide (u = ours p.turn s) &&
        !(decide (p.TakesEnPassant s t) && decide (u = passedPawn t)) := by
  rw [seen_after_plain]
  by_cases ht : u = ours p.turn t
  · rw [if_pos ht, if_pos ht]
  · rw [if_neg ht, if_neg ht]
    by_cases hs : u = ours p.turn s
    · simp [hs, hf]
    · by_cases hp : p.TakesEnPassant s t ∧ u = passedPawn t
      · simp [hp.1, hp.2, hf]
      · rw [if_neg hs, if_neg hp]
        rw [not_and_or] at hp
        rcases hp with hp | hp <;> simp [hs, hp]

/-- The square that is passed has the opponent's pawn on it, and the target is empty. -/
theorem passed_piece (h : p.TakesEnPassant s t) :
    p.board (ours p.turn (passedPawn t)) = some ⟨p.turn.other, .pawn⟩ ∧ p.board t = none := by
  obtain ⟨hfile, hrank⟩ := (passed_square h (passedPawn t)).mpr rfl
  refine ⟨p.passed_pawn t h.2.2.1 _ hfile ?_, h.2.2.2⟩
  rw [rankStep, hrank]
  exact h.2.1.2

theorem target_not_ours (h : p.Plays s t promotion) : owned p.turn (p.board t) = false := by
  obtain ⟨q, hq, -, htarget, -⟩ := h.source
  cases hr : p.board t with
  | none => rfl
  | some r =>
    rw [owned, htarget r hr]
    exact decide_eq_false (Color.other_ne p.turn)

/-- The target is empty unless a piece of theirs stands there. -/
theorem target_empty (h : p.Plays s t promotion) (hempty : owned p.turn.other (p.board t) = false) :
    p.board t = none := by
  obtain ⟨q, hq, -, htarget, -⟩ := h.source
  cases hr : p.board t with
  | none => rfl
  | some r =>
    rw [hr, owned, htarget r hr] at hempty
    simp at hempty

end

namespace ChessBoard
variable (b : ChessBoard) (m : Move)

@[simp] theorem takeAway_ourPieces : (b.takeAway m).ourPieces = (b.ourPieces.reset m.fromSq).set m.toSq := by
  simp only [takeAway, capture, removePassed]
  split <;> split <;> rfl

@[simp] theorem takeAway_ourKing : (b.takeAway m).ourKing = b.ourKing := by
  simp only [takeAway, capture, removePassed]
  split <;> split <;> rfl

@[simp] theorem takeAway_theirKing : (b.takeAway m).theirKing = b.theirKing := by
  simp only [takeAway, capture, removePassed]
  split <;> split <;> rfl

@[simp] theorem takeAway_flipped : (b.takeAway m).flipped = b.flipped := by
  simp only [takeAway, capture, removePassed]
  split <;> split <;> rfl

theorem takeAway_theirPieces (u : Square) : (b.takeAway m).theirPieces.get u =
    (b.theirPieces.get u && !decide (u = m.toSq) && !(m.isEnPassant && decide (u = passedPawn m.toSq))) := by
  have hempty : b.theirPieces.get m.toSq = false → (b.theirPieces.get u && !decide (u = m.toSq)) = b.theirPieces.get u := by
    intro h
    by_cases hu : u = m.toSq
    · simp [hu, h]
    · simp [hu]
  rw [passedPawn]
  cases hc : b.theirPieces.get m.toSq with
  | true => cases he : m.isEnPassant <;> simp [takeAway, capture, removePassed, hc, he]
  | false =>
    rw [hempty hc]
    cases he : m.isEnPassant <;> simp [takeAway, capture, removePassed, hc, he]

theorem takeAway_rooks (u : Square) : (b.takeAway m).rooks.get u =
    (b.rooks.get u && !(b.theirPieces.get m.toSq && decide (u = m.toSq))) := by
  simp only [takeAway, capture, removePassed]
  split <;> split <;> simp [*]

theorem takeAway_bishops (u : Square) : (b.takeAway m).bishops.get u =
    (b.bishops.get u && !(b.theirPieces.get m.toSq && decide (u = m.toSq))) := by
  simp only [takeAway, capture, removePassed]
  split <;> split <;> simp [*]

theorem takeAway_pawns (u : Square) : (b.takeAway m).pawns.get u =
    ((b.pawns.inter pawnMask).get u && !(b.theirPieces.get m.toSq && decide (u = m.toSq)) &&
      !(m.isEnPassant && decide (u = passedPawn m.toSq))) := by
  have hswap (x y z w : Bool) : (x && y && z && w) = (x && w && y && z) := by
    cases x <;> cases y <;> cases z <;> cases w <;> rfl
  have hswap' (x y w : Bool) : (x && y && w) = (x && w && y) := by
    cases x <;> cases y <;> cases w <;> rfl
  rw [passedPawn]
  cases hc : b.theirPieces.get m.toSq <;> cases he : m.isEnPassant <;>
    simp only [takeAway, capture, removePassed, hc, he, BitBoard.get_inter, BitBoard.get_reset, if_true,
      Bool.false_eq_true, if_false, Bool.false_and, Bool.true_and, Bool.not_false, Bool.and_true]
  · exact hswap' _ _ _
  · exact hswap' _ _ _
  · exact hswap _ _ _ _

end ChessBoard

/-- The board, seen by the side to move, when what a move takes is gone and the target is free. -/
def remaining (p : Chess.Position) (s t u : Square) : Option Piece :=
  if u = ours p.turn t then none
  else if p.TakesEnPassant s t ∧ u = passedPawn t then none
  else p.board (ours p.turn u)

section
variable {p : GamePosition} {s t : Square} {promotion : Option Promotion} {f : Option Piece → Bool}

theorem after_remaining (u : Square) : p.after (.plain s t promotion) (ours p.turn u) =
    if u = ours p.turn t then p.placed s promotion
    else if u = ours p.turn s then none
    else remaining p.toPosition s t u := by
  rw [seen_after_plain]
  by_cases ht : u = ours p.turn t
  · rw [if_pos ht, if_pos ht]
  · rw [if_neg ht, if_neg ht, remaining, if_neg ht]

theorem remaining_source (h : p.Plays s t promotion) : remaining p.toPosition s t (ours p.turn s) = p.board s := by
  obtain ⟨q, hq, hcolor, -⟩ := h.source
  rw [remaining, if_neg, if_neg, ours_ours]
  · rintro ⟨hp, hs⟩
    have hpawn := (passed_piece hp).1
    rw [← hs, ours_ours, hq] at hpawn
    rw [Option.some_inj.mp hpawn] at hcolor
    exact Color.other_ne p.turn hcolor
  · intro hs
    apply Position.Plays.source_ne_target h
    rw [← ours_ours p.turn s, hs, ours_ours]

/-- Kinds that the moving piece has neither before nor behind the move. -/
theorem kind_unmoved (hf : f none = false) (hplaced : f (p.placed s promotion) = false) (hs : f (p.board s) = false)
    (h : p.Plays s t promotion) (u : Square) :
    f (p.after (.plain s t promotion) (ours p.turn u)) = f (remaining p.toPosition s t u) := by
  rw [after_remaining]
  by_cases ht : u = ours p.turn t
  · rw [if_pos ht, hplaced, remaining, if_pos ht, hf]
  · rw [if_neg ht]
    by_cases hu : u = ours p.turn s
    · rw [if_pos hu, hu, remaining_source h, hs, hf]
    · rw [if_neg hu]

theorem kind_moved (hf : f none = false) (h : p.Plays s t none) (u : Square) :
    f (p.after (.plain s t none) (ours p.turn u)) =
      ((f (remaining p.toPosition s t u) || f (remaining p.toPosition s t (ours p.turn s)) && decide (u = ours p.turn t)) &&
        !decide (u = ours p.turn s)) := by
  have hne : ours p.turn t ≠ ours p.turn s := by
    intro heq
    apply Position.Plays.source_ne_target h
    rw [← ours_ours p.turn s, ← heq, ours_ours]
  rw [after_remaining, remaining_source h]
  by_cases ht : u = ours p.turn t
  · have htaken : remaining p.toPosition s t (ours p.turn t) = none := if_pos rfl
    rw [if_pos ht, ht, htaken, hf, Position.placed]
    simp [hne]
  · rw [if_neg ht]
    by_cases hu : u = ours p.turn s
    · simp [hu, hf]
    · simp [ht, hu]

theorem kind_promoted (hf : f none = false) (hs : f (p.board s) = false) (h : p.Plays s t promotion) (u : Square) :
    f (p.after (.plain s t promotion) (ours p.turn u)) =
      (f (remaining p.toPosition s t u) || f (p.placed s promotion) && decide (u = ours p.turn t)) := by
  rw [after_remaining]
  by_cases ht : u = ours p.turn t
  · rw [if_pos ht, ht, remaining, if_pos rfl, hf]
    simp
  · rw [if_neg ht]
    by_cases hu : u = ours p.turn s
    · rw [if_pos hu, hu, remaining_source h, hs, hf, ← hu]
      simp [ht]
    · rw [if_neg hu]
      simp [ht]

/-- A kind that no pawn has, when the target has been cleared. -/
theorem kind_cleared (hf : f none = false) (hpawn : f (some ⟨p.turn.other, .pawn⟩) = false)
    (h : p.Plays s t promotion) (u : Square) :
    (f (p.board (ours p.turn u)) && !(owned p.turn.other (p.board t) && decide (u = ours p.turn t))) =
      f (remaining p.toPosition s t u) := by
  rw [remaining]
  by_cases ht : u = ours p.turn t
  · rw [if_pos ht, hf, ht, ours_ours]
    cases ho : owned p.turn.other (p.board t) with
    | true => simp
    | false => simp [target_empty h ho, hf]
  · rw [if_neg ht]
    by_cases hp : p.TakesEnPassant s t ∧ u = passedPawn t
    · rw [if_pos hp, hf, hp.2, (passed_piece hp.1).1, hpawn, Bool.false_and]
    · simp [if_neg hp, ht]

/-- The bitboards hold what remains when the target has been cleared; our own are not among them. -/
structure Cleared (b : ChessBoard) (p : GamePosition) (s t : Square) : Prop where
  theirPieces : ∀ u, b.theirPieces.get u = owned p.turn.other (remaining p.toPosition s t u)
  rooks : ∀ u, b.rooks.get u = straight (remaining p.toPosition s t u)
  bishops : ∀ u, b.bishops.get u = diagonal (remaining p.toPosition s t u)
  pawns : ∀ u, b.pawns.get u = isPawn (remaining p.toPosition s t u)

private theorem kind_removed (hf : f none = false) (h : p.Plays s t promotion) (u : Square) :
    (f (p.board (ours p.turn u)) && !(owned p.turn.other (p.board t) && decide (u = ours p.turn t)) &&
      !(decide (p.TakesEnPassant s t) && decide (u = passedPawn t))) = f (remaining p.toPosition s t u) := by
  rw [remaining]
  by_cases ht : u = ours p.turn t
  · rw [if_pos ht, hf, ht, ours_ours]
    cases ho : owned p.turn.other (p.board t) with
    | true => simp
    | false => simp [target_empty h ho, hf]
  · rw [if_neg ht]
    by_cases hp : p.TakesEnPassant s t ∧ u = passedPawn t
    · rw [if_pos hp, hf]
      simp [hp.1, hp.2]
    · rw [if_neg hp]
      rw [not_and_or] at hp
      rcases hp with hp | hp <;> simp [ht, hp]

theorem passedPawn_ours (c : Color) (t : Square) : passedPawn (ours c t) = passedPawn t := by
  rw [passedPawn, passedPawn, fileIdx_ours]

theorem isEnPassant_legal (h : p.Plays s t promotion) :
    (encode p.toPosition (.plain s t promotion)).isEnPassant = decide (p.TakesEnPassant s t) := by
  rw [isEnPassant_encode]
  apply decide_eq_decide.mpr
  exact ⟨fun hp => hp.2, fun hp => ⟨GamePosition.passing_not_promoted h hp, hp⟩⟩

variable {b : ChessBoard}

theorem Shows.cleared (hb : Shows b p.board p.turn) (h : p.Plays s t promotion) :
    Cleared (b.takeAway (encode p.toPosition (.plain s t promotion))) p s t where
  theirPieces u := by
    rw [ChessBoard.takeAway_theirPieces, isEnPassant_legal h, toSq_encode, passedPawn_ours, hb.theirPieces,
      ← kind_removed (f := owned p.turn.other) rfl h]
    cases ho : owned p.turn.other (p.board t) with
    | true => simp
    | false =>
      by_cases hu : u = ours p.turn t
      · simp [hu, ho]
      · simp [hu]
  rooks u := by
    rw [ChessBoard.takeAway_rooks, toSq_encode, hb.rooks, hb.theirPieces, ours_ours]
    exact kind_cleared rfl rfl h u
  bishops u := by
    rw [ChessBoard.takeAway_bishops, toSq_encode, hb.bishops, hb.theirPieces, ours_ours]
    exact kind_cleared rfl rfl h u
  pawns u := by
    rw [ChessBoard.takeAway_pawns, isEnPassant_legal h, toSq_encode, passedPawn_ours, hb.pawns, hb.theirPieces, ours_ours]
    exact kind_removed rfl h u

theorem ourPieces_plain (hb : Shows b p.board p.turn) (h : p.Plays s t promotion) (u : Square) :
    (b.takeAway (encode p.toPosition (.plain s t promotion))).ourPieces.get u =
      owned p.turn (p.after (.plain s t promotion) (ours p.turn u)) := by
  obtain ⟨q, hq, hcolor⟩ := h.placed_owned
  rw [ChessBoard.takeAway_ourPieces, fromSq_encode, toSq_encode, BitBoard.get_set, BitBoard.get_reset, hb.ourPieces,
    kind_after (f := owned p.turn) rfl]
  by_cases ht : u = ours p.turn t
  · rw [if_pos ht, hq, owned]
    simp [ht, hcolor]
  · rw [if_neg ht]
    by_cases hp : p.TakesEnPassant s t ∧ u = passedPawn t
    · rw [hp.2, (passed_piece hp.1).1, owned, decide_eq_false (Color.other_ne p.turn)]
      simp [← hp.2, ht]
    · rw [not_and_or] at hp
      rcases hp with hp | hp <;> simp [ht, hp]

theorem theirPieces_plain (hb : Shows b p.board p.turn) (h : p.Plays s t promotion) (u : Square) :
    (b.takeAway (encode p.toPosition (.plain s t promotion))).theirPieces.get u =
      owned p.turn.other (p.after (.plain s t promotion) (ours p.turn u)) := by
  obtain ⟨q, hq, hcolor⟩ := h.placed_owned
  obtain ⟨q', hq', hcolor', -⟩ := h.source
  have hother : p.turn ≠ p.turn.other := (Color.other_ne p.turn).symm
  rw [(hb.cleared h).theirPieces, kind_unmoved (f := owned p.turn.other) rfl _ _ h]
  · rw [hq, owned, hcolor]
    exact decide_eq_false hother
  · rw [hq', owned, hcolor']
    exact decide_eq_false hother

theorem get_pawnMask : ∀ u, ChessBoard.pawnMask.get u = decide (1 ≤ rankIdx u ∧ rankIdx u ≤ 6) := by decide

/-- A pawn behind a move stands where the mask lets it through. -/
theorem pawns_masked (h : p.Plays s t promotion) {pawns : BitBoard} {u : Square}
    (hu : 1 ≤ rankIdx u ∧ rankIdx u ≤ 6 → pawns.get u = isPawn (p.after (.plain s t promotion) (ours p.turn u))) :
    (pawns.inter ChessBoard.pawnMask).get u = isPawn (p.after (.plain s t promotion) (ours p.turn u)) := by
  rw [BitBoard.get_inter, get_pawnMask]
  by_cases hinside : 1 ≤ rankIdx u ∧ rankIdx u ≤ 6
  · rw [hu hinside, decide_eq_true hinside, Bool.and_true]
  · rw [decide_eq_false hinside, Bool.and_false]
    cases hq : p.after (.plain s t promotion) (ours p.turn u) with
    | none => rfl
    | some q =>
      rw [isPawn, eq_comm, decide_eq_false_iff_not]
      intro hpawn
      have hrank := p.pawns_inside_plain (c := q.color) h (by rw [hq, ← hpawn])
      rw [rankIdx_ours] at hrank
      have hlt := rankIdx_lt u
      apply hinside
      revert hrank
      cases p.turn <;> simp only [seenRank] <;> omega

theorem king_moves_iff (hb : Shows b p.board p.turn) : ours p.turn s = b.ourKing ↔ p.board s = some ⟨p.turn, .king⟩ := by
  constructor
  · intro heq
    have hking := hb.ourKing
    rwa [← heq, ours_ours] at hking
  · intro hs
    rw [ours_eq_iff]
    exact (p.one_king p.turn).unique hs hb.ourKing

theorem theirKing_plain (hb : Shows b p.board p.turn) (h : p.Plays s t promotion) :
    p.after (.plain s t promotion) (ours p.turn b.theirKing) = some ⟨p.turn.other, .king⟩ := by
  obtain ⟨q, hq, hcolor, -⟩ := h.source
  rw [ValidPosition.after_plain_king h]
  · exact hb.theirKing
  · rw [hq]
    rintro heq
    rw [Option.some_inj.mp heq] at hcolor
    exact Color.other_ne p.turn hcolor

theorem ourKing_plain (hb : Shows b p.board p.turn) (h : p.Plays s t promotion)
    (hs : p.board s ≠ some ⟨p.turn, .king⟩) : p.after (.plain s t promotion) (ours p.turn b.ourKing) = some ⟨p.turn, .king⟩ := by
  rw [ValidPosition.after_plain_king h hs]
  exact hb.ourKing

theorem Shows.leaveHome {board : Chess.Board} {c : Color} (hb : Shows b board c) (s : Square) :
    Shows (b.leaveHome s) board c := by
  rw [ChessBoard.leaveHome]
  split
  · exact ⟨hb.ourPieces, hb.theirPieces, hb.rooks, hb.bishops, hb.pawns, hb.ourKing, hb.theirKing⟩
  · exact hb

theorem Shows.king_step (hb : Shows b p.board p.turn) (h : p.Plays s t promotion)
    (hs : p.board s = some ⟨p.turn, .king⟩) :
    Shows { b.takeAway (encode p.toPosition (.plain s t promotion)) with ourKing := ours p.turn t }
      (p.after (.plain s t promotion)) p.turn := by
  have hnone : promotion = none := by
    obtain ⟨q, hq, -, -, hmove⟩ := h.source
    obtain rfl := Option.some_inj.mp (hs.symm.trans hq)
    exact hmove.2
  have hcleared := hb.cleared h
  have hplaced : p.placed s promotion = some ⟨p.turn, .king⟩ := by rw [hnone, Position.placed, hs]
  have hkind {f : Option Piece → Bool} (hf : f none = false) (hking : f (some ⟨p.turn, .king⟩) = false) (u : Square) :=
    kind_unmoved hf (by rw [hplaced, hking]) (by rw [hs, hking]) h u
  exact {
    ourPieces := ourPieces_plain hb h
    theirPieces := theirPieces_plain hb h
    rooks := fun u => by rw [hkind (f := straight) rfl rfl, ← hcleared.rooks]
    bishops := fun u => by rw [hkind (f := diagonal) rfl rfl, ← hcleared.bishops]
    pawns := fun u => pawns_masked h (fun _ => by rw [hkind (f := isPawn) rfl rfl, ← hcleared.pawns])
    ourKing := by
      rw [ours_ours]
      exact (ValidPosition.after_plain_moved h hs t).mpr rfl
    theirKing := by
      rw [ChessBoard.takeAway_theirKing]
      exact theirKing_plain hb h }

theorem kind_lost (hf : f none = false) (hplaced : f (p.placed s promotion) = false) (u : Square) :
    f (p.after (.plain s t promotion) (ours p.turn u)) =
      (f (remaining p.toPosition s t u) && !decide (u = ours p.turn s)) := by
  rw [after_remaining]
  by_cases ht : u = ours p.turn t
  · rw [if_pos ht, hplaced, remaining, if_pos ht, hf, Bool.false_and]
  · rw [if_neg ht]
    by_cases hu : u = ours p.turn s
    · simp [hu, hf]
    · simp [hu]

theorem promoted_pawn {k : Promotion} (h : p.Plays s t (some k)) : p.board s = some ⟨p.turn, .pawn⟩ := by
  obtain ⟨q, hq, hcolor, -, hmove⟩ := h.source
  by_cases hpawn : q.type = .pawn
  · rw [hq, ← hcolor, ← hpawn]
  · rw [if_neg hpawn] at hmove
    cases hmove.2

theorem promote_rooks (b : ChessBoard) (k : Promotion) (c : Color) (s t u : Square) :
    (b.promote s t (Move.pieceIdx k).toNat).rooks.get u = (b.rooks.get u || straight (some ⟨c, k.piece⟩) && decide (u = t)) := by
  cases k <;> simp [ChessBoard.promote, Move.pieceIdx, straight, Promotion.piece]

theorem promote_bishops (b : ChessBoard) (k : Promotion) (c : Color) (s t u : Square) :
    (b.promote s t (Move.pieceIdx k).toNat).bishops.get u = (b.bishops.get u || diagonal (some ⟨c, k.piece⟩) && decide (u = t)) := by
  cases k <;> simp [ChessBoard.promote, Move.pieceIdx, diagonal, Promotion.piece]

theorem promote_rest (b : ChessBoard) (k : Promotion) (s t : Square) :
    b.promote s t (Move.pieceIdx k).toNat =
      { b with
        rooks := (b.promote s t (Move.pieceIdx k).toNat).rooks
        bishops := (b.promote s t (Move.pieceIdx k).toNat).bishops
        pawns := b.pawns.reset s } := by
  cases k <;> rfl

theorem Shows.promoted {k : Promotion} (hb : Shows b p.board p.turn) (h : p.Plays s t (some k)) :
    Shows ((b.takeAway (encode p.toPosition (.plain s t (some k)))).promote (ours p.turn s) (ours p.turn t)
      (Move.pieceIdx k).toNat) (p.after (.plain s t (some k))) p.turn := by
  have hcleared := hb.cleared h
  have hpawn := promoted_pawn h
  have hking : p.board s ≠ some ⟨p.turn, .king⟩ := by
    rw [hpawn]
    simp
  rw [promote_rest]
  exact {
    ourPieces := ourPieces_plain hb h
    theirPieces := theirPieces_plain hb h
    rooks := fun u => by
      rw [promote_rooks _ k p.turn, hcleared.rooks, kind_promoted (f := straight) rfl (by rw [hpawn]; rfl) h]
      rfl
    bishops := fun u => by
      rw [promote_bishops _ k p.turn, hcleared.bishops, kind_promoted (f := diagonal) rfl (by rw [hpawn]; rfl) h]
      rfl
    pawns := fun u => pawns_masked h (fun _ => by
      rw [BitBoard.get_reset, hcleared.pawns, kind_lost (f := isPawn) rfl]
      cases k <;> rfl)
    ourKing := by
      rw [ChessBoard.takeAway_ourKing]
      exact ourKing_plain hb h hking
    theirKing := by
      rw [ChessBoard.takeAway_theirKing]
      exact theirKing_plain hb h }

theorem markDoubleStep_rest (b : ChessBoard) (s t : Square) :
    b.markDoubleStep s t = { b with pawns := (b.markDoubleStep s t).pawns } := by
  rw [ChessBoard.markDoubleStep]
  split
  · split <;> rfl
  · rfl

theorem markDoubleStep_inside (b : ChessBoard) (s t : Square) {u : Square} (hu : 1 ≤ rankIdx u) :
    (b.markDoubleStep s t).pawns.get u = b.pawns.get u := by
  have hne : u ≠ square (fileIdx t) 0 := by
    rintro rfl
    rw [rankIdx_square (fileIdx_lt t) (by omega)] at hu
    omega
  rw [ChessBoard.markDoubleStep]
  split
  · split
    · simp [hne]
    · rfl
  · rfl

theorem loseRookRight_rest (b : ChessBoard) (s : Square) :
    b.loseRookRight s = { b with castlings := (b.loseRookRight s).castlings } := by
  rw [ChessBoard.loseRookRight]
  split <;> rfl

theorem Shows.ordinary (hb : Shows b p.board p.turn) (h : p.Plays s t none) (hs : p.board s ≠ some ⟨p.turn, .king⟩) :
    Shows ((((b.takeAway (encode p.toPosition (.plain s t none))).loseRookRight (ours p.turn s)).movePiece
      (ours p.turn s) (ours p.turn t)).markDoubleStep (ours p.turn s) (ours p.turn t)) (p.after (.plain s t none)) p.turn := by
  have hcleared := hb.cleared h
  have hkind {f : Option Piece → Bool} (hf : f none = false) (u : Square) := kind_moved (f := f) hf h u
  rw [markDoubleStep_rest, loseRookRight_rest]
  exact {
    ourPieces := ourPieces_plain hb h
    theirPieces := theirPieces_plain hb h
    rooks := fun u => by
      rw [hkind (f := straight) rfl, ← hcleared.rooks, ← hcleared.rooks]
      simp [ChessBoard.movePiece]
    bishops := fun u => by
      rw [hkind (f := diagonal) rfl, ← hcleared.bishops, ← hcleared.bishops]
      simp [ChessBoard.movePiece]
    pawns := fun u => pawns_masked h (fun hinside => by
      rw [markDoubleStep_inside _ _ _ hinside.1, hkind (f := isPawn) rfl, ← hcleared.pawns, ← hcleared.pawns]
      simp [ChessBoard.movePiece])
    ourKing := by
      change p.after _ (ours p.turn (b.takeAway _).ourKing) = _
      rw [ChessBoard.takeAway_ourKing]
      exact ourKing_plain hb h hs
    theirKing := by
      change p.after _ (ours p.turn (b.takeAway _).theirKing) = _
      rw [ChessBoard.takeAway_theirKing]
      exact theirKing_plain hb h }

theorem applyMove_plain (b : ChessBoard) (p : Chess.Position) (s t : Square) (promotion : Option Promotion) :
    b.applyMove (encode p (.plain s t promotion)) =
      let m := encode p (.plain s t promotion)
      let away := (b.leaveHome (ours p.turn s)).takeAway m
      let reset := (b.leaveHome (ours p.turn s)).theirPieces.get (ours p.turn t) || away.pawns.get (ours p.turn s)
      if ours p.turn s = b.ourKing then ({ away with ourKing := ours p.turn t }, reset)
      else match promotion with
        | some k => (away.promote (ours p.turn s) (ours p.turn t) (Move.pieceIdx k).toNat, true)
        | none => (((away.loseRookRight (ours p.turn s)).movePiece (ours p.turn s) (ours p.turn t)).markDoubleStep
            (ours p.turn s) (ours p.turn t), reset) := by
  rw [ChessBoard.applyMove]
  simp only [isCastling_encode, isPromotion_encode, fromSq_encode, toSq_encode, Bool.and_false, Bool.false_eq_true, if_false,
    decide_eq_true_eq]
  cases promotion with
  | none => rfl
  | some k => simp only [promotion_encode, Option.isSome_some, if_true]

/-- A plain move of the rules and the bitboards' move put the same pieces on the same squares. -/
theorem Shows.plain (hb : Shows b p.board p.turn) (h : p.Plays s t promotion) :
    Shows (b.applyMove (encode p.toPosition (.plain s t promotion))).1 (p.after (.plain s t promotion)) p.turn := by
  have hhome := hb.leaveHome (ours p.turn s)
  rw [applyMove_plain]
  by_cases hking : ours p.turn s = b.ourKing
  · rw [if_pos hking]
    exact hhome.king_step h ((king_moves_iff hb).mp hking)
  · rw [if_neg hking]
    have hs : p.board s ≠ some ⟨p.turn, .king⟩ := fun hs => hking ((king_moves_iff hb).mpr hs)
    cases promotion with
    | some k => exact hhome.promoted h
    | none => exact hhome.ordinary h hs

end

/-- Where `do_castling` puts the king and the rook. -/
def kingDst : Side → Nat
  | .king => 6
  | .queen => 2

def rookDst : Side → Nat
  | .king => 5
  | .queen => 3

private theorem seen_castling : ∀ (c : Color) (side : Side), ours c (kingHome c) = square 4 0 ∧
    ours c (rookHome c side) = square (rookFile side) 0 ∧ ours c (kingCastled c side) = square (kingDst side) 0 ∧
    ours c (rookCastled c side) = square (rookDst side) 0 := by
  intro c side
  cases c <;> cases side <;> decide

section
variable {p : GamePosition} {side : Side} {b : ChessBoard}

theorem applyMove_castle (hking : b.ourKing = square 4 0) :
    b.applyMove (encode p.toPosition (.castle side)) =
      ((b.leaveHome b.ourKing).doCastling (kingDst side) (square (rookFile side) 0) (rookDst side), false) := by
  have hbits : (Move.whiteCastling 4 (rookFile side)).fromSq = square 4 0 ∧
      (Move.whiteCastling 4 (rookFile side)).toSq = square (rookFile side) 0 ∧
      (Move.whiteCastling 4 (rookFile side)).isCastling = true := by
    cases side <;> decide
  have hside : (fileIdx (square (rookFile side) 0) > fileIdx (square 4 0)) = (side = .king) := by
    cases side <;> decide
  rw [ChessBoard.applyMove, encode, hbits.1, hbits.2.1, hbits.2.2, hking]
  simp only [decide_true, Bool.and_true, if_true, hside]
  cases side <;> rfl

theorem castle_king (hb : Shows b p.board p.turn) (h : p.Castles side) : b.ourKing = square 4 0 := by
  have hking := (king_moves_iff (s := kingHome p.turn) hb).mpr (Position.king_of_castle h)
  rw [← hking]
  exact (seen_castling p.turn side).1

/-- The four squares of a castling move, seen by the side to move. -/
theorem seen_after_castle (u : Square) : p.after (.castle side) (ours p.turn u) =
    if u = square (kingDst side) 0 then some ⟨p.turn, .king⟩
    else if u = square (rookDst side) 0 then some ⟨p.turn, .rook⟩
    else if u = square 4 0 ∨ u = square (rookFile side) 0 then none
    else p.board (ours p.turn u) := by
  obtain ⟨hkingHome, hrookHome, hking, hrook⟩ := seen_castling p.turn side
  rw [Position.after_castle]
  simp only [ours_eq_iff, hkingHome, hrookHome, hking, hrook]

/-- Before the move king and rook stand at home, and their new squares are empty. -/
theorem seen_before_castle (h : p.Castles side) : p.board (ours p.turn (square 4 0)) = some ⟨p.turn, .king⟩ ∧
    p.board (ours p.turn (square (rookFile side) 0)) = some ⟨p.turn, .rook⟩ ∧
    p.board (ours p.turn (square (kingDst side) 0)) = none ∧ p.board (ours p.turn (square (rookDst side) 0)) = none := by
  obtain ⟨hkingHome, hrookHome, hking, hrook⟩ := seen_castling p.turn side
  rw [← hkingHome, ← hrookHome, ← hking, ← hrook]
  simp only [ours_ours]
  exact Position.castle_squares h

private theorem castling_squares : ∀ side : Side, square (kingDst side) 0 ≠ square (rookDst side) 0 ∧
    square (kingDst side) 0 ≠ square 4 0 ∧ square (kingDst side) 0 ≠ square (rookFile side) 0 ∧
    square (rookDst side) 0 ≠ square 4 0 ∧ square (rookDst side) 0 ≠ square (rookFile side) 0 ∧
    square 4 0 ≠ square (rookFile side) 0 := by
  intro side
  cases side <;> decide

theorem kind_castle {f : Option Piece → Bool} (hf : f none = false) (hking : f (some ⟨p.turn, .king⟩) = false)
    (h : p.Castles side) (u : Square) : f (p.after (.castle side) (ours p.turn u)) =
      if u = square (rookDst side) 0 then f (some ⟨p.turn, .rook⟩)
      else f (p.board (ours p.turn u)) && !decide (u = square (rookFile side) 0) := by
  obtain ⟨hkingHome, hrookHome, hkingTo, hrookTo⟩ := seen_before_castle h
  obtain ⟨hkr, hke, hkh, hre, hrh, heh⟩ := castling_squares side
  rw [seen_after_castle]
  by_cases hk : u = square (kingDst side) 0
  · rw [if_pos hk, hk, if_neg hkr, hkingTo, hking, hf, Bool.false_and]
  · rw [if_neg hk]
    by_cases hr : u = square (rookDst side) 0
    · rw [if_pos hr, if_pos hr]
    · rw [if_neg hr, if_neg hr]
      by_cases he : u = square 4 0
      · rw [if_pos (.inl he), he, hkingHome, hking, hf, Bool.false_and]
      · by_cases hh : u = square (rookFile side) 0
        · simp [hh, hf]
        · simp [he, hh]

theorem kind_castle_unmoved {f : Option Piece → Bool} (hf : f none = false) (hking : f (some ⟨p.turn, .king⟩) = false)
    (hrook : f (some ⟨p.turn, .rook⟩) = false) (h : p.Castles side) (u : Square) :
    f (p.after (.castle side) (ours p.turn u)) = f (p.board (ours p.turn u)) := by
  obtain ⟨-, hrookHome, -, hrookTo⟩ := seen_before_castle h
  rw [kind_castle hf hking h]
  by_cases hr : u = square (rookDst side) 0
  · rw [if_pos hr, hr, hrook, hrookTo, hf]
  · rw [if_neg hr]
    by_cases hh : u = square (rookFile side) 0
    · rw [hh, hrookHome, hrook, Bool.false_and]
    · simp [hh]

theorem ourPieces_castle (hb : Shows b p.board p.turn) (u : Square) :
    ((((b.ourPieces.reset (square 4 0)).reset (square (rookFile side) 0)).set (square (kingDst side) 0)).set
      (square (rookDst side) 0)).get u = owned p.turn (p.after (.castle side) (ours p.turn u)) := by
  obtain ⟨hkr, hke, hkh, hre, hrh, heh⟩ := castling_squares side
  rw [seen_after_castle]
  simp only [BitBoard.get_set, BitBoard.get_reset, hb.ourPieces]
  by_cases hk : u = square (kingDst side) 0
  · simp [hk, owned]
  · by_cases hr : u = square (rookDst side) 0
    · simp [hr, owned, hkr.symm]
    · by_cases he : u = square 4 0
      · simp [he, hke.symm, hre.symm, owned]
      · by_cases hh : u = square (rookFile side) 0
        · simp [hh, hkh.symm, hrh.symm, owned]
        · simp [hk, hr, he, hh]

theorem Shows.castle (hb : Shows b p.board p.turn) (h : p.Castles side) :
    Shows (b.applyMove (encode p.toPosition (.castle side))).1 (p.after (.castle side)) p.turn := by
  have hking := castle_king hb h
  have hhome := hb.leaveHome b.ourKing
  have hkinghome : (b.leaveHome b.ourKing).ourKing = square 4 0 := by rw [ChessBoard.leaveHome, if_pos rfl, hking]
  have hother : owned p.turn.other (some ⟨p.turn, .king⟩) = false := decide_eq_false (Color.other_ne p.turn).symm
  rw [applyMove_castle hking]
  exact {
    ourPieces := fun u => by
      rw [← ourPieces_castle hhome, ← hkinghome]
      rfl
    theirPieces := fun u => by
      rw [kind_castle_unmoved (f := owned p.turn.other) rfl hother hother h, ← hhome.theirPieces]
      rfl
    rooks := fun u => by
      rw [kind_castle (f := straight) rfl rfl h, ← hhome.rooks]
      by_cases hr : u = square (rookDst side) 0
      · simp [hr, ChessBoard.doCastling, straight]
      · simp [hr, ChessBoard.doCastling]
    bishops := fun u => by
      rw [kind_castle_unmoved (f := diagonal) rfl rfl rfl h, ← hhome.bishops]
      rfl
    pawns := fun u => by
      rw [kind_castle_unmoved (f := isPawn) rfl rfl rfl h, ← hhome.pawns]
      simp [ChessBoard.doCastling]
    ourKing := by
      rw [seen_after_castle]
      exact if_pos rfl
    theirKing := by
      rw [ValidPosition.after_castle_other h]
      exact hhome.theirKing }

end

end ChessAnalytics.Lc0.Board
