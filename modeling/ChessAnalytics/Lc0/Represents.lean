import ChessAnalytics.Lc0.Placement

/-! Which position of the game lc0's board stands for: besides the pieces the castling rights, the
side to move and what can be taken en passant. Every legal move keeps the two together. -/
namespace ChessAnalytics.Lc0.Board
open Chess

/-- The rights of both sides, with the rooks on their standard files. -/
def castlingsOf (rights : Color → Side → Bool) (c : Color) : Castlings where
  weCan00 := rights c .king
  weCan000 := rights c .queen
  theyCan00 := rights c.other .king
  theyCan000 := rights c.other .queen

theorem castlingsOf_mirror (rights : Color → Side → Bool) (c : Color) :
    (castlingsOf rights c).mirror = castlingsOf rights c.other := by
  simp [castlingsOf, Castlings.mirror]

section
variable {p : GamePosition} {s t : Square} {promotion : Option Promotion} {b : ChessBoard}

theorem not_passed {u : Square} {q : Piece} (hq : q.type ≠ .pawn) (hu : p.board u = some q) :
    ¬ (p.TakesEnPassant s t ∧ fileIdx u = fileIdx t ∧ rankIdx u = rankIdx s) := by
  rintro ⟨hp, hfile, hrank⟩
  have hseen : ours p.turn u = passedPawn t := by
    apply (passed_square hp _).mp
    rw [ours_ours]
    exact ⟨hfile, hrank⟩
  have hpawn := (passed_piece hp).1
  rw [← hseen, ours_ours, hu] at hpawn
  rw [Option.some_inj.mp hpawn] at hq
  exact hq rfl

theorem king_home_after (h : p.Legal (.plain s t promotion)) {c : Color} (hking : p.board (kingHome c) = some ⟨c, .king⟩) :
    p.after (.plain s t promotion) (kingHome c) = some ⟨c, .king⟩ ↔ kingHome c ≠ s := by
  have ht : kingHome c ≠ t := by
    rintro rfl
    exact ValidPosition.target_not_king h.1 c hking
  rw [Position.after_plain, if_neg ht]
  by_cases hs : kingHome c = s
  · simp [hs]
  · rw [if_neg hs, if_neg (not_passed (by simp) hking)]
    simp [hs, hking]

theorem rook_home_after (h : p.Legal (.plain s t promotion)) {c : Color} {side : Side}
    (hrook : p.board (rookHome c side) = some ⟨c, .rook⟩) :
    p.after (.plain s t promotion) (rookHome c side) = some ⟨c, .rook⟩ ↔ rookHome c side ≠ s ∧ rookHome c side ≠ t := by
  rw [Position.after_plain]
  by_cases ht : rookHome c side = t
  · obtain ⟨q, hq, hcolor⟩ := Position.Plays.placed_owned h.1
    have hne : q ≠ ⟨c, .rook⟩ := by
      rintro rfl
      have hown := target_not_ours h.1
      rw [← ht, hrook, owned, decide_eq_false_iff_not] at hown
      exact hown hcolor
    rw [if_pos ht, hq]
    simp [ht, hne]
  · rw [if_neg ht]
    by_cases hs : rookHome c side = s
    · simp [hs]
    · rw [if_neg hs, if_neg (not_passed (by simp) hrook)]
      simp [hs, ht, hrook]

/-- A plain move ends the rights of a king or rook that leaves, and of a rook that is taken. -/
theorem castlingAfter_plain (h : p.Legal (.plain s t promotion)) (c : Color) (side : Side) :
    p.castlingAfter (.plain s t promotion) c side =
      (p.castling c side && !decide (kingHome c = s) && !decide (rookHome c side = s) && !decide (rookHome c side = t)) := by
  rw [Position.castlingAfter]
  cases hright : p.castling c side with
  | false => simp
  | true =>
    obtain ⟨hking, hrook⟩ := p.castling_home c side hright
    simp only [king_home_after h hking, rook_home_after h hrook, Bool.true_and, decide_not, Bool.decide_and, Bool.and_assoc]

theorem own_right (h : p.Legal (.plain s t promotion)) (side : Side) :
    p.castlingAfter (.plain s t promotion) p.turn side =
      (p.castling p.turn side && !decide (kingHome p.turn = s) && !decide (rookHome p.turn side = s)) := by
  rw [castlingAfter_plain h]
  cases hright : p.castling p.turn side with
  | false => simp
  | true =>
    have hne : rookHome p.turn side ≠ t := by
      rintro rfl
      have hown := target_not_ours h.1
      rw [(p.castling_home _ _ hright).2, owned, decide_eq_false_iff_not] at hown
      exact hown rfl
    simp [hne]

theorem their_right (h : p.Legal (.plain s t promotion)) (side : Side) :
    p.castlingAfter (.plain s t promotion) p.turn.other side =
      (p.castling p.turn.other side && !(owned p.turn.other (p.board t) && decide (rookHome p.turn.other side = t))) := by
  rw [castlingAfter_plain h]
  cases hright : p.castling p.turn.other side with
  | false => simp
  | true =>
    obtain ⟨hking, hrook⟩ := p.castling_home _ _ hright
    obtain ⟨q, hq, hcolor, -⟩ := Position.source_of_legal h
    have hsource {u : Square} {k : Chess.PieceType} (hu : p.board u = some ⟨p.turn.other, k⟩) : u ≠ s := by
      rintro rfl
      rw [Option.some_inj.mp (hq.symm.trans hu)] at hcolor
      exact Color.other_ne p.turn hcolor
    by_cases ht : rookHome p.turn.other side = t
    · rw [← ht, hrook]
      simp [owned]
    · simp [hsource hking, hsource hrook, ht]

private theorem their_corners (c : Castlings) (t : Square) (hk : c.theirKingsideRook = 7) (hq : c.theirQueensideRook = 0) :
    (let c' := if t = square c.theirKingsideRook 7 then c.resetTheyCan00 else c
     if t = square c'.theirQueensideRook 7 then c'.resetTheyCan000 else c') =
      { c with
        theyCan00 := c.theyCan00 && !decide (t = square 7 7)
        theyCan000 := c.theyCan000 && !decide (t = square 0 7) } := by
  obtain ⟨_, _, _, _, _, _, _, _⟩ := c
  obtain rfl := hk
  obtain rfl := hq
  have hcorners : square 7 7 ≠ square 0 7 := by decide
  by_cases h7 : t = square 7 7
  · simp [h7, hcorners, Castlings.resetTheyCan00]
  · by_cases h0 : t = square 0 7
    · simp [h0, hcorners.symm, Castlings.resetTheyCan000]
    · simp [h7, h0]

/-- What the bitboards do to the rights of the side that does not move. -/
theorem takeAway_castlings (m : Move) (hk : b.castlings.theirKingsideRook = 7) (hq : b.castlings.theirQueensideRook = 0) :
    (b.takeAway m).castlings =
      { b.castlings with
        theyCan00 := b.castlings.theyCan00 && !(b.theirPieces.get m.toSq && decide (m.toSq = square 7 7))
        theyCan000 := b.castlings.theyCan000 && !(b.theirPieces.get m.toSq && decide (m.toSq = square 0 7)) } := by
  have hcapture : (b.takeAway m).castlings = if b.theirPieces.get m.toSq then
      { b.castlings with
        theyCan00 := b.castlings.theyCan00 && !decide (m.toSq = square 7 7)
        theyCan000 := b.castlings.theyCan000 && !decide (m.toSq = square 0 7) } else b.castlings := by
    rw [← their_corners _ _ hk hq]
    simp only [ChessBoard.takeAway, ChessBoard.capture, ChessBoard.removePassed]
    split <;> split <;> rfl
  rw [hcapture]
  cases b.theirPieces.get m.toSq <;> simp

private theorem our_corners (c : Castlings) (s : Square) (hk : c.ourKingsideRook = 7) (hq : c.ourQueensideRook = 0)
    (hrank : rankIdx s = 0) :
    (let c' := if fileIdx s = c.ourQueensideRook then c.resetWeCan000 else c
     if fileIdx s = c'.ourKingsideRook then c'.resetWeCan00 else c') =
      { c with
        weCan00 := c.weCan00 && !decide (s = square 7 0)
        weCan000 := c.weCan000 && !decide (s = square 0 0) } := by
  have hsquare : ∀ s : Square, rankIdx s = 0 → ((s = square 7 0 ↔ fileIdx s = 7) ∧ (s = square 0 0 ↔ fileIdx s = 0)) := by
    decide
  obtain ⟨_, _, _, _, _, _, _, _⟩ := c
  obtain rfl := hk
  obtain rfl := hq
  simp only [hsquare s hrank]
  by_cases h0 : fileIdx s = 0
  · simp [h0, Castlings.resetWeCan000]
  · by_cases h7 : fileIdx s = 7
    · simp [h7, Castlings.resetWeCan00]
    · simp [h7, h0]

theorem loseRookRight_castlings (s : Square) (hk : b.castlings.ourKingsideRook = 7) (hq : b.castlings.ourQueensideRook = 0) :
    (b.loseRookRight s).castlings =
      { b.castlings with
        weCan00 := b.castlings.weCan00 && !(b.rooks.get s && decide (s = square 7 0))
        weCan000 := b.castlings.weCan000 && !(b.rooks.get s && decide (s = square 0 0)) } := by
  have hcorners : ∀ s : Square, rankIdx s ≠ 0 → s ≠ square 7 0 ∧ s ≠ square 0 0 := by decide
  rw [ChessBoard.loseRookRight]
  by_cases hrank : rankIdx s = 0
  · cases hrook : b.rooks.get s with
    | false => simp
    | true =>
      rw [if_pos ⟨hrank, rfl⟩]
      exact (our_corners b.castlings s hk hq hrank).trans (by simp)
  · simp [hrank, hcorners s hrank]

private theorem seen_home : ∀ (c : Color) (side : Side), ours c (kingHome c) = square 4 0 ∧
    ours c (rookHome c side) = square (rookFile side) 0 ∧ ours c (rookHome c.other side) = square (rookFile side) 7 := by
  intro c side
  cases c <;> cases side <;> decide

theorem rookHome_eq_iff (c : Color) (side : Side) (s : Square) :
    (rookHome c side = s ↔ ours c s = square (rookFile side) 0) ∧
      (rookHome c.other side = s ↔ ours c s = square (rookFile side) 7) := by
  obtain ⟨-, hours, htheirs⟩ := seen_home c side
  constructor
  · rw [ours_eq_iff, ← hours, ours_ours, eq_comm]
  · rw [ours_eq_iff, ← htheirs, ours_ours, eq_comm]

theorem their_castlings (hb : Shows b p.board p.turn) (hc : b.castlings = castlingsOf p.castling p.turn)
    (h : p.Legal (.plain s t promotion)) (u : Square) :
    ((b.leaveHome u).takeAway (encode p.toPosition (.plain s t promotion))).castlings =
      { (b.leaveHome u).castlings with
        theyCan00 := p.castlingAfter (.plain s t promotion) p.turn.other .king
        theyCan000 := p.castlingAfter (.plain s t promotion) p.turn.other .queen } := by
  have hhome : (b.leaveHome u).castlings.theirKingsideRook = 7 ∧ (b.leaveHome u).castlings.theirQueensideRook = 0 ∧
      (b.leaveHome u).castlings.theyCan00 = p.castling p.turn.other .king ∧
      (b.leaveHome u).castlings.theyCan000 = p.castling p.turn.other .queen := by
    rw [ChessBoard.leaveHome]
    split
    · simp only [hc]
      exact ⟨rfl, rfl, rfl, rfl⟩
    · rw [hc]
      exact ⟨rfl, rfl, rfl, rfl⟩
  have hpieces := (hb.leaveHome u).theirPieces (ours p.turn t)
  rw [ours_ours] at hpieces
  rw [takeAway_castlings _ hhome.1 hhome.2.1, hhome.2.2.1, hhome.2.2.2, toSq_encode, hpieces, their_right h, their_right h]
  simp only [(rookHome_eq_iff p.turn _ t).2]
  rfl

private theorem castlings_after {m : Chess.Move} {c : Castlings} (hc : b.castlings = castlingsOf p.castling p.turn)
    (h00 : c.weCan00 = p.castlingAfter m p.turn .king) (h000 : c.weCan000 = p.castlingAfter m p.turn .queen)
    (hrest : c = { b.castlings with
      weCan00 := c.weCan00
      weCan000 := c.weCan000
      theyCan00 := p.castlingAfter m p.turn.other .king
      theyCan000 := p.castlingAfter m p.turn.other .queen }) : c = castlingsOf (p.castlingAfter m) p.turn := by
  rw [hrest, h00, h000, hc]
  rfl

theorem leaveHome_other {u : Square} (hu : u ≠ b.ourKing) : b.leaveHome u = b := if_neg hu

/-- Only the king and the rook can end a right of the side to move. -/
theorem own_right_kept (h : p.Legal (.plain s t promotion)) (hs : p.board s ≠ some ⟨p.turn, .king⟩) (side : Side) :
    p.castlingAfter (.plain s t promotion) p.turn side =
      (p.castling p.turn side && !(straight (p.board s) && decide (ours p.turn s = square (rookFile side) 0))) := by
  rw [own_right h]
  cases hright : p.castling p.turn side with
  | false => simp
  | true =>
    obtain ⟨hking, hrook⟩ := p.castling_home _ _ hright
    have hne : kingHome p.turn ≠ s := by
      rintro rfl
      exact hs hking
    simp only [(rookHome_eq_iff p.turn side s).1, hne, decide_false, Bool.not_false, Bool.and_true, Bool.true_and]
    by_cases hs' : ours p.turn s = square (rookFile side) 0
    · have hsource : rookHome p.turn side = s := (rookHome_eq_iff p.turn side s).1.mpr hs'
      rw [hsource] at hrook
      simp [hs', hrook, straight]
    · simp [hs']

theorem own_right_lost (h : p.Legal (.plain s t promotion)) (hs : p.board s = some ⟨p.turn, .king⟩) (side : Side) :
    p.castlingAfter (.plain s t promotion) p.turn side = false := by
  rw [own_right h]
  cases hright : p.castling p.turn side with
  | false => rfl
  | true =>
    have hking := (p.one_king p.turn).unique (p.castling_home _ _ hright).1 hs
    simp [hking]

theorem castlings_plain (hb : Shows b p.board p.turn) (hc : b.castlings = castlingsOf p.castling p.turn)
    (h : p.Legal (.plain s t promotion)) :
    (b.applyMove (encode p.toPosition (.plain s t promotion))).1.castlings =
      castlingsOf (p.castlingAfter (.plain s t promotion)) p.turn := by
  have htheirs := their_castlings hb hc h (ours p.turn s)
  rw [applyMove_plain]
  by_cases hking : ours p.turn s = b.ourKing
  · have hs := (king_moves_iff hb).mp hking
    rw [if_pos hking]
    apply castlings_after hc
    · rw [htheirs, own_right_lost h hs, ChessBoard.leaveHome, if_pos hking]
      rfl
    · rw [htheirs, own_right_lost h hs, ChessBoard.leaveHome, if_pos hking]
      rfl
    · rw [htheirs, ChessBoard.leaveHome, if_pos hking]
      rfl
  · have hs : p.board s ≠ some ⟨p.turn, .king⟩ := fun hs => hking ((king_moves_iff hb).mpr hs)
    rw [if_neg hking]
    rw [leaveHome_other hking] at htheirs ⊢
    cases promotion with
    | some k =>
      have hpawn := promoted_pawn h.1
      change (ChessBoard.promote _ _ _ (Move.pieceIdx k).toNat).castlings = _
      rw [promote_rest]
      apply castlings_after hc
      · rw [own_right_kept h hs, htheirs, hpawn, hc]
        simp [straight, castlingsOf]
      · rw [own_right_kept h hs, htheirs, hpawn, hc]
        simp [straight, castlingsOf]
      · simp only [htheirs]
    | none =>
      have hrook : (b.takeAway (encode p.toPosition (.plain s t none))).rooks.get (ours p.turn s) = straight (p.board s) := by
        rw [(hb.cleared h.1).rooks, remaining_source h.1]
      have hlose := loseRookRight_castlings (b := b.takeAway (encode p.toPosition (.plain s t none))) (ours p.turn s)
        (by rw [htheirs, hc]; rfl) (by rw [htheirs, hc]; rfl)
      rw [hrook, htheirs] at hlose
      rw [markDoubleStep_rest]
      change ((b.takeAway (encode p.toPosition (.plain s t none))).loseRookRight (ours p.turn s)).castlings = _
      apply castlings_after hc
      · rw [hlose, own_right_kept h hs, hc]
        rfl
      · rw [hlose, own_right_kept h hs, hc]
        rfl
      · rw [hlose]

theorem castlings_castle {side : Side} (hb : Shows b p.board p.turn) (hc : b.castlings = castlingsOf p.castling p.turn)
    (h : p.Legal (.castle side)) :
    (b.applyMove (encode p.toPosition (.castle side))).1.castlings = castlingsOf (p.castlingAfter (.castle side)) p.turn := by
  have hown (side' : Side) : p.castlingAfter (.castle side) p.turn side' = false := by
    have hhome : p.after (.castle side) (kingHome p.turn) ≠ some ⟨p.turn, .king⟩ := by
      rw [Ne, ValidPosition.after_castle_king (Position.castles_of_legal h)]
      exact (Position.castle_distinct p.turn side).2.1
    rw [Position.castlingAfter, decide_eq_false hhome, Bool.and_false, Bool.false_and]
  have htheir (side' : Side) : p.castlingAfter (.castle side) p.turn.other side' = p.castling p.turn.other side' := by
    have hsame : ∀ (c : Color) (u : Square), rankIdx u = c.other.backRank → u ≠ kingCastled c side ∧ u ≠ rookCastled c side ∧
        ¬ (u = kingHome c ∨ u = rookHome c side) := by
      intro c
      cases c <;> cases side <;> decide
    have hafter (u : Square) (hu : rankIdx u = p.turn.other.backRank) : p.after (.castle side) u = p.board u := by
      obtain ⟨h1, h2, h3⟩ := hsame p.turn u hu
      rw [Position.after_castle, if_neg h1, if_neg h2, if_neg h3]
    have hking : rankIdx (kingHome p.turn.other) = p.turn.other.backRank := by cases p.turn <;> decide
    have hrook : rankIdx (rookHome p.turn.other side') = p.turn.other.backRank := by cases p.turn <;> cases side' <;> decide
    rw [Position.castlingAfter, hafter _ hking, hafter _ hrook]
    cases hright : p.castling p.turn.other side' with
    | false => rfl
    | true =>
      obtain ⟨h1, h2⟩ := p.castling_home _ _ hright
      simp [h1, h2]
  rw [applyMove_castle (castle_king hb (Position.castles_of_legal h))]
  apply castlings_after hc
  · rw [hown]
    simp [ChessBoard.doCastling, ChessBoard.leaveHome, Castlings.resetWeCan00, Castlings.resetWeCan000]
  · rw [hown]
    simp [ChessBoard.doCastling, ChessBoard.leaveHome, Castlings.resetWeCan00, Castlings.resetWeCan000]
  · rw [htheir, htheir]
    simp [ChessBoard.doCastling, ChessBoard.leaveHome, Castlings.resetWeCan00, Castlings.resetWeCan000, hc, castlingsOf]

end

section
variable {p : GamePosition} {s t : Square} {b : ChessBoard}

/-- The square that a double step passes, seen by the side that has made it. -/
def passedOf (t : Square) : Square := square (fileIdx t) 2

theorem passedSquare_iff {promotion : Option Promotion} (h : p.Legal (.plain s t promotion)) (e : Square) :
    p.passedSquare (.plain s t promotion) = some e ↔
      isPawn (p.board s) = true ∧ rankStep (ours p.turn s) (ours p.turn t) = 2 ∧ e = ours p.turn (passedOf t) := by
  obtain ⟨q, hq, hcolor, -⟩ := Position.source_of_legal h
  have hpiece : p.board s = some ⟨p.turn, .pawn⟩ ↔ isPawn (p.board s) = true := by
    rw [hq, isPawn, decide_eq_true_iff, ← hcolor]
    constructor
    · intro heq
      rw [Option.some_inj.mp heq]
    · intro htype
      rw [← htype]
  have hsquare : p.board s = some ⟨p.turn, .pawn⟩ → (rankStep s t).natAbs = 2 →
      square (fileIdx s) ((rankIdx s + rankIdx t) / 2) = ours p.turn (passedOf t) := by
    intro hpawn htwo
    obtain ⟨hfile, hrank, hstep, -⟩ := Position.double_step h hpawn htwo
    have hmid : (rankIdx s + rankIdx t) / 2 = seenRank p.turn 2 := by
      rw [rankStep, hrank] at hstep
      rw [hrank]
      revert hstep
      cases p.turn <;> simp only [Color.pawnRank, Color.forward, seenRank] <;> omega
    have hlt : seenRank p.turn 2 < 8 := by cases p.turn <;> decide
    apply square_ext
    · rw [fileIdx_square _ (fileIdx_lt s), fileIdx_ours, passedOf, fileIdx_square _ (fileIdx_lt t), hfile]
    · rw [rankIdx_square (fileIdx_lt s) (by omega), rankIdx_ours, passedOf, rankIdx_square (fileIdx_lt t) (by omega), hmid]
  rw [Position.passedSquare, rankStep_ours]
  by_cases hdouble : p.board s = some ⟨p.turn, .pawn⟩ ∧ (rankStep s t).natAbs = 2
  · obtain ⟨-, -, hstep, -⟩ := Position.double_step h hdouble.1 hdouble.2
    have hseen : p.turn.forward * rankStep s t = 2 := by
      rw [hstep]
      cases p.turn <;> rfl
    rw [if_pos hdouble, hsquare hdouble.1 hdouble.2, Option.some_inj]
    simp only [hpiece.mp hdouble.1, hseen, true_and]
    exact eq_comm
  · rw [if_neg hdouble]
    constructor
    · intro hnone
      cases hnone
    · rintro ⟨hpawn, hstep, -⟩
      refine absurd ⟨hpiece.mpr hpawn, ?_⟩ hdouble
      revert hstep
      cases p.turn <;> simp only [Color.forward] <;> omega

/-- The square that a double step passes is free, before and behind it. -/
theorem passed_empty {m : Chess.Move} (h : p.Legal m) {e : Square} (he : e ∈ p.passedSquare m) : p.after m e = none := by
  cases m with
  | castle side => cases he
  | plain s t promotion =>
    rw [Option.mem_def, Position.passedSquare] at he
    split at he
    · rename_i hdouble
      obtain ⟨hpawn, htwo⟩ := hdouble
      obtain ⟨hfile, hrank, hstep, -⟩ := Position.double_step h hpawn htwo
      obtain ⟨q, hq, -, -, hmove⟩ := Position.source_of_legal h
      obtain rfl := Option.some_inj.mp (hpawn.symm.trans hq)
      obtain rfl := Option.some_inj.mp he
      rw [if_pos rfl] at hmove
      have hone : rankStep s t ≠ p.turn.forward := by
        rw [hstep]
        cases p.turn <;> decide
      have hclear : p.board.Clear s t := by
        rcases hmove.1 with ⟨-, -, hpush | ⟨-, -, hclear⟩⟩ | ⟨hattack, -⟩ | ⟨-, hattack, -⟩
        · exact absurd hpush hone
        · exact hclear
        · exact absurd hattack.2 hone
        · exact absurd hattack.2 hone
      have hmid : p.board (square (fileIdx s) ((rankIdx s + rankIdx t) / 2)) = none := by
        have hbetween : ∀ (c : Color) (s t : Square), fileIdx t = fileIdx s → rankIdx s = c.pawnRank →
            rankStep s t = 2 * c.forward → square (fileIdx s) ((rankIdx s + rankIdx t) / 2) ∈ between s t := by
          intro c
          cases c <;> decide +kernel
        exact hclear _ (hbetween p.turn s t hfile hrank hstep)
      have ht : square (fileIdx s) ((rankIdx s + rankIdx t) / 2) ≠ t := by
        intro heq
        have hranks := congrArg rankIdx heq
        rw [rankIdx_square (fileIdx_lt s) (by have := rankIdx_lt s; have := rankIdx_lt t; omega)] at hranks
        rw [rankStep] at htwo
        omega
      rw [Position.after_plain, if_neg ht, hmid]
      split
      · rfl
      · split <;> rfl
    · cases he

/-- The pawns that can answer a move en passant, seen by the side that has made it. -/
theorem takes_after_push {m : Chess.Move} (h : p.Legal m) (v w : Square) :
    (p.push m h).TakesEnPassant (ours p.turn v) (ours p.turn w) ↔
      p.after m (ours p.turn v) = some ⟨p.turn.other, .pawn⟩ ∧ ((fileStep v w).natAbs = 1 ∧ rankStep v w = -1) ∧
        p.passedSquare m = some (ours p.turn w) := by
  have hattack : Chess.Board.Attacks (p.after m) ⟨p.turn.other, .pawn⟩ (ours p.turn v) (ours p.turn w) ↔
      (fileStep v w).natAbs = 1 ∧ rankStep v w = -1 := by
    rw [Board.Attacks, fileStep_ours, rankStep_ours]
    cases p.turn <;> simp only [Color.forward, Color.other] <;> omega
  rw [Position.TakesEnPassant]
  simp only [GamePosition.push_board, GamePosition.push_turn, GamePosition.push_enPassant, hattack]
  constructor
  · rintro ⟨hpawn, hstep, hpassed, -⟩
    exact ⟨hpawn, hstep, hpassed⟩
  · rintro ⟨hpawn, hstep, hpassed⟩
    exact ⟨hpawn, hstep, hpassed, passed_empty h hpassed⟩

/-- The marks on rank 1 behind a move: where the opponent can take en passant. -/
def Marked (b : ChessBoard) (q : Chess.Position) (c : Color) : Prop :=
  ∀ u, (b.pawns.diff ChessBoard.pawnMask).get u = true ↔
    rankIdx u = 0 ∧ ∃ v, q.TakesEnPassant v (ours c (square (fileIdx u) 2))

theorem marked_of_none {m : Chess.Move} (h : p.Legal m) (hnone : p.passedSquare m = none)
    (hpawns : ∀ u, (b.pawns.diff ChessBoard.pawnMask).get u = false) : Marked b (p.push m h).toPosition p.turn := by
  intro u
  rw [hpawns]
  constructor
  · intro hfalse
    cases hfalse
  · rintro ⟨-, v, hv⟩
    have hpassed := hv.2.2.1
    rw [GamePosition.push_enPassant, hnone] at hpassed
    cases hpassed

/-- A double step is marked when some pawn of theirs attacks the square that it has passed. -/
theorem get_markDoubleStep (b : ChessBoard) (s t u : Square) : (b.markDoubleStep s t).pawns.get u = true ↔
    b.pawns.get u = true ∨ u = square (fileIdx t) 0 ∧ rankStep s t = 2 ∧ b.pawns.get t = true ∧
      (pawnAttacksOn (square (fileIdx t) (rankIdx t - 1))).intersects (b.theirPieces.inter b.pawns) = true := by
  rw [ChessBoard.markDoubleStep]
  by_cases hdouble : rankStep s t = 2 ∧ b.pawns.get t = true
  · rw [if_pos hdouble]
    split
    · rename_i hattacked
      simp [hdouble.1, hdouble.2, hattacked]
    · rename_i hattacked
      simp [hattacked]
  · rw [if_neg hdouble]
    constructor
    · exact .inl
    · rintro (hget | ⟨-, hstep, hpawn, -⟩)
      · exact hget
      · exact absurd ⟨hstep, hpawn⟩ hdouble

/-- The bitboards of an ordinary move, before its mark is set. -/
def moved (b : ChessBoard) (p : GamePosition) (s t : Square) : ChessBoard :=
  ((b.takeAway (encode p.toPosition (.plain s t none))).loseRookRight (ours p.turn s)).movePiece (ours p.turn s) (ours p.turn t)

theorem moved_pawns (hb : Shows b p.board p.turn) (h : p.Legal (.plain s t none)) (u : Square) :
    (moved b p s t).pawns.get u = isPawn (p.after (.plain s t none) (ours p.turn u)) := by
  have hcleared := hb.cleared h.1
  rw [moved, loseRookRight_rest, kind_moved (f := isPawn) rfl h.1, ← hcleared.pawns, ← hcleared.pawns]
  simp [ChessBoard.movePiece]

theorem moved_theirPieces (hb : Shows b p.board p.turn) (h : p.Legal (.plain s t none)) (u : Square) :
    (moved b p s t).theirPieces.get u = owned p.turn.other (p.after (.plain s t none) (ours p.turn u)) := by
  rw [← theirPieces_plain hb h.1, moved, loseRookRight_rest]
  rfl

theorem their_pawn_iff {x : Option Piece} {c : Color} : (owned c x = true ∧ isPawn x = true) ↔ x = some ⟨c, .pawn⟩ := by
  cases x with
  | none => simp [owned]
  | some q =>
    obtain ⟨color, type⟩ := q
    simp [owned, isPawn]

theorem attacked_iff (hb : Shows b p.board p.turn) (h : p.Legal (.plain s t none)) (w : Square) :
    (pawnAttacksOn w).intersects ((moved b p s t).theirPieces.inter (moved b p s t).pawns) = true ↔
      ∃ v, p.after (.plain s t none) (ours p.turn v) = some ⟨p.turn.other, .pawn⟩ ∧
        (fileStep v w).natAbs = 1 ∧ rankStep v w = -1 := by
  rw [BitBoard.intersects_iff]
  apply exists_congr
  intro v
  rw [get_pawnAttacksOn, BitBoard.get_inter, moved_theirPieces hb h, moved_pawns hb h, Bool.and_eq_true, their_pawn_iff,
    decide_eq_true_iff]
  constructor
  · rintro ⟨⟨hfile, hrank, -⟩, hpawn⟩
    exact ⟨hpawn, hfile, hrank⟩
  · rintro ⟨hpawn, hfile, hrank⟩
    refine ⟨⟨hfile, hrank, ?_⟩, hpawn⟩
    have hinside := p.pawns_inside_after h hpawn
    rw [rankIdx_ours] at hinside
    have hlt := rankIdx_lt v
    revert hinside
    cases p.turn <;> simp only [seenRank] <;> omega

/-- A pawn that has made a double step stands two ranks behind the passed square's mark. -/
theorem passed_rank_seen (h : p.Legal (.plain s t none)) (hpawn : isPawn (p.board s) = true)
    (hstep : rankStep (ours p.turn s) (ours p.turn t) = 2) : rankIdx (ours p.turn t) - 1 = 2 := by
  have hpassed := (passedSquare_iff h _).mpr ⟨hpawn, hstep, rfl⟩
  have hseen : rankIdx (ours p.turn s) = 1 := by
    rw [Position.passedSquare] at hpassed
    split at hpassed
    · rename_i hdouble
      obtain ⟨-, hrank, -⟩ := Position.double_step h hdouble.1 hdouble.2
      rw [rankIdx_ours, hrank]
      cases p.turn <;> rfl
    · cases hpassed
  rw [rankStep, hseen] at hstep
  omega

theorem marked_ordinary (hb : Shows b p.board p.turn) (h : p.Legal (.plain s t none)) :
    Marked ((moved b p s t).markDoubleStep (ours p.turn s) (ours p.turn t)) (p.push (.plain s t none) h).toPosition p.turn := by
  intro u
  have hmasked : (moved b p s t).pawns.get u = true → ChessBoard.pawnMask.get u = true := by
    rw [moved_pawns hb h]
    intro hpawn
    rw [← pawns_masked h.1 (fun _ => moved_pawns hb h u), BitBoard.get_inter, Bool.and_eq_true] at hpawn
    exact hpawn.2
  have hplaced : isPawn (p.after (.plain s t none) (ours p.turn (ours p.turn t))) = isPawn (p.board s) := by
    rw [after_remaining, if_pos rfl]
    rfl
  rw [BitBoard.get_diff, Bool.and_eq_true, get_markDoubleStep, attacked_iff hb h, moved_pawns hb h (ours p.turn t), hplaced,
    fileIdx_ours]
  constructor
  · rintro ⟨hget | ⟨rfl, hstep, hpawn, v, hv, hattack⟩, hmask⟩
    · rw [hmasked hget] at hmask
      cases hmask
    · rw [passed_rank_seen h hpawn hstep] at hattack
      refine ⟨rankIdx_square (fileIdx_lt t) (by omega), ours p.turn v, ?_⟩
      rw [fileIdx_square _ (fileIdx_lt t), takes_after_push h]
      exact ⟨hv, hattack, (passedSquare_iff h _).mpr ⟨hpawn, hstep, rfl⟩⟩
  · rintro ⟨hrank, v, hv⟩
    rw [← ours_ours p.turn v, takes_after_push h, passedSquare_iff h] at hv
    obtain ⟨hpawn', hattack, hpawn, hstep, hfiles⟩ := hv
    have hfile : fileIdx u = fileIdx t := by
      have heq := congrArg (fun e => fileIdx (ours p.turn e)) hfiles
      simp only [ours_ours, passedOf, fileIdx_square _ (fileIdx_lt _)] at heq
      exact heq
    have hu : u = square (fileIdx t) 0 := by
      apply square_ext
      · rw [fileIdx_square _ (fileIdx_lt t), hfile]
      · rw [rankIdx_square (fileIdx_lt t) (by omega), hrank]
    have hmask : ChessBoard.pawnMask.get u = false := by
      rw [get_pawnMask, hrank]
      rfl
    refine ⟨.inr ⟨hu, hstep, hpawn, ours p.turn v, hpawn', ?_⟩, by rw [hmask]; rfl⟩
    rw [passed_rank_seen h hpawn hstep, ← hfile]
    exact hattack

theorem marked_plain {promotion : Option Promotion} (hb : Shows b p.board p.turn) (h : p.Legal (.plain s t promotion)) :
    Marked (b.applyMove (encode p.toPosition (.plain s t promotion))).1 (p.push (.plain s t promotion) h).toPosition p.turn := by
  have hhome := hb.leaveHome (ours p.turn s)
  have hnotmasked {c : ChessBoard} (m : Move) (u : Square) : ((c.takeAway m).pawns.diff ChessBoard.pawnMask).get u = false := by
    rw [BitBoard.get_diff, ChessBoard.takeAway_pawns, BitBoard.get_inter]
    cases ChessBoard.pawnMask.get u <;> simp
  rw [applyMove_plain]
  by_cases hking : ours p.turn s = b.ourKing
  · have hs := (king_moves_iff hb).mp hking
    rw [if_pos hking]
    apply marked_of_none h
    · rw [Position.passedSquare, if_neg]
      rintro ⟨hpawn, -⟩
      rw [hs] at hpawn
      cases hpawn
    · exact hnotmasked _
  · rw [if_neg hking]
    cases promotion with
    | some k =>
      change Marked (ChessBoard.promote _ _ _ (Move.pieceIdx k).toNat) _ _
      rw [promote_rest]
      apply marked_of_none h
      · rw [Position.passedSquare, if_neg]
        rintro ⟨hpawn, htwo⟩
        cases (Position.double_step h hpawn htwo).2.2.2
      · intro u
        have hkept := hnotmasked (c := b.leaveHome (ours p.turn s)) (encode p.toPosition (.plain s t (some k))) u
        rw [BitBoard.get_diff] at hkept
        rw [BitBoard.get_diff, BitBoard.get_reset, Bool.and_right_comm, hkept, Bool.false_and]
    | none => exact marked_ordinary hhome h

theorem marked_castle {side : Side} (hb : Shows b p.board p.turn) (h : p.Legal (.castle side)) :
    Marked (b.applyMove (encode p.toPosition (.castle side))).1 (p.push (.castle side) h).toPosition p.turn := by
  rw [applyMove_castle (castle_king hb (Position.castles_of_legal h))]
  apply marked_of_none h rfl
  intro u
  rw [ChessBoard.doCastling, BitBoard.get_diff, BitBoard.get_inter]
  cases ChessBoard.pawnMask.get u <;> simp

end

/-- lc0's board stands for the position: the same pieces, the same side to move, the same rights, and
a mark on rank 8 wherever a pawn can be taken en passant. -/
structure Represents (b : ChessBoard) (p : Chess.Position) : Prop where
  placement : Shows b p.board p.turn
  flipped : b.flipped = decide (p.turn = .black)
  castlings : b.castlings = castlingsOf p.castling p.turn
  marks : ∀ u, (b.pawns.diff ChessBoard.pawnMask).get u = true ↔
    rankIdx u = 7 ∧ ∃ v, p.TakesEnPassant v (ours p.turn (square (fileIdx u) 5))

section
variable {p : GamePosition} {b : ChessBoard} {m : Chess.Move}

theorem Marked.mirror {q : Chess.Position} {c : Color} (h : Marked b q c) (u : Square) :
    (b.mirror.pawns.diff ChessBoard.pawnMask).get u = true ↔
      rankIdx u = 7 ∧ ∃ v, q.TakesEnPassant v (ours c.other (square (fileIdx u) 5)) := by
  have hmask : ∀ s, ChessBoard.pawnMask.get (Chess.mirror s) = ChessBoard.pawnMask.get s := by decide
  have hrank : ∀ s : Square, rankIdx (Chess.mirror s) = 0 ↔ rankIdx s = 7 := by decide
  have hpassed : ∀ f : Fin 8, Chess.mirror (square f.val 5) = square f.val 2 := by decide
  have hseen := h (Chess.mirror u)
  rw [BitBoard.get_diff, hmask, hrank] at hseen
  have hsquare := hpassed ⟨fileIdx u, fileIdx_lt u⟩
  have hfile : fileIdx (Chess.mirror u) = fileIdx u := fileIdx_ours .black u
  rw [ChessBoard.mirror, BitBoard.get_diff, BitBoard.get_mirror, hseen, hfile, ours_other, hsquare]

theorem flipped_applyMove (b : ChessBoard) (m : Move) : (b.applyMove m).1.flipped = b.flipped := by
  have hhome (s : Square) : (b.leaveHome s).flipped = b.flipped := by
    rw [ChessBoard.leaveHome]
    split <;> rfl
  have hpromote (b' : ChessBoard) (s t : Square) (k : Nat) : (b'.promote s t k).flipped = b'.flipped := by
    rcases k with _ | _ | _ | _ | k <;> rfl
  rw [ChessBoard.applyMove]
  simp only []
  split
  · split <;> exact hhome _
  · split
    · simp only [ChessBoard.takeAway_flipped, hhome]
    · split
      · simp only [hpromote, ChessBoard.takeAway_flipped, hhome]
      · rw [markDoubleStep_rest, loseRookRight_rest]
        exact (ChessBoard.takeAway_flipped _ _).trans (hhome _)

/-- **One move.** A board that stands for a position stands for the position behind any legal move
once it has taken the move and has been mirrored. -/
theorem Represents.push (hb : Represents b p.toPosition) (h : p.Legal m) :
    Represents (b.applyMove (encode p.toPosition m)).1.mirror (p.push m h).toPosition where
  placement := by
    apply Shows.mirror
    cases m with
    | plain s t promotion => exact hb.placement.plain h.1
    | castle side => exact hb.placement.castle (Position.castles_of_legal h)
  flipped := by
    rw [ChessBoard.mirror, flipped_applyMove, hb.flipped, GamePosition.push_turn]
    cases p.turn <;> rfl
  castlings := by
    have hafter : (b.applyMove (encode p.toPosition m)).1.castlings = castlingsOf (p.castlingAfter m) p.turn := by
      cases m with
      | plain s t promotion => exact castlings_plain hb.placement hb.castlings h
      | castle side => exact castlings_castle hb.placement hb.castlings h
    change (b.applyMove (encode p.toPosition m)).1.castlings.mirror = _
    rw [hafter, castlingsOf_mirror]
    rfl
  marks u := by
    rw [GamePosition.push_turn]
    apply Marked.mirror
    cases m with
    | plain s t promotion => exact marked_plain hb.placement h
    | castle side => exact marked_castle hb.placement h

/-- The counter of the fifty-move rule starts again behind the moves that the rules say. -/
theorem applyMove_zeroing (hb : Represents b p.toPosition) (h : p.Legal m) :
    (b.applyMove (encode p.toPosition m)).2 = decide (p.Zeroing m) := by
  cases m with
  | castle side =>
    rw [applyMove_castle (castle_king hb.placement (Position.castles_of_legal h))]
    exact (decide_eq_false id).symm
  | plain s t promotion =>
    have hhome := hb.placement.leaveHome (ours p.turn s)
    have hpawn : isPawn (p.board s) = true ↔ ∃ q ∈ p.board s, q.type = .pawn := by
      cases p.board s <;> simp [isPawn]
    have htaken : owned p.turn.other (p.board t) = true ↔ p.board t ≠ none := by
      constructor
      · intro howned hempty
        rw [hempty] at howned
        cases howned
      · intro hne
        by_contra howned
        rw [Bool.not_eq_true] at howned
        exact hne (target_empty h.1 howned)
    have hreset : ((b.leaveHome (ours p.turn s)).theirPieces.get (ours p.turn t) ||
        ((b.leaveHome (ours p.turn s)).takeAway (encode p.toPosition (.plain s t promotion))).pawns.get (ours p.turn s)) =
        decide (p.Zeroing (.plain s t promotion)) := by
      rw [(hhome.cleared h.1).pawns, remaining_source h.1, hhome.theirPieces, ours_ours, Bool.eq_iff_iff, Bool.or_eq_true,
        decide_eq_true_iff, hpawn, htaken]
      exact or_comm
    rw [applyMove_plain]
    by_cases hking : ours p.turn s = b.ourKing
    · rw [if_pos hking]
      exact hreset
    · rw [if_neg hking]
      cases promotion with
      | some k => exact (decide_eq_true (.inl ⟨_, promoted_pawn h.1, rfl⟩)).symm
      | none => exact hreset

end

end ChessAnalytics.Lc0.Board
