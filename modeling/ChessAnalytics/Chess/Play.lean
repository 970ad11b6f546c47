import ChessAnalytics.Chess.Supply

/-! Positions of a game, and what a legal move makes of them. -/
namespace ChessAnalytics.Chess

theorem square_ext {s t : Square} (hfile : fileIdx s = fileIdx t) (hrank : rankIdx s = rankIdx t) : s = t := by
  rw [fileIdx, fileIdx] at hfile
  rw [rankIdx, rankIdx] at hrank
  refine Fin.ext ?_
  omega

theorem fileIdx_square {f : Nat} (r : Nat) (hf : f < 8) : fileIdx (square f r) = f := by
  rw [fileIdx, square, fromIdx, Fin.val_ofNat]
  omega

theorem rankIdx_square {f r : Nat} (hf : f < 8) (hr : r < 8) : rankIdx (square f r) = r := by
  rw [rankIdx, square, fromIdx, Fin.val_ofNat]
  omega

/-- A position that a game can come to: the side that has moved is not in check, and a square that
can be taken en passant lies behind the pawn that has gone past it. -/
structure ValidPosition extends Position where
  not_in_check : ¬ board.InCheck turn.other
  passed_pawn : ∀ t ∈ enPassant, ∀ u, fileIdx u = fileIdx t → rankStep u t = turn.forward →
    board u = some ⟨turn.other, .pawn⟩

namespace ValidPosition
variable {p : ValidPosition} {s t : Square} {promotion : Option Promotion}

/-- No move takes a king. -/
theorem target_not_king (h : p.Plays s t promotion) (c : Color) : p.board t ≠ some ⟨c, .king⟩ := by
  intro hking
  obtain ⟨q, hq, hcolor, htarget, hmove⟩ := h
  have hc : c = p.turn.other := htarget _ hking
  have hattack : p.board.Attacks q s t := by
    by_cases hpawn : q.type = .pawn
    · have hpiece : q = ⟨p.turn, .pawn⟩ := by rw [← hcolor, ← hpawn]
      rw [if_pos hpawn] at hmove
      rcases hmove.1 with ⟨-, hempty, -⟩ | ⟨hattack, -⟩ | ⟨-, -, -, hempty⟩
      · rw [hempty] at hking
        cases hking
      · rw [hpiece]
        exact hattack
      · rw [hempty] at hking
        cases hking
    · rw [if_neg hpawn] at hmove
      exact hmove.1
  refine p.not_in_check ⟨t, by rw [hking, hc], s, q, hq, ?_, hattack⟩
  rw [Color.other_other, hcolor]

theorem passed_not_king {u : Square} (h : p.TakesEnPassant s t) (hfile : fileIdx u = fileIdx t)
    (hrank : rankIdx u = rankIdx s) (c : Color) : p.board u ≠ some ⟨c, .king⟩ := by
  obtain ⟨-, hattack, hpassant, -⟩ := h
  have hstep : rankStep u t = p.turn.forward := by
    rw [rankStep, hrank]
    exact hattack.2
  rw [p.passed_pawn t hpassant u hfile hstep]
  simp

/-- A king that does not move stays where it is, and no other comes up. -/
theorem after_plain_king (h : p.Plays s t promotion) {c : Color} (hs : p.board s ≠ some ⟨c, .king⟩) (u : Square) :
    p.after (.plain s t promotion) u = some ⟨c, .king⟩ ↔ p.board u = some ⟨c, .king⟩ := by
  have hplaced : p.placed s promotion ≠ some ⟨c, .king⟩ := by
    cases promotion with
    | none => exact hs
    | some k => cases k <;> simp [Position.placed, Promotion.piece]
  rw [Position.after_plain]
  by_cases hut : u = t
  · rw [if_pos hut, hut]
    exact iff_of_false hplaced (target_not_king h c)
  · rw [if_neg hut]
    by_cases hus : u = s
    · rw [if_pos hus, hus]
      exact iff_of_false (by simp) hs
    · rw [if_neg hus]
      split
      · rename_i hpassed
        exact iff_of_false (by simp) (passed_not_king hpassed.1 hpassed.2.1 hpassed.2.2 c)
      · rfl

theorem after_plain_moved (h : p.Plays s t promotion) (hs : p.board s = some ⟨p.turn, .king⟩) (u : Square) :
    p.after (.plain s t promotion) u = some ⟨p.turn, .king⟩ ↔ u = t := by
  obtain ⟨q, hq, hcolor, htarget, hmove⟩ := h
  obtain rfl := Option.some_inj.mp (hs.symm.trans hq)
  rw [if_neg (by simp)] at hmove
  obtain ⟨-, rfl⟩ := hmove
  rw [Position.after_plain]
  by_cases hut : u = t
  · rw [if_pos hut]
    exact iff_of_true hs hut
  · rw [if_neg hut]
    refine iff_of_false (fun hking => ?_) hut
    by_cases hus : u = s
    · rw [if_pos hus] at hking
      cases hking
    · rw [if_neg hus] at hking
      split at hking
      · cases hking
      · exact hus ((p.one_king p.turn).unique hking hs)

theorem after_castle_king {side : Side} (h : p.Castles side) (u : Square) :
    p.after (.castle side) u = some ⟨p.turn, .king⟩ ↔ u = kingCastled p.turn side := by
  rw [Position.after_castle]
  split
  · rename_i hu
    exact iff_of_true rfl hu
  · rename_i hu
    refine iff_of_false (fun hking => ?_) hu
    split at hking
    · cases hking
    · split at hking
      · cases hking
      · rename_i hhome
        exact hhome (.inl ((p.one_king p.turn).unique hking (Position.king_of_castle h)))

theorem after_castle_other {side : Side} (h : p.Castles side) (u : Square) :
    p.after (.castle side) u = some ⟨p.turn.other, .king⟩ ↔ p.board u = some ⟨p.turn.other, .king⟩ := by
  obtain ⟨hkingHome, hrookHome, hkingCastled, hrookCastled⟩ := Position.castle_squares h
  have hcolor : p.turn ≠ p.turn.other := (Color.other_ne p.turn).symm
  rw [Position.after_castle]
  split
  · rename_i hu
    rw [hu, hkingCastled]
    simp [hcolor]
  · split
    · rename_i hu
      rw [hu, hrookCastled]
      simp
    · split
      · rename_i hu
        rcases hu with hu | hu
        · rw [hu, hkingHome]
          simp [hcolor]
        · rw [hu, hrookHome]
          simp
      · rfl

theorem one_king_plain (h : p.Plays s t promotion) (c : Color) : ∃! u, p.after (.plain s t promotion) u = some ⟨c, .king⟩ := by
  by_cases hs : p.board s = some ⟨c, .king⟩
  · obtain ⟨q, hq, hcolor, -⟩ := h.source
    obtain rfl := Option.some_inj.mp (hs.symm.trans hq)
    obtain rfl : c = p.turn := hcolor
    simp only [after_plain_moved h hs, existsUnique_eq]
  · simp only [after_plain_king h hs]
    exact p.one_king c

theorem one_king_castle {side : Side} (h : p.Castles side) (c : Color) : ∃! u, p.after (.castle side) u = some ⟨c, .king⟩ := by
  by_cases hc : c = p.turn
  · subst hc
    simp only [after_castle_king h, existsUnique_eq]
  · obtain rfl : c = p.turn.other := by
      revert hc
      cases c <;> cases p.turn <;> decide
    simp only [after_castle_other h]
    exact p.one_king _

theorem one_king_after {m : Move} (h : p.Legal m) (c : Color) : ∃! u, p.after m u = some ⟨c, .king⟩ := by
  cases m with
  | plain s t promotion => exact one_king_plain h.1 c
  | castle side => exact one_king_castle (Position.castles_of_legal h) c

private theorem castled_line : ∀ (c : Color) (side : Side) (s : Square),
    Straight s (kingCastled c side) ∨ Diagonal s (kingCastled c side) →
      (kingHome c ∈ between s (kingCastled c side) → rookCastled c side ∈ between s (kingCastled c side)) ∧
        rookHome c side ∉ between s (kingCastled c side) := by
  intro c side
  cases c <;> cases side <;> decide +kernel

private theorem clear_before {side : Side} (hline : Straight s (kingCastled p.turn side) ∨ Diagonal s (kingCastled p.turn side))
    (h : Board.Clear (p.after (.castle side)) s (kingCastled p.turn side)) : p.board.Clear s (kingCastled p.turn side) := by
  obtain ⟨hking, hrook⟩ := castled_line p.turn side s hline
  have hcastled : rookCastled p.turn side ∉ between s (kingCastled p.turn side) := by
    intro hmem
    have hempty := h _ hmem
    rw [Position.after_castle] at hempty
    split at hempty
    · cases hempty
    · rw [if_pos rfl] at hempty
      cases hempty
  intro u hu
  have hempty := h u hu
  rw [Position.after_castle] at hempty
  split at hempty
  · cases hempty
  · split at hempty
    · cases hempty
    · split at hempty
      · rename_i hhome
        rcases hhome with rfl | rfl
        · exact absurd (hking hu) hcastled
        · exact absurd hu hrook
      · exact hempty

/-- Castling does not bring the king into check: who attacks it behind the move has attacked the
square before. -/
theorem castle_safe {side : Side} (h : p.Legal (.castle side)) : ¬ Board.InCheck (p.after (.castle side)) p.turn := by
  rintro ⟨k, hk, s, q, hq, hcolor, hattack⟩
  obtain rfl := (after_castle_king (Position.castles_of_legal h) k).mp hk
  have hsource : p.board s = some q := by
    rw [Option.mem_def, Position.after_castle] at hq
    have hne : q.color ≠ p.turn := by
      rw [hcolor]
      exact Color.other_ne p.turn
    split at hq
    · exact absurd (congrArg Piece.color (Option.some_inj.mp hq)).symm hne
    · split at hq
      · exact absurd (congrArg Piece.color (Option.some_inj.mp hq)).symm hne
      · split at hq
        · cases hq
        · exact hq
  refine h.2.2 (kingCastled p.turn side) (by simp) ⟨s, q, hsource, hcolor, ?_⟩
  unfold Board.Attacks at hattack ⊢
  cases htype : q.type with
  | pawn => simpa only [htype] using hattack
  | knight => simpa only [htype] using hattack
  | king => simpa only [htype] using hattack
  | bishop =>
    simp only [htype] at hattack ⊢
    exact ⟨hattack.1, clear_before (.inr hattack.1) hattack.2⟩
  | rook =>
    simp only [htype] at hattack ⊢
    exact ⟨hattack.1, clear_before (.inl hattack.1) hattack.2⟩
  | queen =>
    simp only [htype] at hattack ⊢
    exact ⟨hattack.1, clear_before hattack.1 hattack.2⟩

theorem safe_after {m : Move} (h : p.Legal m) : ¬ Board.InCheck (p.after m) p.turn := by
  cases m with
  | plain s t promotion => exact h.2
  | castle side => exact castle_safe h

end ValidPosition

namespace Position
variable (p : Position)

/-- The square that a pawn leaves behind when it goes two ranks ahead. -/
def passedSquare : Move → Option Square
  | .plain s t _ =>
    if p.board s = some ⟨p.turn, .pawn⟩ ∧ (rankStep s t).natAbs = 2 then
      some (square (fileIdx s) ((rankIdx s + rankIdx t) / 2))
    else none
  | .castle _ => none

/-- The rights behind a move: a right is lost when its king or its rook is no more at home. -/
def castlingAfter (m : Move) (c : Color) (side : Side) : Bool :=
  p.castling c side && decide (p.after m (kingHome c) = some ⟨c, .king⟩) &&
    decide (p.after m (rookHome c side) = some ⟨c, .rook⟩)

variable {p}

theorem castling_home_after {m : Move} {c : Color} {side : Side} (h : p.castlingAfter m c side = true) :
    p.after m (kingHome c) = some ⟨c, .king⟩ ∧ p.after m (rookHome c side) = some ⟨c, .rook⟩ := by
  rw [castlingAfter, Bool.and_eq_true, Bool.and_eq_true] at h
  exact ⟨of_decide_eq_true h.1.2, of_decide_eq_true h.2⟩

/-- A pawn that goes two ranks ahead starts from its own rank, keeps its file and is not promoted. -/
theorem double_step {s t : Square} {promotion : Option Promotion} (h : p.Legal (.plain s t promotion))
    (hpawn : p.board s = some ⟨p.turn, .pawn⟩) (htwo : (rankStep s t).natAbs = 2) :
    fileIdx t = fileIdx s ∧ rankIdx s = p.turn.pawnRank ∧ rankStep s t = 2 * p.turn.forward ∧ promotion = none := by
  obtain ⟨q, hq, -, -, hmove⟩ := source_of_legal h
  obtain rfl := Option.some_inj.mp (hpawn.symm.trans hq)
  rw [if_pos rfl] at hmove
  obtain ⟨hmove, hlast⟩ := hmove
  have hone : rankStep s t ≠ p.turn.forward := by
    intro hstep
    rw [hstep] at htwo
    revert htwo
    cases p.turn <;> decide
  rcases hmove with ⟨hfile, -, hstep | ⟨hrank, hstep, -⟩⟩ | ⟨hattack, -⟩ | ⟨-, hattack, -⟩
  · exact absurd hstep hone
  · refine ⟨?_, hrank, hstep, ?_⟩
    · rw [fileStep] at hfile
      omega
    · by_contra hpromotion
      have hrank' := hlast.mp hpromotion
      rw [rankStep, hrank, hrank'] at hstep
      revert hstep
      cases p.turn <;> decide
  · exact absurd hattack.2 hone
  · exact absurd hattack.2 hone

/-- The pawn that has gone two ranks ahead stands in front of the square that it has passed. -/
theorem passed_pawn_after {m : Move} (h : p.Legal m) {e u : Square} (he : e ∈ p.passedSquare m)
    (hfile : fileIdx u = fileIdx e) (hstep : rankStep u e = p.turn.other.forward) :
    p.after m u = some ⟨p.turn, .pawn⟩ := by
  cases m with
  | castle side => cases he
  | plain s t promotion =>
    rw [Option.mem_def, passedSquare] at he
    split at he
    · rename_i hdouble
      obtain ⟨hpawn, htwo⟩ := hdouble
      obtain ⟨hfiles, hrank, hranks, rfl⟩ := double_step h hpawn htwo
      obtain rfl := Option.some_inj.mp he
      have hs : fileIdx s < 8 := by
        rw [fileIdx]
        omega
      have ht : rankIdx t ≤ 7 := by
        rw [rankIdx]
        omega
      rw [rankStep, hrank] at hranks
      have hmid : (rankIdx s + rankIdx t) / 2 < 8 := by
        rw [hrank]
        cases p.turn <;> simp only [Color.pawnRank] <;> omega
      rw [fileIdx_square _ hs] at hfile
      rw [rankStep, rankIdx_square hs hmid, hrank] at hstep
      have hu : u = t := by
        refine square_ext (hfile.trans hfiles.symm) ?_
        revert hranks hstep
        cases p.turn <;> simp only [Color.pawnRank, Color.forward, Color.other] <;> omega
      rw [after_plain, if_pos hu]
      exact hpawn
    · cases he

end Position

namespace ValidPosition

/-- `Board.push` for a legal move. -/
def push (p : ValidPosition) (m : Move) (h : p.Legal m) : ValidPosition where
  board := p.after m
  turn := p.turn.other
  castling := p.castlingAfter m
  enPassant := p.passedSquare m
  halfmoveClock := if p.Zeroing m then 0 else p.halfmoveClock + 1
  fullmoveNumber := p.fullmoveNumber + if p.turn = .black then 1 else 0
  one_king := one_king_after h
  castling_home _ _ := Position.castling_home_after
  not_in_check := by
    rw [Color.other_other]
    exact safe_after h
  passed_pawn t ht u hfile hstep := by
    rw [Color.other_other]
    exact Position.passed_pawn_after h ht hfile hstep

end ValidPosition

def homePieces : List PieceType := [.rook, .knight, .bishop, .queen, .king, .bishop, .knight, .rook]

def startBoard : Board := fun s =>
  match rankIdx s with
  | 0 => homePieces[fileIdx s]?.map (Piece.mk .white)
  | 1 => some ⟨.white, .pawn⟩
  | 6 => some ⟨.black, .pawn⟩
  | 7 => homePieces[fileIdx s]?.map (Piece.mk .black)
  | _ => none

def startPosition : ValidPosition where
  board := startBoard
  turn := .white
  castling _ _ := true
  enPassant := none
  halfmoveClock := 0
  fullmoveNumber := 1
  one_king c := ⟨kingHome c, by cases c <;> decide, by cases c <;> decide +kernel⟩
  castling_home c side _ := by cases c <;> cases side <;> decide +kernel
  not_in_check := by decide +kernel
  passed_pawn _ h := by cases h

/-- Thirty-two pieces, and six ranks for each of the sixteen pawns. -/
theorem supply_start : startPosition.board.supply = 128 := by decide +kernel

end ChessAnalytics.Chess
