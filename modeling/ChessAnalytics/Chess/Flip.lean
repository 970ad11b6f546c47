import ChessAnalytics.Chess.Games
import ChessAnalytics.Chess.Rays

/-! The rules are the same for both sides: with the board turned round and the colours exchanged,
the legal moves are the mirrored ones. -/
namespace ChessAnalytics.Chess

def Piece.flip (q : Piece) : Piece := ⟨q.color.other, q.type⟩

@[simp] theorem Piece.flip_flip (q : Piece) : q.flip.flip = q := by simp [flip]
@[simp] theorem Piece.flip_color (q : Piece) : q.flip.color = q.color.other := rfl
@[simp] theorem Piece.flip_type (q : Piece) : q.flip.type = q.type := rfl

theorem Color.other_inj {c c' : Color} : c.other = c'.other ↔ c = c' := by
  cases c <;> cases c' <;> decide

theorem Color.other_eq_iff {c c' : Color} : c.other = c' ↔ c = c'.other := by
  cases c <;> cases c' <;> decide

@[simp] theorem Color.forward_other (c : Color) : c.other.forward = -c.forward := by cases c <;> rfl

def Board.flip (b : Board) : Board := fun s => (b (mirror s)).map Piece.flip

@[simp] theorem Board.flip_mirror (b : Board) (s : Square) : b.flip (mirror s) = (b s).map Piece.flip := by
  rw [flip, mirror_mirror]

theorem Board.flip_none {b : Board} {s : Square} : b.flip (mirror s) = none ↔ b s = none := by
  rw [flip_mirror, Option.map_eq_none_iff]

theorem Board.flip_some {b : Board} {s : Square} {q : Piece} : b.flip (mirror s) = some q.flip ↔ b s = some q := by
  have hinj : Function.Injective Piece.flip := Function.LeftInverse.injective Piece.flip_flip
  rw [flip_mirror, ← Option.map_some, (Option.map_injective hinj).eq_iff]

@[simp] theorem Board.flip_flip (b : Board) : b.flip.flip = b := by
  funext s
  rw [flip, flip_mirror, Option.map_map]
  have hid : Piece.flip ∘ Piece.flip = id := funext Piece.flip_flip
  rw [hid, Option.map_id_fun, id]

section
variable {b : Board} {s t : Square}

theorem clear_flip (h : Straight s t ∨ Diagonal s t) : b.flip.Clear (mirror s) (mirror t) ↔ b.Clear s t := by
  constructor
  · intro hclear u hu
    exact Board.flip_none.mp (hclear (mirror u) ((mem_between_mirror h).mpr hu))
  · intro hclear u hu
    rw [← mirror_mirror u] at hu ⊢
    exact Board.flip_none.mpr (hclear (mirror u) ((mem_between_mirror h).mp hu))

theorem attacks_flip (q : Piece) : b.flip.Attacks q.flip (mirror s) (mirror t) ↔ b.Attacks q s t := by
  obtain ⟨c, type⟩ := q
  cases type with
  | pawn =>
    simp only [Board.Attacks, Piece.flip, fileStep_mirror, rankStep_mirror, Color.forward_other, neg_inj]
  | knight => simp only [Board.Attacks, Piece.flip, fileStep_mirror, rankStep_mirror, Int.natAbs_neg]
  | bishop =>
    simp only [Board.Attacks, Piece.flip, diagonal_mirror]
    exact and_congr_right fun h => clear_flip (.inr h)
  | rook =>
    simp only [Board.Attacks, Piece.flip, straight_mirror]
    exact and_congr_right fun h => clear_flip (.inl h)
  | queen =>
    simp only [Board.Attacks, Piece.flip, straight_mirror, diagonal_mirror]
    exact and_congr_right clear_flip
  | king => simp only [Board.Attacks, Piece.flip, Adjacent, fileStep_mirror, rankStep_mirror, Int.natAbs_neg]

theorem attacked_flip (c : Color) : b.flip.Attacked c.other (mirror t) ↔ b.Attacked c t := by
  constructor
  · rintro ⟨s, q, hq, hcolor, hattack⟩
    refine ⟨mirror s, q.flip, ?_, ?_, ?_⟩
    · rw [Option.mem_def, ← Board.flip_some, mirror_mirror, Piece.flip_flip]
      exact hq
    · rw [Piece.flip_color, hcolor, Color.other_other]
    · rw [← attacks_flip, mirror_mirror, Piece.flip_flip]
      exact hattack
  · rintro ⟨s, q, hq, hcolor, hattack⟩
    exact ⟨mirror s, q.flip, Board.flip_some.mpr hq, by rw [Piece.flip_color, hcolor], (attacks_flip q).mpr hattack⟩

theorem inCheck_flip (c : Color) : b.flip.InCheck c.other ↔ b.InCheck c := by
  constructor
  · rintro ⟨s, hs, hattacked⟩
    refine ⟨mirror s, ?_, ?_⟩
    · rw [← Board.flip_some, mirror_mirror]
      exact hs
    · rw [← attacked_flip, mirror_mirror]
      exact hattacked
  · rintro ⟨s, hs, hattacked⟩
    exact ⟨mirror s, Board.flip_some.mpr hs, (attacked_flip _).mpr hattacked⟩

end

theorem kingHome_other (c : Color) : kingHome c.other = mirror (kingHome c) := by cases c <;> decide
theorem rookHome_other (c : Color) (side : Side) : rookHome c.other side = mirror (rookHome c side) := by cases c <;> cases side <;> decide
theorem kingCastled_other (c : Color) (side : Side) : kingCastled c.other side = mirror (kingCastled c side) := by
  cases c <;> cases side <;> decide
theorem rookCastled_other (c : Color) (side : Side) : rookCastled c.other side = mirror (rookCastled c side) := by
  cases c <;> cases side <;> decide

namespace Position

def flip (p : Position) : Position where
  board := p.board.flip
  turn := p.turn.other
  castling c side := p.castling c.other side
  enPassant := p.enPassant.map mirror
  halfmoveClock := p.halfmoveClock
  fullmoveNumber := p.fullmoveNumber
  one_king c := by
    obtain ⟨s, hs, hunique⟩ := p.one_king c.other
    refine ⟨mirror s, ?_, fun t ht => ?_⟩
    · have hking := Board.flip_some.mpr hs
      rw [Piece.flip, Color.other_other] at hking
      exact hking
    · have hking : p.board (mirror t) = some ⟨c.other, .king⟩ := by
        rw [← Board.flip_some, mirror_mirror, Piece.flip, Color.other_other]
        exact ht
      rw [← hunique _ hking, mirror_mirror]
  castling_home c side h := by
    obtain ⟨hking, hrook⟩ := p.castling_home c.other side h
    have hking' := Board.flip_some.mpr hking
    have hrook' := Board.flip_some.mpr hrook
    rw [Piece.flip, Color.other_other, ← kingHome_other, Color.other_other] at hking'
    rw [Piece.flip, Color.other_other, ← rookHome_other, Color.other_other] at hrook'
    exact ⟨hking', hrook'⟩

@[simp] theorem flip_board (p : Position) : p.flip.board = p.board.flip := rfl
@[simp] theorem flip_turn (p : Position) : p.flip.turn = p.turn.other := rfl
@[simp] theorem flip_castling (p : Position) (c : Color) (side : Side) : p.flip.castling c side = p.castling c.other side := rfl
@[simp] theorem flip_enPassant (p : Position) : p.flip.enPassant = p.enPassant.map mirror := rfl

end Position

def Move.flip : Move → Move
  | .plain s t promotion => .plain (mirror s) (mirror t) promotion
  | .castle side => .castle side

@[simp] theorem Move.flip_flip (m : Move) : m.flip.flip = m := by
  cases m <;> simp [flip]

namespace Position
variable {p : Position} {s t : Square} {promotion : Option Promotion}

theorem takesEnPassant_flip : p.flip.TakesEnPassant (mirror s) (mirror t) ↔ p.TakesEnPassant s t := by
  have hpawn : p.board.flip (mirror s) = some ⟨p.turn.other, .pawn⟩ ↔ p.board s = some ⟨p.turn, .pawn⟩ :=
    Board.flip_some (q := ⟨p.turn, .pawn⟩)
  have hpassed : p.enPassant.map mirror = some (mirror t) ↔ p.enPassant = some t := by
    have hinj : Function.Injective mirror := fun _ _ => mirror_inj.mp
    rw [← Option.map_some, (Option.map_injective hinj).eq_iff]
  exact and_congr hpawn (and_congr (attacks_flip ⟨p.turn, .pawn⟩) (and_congr hpassed Board.flip_none))

theorem pawnTakes_flip : p.flip.PawnTakes (mirror s) (mirror t) ↔ p.PawnTakes s t := by
  refine and_congr (attacks_flip ⟨p.turn, .pawn⟩) ?_
  constructor
  · rintro ⟨q, hq, hcolor⟩
    refine ⟨q.flip, ?_, ?_⟩
    · rw [Option.mem_def, ← Board.flip_some, Piece.flip_flip]
      exact hq
    · rw [Piece.flip_color, hcolor, flip_turn, Color.other_other]
  · rintro ⟨q, hq, hcolor⟩
    exact ⟨q.flip, Board.flip_some.mpr hq, by rw [Piece.flip_color, hcolor, flip_turn]⟩

theorem pawnPush_flip : p.flip.PawnPush (mirror s) (mirror t) ↔ p.PawnPush s t := by
  have hrank : rankIdx (mirror s) = p.turn.other.pawnRank ↔ rankIdx s = p.turn.pawnRank := by
    have hs := rankIdx_lt s
    rw [rankIdx_mirror]
    cases p.turn <;> simp only [Color.other, Color.pawnRank] <;> omega
  have hforward : -rankStep s t = -p.turn.forward ↔ rankStep s t = p.turn.forward := neg_inj
  have hdouble : -rankStep s t = 2 * -p.turn.forward ↔ rankStep s t = 2 * p.turn.forward := by
    rw [mul_neg, neg_inj]
  rw [PawnPush, PawnPush]
  simp only [fileStep_mirror, rankStep_mirror, flip_turn, flip_board, Board.flip_none, Color.forward_other, hrank, hforward, hdouble]
  apply and_congr_right
  intro hfile
  by_cases hst : s = t
  · have hzero : rankStep s t = 0 := by rw [hst, rankStep, Int.sub_self]
    rw [hzero]
    cases p.turn <;> simp [Color.forward]
  · rw [clear_flip (.inl ⟨hst, .inl hfile⟩)]

theorem pseudolegal_flip (q : Piece) : p.flip.Pseudolegal (mirror s) (mirror t) promotion q.flip ↔ p.Pseudolegal s t promotion q := by
  have htarget : (∀ r ∈ p.board.flip (mirror t), r.color = p.turn.other.other) ↔ ∀ r ∈ p.board t, r.color = p.turn.other := by
    rw [Board.flip_mirror]
    cases p.board t with
    | none => simp
    | some r => simp [Color.other_eq_iff]
  have hlast : rankIdx (mirror t) = p.turn.other.lastRank ↔ rankIdx t = p.turn.lastRank := by
    have ht := rankIdx_lt t
    rw [rankIdx_mirror]
    cases p.turn <;> simp only [Color.other, Color.lastRank, Color.backRank] <;> omega
  rw [Pseudolegal, Pseudolegal, pawnPush_flip, pawnTakes_flip, takesEnPassant_flip]
  simp only [Piece.flip_color, Piece.flip_type, flip_turn, flip_board, Color.other_inj, htarget, hlast, attacks_flip]

theorem after_flip (m : Move) : p.flip.after m.flip = (p.after m).flip := by
  funext u
  rw [← mirror_mirror u]
  generalize mirror u = u
  cases m with
  | plain s t promotion =>
    have hpassed : (p.flip.TakesEnPassant (mirror s) (mirror t) ∧ fileIdx (mirror u) = fileIdx (mirror t) ∧ rankIdx (mirror u) = rankIdx (mirror s)) ↔
        p.TakesEnPassant s t ∧ fileIdx u = fileIdx t ∧ rankIdx u = rankIdx s := by
      have hs := rankIdx_lt s
      have hu := rankIdx_lt u
      rw [takesEnPassant_flip, fileIdx_mirror, fileIdx_mirror, rankIdx_mirror, rankIdx_mirror]
      refine and_congr_right fun _ => and_congr_right fun _ => ?_
      omega
    rw [Board.flip_mirror]
    simp only [Move.flip, after, mirror_inj, hpassed]
    split
    · cases promotion with
      | none => exact Board.flip_mirror _ _
      | some k => rfl
    · split
      · rfl
      · split
        · rfl
        · exact Board.flip_mirror _ _
  | castle side =>
    rw [Board.flip_mirror]
    simp only [Move.flip, after, flip_turn, kingCastled_other, rookCastled_other, kingHome_other, rookHome_other, mirror_inj]
    split
    · rfl
    · split
      · rfl
      · split
        · rfl
        · exact Board.flip_mirror _ _

theorem mayCastle_flip (side : Side) : p.flip.MayCastle side ↔ p.MayCastle side := by
  have hline : ∀ c side, Straight (kingHome c) (rookHome c side) := by
    intro c side
    cases c <;> cases side <;> decide
  rw [MayCastle, MayCastle]
  simp only [flip_castling, flip_turn, flip_board, kingHome_other, rookHome_other, kingCastled_other, rookCastled_other,
    Color.other_other, clear_flip (.inl (hline _ _)), List.forall_mem_cons, List.not_mem_nil, false_implies, implies_true, and_true]
  have hattacked (u : Square) : p.board.flip.Attacked p.turn (mirror u) ↔ p.board.Attacked p.turn.other u := by
    rw [← attacked_flip (b := p.board), Color.other_other]
  rw [hattacked, hattacked, hattacked]

/-- **Symmetry.** What is legal for one side is legal for the other on the board turned round. -/
theorem legal_flip (m : Move) : p.flip.Legal m.flip ↔ p.Legal m := by
  have hsafe : (p.flip.after m.flip).InCheck p.flip.turn ↔ (p.after m).InCheck p.turn := by
    rw [after_flip]
    exact inCheck_flip p.turn
  cases m with
  | plain s t promotion =>
    refine and_congr ?_ (not_congr hsafe)
    constructor
    · rintro ⟨q, hq, hpseudo⟩
      refine ⟨q.flip, ?_, ?_⟩
      · rw [Option.mem_def, ← Board.flip_some, Piece.flip_flip]
        exact hq
      · rw [← pseudolegal_flip, Piece.flip_flip]
        exact hpseudo
    · rintro ⟨q, hq, hpseudo⟩
      exact ⟨q.flip, Board.flip_some.mpr hq, (pseudolegal_flip q).mpr hpseudo⟩
  | castle side => exact mayCastle_flip side

end Position

def ValidPosition.flip (p : ValidPosition) : ValidPosition where
  toPosition := p.toPosition.flip
  not_in_check h := p.not_in_check ((inCheck_flip p.turn.other).mp h)
  passed_pawn t ht u hfile hrank := by
    obtain ⟨e, he, rfl⟩ := Option.map_eq_some_iff.mp ht
    rw [← mirror_mirror u] at hfile hrank ⊢
    rw [fileIdx_mirror (mirror u), fileIdx_mirror e] at hfile
    rw [rankStep_mirror, Position.flip_turn, Color.forward_other, neg_inj] at hrank
    exact Board.flip_some.mpr (p.passed_pawn e he (mirror u) hfile hrank)

def GamePosition.flip (p : GamePosition) : GamePosition where
  toValidPosition := p.toValidPosition.flip
  pawns_inside s c h := by
    have hs := rankIdx_lt s
    have hpawn : p.board (mirror s) = some ⟨c.other, .pawn⟩ := by
      rw [← Board.flip_some, mirror_mirror, Piece.flip, Color.other_other]
      exact h
    have hinside := p.pawns_inside _ _ hpawn
    rw [rankIdx_mirror] at hinside
    omega
  passed_rank t ht := by
    obtain ⟨e, he, rfl⟩ := Option.map_eq_some_iff.mp ht
    rw [rankIdx_mirror, p.passed_rank e he]
    change _ = p.turn.other.passedRank
    cases p.turn <;> rfl

end ChessAnalytics.Chess
