import ChessAnalytics.Chess.Play

/-! Positions of a standard game: no pawn stands on a back rank, and only a double step can be
answered en passant. Which positions of a game are the same, and how far apart. -/
namespace ChessAnalytics.Chess

/-- The rank on which the pawns of a colour take en passant. -/
def Color.passedRank : Color → Nat
  | .white => 5
  | .black => 2

structure GamePosition extends ValidPosition where
  pawns_inside : ∀ s c, board s = some ⟨c, .pawn⟩ → 1 ≤ rankIdx s ∧ rankIdx s ≤ 6
  passed_rank : ∀ t ∈ enPassant, rankIdx t = turn.passedRank

namespace Position
variable {p : Position}

/-- The square behind a double step lies on the rank on which the opponent takes en passant. -/
theorem passedSquare_rank {m : Move} (h : p.Legal m) {e : Square} (he : e ∈ p.passedSquare m) :
    rankIdx e = p.turn.other.passedRank := by
  cases m with
  | castle side => cases he
  | plain s t promotion =>
    rw [Option.mem_def, passedSquare] at he
    split at he
    · rename_i hdouble
      obtain ⟨hfile, hrank, hstep, -⟩ := double_step h hdouble.1 hdouble.2
      obtain rfl := Option.some_inj.mp he
      have hs : fileIdx s < 8 := by
        rw [fileIdx]
        omega
      rw [rankStep, hrank] at hstep
      have hmid : (rankIdx s + rankIdx t) / 2 = p.turn.other.passedRank := by
        rw [hrank]
        revert hstep
        cases p.turn <;> simp only [Color.pawnRank, Color.forward, Color.other, Color.passedRank] <;> omega
      rw [rankIdx_square hs (by rw [hmid]; cases p.turn <;> decide), hmid]
    · cases he

/-- A pawn that arrives on a square has not come to a back rank. -/
theorem pawn_arrives {s t : Square} {promotion : Option Promotion} (h : p.Plays s t promotion) {c : Color}
    (hinside : ∀ c, p.board s = some ⟨c, .pawn⟩ → 1 ≤ rankIdx s ∧ rankIdx s ≤ 6)
    (hplaced : p.placed s promotion = some ⟨c, .pawn⟩) : 1 ≤ rankIdx t ∧ rankIdx t ≤ 6 := by
  obtain ⟨q, hq, hpseudo⟩ := h
  cases promotion with
  | some k => cases k <;> simp [placed, Promotion.piece] at hplaced
  | none =>
    have hpawn : q = ⟨c, .pawn⟩ := Option.some_inj.mp (hq.symm.trans hplaced)
    subst hpawn
    have hcolor : c = p.turn := hpseudo.1
    have hahead := pawn_ahead hpseudo rfl
    obtain ⟨-, -, hmove⟩ := hpseudo
    rw [if_pos rfl] at hmove
    have hlast : rankIdx t ≠ p.turn.lastRank := fun hlast => hmove.2.mpr hlast rfl
    obtain ⟨hlow, hhigh⟩ := hinside c hq
    have ht : rankIdx t ≤ 7 := by
      rw [rankIdx]
      omega
    rw [rankStep] at hahead
    revert hahead hlast
    cases p.turn <;> simp only [Color.lastRank, Color.other, Color.backRank, Color.forward] <;> omega

end Position

namespace GamePosition

theorem passing_not_promoted {p : GamePosition} {s t : Square} {promotion : Option Promotion} (h : p.Plays s t promotion)
    (hp : p.TakesEnPassant s t) : promotion = none := by
  obtain ⟨q, hq, -, -, hmove⟩ := h.source
  obtain rfl := Option.some_inj.mp (hp.1.symm.trans hq)
  rw [if_pos rfl] at hmove
  by_contra hne
  have hlast := hmove.2.mp hne
  rw [p.passed_rank t hp.2.2.1] at hlast
  revert hlast
  cases p.turn <;> decide

theorem pawns_inside_plain (p : GamePosition) {s t : Square} {promotion : Option Promotion} (h : p.Plays s t promotion)
    {u : Square} {c : Color} (hu : p.after (.plain s t promotion) u = some ⟨c, .pawn⟩) : 1 ≤ rankIdx u ∧ rankIdx u ≤ 6 := by
  rw [Position.after_plain] at hu
  split at hu
  · rename_i htarget
    rw [htarget]
    exact Position.pawn_arrives h (fun c => p.pawns_inside s c) hu
  · split at hu
    · cases hu
    · split at hu
      · cases hu
      · exact p.pawns_inside u c hu

theorem pawns_inside_castle (p : GamePosition) {side : Side} {u : Square} {c : Color}
    (hu : p.after (.castle side) u = some ⟨c, .pawn⟩) : 1 ≤ rankIdx u ∧ rankIdx u ≤ 6 := by
  rw [Position.after_castle] at hu
  split at hu
  · cases hu
  · split at hu
    · cases hu
    · split at hu
      · cases hu
      · exact p.pawns_inside u c hu

theorem pawns_inside_after (p : GamePosition) {m : Move} (h : p.Legal m) {u : Square} {c : Color}
    (hu : p.after m u = some ⟨c, .pawn⟩) : 1 ≤ rankIdx u ∧ rankIdx u ≤ 6 := by
  cases m with
  | plain s t promotion => exact p.pawns_inside_plain h.1 hu
  | castle side => exact p.pawns_inside_castle hu

def push (p : GamePosition) (m : Move) (h : p.Legal m) : GamePosition where
  toValidPosition := p.toValidPosition.push m h
  pawns_inside _ _ := p.pawns_inside_after h
  passed_rank _ he := Position.passedSquare_rank h he

@[simp] theorem push_board (p : GamePosition) (m : Move) (h : p.Legal m) : (p.push m h).board = p.after m := rfl
@[simp] theorem push_turn (p : GamePosition) (m : Move) (h : p.Legal m) : (p.push m h).turn = p.turn.other := rfl
@[simp] theorem push_castling (p : GamePosition) (m : Move) (h : p.Legal m) : (p.push m h).castling = p.castlingAfter m := rfl
@[simp] theorem push_enPassant (p : GamePosition) (m : Move) (h : p.Legal m) :
    (p.push m h).enPassant = p.passedSquare m := rfl
@[simp] theorem push_halfmoveClock (p : GamePosition) (m : Move) (h : p.Legal m) :
    (p.push m h).halfmoveClock = if p.Zeroing m then 0 else p.halfmoveClock + 1 := rfl

def start : GamePosition where
  toValidPosition := startPosition
  pawns_inside s c := by
    revert s c
    have h : ∀ s : Square, (∃ q ∈ startBoard s, q.type = .pawn) → 1 ≤ rankIdx s ∧ rankIdx s ≤ 6 := by decide
    intro s c hs
    exact h s ⟨_, hs, rfl⟩
  passed_rank _ h := by cases h

end GamePosition

namespace Position

/-- Two positions are the same for a repetition: the same pieces, side to move and rights, and the
same pawns can be taken en passant. The counters do not matter. -/
structure Same (p q : Position) : Prop where
  board : p.board = q.board
  turn : p.turn = q.turn
  castling : p.castling = q.castling
  enPassant : ∀ s t, p.TakesEnPassant s t ↔ q.TakesEnPassant s t

@[refl] theorem Same.refl (p : Position) : p.Same p := ⟨rfl, rfl, rfl, fun _ _ => Iff.rfl⟩

theorem Same.symm {p q : Position} (h : p.Same q) : q.Same p :=
  ⟨h.board.symm, h.turn.symm, h.castling.symm, fun s t => (h.enPassant s t).symm⟩

theorem Same.trans {p q r : Position} (h : p.Same q) (h' : q.Same r) : p.Same r :=
  ⟨h.board.trans h'.board, h.turn.trans h'.turn, h.castling.trans h'.castling,
    fun s t => (h.enPassant s t).trans (h'.enPassant s t)⟩

/-- A move leaves its source empty, and the side that makes it had a piece there. -/
theorem source_emptied {p : Position} {m : Move} (h : p.Legal m) :
    ∃ s q, p.board s = some q ∧ q.color = p.turn ∧ p.after m s = none := by
  cases m with
  | plain s t promotion =>
    obtain ⟨q, hq, hcolor, -⟩ := source_of_legal h
    refine ⟨s, q, hq, hcolor, ?_⟩
    rw [after_plain, if_neg (source_ne_target h), if_pos rfl]
  | castle side =>
    obtain ⟨-, hking, hrook, -⟩ := castle_distinct p.turn side
    refine ⟨kingHome p.turn, _, king_of_castle (castles_of_legal h), rfl, ?_⟩
    rw [after_castle, if_neg hking, if_neg hrook, if_pos (.inl rfl)]

/-- What comes to a square with a move belongs to the side that makes it. -/
theorem after_color {p : Position} {m : Move} (h : p.Legal m) {u : Square} {q : Piece} (hq : p.after m u = some q) :
    q.color = p.turn ∨ p.board u = some q := by
  cases m with
  | plain s t promotion =>
    rw [after_plain] at hq
    split at hq
    · left
      obtain ⟨r, hr, hcolor, -⟩ := source_of_legal h
      cases promotion with
      | none =>
        obtain rfl := Option.some_inj.mp (hr.symm.trans hq)
        exact hcolor
      | some k =>
        obtain rfl := Option.some_inj.mp hq
        rfl
    · split at hq
      · cases hq
      · split at hq
        · cases hq
        · exact .inr hq
  | castle side =>
    rw [after_castle] at hq
    split at hq
    · exact .inl (by rw [← Option.some_inj.mp hq])
    · split at hq
      · exact .inl (by rw [← Option.some_inj.mp hq])
      · split at hq
        · cases hq
        · exact .inr hq

end Position

/-- A game: positions in which one legal move leads to the next. -/
structure Line where
  length : Nat
  position : Nat → GamePosition
  move : Nat → Move
  legal : ∀ i < length, (position i).Legal (move i)
  push : ∀ i (hi : i < length), position (i + 1) = (position i).push (move i) (legal i hi)

namespace Line
variable (g : Line) {i j : Nat}

theorem turn_even_iff (hij : i ≤ j) (hj : j ≤ g.length) :
    (g.position j).turn = if (j - i) % 2 = 0 then (g.position i).turn else (g.position i).turn.other := by
  induction j, hij using Nat.le_induction with
  | base => simp
  | succ j hij ih =>
    rw [g.push j hj, GamePosition.push_turn, ih (by omega)]
    by_cases heven : (j - i) % 2 = 0
    · rw [if_pos heven, if_neg (by omega)]
    · rw [if_neg heven, if_pos (by omega), Color.other_other]

theorem supply_antitone (hij : i ≤ j) (hj : j ≤ g.length) : (g.position j).board.supply ≤ (g.position i).board.supply := by
  induction j, hij using Nat.le_induction with
  | base => rfl
  | succ j hij ih =>
    rw [g.push j hj]
    exact (Position.supply_after_le (g.legal j hj)).trans (ih (by omega))

/-- The clock counts the moves since the last one that took a piece or moved a pawn. Such a move
lowers the supply for good. -/
theorem clock_or_supply (hij : i ≤ j) (hj : j ≤ g.length) :
    (g.position j).halfmoveClock = (g.position i).halfmoveClock + (j - i) ∨
      (g.position j).halfmoveClock < j - i ∧ (g.position j).board.supply < (g.position i).board.supply := by
  induction j, hij using Nat.le_induction with
  | base => simp
  | succ j hij ih =>
    have hlegal := g.legal j hj
    have hle := g.supply_antitone hij (by omega)
    rw [g.push j hj, GamePosition.push_board, GamePosition.push_halfmoveClock]
    by_cases hz : (g.position j).Zeroing (g.move j)
    · have hlt := Position.supply_after_lt hlegal hz
      rw [if_pos hz]
      exact .inr ⟨by omega, by omega⟩
    · have hafter := Position.supply_after_le hlegal
      rw [if_neg hz]
      rcases ih (by omega) with hclock | ⟨hclock, hlt⟩
      · exact .inl (by omega)
      · exact .inr ⟨by omega, by omega⟩

/-- Two moves on, the piece that has moved first is not back yet. -/
theorem two_moves_on (hi : i + 2 ≤ g.length) : (g.position (i + 2)).board ≠ (g.position i).board := by
  intro hboard
  obtain ⟨s, q, hq, hcolor, hempty⟩ := Position.source_emptied (g.legal i (by omega))
  have hback : (g.position (i + 1)).after (g.move (i + 1)) s = some q := by
    rw [← hq, ← hboard, g.push (i + 1) (by omega)]
    rfl
  rcases Position.after_color (g.legal (i + 1) (by omega)) hback with hturn | hstill
  · rw [g.push i (by omega), GamePosition.push_turn, hcolor] at hturn
    exact Color.other_ne _ hturn.symm
  · rw [g.push i (by omega), GamePosition.push_board, hempty] at hstill
    cases hstill

/-- A position comes again after an even number of at least four moves, none of which has set the
clock back. -/
theorem same_apart (hij : i < j) (hj : j ≤ g.length) (h : (g.position i).Same (g.position j).toPosition) :
    (j - i) % 2 = 0 ∧ 4 ≤ j - i ∧ (g.position j).halfmoveClock = (g.position i).halfmoveClock + (j - i) := by
  have heven : (j - i) % 2 = 0 := by
    by_contra hodd
    have hturn := g.turn_even_iff hij.le hj
    rw [if_neg hodd, ← h.turn] at hturn
    exact Color.other_ne _ hturn.symm
  have htwo : j - i ≠ 2 := by
    intro htwo
    obtain rfl : j = i + 2 := by omega
    exact g.two_moves_on hj h.board.symm
  refine ⟨heven, by omega, ?_⟩
  rcases g.clock_or_supply hij.le hj with hclock | ⟨-, hlt⟩
  · exact hclock
  · rw [h.board] at hlt
    omega

theorem clock_between (hij : i ≤ j) {k : Nat} (hjk : j ≤ k) (hk : k ≤ g.length)
    (h : (g.position i).Same (g.position k).toPosition) : (g.position j).halfmoveClock = (g.position i).halfmoveClock + (j - i) := by
  rcases g.clock_or_supply hij (by omega) with hclock | ⟨-, hlt⟩
  · exact hclock
  · have hle := g.supply_antitone hjk hk
    rw [← h.board] at hle
    omega

open Classical in
/-- How many times the position after some moves has come before in the game. -/
noncomputable def earlier (k : Nat) : Nat :=
  ((Finset.range k).filter (fun i => (g.position i).Same (g.position k).toPosition)).card

/-- The length of a cycle is the distance to the latest occurrence before, or nothing. -/
def IsCycle (k c : Nat) : Prop :=
  c = 0 ∧ (∀ i < k, ¬ (g.position i).Same (g.position k).toPosition) ∨
    0 < c ∧ c ≤ k ∧ (g.position (k - c)).Same (g.position k).toPosition ∧
      ∀ i < k, k - c < i → ¬ (g.position i).Same (g.position k).toPosition

theorem earlier_of_none {k : Nat} (h : ∀ i < k, ¬ (g.position i).Same (g.position k).toPosition) : g.earlier k = 0 := by
  classical
  rw [earlier, Finset.card_eq_zero, Finset.filter_eq_empty_iff]
  intro i hi
  exact h i (Finset.mem_range.mp hi)

theorem earlier_pos {k : Nat} : 0 < g.earlier k ↔ ∃ i < k, (g.position i).Same (g.position k).toPosition := by
  rw [earlier, Finset.card_pos]
  simp [Finset.Nonempty]

theorem earlier_of_latest {k : Nat} (hik : i < k) (hsame : (g.position i).Same (g.position k).toPosition)
    (hlatest : ∀ j < k, i < j → ¬ (g.position j).Same (g.position k).toPosition) : g.earlier k = 1 + g.earlier i := by
  classical
  have hinsert : (Finset.range k).filter (fun j => (g.position j).Same (g.position k).toPosition) =
      insert i ((Finset.range i).filter (fun j => (g.position j).Same (g.position i).toPosition)) := by
    ext j
    simp only [Finset.mem_filter, Finset.mem_range, Finset.mem_insert]
    constructor
    · rintro ⟨hj, hj'⟩
      rcases Nat.lt_trichotomy j i with hlt | rfl | hgt
      · exact .inr ⟨hlt, hj'.trans hsame.symm⟩
      · exact .inl rfl
      · exact absurd hj' (hlatest j hj hgt)
    · rintro (rfl | ⟨hj, hj'⟩)
      · exact ⟨hik, hsame⟩
      · exact ⟨by omega, hj'.trans hsame⟩
  rw [earlier, earlier]
  simp only [hinsert]
  rw [Finset.card_insert_of_notMem (by simp), Nat.add_comm]

end Line

end ChessAnalytics.Chess
