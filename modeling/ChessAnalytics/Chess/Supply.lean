import ChessAnalytics.Chess.Rules

/-! What a game can use up: the pieces that can be taken, and the steps that the pawns have left. -/
namespace ChessAnalytics.Chess

/-- The ranks that a pawn on the square still has in front of it. -/
def Color.ranksAhead (s : Square) : Color → Nat
  | white => 7 - rankIdx s
  | black => rankIdx s

/-- A piece counts one, and a pawn one more for each rank that it has in front of it. -/
def weight (s : Square) : Option Piece → Nat
  | none => 0
  | some q => if q.type = .pawn then q.color.ranksAhead s + 1 else 1

def Board.supply (b : Board) : Nat := ∑ s, weight s (b s)

theorem supply_update (b : Board) (s : Square) (x : Option Piece) :
    Board.supply (Function.update b s x) + weight s (b s) = b.supply + weight s x := by
  have hupdate : (fun u => weight u (Function.update b s x u)) =
      Function.update (fun u => weight u (b u)) s (weight s x) := by
    funext u
    exact Function.apply_update (fun u => weight u) b s x u
  have hsum := Finset.sum_update_of_mem (Finset.mem_univ s) (fun u => weight u (b u)) (weight s x)
  have hb : b.supply = weight s (b s) + ∑ u ∈ Finset.univ \ {s}, weight u (b u) := by
    rw [Board.supply, Finset.sum_eq_add_sum_sdiff_singleton_of_mem (Finset.mem_univ s)]
  rw [Board.supply, hupdate, hsum, hb]
  omega

theorem supply_le {b b' : Board} (h : ∀ u, b u = none ∨ b u = b' u) : b.supply ≤ b'.supply := by
  refine Finset.sum_le_sum fun u _ => ?_
  rcases h u with hu | hu
  · rw [hu]
    exact Nat.zero_le _
  · rw [hu]

/-- A piece that is no pawn and goes to an empty square changes nothing. -/
theorem supply_step {b : Board} {s t : Square} {q : Piece} (hst : s ≠ t) (hq : b s = some q) (hpawn : q.type ≠ .pawn)
    (hempty : b t = none) : Board.supply (Function.update (Function.update b s none) t (some q)) = b.supply := by
  have hsource := supply_update b s none
  have htarget := supply_update (Function.update b s none) t (some q)
  rw [Function.update_of_ne hst.symm, hempty] at htarget
  rw [hq] at hsource
  simp only [weight, if_neg hpawn] at hsource htarget
  omega

theorem weight_pos (s : Square) (q : Piece) : 0 < weight s (some q) := by
  rw [weight]
  split <;> omega

/-- A pawn that goes one rank or two ranks ahead has fewer ranks in front of it. -/
theorem ranksAhead_lt {c : Color} {s t : Square} (h : rankStep s t = c.forward ∨ rankStep s t = 2 * c.forward) :
    c.ranksAhead t < c.ranksAhead s := by
  have hs : rankIdx s ≤ 7 := by
    rw [rankIdx]
    omega
  have ht : rankIdx t ≤ 7 := by
    rw [rankIdx]
    omega
  rw [rankStep] at h
  cases c <;> simp only [Color.ranksAhead, Color.forward] at h ⊢ <;> omega

namespace Position
variable {p : Position} {s t : Square} {promotion : Option Promotion}

/-- The piece that a move puts on its target. -/
def placed (p : Position) (s : Square) (promotion : Option Promotion) : Option Piece :=
  match promotion with
  | some k => some ⟨p.turn, k.piece⟩
  | none => p.board s

theorem Plays.placed_owned {p : Position} {s t : Square} {promotion : Option Promotion} (h : p.Plays s t promotion) :
    ∃ q, p.placed s promotion = some q ∧ q.color = p.turn := by
  obtain ⟨q, hq, hcolor, -⟩ := h.source
  cases promotion with
  | none => exact ⟨q, hq, hcolor⟩
  | some k => exact ⟨_, rfl, rfl⟩

/-- A move that takes a piece or moves a pawn: python-chess sets the half-move clock back behind it. -/
def Zeroing (p : Position) : Move → Prop
  | .plain s t _ => (∃ q ∈ p.board s, q.type = .pawn) ∨ p.board t ≠ none
  | .castle _ => False

instance (p : Position) : (m : Move) → Decidable (p.Zeroing m)
  | .plain s t _ => inferInstanceAs (Decidable ((∃ q ∈ p.board s, q.type = .pawn) ∨ p.board t ≠ none))
  | .castle _ => .isFalse id

theorem pawn_ahead {q : Piece} (h : p.Pseudolegal s t promotion q) (hpawn : q.type = .pawn) :
    rankStep s t = p.turn.forward ∨ rankStep s t = 2 * p.turn.forward := by
  obtain ⟨-, -, hmove⟩ := h
  rw [if_pos hpawn] at hmove
  rcases hmove.1 with ⟨-, -, hstep | ⟨-, hstep, -⟩⟩ | ⟨hattack, -⟩ | ⟨-, hattack, -⟩
  · exact .inl hstep
  · exact .inr hstep
  · exact .inl hattack.2
  · exact .inl hattack.2

/-- The target has at most the weight of the piece that came, and less if it is a pawn. -/
theorem weight_placed {q : Piece} (hq : p.board s = some q) (h : p.Pseudolegal s t promotion q) :
    weight t (p.placed s promotion) ≤ weight s (some q) ∧
      (q.type = .pawn → weight t (p.placed s promotion) < weight s (some q)) := by
  by_cases hpawn : q.type = .pawn
  · have hcolor : q.color = p.turn := h.1
    have hahead := ranksAhead_lt (pawn_ahead h hpawn)
    have hlt : weight t (p.placed s promotion) < weight s (some q) := by
      cases promotion with
      | none => simpa [placed, hq, weight, hpawn, hcolor] using hahead
      | some k => cases k <;> simp [placed, weight, Promotion.piece, hpawn, hcolor] <;> omega
    exact ⟨hlt.le, fun _ => hlt⟩
  · have hnone : promotion = none := by
      have hmove := h.2.2
      rw [if_neg hpawn] at hmove
      exact hmove.2
    refine ⟨?_, fun h => absurd h hpawn⟩
    rw [hnone, placed, hq, weight, weight, if_neg hpawn, if_neg hpawn]

theorem after_plain (u : Square) : p.after (.plain s t promotion) u =
    if u = t then p.placed s promotion
    else if u = s then none
    else if p.TakesEnPassant s t ∧ fileIdx u = fileIdx t ∧ rankIdx u = rankIdx s then none
    else p.board u := by
  cases promotion <;> rfl

theorem after_castle (side : Side) (u : Square) : p.after (.castle side) u =
    if u = kingCastled p.turn side then some ⟨p.turn, .king⟩
    else if u = rookCastled p.turn side then some ⟨p.turn, .rook⟩
    else if u = kingHome p.turn ∨ u = rookHome p.turn side then none
    else p.board u := rfl

/-- Apart from a pawn taken en passant, a plain move changes its source and its target only. -/
theorem after_plain_update (u : Square) : p.after (.plain s t promotion) u = none ∨
    p.after (.plain s t promotion) u =
      Function.update (Function.update p.board s none) t (p.placed s promotion) u := by
  rw [after_plain, Function.update_apply, Function.update_apply]
  by_cases ht : u = t
  · exact .inr (by rw [if_pos ht, if_pos ht])
  · rw [if_neg ht, if_neg ht]
    by_cases hs : u = s
    · exact .inl (if_pos hs)
    · rw [if_neg hs, if_neg hs]
      split
      · exact .inl rfl
      · exact .inr rfl

theorem supply_plain (h : p.Legal (.plain s t promotion)) :
    (p.after (.plain s t promotion)).supply + weight s (p.board s) + weight t (p.board t) ≤
      p.board.supply + weight t (p.placed s promotion) := by
  have hle : (p.after (.plain s t promotion)).supply ≤
      Board.supply (Function.update (Function.update p.board s none) t (p.placed s promotion)) := supply_le after_plain_update
  have htarget := supply_update (Function.update p.board s none) t (p.placed s promotion)
  rw [Function.update_of_ne (source_ne_target h).symm] at htarget
  have hsource := supply_update p.board s none
  have hnone : weight s none = 0 := rfl
  omega

/-- The squares of a castling move are four, and two of them are empty. -/
theorem castle_squares {side : Side} (h : p.Castles side) :
    p.board (kingHome p.turn) = some ⟨p.turn, .king⟩ ∧ p.board (rookHome p.turn side) = some ⟨p.turn, .rook⟩ ∧
      p.board (kingCastled p.turn side) = none ∧ p.board (rookCastled p.turn side) = none := by
  obtain ⟨hright, hclear⟩ := h
  have hbetween : ∀ c side, kingCastled c side ∈ between (kingHome c) (rookHome c side) ∧
      rookCastled c side ∈ between (kingHome c) (rookHome c side) := by
    intro c side
    cases c <;> cases side <;> decide
  obtain ⟨hking, hrook⟩ := hbetween p.turn side
  obtain ⟨hkingHome, hrookHome⟩ := p.castling_home p.turn side hright
  exact ⟨hkingHome, hrookHome, hclear _ hking, hclear _ hrook⟩

theorem castle_distinct (c : Color) (side : Side) :
    kingHome c ≠ rookHome c side ∧ kingHome c ≠ kingCastled c side ∧ kingHome c ≠ rookCastled c side ∧
      rookHome c side ≠ kingCastled c side ∧ rookHome c side ≠ rookCastled c side ∧
      kingCastled c side ≠ rookCastled c side := by
  cases c <;> cases side <;> decide

theorem supply_castle {side : Side} (h : p.Legal (.castle side)) : (p.after (.castle side)).supply = p.board.supply := by
  obtain ⟨hkingHome, hrookHome, hkingCastled, hrookCastled⟩ := castle_squares (castles_of_legal h)
  obtain ⟨hkr, hkt, hkf, hrt, hrf, htf⟩ := castle_distinct p.turn side
  have hking := supply_step hkt hkingHome (by simp) hkingCastled
  set b := Function.update (Function.update p.board (kingHome p.turn) none) (kingCastled p.turn side) (some ⟨p.turn, .king⟩)
    with hb
  have hrook : b (rookHome p.turn side) = some ⟨p.turn, .rook⟩ := by
    rw [hb, Function.update_of_ne hrt, Function.update_of_ne hkr.symm, hrookHome]
  have hempty : b (rookCastled p.turn side) = none := by
    rw [hb, Function.update_of_ne htf.symm, Function.update_of_ne hkf.symm, hrookCastled]
  have hafter : p.after (.castle side) =
      Function.update (Function.update b (rookHome p.turn side) none) (rookCastled p.turn side) (some ⟨p.turn, .rook⟩) := by
    funext u
    rw [after_castle, Function.update_apply, Function.update_apply, hb, Function.update_apply, Function.update_apply]
    by_cases ht : u = kingCastled p.turn side
    · subst ht
      rw [if_pos rfl, if_neg htf, if_neg hrt.symm, if_pos rfl]
    · by_cases hr : u = rookHome p.turn side
      · simp [hr, hrt]
      · simp [ht, hr]
  rw [hafter, supply_step hrf hrook (by simp) hempty, hking]

/-- No legal move raises the supply. -/
theorem supply_after_le {m : Move} (h : p.Legal m) : (p.after m).supply ≤ p.board.supply := by
  cases m with
  | plain s t promotion =>
    obtain ⟨q, hq, hpseudo⟩ := source_of_legal h
    have hsupply := supply_plain h
    have hplaced := (weight_placed hq hpseudo).1
    rw [hq] at hsupply
    omega
  | castle side => exact (supply_castle h).le

/-- A legal move that takes a piece or moves a pawn lowers it. -/
theorem supply_after_lt {m : Move} (h : p.Legal m) (hz : p.Zeroing m) : (p.after m).supply < p.board.supply := by
  cases m with
  | plain s t promotion =>
    obtain ⟨q, hq, hpseudo⟩ := source_of_legal h
    have hsupply := supply_plain h
    obtain ⟨hplaced, hpawn⟩ := weight_placed hq hpseudo
    rw [hq] at hsupply
    rcases hz with ⟨q', hq', htype⟩ | htaken
    · obtain rfl := Option.some_inj.mp (hq.symm.trans hq')
      have hlt := hpawn htype
      omega
    · obtain ⟨r, hr⟩ := Option.ne_none_iff_exists'.mp htaken
      have hpos := weight_pos t r
      rw [hr] at hsupply
      omega
  | castle side => exact hz.elim

end Position

end ChessAnalytics.Chess
