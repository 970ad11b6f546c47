import ChessAnalytics.Lc0.Represents

/-! lc0's history of a game and its repetition counts. -/
namespace ChessAnalytics.Lc0.Board
open Chess

attribute [ext] ChessBoard

private theorem piece_eq {c : Color} {x y : Option Piece} (hours : owned c x = owned c y)
    (htheirs : owned c.other x = owned c.other y) (hstraight : straight x = straight y) (hdiagonal : diagonal x = diagonal y)
    (hpawn : isPawn x = isPawn y) (hking : x = some ⟨c, .king⟩ ↔ y = some ⟨c, .king⟩)
    (hking' : x = some ⟨c.other, .king⟩ ↔ y = some ⟨c.other, .king⟩) : x = y := by
  have hcolor (d : Color) : d = c ∨ d = c.other := by cases d <;> cases c <;> decide
  rcases x with _ | ⟨cx, tx⟩ <;> rcases y with _ | ⟨cy, ty⟩
  · rfl
  · rcases hcolor cy with rfl | rfl <;> simp [owned] at hours htheirs
  · rcases hcolor cx with rfl | rfl <;> simp [owned] at hours htheirs
  · obtain rfl : cx = cy := by
      rcases hcolor cx with rfl | rfl <;> rcases hcolor cy with rfl | rfl <;> simp_all [owned]
    rcases hcolor cx with rfl | rfl <;> cases tx <;> cases ty <;> simp_all [straight, diagonal, isPawn]

section
variable {p q : GamePosition} {b b' : ChessBoard}

/-- Two positions that the bitboards do not tell apart have the same pieces. -/
theorem Shows.board_eq {board board' : Chess.Board} {c : Color} (h : Shows b board c) (h' : Shows b board' c)
    (hone : ∀ d, ∃! s, board s = some ⟨d, .king⟩) (hone' : ∀ d, ∃! s, board' s = some ⟨d, .king⟩) : board = board' := by
  have hking (d : Color) {k : Square} (hk : board (ours c k) = some ⟨d, .king⟩) (hk' : board' (ours c k) = some ⟨d, .king⟩)
      (s : Square) : board s = some ⟨d, .king⟩ ↔ board' s = some ⟨d, .king⟩ := by
    constructor
    · intro hs
      rw [(hone d).unique hs hk]
      exact hk'
    · intro hs
      rw [(hone' d).unique hs hk']
      exact hk
  funext s
  obtain ⟨u, rfl⟩ : ∃ u, s = ours c u := ⟨ours c s, (ours_ours c s).symm⟩
  apply piece_eq (c := c)
  · rw [← h.ourPieces, ← h'.ourPieces]
  · rw [← h.theirPieces, ← h'.theirPieces]
  · rw [← h.rooks, ← h'.rooks]
  · rw [← h.bishops, ← h'.bishops]
  · rw [← h.pawns, ← h'.pawns]
  · exact hking c h.ourKing h'.ourKing _
  · exact hking c.other h.theirKing h'.theirKing _

theorem castlingsOf_injective {rights rights' : Color → Side → Bool} {c : Color}
    (h : castlingsOf rights c = castlingsOf rights' c) : rights = rights' := by
  rw [castlingsOf, castlingsOf, Castlings.mk.injEq] at h
  obtain ⟨-, -, -, -, h00, h000, h00', h000'⟩ := h
  have hcolor (d : Color) : d = c ∨ d = c.other := by cases d <;> cases c <;> decide
  funext d side
  rcases hcolor d with rfl | rfl <;> cases side
  · exact h00
  · exact h000
  · exact h00'
  · exact h000'

/-- A square that can be taken en passant lies on the sixth rank of the side to move. -/
theorem passed_seen {s t : Square} (h : p.TakesEnPassant s t) : t = ours p.turn (square (fileIdx t) 5) := by
  have hrank := p.passed_rank t h.2.2.1
  apply square_ext
  · rw [fileIdx_ours, fileIdx_square _ (fileIdx_lt t)]
  · rw [rankIdx_ours, rankIdx_square (fileIdx_lt t) (by omega), hrank]
    cases p.turn <;> rfl

/-- One mark stands for all captures on its file. -/
private theorem takes_of_marks (hboard : p.board = q.board) (hturn : p.turn = q.turn)
    (hmarks : ∀ f < 8, (∃ v, p.TakesEnPassant v (ours p.turn (square f 5))) → ∃ v, q.TakesEnPassant v (ours p.turn (square f 5)))
    {s t : Square} (h : p.TakesEnPassant s t) : q.TakesEnPassant s t := by
  have hseen := passed_seen h
  obtain ⟨v, hv⟩ := hmarks (fileIdx t) (fileIdx_lt t) ⟨s, by rw [← hseen]; exact h⟩
  rw [← hseen] at hv
  obtain ⟨hpawn, hattack, -, hempty⟩ := h
  refine ⟨?_, ?_, hv.2.2.1, ?_⟩
  · rw [← hboard, ← hturn]
    exact hpawn
  · rw [← hboard, ← hturn]
    exact hattack
  · rw [← hboard]
    exact hempty

/-- lc0's boards are equal exactly when the positions are the same for a repetition. -/
theorem board_eq_iff_same (hp : Represents b p.toPosition) (hq : Represents b' q.toPosition) :
    b = b' ↔ p.Same q.toPosition := by
  constructor
  · rintro rfl
    have hturn : p.turn = q.turn := by
      have hflipped := hp.flipped.symm.trans hq.flipped
      revert hflipped
      cases p.turn <;> cases q.turn <;> simp
    have hshows := hq.placement
    have hcastlings := hq.castlings
    rw [← hturn] at hshows hcastlings
    have hboard := hp.placement.board_eq hshows p.one_king q.one_king
    have hmark (f : Nat) (hf : f < 8) : (∃ v, p.TakesEnPassant v (ours p.turn (square f 5))) ↔
        ∃ v, q.TakesEnPassant v (ours p.turn (square f 5)) := by
      have hpm := hp.marks (square f 7)
      have hqm := hq.marks (square f 7)
      rw [fileIdx_square _ hf, rankIdx_square hf (by omega)] at hpm hqm
      rw [← hturn] at hqm
      simp only [true_and] at hpm hqm
      exact hpm.symm.trans hqm
    refine ⟨hboard, hturn, castlingsOf_injective (hp.castlings.symm.trans hcastlings), fun s t => ?_⟩
    constructor
    · exact takes_of_marks hboard hturn (fun f hf => (hmark f hf).mp)
    · rw [hturn] at hmark
      exact takes_of_marks hboard.symm hturn.symm (fun f hf => (hmark f hf).mpr)
  · intro h
    have hshows := hq.placement
    have hmarks := hq.marks
    rw [← h.turn, ← h.board] at hshows
    simp only [← h.turn, ← h.enPassant] at hmarks
    have hinside (s : Square) : (b.pawns.inter ChessBoard.pawnMask).get s = (b'.pawns.inter ChessBoard.pawnMask).get s := by
      rw [hp.placement.pawns, hshows.pawns]
    have hmark (s : Square) : (b.pawns.diff ChessBoard.pawnMask).get s = (b'.pawns.diff ChessBoard.pawnMask).get s := by
      rw [Bool.eq_iff_iff]
      exact (hp.marks s).trans (hmarks s).symm
    have hking (d : Color) {k k' : Square} (hk : p.board (ours p.turn k) = some ⟨d, .king⟩)
        (hk' : p.board (ours p.turn k') = some ⟨d, .king⟩) : k = k' := by
      have hsquare := (p.one_king d).unique hk hk'
      rw [← ours_ours p.turn k, hsquare, ours_ours]
    apply ChessBoard.ext
    · exact BitBoard.ext_get (fun s => by rw [hp.placement.ourPieces, hshows.ourPieces])
    · exact BitBoard.ext_get (fun s => by rw [hp.placement.theirPieces, hshows.theirPieces])
    · exact BitBoard.ext_get (fun s => by rw [hp.placement.rooks, hshows.rooks])
    · exact BitBoard.ext_get (fun s => by rw [hp.placement.bishops, hshows.bishops])
    · apply BitBoard.ext_get
      intro s
      have hin := hinside s
      have hout := hmark s
      rw [BitBoard.get_inter, BitBoard.get_inter] at hin
      rw [BitBoard.get_diff, BitBoard.get_diff] at hout
      cases hmask : ChessBoard.pawnMask.get s with
      | true => simpa [hmask] using hin
      | false => simpa [hmask] using hout
    · exact hking p.turn hp.placement.ourKing hshows.ourKing
    · exact hking p.turn.other hp.placement.theirKing hshows.theirKing
    · rw [hp.castlings, hq.castlings, h.castling, h.turn]
    · rw [hp.flipped, hq.flipped, h.turn]

end

/-- A position of a history, with the number of times that it has come before and the number of plies
since it last did. -/
structure HistoryPosition extends Position where
  repetitions : Nat := 0
  cycleLength : Nat := 0

/-- `Position(parent, m)`. -/
def HistoryPosition.after (parent : HistoryPosition) (m : Move) : HistoryPosition where
  board := (parent.board.applyMove m).1.mirror
  rule50Ply := if (parent.board.applyMove m).2 then 0 else parent.rule50Ply + 1
  plyCount := parent.plyCount + 1

/-- The positions of a game, the latest at the end. -/
structure PositionHistory where
  positions : List HistoryPosition
  nonempty : positions ≠ []

namespace PositionHistory

def last (h : PositionHistory) : HistoryPosition := h.positions.getLast h.nonempty

def reset (board : ChessBoard) (rule50Ply gamePly : Int) : PositionHistory where
  positions := [{ board := board, rule50Ply := rule50Ply, plyCount := gamePly }]
  nonempty := by simp

/-- The loop of `ComputeLastMoveRepetitions` from an index down: the repetitions of the last position
and the length of its cycle. -/
def searchBack (positions : List HistoryPosition) (last : HistoryPosition) (idx : Nat) : Nat × Nat :=
  match positions[idx]? with
  | none => (0, 0)
  | some pos =>
    if pos.board = last.board then (1 + pos.repetitions, positions.length - 1 - idx)
    else if pos.rule50Ply < 2 then (0, 0)
    else
      match idx with
      | idx + 2 => searchBack positions last idx
      | _ => (0, 0)

def computeLastMoveRepetitions (h : PositionHistory) : Nat × Nat :=
  if h.last.rule50Ply < 4 then (0, 0)
  else if h.positions.length < 5 then (0, 0)
  else searchBack h.positions h.last (h.positions.length - 5)

def append (h : PositionHistory) (m : Move) : PositionHistory :=
  let next := h.last.after m
  let pushed : PositionHistory := ⟨h.positions ++ [next], by simp⟩
  let (repetitions, cycleLength) := pushed.computeLastMoveRepetitions
  ⟨h.positions ++ [{ next with repetitions := repetitions, cycleLength := cycleLength }], by simp⟩

/-- `DidRepeatSinceLastZeroingMove`, from the latest position back. -/
def didRepeatSince : List HistoryPosition → Bool
  | [] => false
  | pos :: rest => if 0 < pos.repetitions then true else if pos.rule50Ply = 0 then false else didRepeatSince rest

def didRepeatSinceLastZeroingMove (h : PositionHistory) : Bool := didRepeatSince h.positions.reverse

/-- The history that lc0 has of a game after some of its moves. -/
def ofLine (g : Line) (board : ChessBoard) (gamePly : Int) : Nat → PositionHistory
  | 0 => reset board (g.position 0).halfmoveClock gamePly
  | k + 1 => (ofLine g board gamePly k).append (encode (g.position k).toPosition (g.move k))

/-- An entry of the history stands for a position of the game. -/
structure Entry (g : Line) (k : Nat) (pos : HistoryPosition) : Prop where
  board : Represents pos.board (g.position k).toPosition
  rule50Ply : pos.rule50Ply = (g.position k).halfmoveClock

/-- Its repetition count is right. -/
structure Counted (g : Line) (k : Nat) (pos : HistoryPosition) : Prop extends Entry g k pos where
  repetitions : pos.repetitions = g.earlier k
  cycleLength : g.IsCycle k pos.cycleLength

variable {g : Line} {k : Nat}

/-- Stopping at a position whose counter has just started is right: no occurrence lies before it. -/
theorem none_before {idx : Nat} (hidx : idx < k) (hk : k ≤ g.length) (heven : (k - idx) % 2 = 0)
    (hclock : (g.position idx).halfmoveClock < 2) : ∀ i < idx, ¬ (g.position i).Same (g.position k).toPosition := by
  intro i hi hsame
  obtain ⟨heven', -⟩ := g.same_apart (hi.trans hidx) hk hsame
  have hrun := g.clock_between hi.le hidx.le hk hsame
  omega

/-- The loop finds the latest occurrence, if there is one at or before its index. -/
theorem searchBack_spec {positions : List HistoryPosition} {last : HistoryPosition} (hk : k ≤ g.length)
    (hlength : positions.length = k + 1) (hlast : Represents last.board (g.position k).toPosition)
    (hentries : ∀ i < k, ∃ pos, positions[i]? = some pos ∧ Counted g i pos) (idx : Nat) (hidx : idx < k)
    (heven : (k - idx) % 2 = 0) (hafter : ∀ i < k, idx < i → ¬ (g.position i).Same (g.position k).toPosition) :
    (searchBack positions last idx).1 = g.earlier k ∧ g.IsCycle k (searchBack positions last idx).2 := by
  fun_induction searchBack positions last idx with
  | case1 idx hnone =>
    obtain ⟨pos, hpos, -⟩ := hentries idx hidx
    rw [hnone] at hpos
    cases hpos
  | case2 idx pos hpos hboard =>
    obtain ⟨pos', hpos', hcounted⟩ := hentries idx hidx
    obtain rfl := Option.some_inj.mp (hpos.symm.trans hpos')
    have hsame := (board_eq_iff_same hcounted.board hlast).mp hboard
    refine ⟨?_, .inr ?_⟩
    · rw [g.earlier_of_latest hidx hsame hafter, hcounted.repetitions]
    · have hback : k - (k + 1 - 1 - idx) = idx := by omega
      rw [hlength, hback]
      exact ⟨by omega, by omega, hsame, fun i hi hlt => hafter i hi hlt⟩
  | case3 idx pos hpos hboard hclock =>
    obtain ⟨pos', hpos', hcounted⟩ := hentries idx hidx
    obtain rfl := Option.some_inj.mp (hpos.symm.trans hpos')
    rw [hcounted.rule50Ply] at hclock
    have hnone : ∀ i < k, ¬ (g.position i).Same (g.position k).toPosition := by
      intro i hi
      rcases Nat.lt_trichotomy i idx with hlt | rfl | hgt
      · exact none_before hidx hk heven (by omega) i hlt
      · exact fun hsame => hboard ((board_eq_iff_same hcounted.board hlast).mpr hsame)
      · exact hafter i hi hgt
    exact ⟨(g.earlier_of_none hnone).symm, .inl ⟨rfl, hnone⟩⟩
  | case4 pos hboard hclock idx hpos ih =>
    obtain ⟨pos', hpos', hcounted⟩ := hentries (idx + 2) hidx
    obtain rfl := Option.some_inj.mp (hpos.symm.trans hpos')
    have hidx' : idx + 2 < k := hidx
    have heven' : (k - (idx + 2)) % 2 = 0 := heven
    apply ih (by omega) (by omega)
    intro i hi hlt hsame
    obtain ⟨hdistance, -⟩ := g.same_apart hi hk hsame
    obtain rfl | hgt : i = idx + 2 ∨ idx + 2 < i := by omega
    · exact hboard ((board_eq_iff_same hcounted.board hlast).mpr hsame)
    · exact hafter i hi hgt hsame
  | case5 idx pos hpos hboard hclock hsmall =>
    obtain ⟨pos', hpos', hcounted⟩ := hentries idx hidx
    obtain rfl := Option.some_inj.mp (hpos.symm.trans hpos')
    have hlow : idx < 2 := by
      by_contra hge
      exact hsmall (idx - 2) (by omega)
    have hnone : ∀ i < k, ¬ (g.position i).Same (g.position k).toPosition := by
      intro i hi hsame
      obtain ⟨hdistance, -⟩ := g.same_apart hi hk hsame
      obtain rfl | hgt : i = idx ∨ idx < i := by omega
      · exact hboard ((board_eq_iff_same hcounted.board hlast).mpr hsame)
      · exact hafter i hi hgt hsame
    exact ⟨(g.earlier_of_none hnone).symm, .inl ⟨rfl, hnone⟩⟩

/-- The count for a position that has just come to the end of a history. -/
theorem computeLastMoveRepetitions_spec {h : PositionHistory} (hk : k ≤ g.length) (hlength : h.positions.length = k + 1)
    (hlast : Entry g k h.last) (hentries : ∀ i < k, ∃ pos, h.positions[i]? = some pos ∧ Counted g i pos) :
    h.computeLastMoveRepetitions.1 = g.earlier k ∧ g.IsCycle k h.computeLastMoveRepetitions.2 := by
  have hapart : ∀ i < k, (g.position i).Same (g.position k).toPosition → i + 4 ≤ k ∧ 4 ≤ (g.position k).halfmoveClock := by
    intro i hi hsame
    obtain ⟨-, hfour, hclock⟩ := g.same_apart hi hk hsame
    omega
  have hnone (hno : ∀ i < k, ¬ (g.position i).Same (g.position k).toPosition) : 0 = g.earlier k ∧ g.IsCycle k 0 :=
    ⟨(g.earlier_of_none hno).symm, .inl ⟨rfl, hno⟩⟩
  rw [computeLastMoveRepetitions, hlast.rule50Ply, hlength]
  by_cases hclock : ((g.position k).halfmoveClock : Int) < 4
  · rw [if_pos hclock]
    apply hnone
    intro i hi hsame
    have := (hapart i hi hsame).2
    omega
  · rw [if_neg hclock]
    by_cases hshort : k + 1 < 5
    · rw [if_pos hshort]
      apply hnone
      intro i hi hsame
      have := (hapart i hi hsame).1
      omega
    · rw [if_neg hshort]
      apply searchBack_spec hk hlength hlast.board hentries _ (by omega) (by omega)
      intro i hi hlt hsame
      have := (hapart i hi hsame).1
      omega

/-- A history knows the game up to a position. -/
structure Tracks (g : Line) (k : Nat) (h : PositionHistory) : Prop where
  length : h.positions.length = k + 1
  entries : ∀ i ≤ k, ∃ pos, h.positions[i]? = some pos ∧ Counted g i pos

theorem Tracks.last {h : PositionHistory} (ht : Tracks g k h) : Counted g k h.last := by
  obtain ⟨pos, hpos, hcounted⟩ := ht.entries k le_rfl
  have hlast : h.last = pos := by
    obtain ⟨hlt, hget⟩ := List.getElem?_eq_some_iff.mp hpos
    rw [PositionHistory.last, List.getLast_eq_getElem, ← hget]
    congr 1
    rw [ht.length]
    rfl
  rw [hlast]
  exact hcounted

theorem Tracks.append {h : PositionHistory} (ht : Tracks g k h) (hk : k < g.length) :
    Tracks g (k + 1) (h.append (encode (g.position k).toPosition (g.move k))) := by
  have hlegal := g.legal k hk
  have hlast := ht.last
  set next := h.last.after (encode (g.position k).toPosition (g.move k)) with hnext
  have hentry : Entry g (k + 1) next := by
    constructor
    · rw [g.push k hk]
      exact hlast.board.push hlegal
    · rw [g.push k hk, GamePosition.push_halfmoveClock, hnext, HistoryPosition.after]
      simp only [applyMove_zeroing hlast.board hlegal, decide_eq_true_eq, hlast.rule50Ply]
      split <;> simp
  have hold : ∀ i < k + 1, ∀ x : HistoryPosition, (h.positions ++ [x])[i]? = h.positions[i]? := by
    intro i hi x
    exact List.getElem?_append_left (by rw [ht.length]; exact hi)
  have hcount := computeLastMoveRepetitions_spec (h := ⟨h.positions ++ [next], by simp⟩) hk (by simp [ht.length])
    (by simpa [PositionHistory.last] using hentry)
    (fun i hi => by simpa [hold i hi] using ht.entries i (by omega))
  constructor
  · simp [PositionHistory.append, ht.length]
  · intro i hi
    rw [PositionHistory.append]
    rcases Nat.lt_or_eq_of_le hi with hlt | rfl
    · simp only [hold i hlt]
      exact ht.entries i (by omega)
    · rw [List.getElem?_append_right (by rw [ht.length]), ht.length]
      simp only [Nat.sub_self, List.getElem?_cons_zero]
      exact ⟨_, rfl, ⟨hentry.board, hentry.rule50Ply⟩, hcount.1, hcount.2⟩

theorem tracks_ofLine {board : ChessBoard} (hboard : Represents board (g.position 0).toPosition) (gamePly : Int) :
    ∀ k ≤ g.length, Tracks g k (ofLine g board gamePly k) := by
  intro k hk
  induction k with
  | zero =>
    refine ⟨rfl, fun i hi => ⟨{ board := board, rule50Ply := (g.position 0).halfmoveClock, plyCount := gamePly }, ?_, ?_⟩⟩
    · obtain rfl : i = 0 := by omega
      rfl
    · obtain rfl : i = 0 := by omega
      exact ⟨⟨hboard, rfl⟩, rfl, .inl ⟨rfl, fun i hi => by omega⟩⟩
  | succ k ih => exact (ih (by omega)).append hk

theorem append_positions (h : PositionHistory) (m : Move) : (h.append m).positions = h.positions ++ [(h.append m).last] := by
  simp [append, PositionHistory.last]

theorem plyCount_ofLine (g : Line) (board : ChessBoard) (gamePly : Int) (k : Nat) :
    (ofLine g board gamePly k).last.plyCount = gamePly + k := by
  induction k with
  | zero => simp [ofLine, reset, PositionHistory.last]
  | succ k ih =>
    have hnext : (ofLine g board gamePly (k + 1)).last.plyCount = (ofLine g board gamePly k).last.plyCount + 1 := by
      simp [ofLine, append, PositionHistory.last, HistoryPosition.after]
    rw [hnext, ih]
    push_cast
    ring

/-- Some position has come twice, and no capture or pawn move has been made since it first came. -/
def RepeatedSince (g : Line) (k : Nat) : Prop :=
  ∃ i j, i < j ∧ j ≤ k ∧ (g.position i).Same (g.position j).toPosition ∧ ∀ l ≤ k, i < l → (g.position l).halfmoveClock ≠ 0

theorem repeatedSince_succ (hk : k < g.length) :
    RepeatedSince g (k + 1) ↔ 0 < g.earlier (k + 1) ∨ (g.position (k + 1)).halfmoveClock ≠ 0 ∧ RepeatedSince g k := by
  constructor
  · rintro ⟨i, j, hij, hj, hsame, hclock⟩
    rcases Nat.lt_or_eq_of_le hj with hlt | rfl
    · exact .inr ⟨hclock _ le_rfl (by omega), i, j, hij, by omega, hsame, fun l hl => hclock l (by omega)⟩
    · exact .inl (g.earlier_pos.mpr ⟨i, hij, hsame⟩)
  · rintro (hpos | ⟨hzero, i, j, hij, hj, hsame, hclock⟩)
    · obtain ⟨i, hi, hsame⟩ := g.earlier_pos.mp hpos
      refine ⟨i, k + 1, hi, le_rfl, hsame, fun l hl hlt => ?_⟩
      rw [g.clock_between hlt.le hl hk hsame]
      omega
    · refine ⟨i, j, hij, by omega, hsame, fun l hl hlt => ?_⟩
      rcases Nat.lt_or_eq_of_le hl with hl | rfl
      · exact hclock l (by omega) hlt
      · exact hzero

theorem didRepeat_iff {board : ChessBoard} (hboard : Represents board (g.position 0).toPosition) (gamePly : Int) (hk : k ≤ g.length) :
    (ofLine g board gamePly k).didRepeatSinceLastZeroingMove = true ↔ RepeatedSince g k := by
  induction k with
  | zero =>
    have hnone : ¬ RepeatedSince g 0 := by
      rintro ⟨i, j, hij, hj, -⟩
      omega
    refine iff_of_false ?_ hnone
    simp [ofLine, reset, didRepeatSinceLastZeroingMove, didRepeatSince]
  | succ k ih =>
    have hlast := (tracks_ofLine hboard gamePly (k + 1) hk).last
    rw [repeatedSince_succ hk, ← ih (by omega), didRepeatSinceLastZeroingMove, ofLine, append_positions, List.reverse_append]
    change didRepeatSince ((ofLine g board gamePly (k + 1)).last :: _) = true ↔ _
    rw [didRepeatSince, hlast.repetitions, hlast.rule50Ply]
    by_cases hpos : 0 < g.earlier (k + 1)
    · simp [hpos]
    · by_cases hzero : (g.position (k + 1)).halfmoveClock = 0
      · simp [hpos, hzero]
      · simp [hpos, hzero, didRepeatSinceLastZeroingMove]

end PositionHistory

def standardBoard : ChessBoard where
  ourPieces := ⟨0x000000000000FFFF#64⟩
  theirPieces := ⟨0xFFFF000000000000#64⟩
  rooks := ⟨0x8900000000000089#64⟩
  bishops := ⟨0x2C0000000000002C#64⟩
  pawns := ⟨0x00FF00000000FF00#64⟩
  ourKing := square 4 0
  theirKing := square 4 7
  castlings := { weCan00 := true, weCan000 := true, theyCan00 := true, theyCan000 := true }

example : Position.fromFen startposFen = .ok { board := standardBoard } := by decide +kernel

theorem represents_start : Represents standardBoard GamePosition.start.toPosition where
  placement := by constructor <;> decide +kernel
  flipped := by decide
  castlings := by decide
  marks := by decide +kernel

def knightMove : Nat → Chess.Move
  | 0 => .plain (square 6 0) (square 5 2) none
  | 1 => .plain (square 6 7) (square 5 5) none
  | 2 => .plain (square 5 2) (square 6 0) none
  | _ => .plain (square 5 5) (square 6 7) none

private theorem knight_out : GamePosition.start.Legal (knightMove 0) := by decide +kernel

private def oneOut : GamePosition := GamePosition.start.push (knightMove 0) knight_out

private theorem knights_out : oneOut.Legal (knightMove 1) := by decide +kernel

private def bothOut : GamePosition := oneOut.push (knightMove 1) knights_out

private theorem knight_home : bothOut.Legal (knightMove 2) := by decide +kernel

private def oneHome : GamePosition := bothOut.push (knightMove 2) knight_home

private theorem knights_home : oneHome.Legal (knightMove 3) := by decide +kernel

def knightLine : Line where
  length := 4
  position
    | 0 => GamePosition.start
    | 1 => oneOut
    | 2 => bothOut
    | 3 => oneHome
    | _ => oneHome.push (knightMove 3) knights_home
  move := knightMove
  legal
    | 0, _ => knight_out
    | 1, _ => knights_out
    | 2, _ => knight_home
    | 3, _ => knights_home
  push
    | 0, _ => rfl
    | 1, _ => rfl
    | 2, _ => rfl
    | 3, _ => rfl

/-- **The board follows the game.** Whatever legal moves are made from a position that the board
stands for, the last board of the history stands for the position reached, and so do its counters. -/
theorem history_follows (g : Line) (board : ChessBoard) (gamePly : Int)
    (hboard : Represents board (g.position 0).toPosition) (k : Nat) (hk : k ≤ g.length) :
    let last := (PositionHistory.ofLine g board gamePly k).last
    Represents last.board (g.position k).toPosition ∧ last.rule50Ply = (g.position k).halfmoveClock ∧
      last.plyCount = gamePly + k := by
  have hlast := (PositionHistory.tracks_ofLine hboard gamePly k hk).last
  exact ⟨hlast.board, hlast.rule50Ply, PositionHistory.plyCount_ofLine g board gamePly k⟩

theorem knights_followed :
    let last := (PositionHistory.ofLine knightLine standardBoard 0 3).last
    Represents last.board (knightLine.position 3).toPosition ∧ last.rule50Ply = (knightLine.position 3).halfmoveClock ∧
      last.plyCount = 0 + (3 : Nat) :=
  history_follows knightLine standardBoard 0 represents_start 3 (by decide)

/-- **Repetitions.** The count of every position is the number of times that it has come before in the
game, although the search stops at captures and pawn moves and steps over every other position. -/
theorem repetitions_exact (g : Line) (board : ChessBoard) (gamePly : Int)
    (hboard : Represents board (g.position 0).toPosition) (k : Nat) (hk : k ≤ g.length) :
    let h := PositionHistory.ofLine g board gamePly k
    h.last.repetitions = g.earlier k ∧ g.IsCycle k h.last.cycleLength ∧
      (h.didRepeatSinceLastZeroingMove = true ↔ PositionHistory.RepeatedSince g k) := by
  have hlast := (PositionHistory.tracks_ofLine hboard gamePly k hk).last
  exact ⟨hlast.repetitions, hlast.cycleLength, PositionHistory.didRepeat_iff hboard gamePly hk⟩

/-- With the knights at home the starting position has come a second time. -/
theorem knights_repeated :
    let h := PositionHistory.ofLine knightLine standardBoard 0 4
    (h.last.repetitions = knightLine.earlier 4 ∧ knightLine.IsCycle 4 h.last.cycleLength ∧
      (h.didRepeatSinceLastZeroingMove = true ↔ PositionHistory.RepeatedSince knightLine 4)) ∧ h.last.repetitions = 1 :=
  ⟨repetitions_exact knightLine standardBoard 0 represents_start 4 (by decide), by decide +kernel⟩

end ChessAnalytics.Lc0.Board
